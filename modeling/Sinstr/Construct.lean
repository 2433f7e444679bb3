import Sinstr.Represents
import Sinstr.Rust.Resource

/-!
# Building, cloning and dropping

The constructors end in a value that represents their argument, and `Drop`
gives the block back. The limits of `new_heap` are stated exactly in
`run_newHeap`.
-/

namespace Sinstr

open Rust

variable {t : Target}

/-- Every aligned address has a variant for its least significant byte. -/
def Target.Complete (t : Target) : Prop :=
  ∀ p : Addr t.toMachine, UInt8.ofNat p.val ∈ t.variants

theorem complete_of_ne_w16 {wd : PointerWidth} {e : Endian} (hw : wd ≠ .w16) :
    (wd.target e).Complete :=
  fun p => (wd.declared_iff e p.aligned).mpr fun h => hw h.1

/-- A length so close to `isize::MAX` that some size computed from it may not
be a valid layout. -/
def Oversize (t : Target) (n : Nat) : Prop := t.isizeMax < n + 3 * t.size

/-- The faults that an operation on the way to the content `s` may end in. -/
inductive MayFault (t : Target) (s : String) : Fault → Heap → Prop
  | allocError {h'} (size : Nat) (h : h'.Refused) : MayFault t s (.allocError size) h'
  | panic {h'} (message : String) (h : Oversize t s.utf8ByteSize) :
      MayFault t s (.panic message) h'
  | assertUnchecked {h'} (h : Oversize t s.utf8ByteSize) :
      MayFault t s (.unsound .assertUnchecked) h'
  | layout {h'} (h : Oversize t s.utf8ByteSize) : MayFault t s (.unsound .layout) h'
  | invalidValue {h'} (h : ¬t.Complete) : MayFault t s (.unsound .invalidValue) h'

theorem oversize_of_blockSize {n : Nat} (h : t.isizeMax < blockSize t n) : Oversize t n := by
  have := blockSize_lt t n
  have := t.align_le_size
  simp only [Oversize]
  omega

theorem layout_fits_of_le {n : Nat} (hn : t.align ∣ n) (h : n ≤ t.isizeMax) :
    Layout.Fits t.toMachine n t.align := by
  rwa [Layout.Fits, roundUp_of_dvd t.align_pos hn]

theorem layout_fits_blockSize_iff (n : Nat) :
    Layout.Fits t.toMachine (blockSize t n) t.align ↔ blockSize t n ≤ t.isizeMax := by
  rw [Layout.Fits, roundUp_of_dvd t.align_pos (align_dvd_blockSize t n)]

/-- A buffer after a length and then, behind it, some bytes were written. -/
def stored (t : Target) (buf : Buffer) (n off : Nat) (bs : List UInt8) : Buffer :=
  (Buffer.overwrite buf 0 (t.usizeBytes n)).overwrite off bs

section Stored

variable {buf : Buffer} {n off : Nat} {bs : List UInt8} {s : String} {h : Heap}
  {p : Addr t.toMachine} {b : Block}

theorem length_fits (hoff : t.size ≤ off) (hfit : off + bs.length ≤ buf.length) :
    0 + (t.usizeBytes n).length ≤ buf.length := by
  rw [Machine.length_usizeBytes]
  omega

theorem bytes_fit (hoff : t.size ≤ off) (hfit : off + bs.length ≤ buf.length) :
    off + bs.length ≤ (Buffer.overwrite buf 0 (t.usizeBytes n)).length := by
  rwa [Buffer.length_overwrite (length_fits hoff hfit)]

theorem length_stored (hoff : t.size ≤ off) (hfit : off + bs.length ≤ buf.length) :
    (stored t buf n off bs).length = buf.length := by
  rw [stored, Buffer.length_overwrite (bytes_fit hoff hfit),
    Buffer.length_overwrite (length_fits hoff hfit)]

theorem stored_holds_len (hoff : t.size ≤ off) (hfit : off + bs.length ≤ buf.length) :
    (stored t buf n off bs).Holds 0 (t.usizeBytes n) :=
  (Buffer.holds_overwrite (length_fits hoff hfit)).overwrite (bytes_fit hoff hfit)
    (by rw [Machine.length_usizeBytes]; omega)

theorem stored_holds_bytes (hoff : t.size ≤ off) (hfit : off + bs.length ≤ buf.length) :
    (stored t buf n off bs).Holds off bs :=
  Buffer.holds_overwrite (bytes_fit hoff hfit)

/-- The bytes between the length and the written ones stay. -/
theorem stored_holds_between {cs : List UInt8} (hcs : buf.Holds t.size cs)
    (hoff : t.size + cs.length ≤ off) (hfit : off + bs.length ≤ buf.length) :
    (stored t buf n off bs).Holds t.size cs := by
  have hsize : t.size ≤ off := by omega
  exact (hcs.overwrite (length_fits hsize hfit) (by simp)).overwrite (bytes_fit hsize hfit)
    (Or.inl hoff)

/-- Length first, bytes second. -/
theorem run_len_bytes (n off : Nat) (bs : List UInt8) (hp : h.live p.val = some b)
    (hoff : t.size ≤ off) (hfit : off + bs.length ≤ b.size) :
    ∃ h₁, (writeUsize t.toMachine p.val n).run h = .ok () h₁ ∧
      (writeBytes p.val off bs).run h₁ =
        .ok () (h.set p.val (some ⟨b.id, stored t b.bytes n off bs⟩)) := by
  have hsize : t.size ≤ b.size := by omega
  refine ⟨_, run_writeUsize hp hsize, ?_⟩
  rw [run_writeBytes (Heap.set_live_self _ _ _) (bytes_fit hoff hfit)]
  simp only [Heap.set_set, stored]

/-- Bytes first, length second: the order does not matter. -/
theorem run_bytes_len (n off : Nat) (bs : List UInt8) (hp : h.live p.val = some b)
    (hoff : t.size ≤ off) (hfit : off + bs.length ≤ b.size) :
    ∃ h₁, (writeBytes p.val off bs).run h = .ok () h₁ ∧
      (writeUsize t.toMachine p.val n).run h₁ =
        .ok () (h.set p.val (some ⟨b.id, stored t b.bytes n off bs⟩)) := by
  have hcomm : Buffer.overwrite (b.bytes.overwrite 0 (t.usizeBytes n)) off bs =
      Buffer.overwrite (b.bytes.overwrite off bs) 0 (t.usizeBytes n) :=
    Buffer.overwrite_comm (by simpa) hfit
  have hsize : t.size ≤ b.size := by omega
  refine ⟨_, run_writeBytes hp hfit, ?_⟩
  rw [run_writeUsize (Heap.set_live_self _ _ _)
    (by rwa [Block.size, Buffer.length_overwrite hfit])]
  simp only [Heap.set_set, stored, hcomm]

/-- A buffer after the length of a string and then its bytes were written. -/
def filled (t : Target) (buf : Buffer) (s : String) : Buffer :=
  stored t buf s.utf8ByteSize t.size (strBytes s)

theorem length_filled (hcap : t.size + s.utf8ByteSize ≤ buf.length) :
    (filled t buf s).length = buf.length :=
  length_stored le_rfl (by rwa [length_strBytes])

theorem BlockHolds.filled {id : Nat} (hN : t.nicheMaxInt < s.utf8ByteSize)
    (hcap : blockSize t s.utf8ByteSize ≤ buf.length) (hmax : buf.length ≤ t.isizeMax) :
    BlockHolds t ⟨id, filled t buf s⟩ s := by
  have hfit := (le_blockSize t s.utf8ByteSize).trans hcap
  have hfit' : t.size + (strBytes s).length ≤ buf.length := by rwa [length_strBytes]
  exact
    { len_gt := hN
      cap_le := by rwa [Block.size, length_filled hfit]
      size_le := by rwa [Block.size, length_filled hfit]
      len_bytes := stored_holds_len le_rfl hfit'
      str_bytes := stored_holds_bytes le_rfl hfit' }

end Stored

namespace NonEmptySinStr

variable {a : Allocator t.toMachine} {h : Heap} {x : NonEmptySinStr t} {s : String}

/-- An address that is no valid word. -/
theorem not_complete {p : Addr t.toMachine} (hp : ofUsize? t p.val = none) : ¬t.Complete := by
  intro hcomplete
  have hsome := ofUsize?_isSome_iff.mpr (hcomplete p)
  rw [hp] at hsome
  cases hsome

/-- An inline string represents its argument in any heap. -/
theorem run_newInline (hpos : 0 < s.utf8ByteSize) (hle : s.utf8ByteSize ≤ t.nicheMaxInt) :
    ∃ x : NonEmptySinStr t,
      (∀ {σ : Type} (u : σ), (newInline t s : Exec σ (NonEmptySinStr t)).run u = .ok x u) ∧
      ∀ h, Represents h x s := by
  obtain ⟨disc, hdisc, hval⟩ := DiscriminantValues.ofByte?_length hle
  have hsize := t.nicheMaxInt_lt_size
  have hfit : 0 + (strBytes s).length ≤ (List.replicate (t.size - 1) none : Buffer).length := by
    simp
    omega
  have hvalid : ¬IsValidLen t s.utf8ByteSize := fun hv => absurd hv.2 (Nat.not_lt.mpr hle)
  refine ⟨⟨disc, Buffer.overwrite (List.replicate (t.size - 1) none) 0 (strBytes s),
    by rw [Buffer.length_overwrite hfit]; exact List.length_replicate⟩, ?_, ?_⟩
  · intro σ u
    simp only [newInline, Exec.assertUnchecked, EStateM.run_bind, Exec.run_require,
      if_pos (And.intro hpos hle), if_pos hvalid, dif_pos hfit, hdisc, EStateM.run_pure]
  · intro h
    exact .inline hpos hle hval (Buffer.holds_overwrite hfit)

/-- What `new_heap` leaves in a fresh block. -/
def newBytes (t : Target) (s : String) : Buffer :=
  filled t (List.replicate (blockSize t s.utf8ByteSize) none) s

/-- `new_heap` on any legal string that its contract admits. -/
theorem run_newHeap (hN : t.nicheMaxInt < s.utf8ByteSize) (hlen : s.utf8ByteSize ≤ t.isizeMax) :
    (newHeap a s).run h =
      if s.utf8ByteSize = t.isizeMax then .error (.unsound .assertUnchecked) h
      else if t.isizeMax < t.size + s.utf8ByteSize then
        .error (.panic "NonEmptySinStr::new_heap should never exceed max size") h
      else if t.isizeMax < blockSize t s.utf8ByteSize then .error (.unsound .layout) h
      else
        match a.alloc h (blockSize t s.utf8ByteSize) with
        | none => .error (.allocError (blockSize t s.utf8ByteSize))
            (h.log (.allocFailed (blockSize t s.utf8ByteSize)))
        | some p =>
            let h' := (h.set p.val (some ⟨h.calls.length, newBytes t s⟩)).log
              (.alloc h.calls.length (blockSize t s.utf8ByteSize))
            match ofUsize? t p.val with
            | none => .error (.unsound .invalidValue) h'
            | some x => .ok x h' := by
  have hlt := size_add_lt_modulus t hlen
  have hadd : t.add t.size s.utf8ByteSize = t.size + s.utf8ByteSize := Machine.add_eq (by omega)
  have hnext := nextStep_size_add hlen
  have hvalid : IsValidLen t s.utf8ByteSize ↔ ¬s.utf8ByteSize = t.isizeMax := by
    simp only [IsValidLen]
    omega
  simp only [newHeap, Exec.assertUnchecked, EStateM.run_bind, Exec.run_require, if_pos hN, hvalid,
    Exec.run_panicUnless]
  by_cases hmax : s.utf8ByteSize = t.isizeMax
  · simp [hmax]
  simp only [hmax, not_false_eq_true, if_true, if_false]
  by_cases htotal : t.isizeMax < t.size + s.utf8ByteSize
  · simp [hadd, Nat.not_le.mpr htotal, htotal]
  simp only [hadd, Nat.not_lt.mp htotal, if_true, if_neg htotal]
  rw [← hadd, hnext]
  by_cases hblock : t.isizeMax < blockSize t s.utf8ByteSize
  · rw [run_fromSizeAlignUnchecked_not (by rw [layout_fits_blockSize_iff]; omega), if_pos hblock]
  rw [run_fromSizeAlignUnchecked ((layout_fits_blockSize_iff _).mpr (by omega)), if_neg hblock]
  simp only
  rw [run_alloc (blockSize_pos t _)]
  have hcap := le_blockSize t s.utf8ByteSize
  cases ha : a.alloc h (blockSize t s.utf8ByteSize) with
  | none => rfl
  | some p =>
      obtain ⟨h₁, hlen, hbytes⟩ := run_len_bytes (t := t) (p := p) s.utf8ByteSize
        t.size (strBytes s)
        (h := (h.set p.val (some ⟨h.calls.length,
          List.replicate (blockSize t s.utf8ByteSize) none⟩)).log
            (.alloc h.calls.length (blockSize t s.utf8ByteSize)))
        (by rw [Heap.log_live, Heap.set_live_self]) le_rfl
        (by rwa [Block.size, List.length_replicate, length_strBytes])
      simp only [EStateM.run_bind, hlen, hbytes, Heap.log_set, Heap.set_set]
      cases ofUsize? t p.val <;> rfl

theorem size_newBytes (s : String) : (newBytes t s).length = blockSize t s.utf8ByteSize := by
  rw [newBytes, length_filled (by rw [List.length_replicate]; exact le_blockSize t _),
    List.length_replicate]

theorem holds_newBytes {id : Nat} (hN : t.nicheMaxInt < s.utf8ByteSize)
    (hmax : blockSize t s.utf8ByteSize ≤ t.isizeMax) : BlockHolds t ⟨id, newBytes t s⟩ s :=
  BlockHolds.filled hN (by rw [List.length_replicate]) (by rwa [List.length_replicate])

/-- `Drop` releases the block, naming it by the recomputed size. -/
theorem run_drop (r : Represents h x s) :
    x.drop.run h = .ok () (match x.owned.bind fun p => (h.live p).map (p, ·) with
      | none => h
      | some (p, b) =>
          (h.set p none).log (.dealloc b.id (blockSize t s.utf8ByteSize) b.size)) := by
  have hmode := r.isHeap_iff
  cases r with
  | inline hpos hle hdisc hdata =>
      have hin := isInlined_of_disc hdisc hpos hle
      simp [drop, isHeap, hin, owned_of_isInlined]
  | heap p b hx hp hb =>
      have hheap := hmode.mpr hb.len_gt
      have hfit := (layout_fits_blockSize_iff (t := t) s.utf8ByteSize).mpr
        (hb.cap_le.trans hb.size_le)
      simp only [drop, hheap, if_true, dropHeap, EStateM.run_bind, run_getHeap hx,
        hb.run_capacity (r := HeapRepr.ofAddr p) hp, run_fromSizeAlignUnchecked hfit,
        owned_of_ofUsize? hx, Option.bind_some, hp, Option.map_some]
      exact run_dealloc hp

/-- The words of `NonEmptySinStr`, standing for non-empty strings. -/
def resource (t : Target) : Resource (NonEmptySinStr t) String where
  Rep := Represents
  owned := owned
  need := fun s => blockSize t s.utf8ByteSize
  Faults := MayFault t
  drop := drop
  rep_congr := fun r hlive => r.congr_heap hlive
  rep_live := fun r _ hp => r.owned_live hp
  run_drop := by
    intro h x s r
    refine ⟨_, run_drop r, ?_⟩
    cases r with
    | inline hpos hle hdisc hdata =>
        rw [owned_of_isInlined (isInlined_of_disc hdisc hpos hle)]
        exact ⟨(Quiet.refl h).transfer_none, fun _ hc => hc⟩
    | heap p b hx hp hb =>
        simp only [owned_of_ofUsize? hx, Option.bind_some, hp, Option.map_some]
        exact ⟨Transfer.dealloc hp, fun hs hc => Heap.ExactCalls.log hc (hs p.val b rfl hp).symm⟩

theorem built_newInline (hpos : 0 < s.utf8ByteSize) (hle : s.utf8ByteSize ≤ t.nicheMaxInt) :
    (resource t).Built h s ((newInline t s).run h) := by
  obtain ⟨x, hrun, hrep⟩ := run_newInline hpos hle
  rw [hrun]
  exact .of_owned_none (hrep h) (owned_of_isInlined (by simpa [hle] using (hrep h).isInlined_eq))

theorem built_newHeap (hN : t.nicheMaxInt < s.utf8ByteSize)
    (hlen : s.utf8ByteSize ≤ t.isizeMax) : (resource t).Built h s ((newHeap a s).run h) := by
  have hover : s.utf8ByteSize = t.isizeMax → Oversize t s.utf8ByteSize := by
    intro heq
    have := t.one_lt_size
    simp only [Oversize]
    omega
  rw [run_newHeap hN hlen]
  split_ifs with hmax htotal hblock
  · exact .unsound (MayFault.assertUnchecked (hover hmax))
  · exact .fault (.panic _ (by simp only [Oversize]; omega)) fun _ => ⟨Quiet.refl h, id⟩
  · exact .unsound (MayFault.layout (oversize_of_blockSize hblock))
  · cases ha : a.alloc h (blockSize t s.utf8ByteSize) with
    | none =>
        exact .fault (MayFault.allocError _ (Heap.refused_log trivial)) fun _ =>
          ⟨Quiet.log trivial, fun hc => hc.log trivial⟩
    | some p =>
        cases hx : ofUsize? t p.val with
        | none =>
            simp only [hx]
            exact .unsound (MayFault.invalidValue (not_complete hx))
        | some x =>
            have hown : (resource t).owned x = some p.val := owned_of_ofUsize? hx
            simp only [hx]
            have hlive : (((h.set p.val (some ⟨h.calls.length, newBytes t s⟩)).log
                (.alloc h.calls.length (blockSize t s.utf8ByteSize))).live p.val) =
                  some ⟨h.calls.length, newBytes t s⟩ := by
              rw [Heap.log_live, Heap.set_live_self]
            refine .done (.heap p _ hx hlive (holds_newBytes hN (Nat.not_lt.mp hblock))) ?_ ?_ ?_
            · rw [hown]
              exact Transfer.alloc (a.alloc_fresh ha)
            · have hsnug := snug_of_live hlive
              rw [Block.size, size_newBytes] at hsnug
              rw [hown]
              exact hsnug
            · exact fun hc => Heap.ExactCalls.log hc trivial

theorem built_clone (r : Represents h x s) : (resource t).Built h s ((x.clone a).run h) := by
  have hlen := r.len_le
  cases hmode : x.isInlined with
  | true =>
      simp only [clone, hmode, if_true, EStateM.run_pure]
      exact .of_owned_none r (owned_of_isInlined hmode)
  | false =>
      have hN : t.nicheMaxInt < s.utf8ByteSize := r.isHeap_iff.mp (by rw [isHeap, hmode]; rfl)
      simp only [clone, hmode, EStateM.run_bind, r.run_asStr, Bool.false_eq_true, if_false]
      exact built_newHeap hN hlen

end NonEmptySinStr

namespace SinStr

variable {a : Allocator t.toMachine} {h : Heap} {x : SinStr t} {s : String}

/-- `None` stands for the empty string. -/
def Represents (h : Heap) (x : SinStr t) (s : String) : Prop :=
  match x.inner with
  | none => s = ""
  | some n => n.Represents h s

def owned (x : SinStr t) : Option Nat := x.inner.bind NonEmptySinStr.owned

/-- The words of `SinStr`, standing for all strings. -/
def resource (t : Target) : Resource (SinStr t) String where
  Rep := Represents
  owned := owned
  need := (NonEmptySinStr.resource t).need
  Faults := MayFault t
  drop := drop
  rep_congr := by
    rintro h h' ⟨_ | n⟩ s r hlive
    · exact r
    · exact (NonEmptySinStr.resource t).rep_congr r hlive
  rep_live := by
    rintro h ⟨_ | n⟩ s r
    · rintro p hp
      cases hp
    · exact (NonEmptySinStr.resource t).rep_live r
  run_drop := by
    rintro h ⟨_ | n⟩ s r
    · exact ⟨h, rfl, (Quiet.refl h).transfer_none, fun _ hc => hc⟩
    · exact (NonEmptySinStr.resource t).run_drop r

/-- A built `NonEmptySinStr` is a built `SinStr`. -/
theorem built_some {m : Exec Heap (NonEmptySinStr t)}
    (hb : (NonEmptySinStr.resource t).Built h s (m.run h)) :
    (resource t).Built h s ((do return ⟨some (← m)⟩ : Exec Heap (SinStr t)).run h) := by
  simp only [EStateM.run_bind]
  generalize m.run h = r at hb
  cases hb with
  | done rep transfer snug exact => exact .done rep transfer snug exact
  | fault he unwind => exact .fault he unwind

theorem built_none : (resource t).Built h "" (.ok ⟨none⟩ h) :=
  .of_owned_none rfl rfl

theorem built_new (hlen : s.utf8ByteSize ≤ t.isizeMax) :
    (resource t).Built h s ((new a s).run h) := by
  by_cases h0 : s.utf8ByteSize = 0
  · rw [utf8ByteSize_eq_zero.mp h0]
    exact built_none
  · by_cases hle : s.utf8ByteSize ≤ t.nicheMaxInt
    · have hb := built_some (NonEmptySinStr.built_newInline (h := h) (Nat.pos_of_ne_zero h0) hle)
      simpa [new, NonEmptySinStr.new, h0, hle] using hb
    · have hb := built_some (NonEmptySinStr.built_newHeap (a := a) (h := h)
        (Nat.not_le.mp hle) hlen)
      simpa [new, NonEmptySinStr.new, h0, hle] using hb

theorem built_clone (r : Represents h x s) : (resource t).Built h s ((x.clone a).run h) := by
  obtain ⟨_ | n⟩ := x
  · obtain rfl : s = "" := r
    exact built_none
  · exact built_some (NonEmptySinStr.built_clone r)

end SinStr

end Sinstr
