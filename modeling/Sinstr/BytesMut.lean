import Sinstr.Refinement

/-!
# Bytes behind `as_bytes_mut`

`as_bytes_mut` lends out the bytes with the promise that they are UTF-8 when the
borrow is over. Without that promise a value still stores bytes: length, mode,
block and bytes are kept, and only `as_str` needs more.
-/

namespace Sinstr

open Rust

variable {t : Target}

/-- The slice of `NonEmptySinStr::as_bytes_mut`, filled by its borrower with `new`. -/
def NonEmptySinStr.asBytesMut (new : List UInt8) : Exec (NonEmptySinStr t × Heap) Unit := do
  if (← Exec.self).isInlined then
    getInlinedMut fun r => r.asBytesMut new
  else
    getHeapMut do
      let hp ← Exec.self
      Exec.onSnd (hp.asBytesMut t new)

/-- The slice of `SinStr::as_bytes_mut`, filled by its borrower with `new`. -/
def SinStr.asBytesMut (new : List UInt8) : Exec (SinStr t × Heap) Unit := do
  match (← Exec.self).inner with
  | some r => onInner r (NonEmptySinStr.asBytesMut new)
  | none =>
      Exec.panicUnless (new.length = 0)
        "copy_from_slice: source slice length does not match destination slice length"

/-- `str::from_utf8`, as far as its success goes. -/
def fromUtf8? (bs : List UInt8) : Option String := String.fromUTF8? ⟨bs.toArray⟩

theorem fromUtf8?_eq_some_iff {bs : List UInt8} {s : String} :
    fromUtf8? bs = some s ↔ strBytes s = bs := by
  unfold fromUtf8? String.fromUTF8?
  constructor
  · intro h
    split at h
    · rw [← Option.some.inj h]
      simp [strBytes, String.fromUTF8]
    · cases h
  · rintro rfl
    have hb : ByteArray.mk (strBytes s).toArray = s.toByteArray := by simp [strBytes]
    rw [dif_pos (by rw [hb]; exact s.isValidUTF8)]
    congr 1

/-- `from_utf8_unchecked` returns on the bytes of strings and on no others. -/
theorem run_fromUtf8Unchecked_cases {σ : Type} (bs : List UInt8) (u : σ) :
    (∃ s, strBytes s = bs ∧ (fromUtf8Unchecked bs : Exec σ String).run u = .ok s u) ∨
    ((∀ s, strBytes s ≠ bs) ∧
      (fromUtf8Unchecked bs : Exec σ String).run u = .error (.unsound .invalidUtf8) u) := by
  cases hs : fromUtf8? bs with
  | some s =>
      obtain rfl := fromUtf8?_eq_some_iff.mp hs
      exact Or.inl ⟨s, rfl, run_fromUtf8Unchecked s u⟩
  | none =>
      refine Or.inr ⟨fun s hbs => ?_, ?_⟩
      · rw [fromUtf8?_eq_some_iff.mpr hbs] at hs
        cases hs
      · unfold fromUtf8? String.fromUTF8? at hs
        split at hs
        · cases hs
        · rw [fromUtf8Unchecked, dif_neg (by assumption)]
          rfl

/-- At most the bytes of the owned block changed, and no allocator was called. -/
structure Rewritten (h h' : Heap) (o : Option Nat) : Prop where
  calls : h'.calls = h.calls
  size : ∀ {p b}, o = some p → h.live p = some b → ∃ b', h'.live p = some b' ∧ b'.size = b.size
  transfer : Transfer h h' o o

namespace Rewritten

variable {h h' h'' : Heap} {o : Option Nat} {p : Nat} {b : Block} {bytes : Buffer}

theorem refl (h : Heap) (ho : ∀ p, o = some p → (h.live p).isSome) : Rewritten h h o where
  calls := rfl
  size := fun _ hp => ⟨_, hp, rfl⟩
  transfer := (Quiet.refl h).transfer ho

theorem of_none (h : Heap) : Rewritten h h none := .refl h fun _ hp => by cases hp

theorem write (hp : h.live p = some b) (hsize : bytes.length = b.size) :
    Rewritten h (h.set p (some ⟨b.id, bytes⟩)) (some p) where
  calls := rfl
  size := by
    intro q c hq hc
    cases hq
    rw [hp, Option.some.injEq] at hc
    subst hc
    exact ⟨_, Heap.set_live_self _ _ _, hsize⟩
  transfer := Transfer.write hp

theorem trans (r : Rewritten h h' o) (r' : Rewritten h' h'' o) : Rewritten h h'' o where
  calls := r'.calls.trans r.calls
  size := by
    intro p b ho hp
    obtain ⟨b', hp', hsize⟩ := r.size ho hp
    obtain ⟨b'', hp'', hsize'⟩ := r'.size ho hp'
    exact ⟨b'', hp'', hsize'.trans hsize⟩
  transfer :=
    { frame := fun hq hq' => by rw [r'.transfer.frame hq hq', r.transfer.frame hq hq']
      fresh := fun hq hne => absurd hq hne
      gone := fun hq hne => absurd hq hne
      owned := r'.transfer.owned
      ledger := r'.transfer.ledger ∘ r.transfer.ledger }

end Rewritten

namespace BlockStores

variable {b : Block} {bs new : List UInt8}

/-- Writing as many bytes keeps the length and the size of the block. -/
theorem overwrite (hb : BlockStores t b bs) (hlen : new.length = bs.length) :
    BlockStores t ⟨b.id, b.bytes.overwrite t.size new⟩ new := by
  have hfit : t.size + new.length ≤ b.size := by
    rw [hlen]
    exact hb.fits
  exact
    { len_gt := by rw [hlen]; exact hb.len_gt
      cap_le := by rw [Block.size, Buffer.length_overwrite hfit, hlen]; exact hb.cap_le
      size_le := by rw [Block.size, Buffer.length_overwrite hfit]; exact hb.size_le
      len_bytes := by rw [hlen]; exact hb.len_bytes.overwrite hfit (by simp)
      bytes := Buffer.holds_overwrite hfit }

end BlockStores

namespace NonEmptySinStr

variable {h h' : Heap} {x : NonEmptySinStr t} {bs new : List UInt8} {s : String}

namespace Stores

/-- Filling the borrowed slice changes the bytes and nothing else. -/
theorem run_asBytesMut (r : Stores h x bs) (hlen : new.length = bs.length) :
    ∃ x' h', (asBytesMut new).run (x, h) = .ok () (x', h') ∧ Stores h' x' new ∧
      x'.owned = x.owned ∧ Rewritten h h' x.owned := by
  cases r with
  | inline hpos hle hdisc hdata =>
      have hin := isInlined_of_disc hdisc hpos hle
      have hne := disc_ne_zero hpos hdisc
      have hsize := t.nicheMaxInt_lt_size
      have hfit : 0 + new.length ≤ x.dataOrPartialPtr.length := by
        rw [x.length_data]
        omega
      have hfit' : new.length ≤ x.dataOrPartialPtr.length := by rwa [Nat.zero_add] at hfit
      have hold := run_inlined_asBytes (σ := NonEmptySinStr t × Heap)
        (r := ⟨x.disc.value, x.dataOrPartialPtr, hne, x.length_data⟩) (u := (x, h)) hle hdisc hdata
      have hrun : (asBytesMut new).run (x, h) = .ok () (⟨x.disc, x.dataOrPartialPtr.overwrite 0 new,
          by rw [Buffer.length_overwrite hfit, x.length_data]⟩, h) := by
        simp only [asBytesMut, EStateM.run_bind, Exec.run_self, hin, if_true, getInlinedMut,
          run_getInlined hin hne, InlinedRepr.asBytesMut, hold, Exec.run_panicUnless, if_pos hlen,
          dif_pos hfit', EStateM.run_pure, Exec.run_setSelf]
      refine ⟨_, h, hrun, .inline (by omega) (by omega) (by rw [hdisc, hlen])
        (Buffer.holds_overwrite hfit), ?_, ?_⟩
      · rw [owned_of_isInlined hin]
        exact owned_of_isInlined hin
      · rw [owned_of_isInlined hin]
        exact .of_none h
  | heap p b hx hp hb =>
      have hin := isInlined_of_ofUsize? hx p.aligned
      have hold := hb.run_asBytes (r := HeapRepr.ofAddr p) hp
      have hfit : t.size + new.length ≤ b.size := by
        rw [hlen]
        exact hb.fits
      have hwrite := run_writeBytes hp hfit
      have hrun : (asBytesMut new).run (x, h) = .ok () (x,
          h.set p.val (some ⟨b.id, b.bytes.overwrite t.size new⟩)) := by
        simp only [asBytesMut, EStateM.run_bind, Exec.run_self, hin, Bool.false_eq_true, if_false]
        refine run_getHeapMut_ok hx ?_
        simp only [EStateM.run_bind, Exec.run_self, Exec.run_onSnd, HeapRepr.asBytesMut, hold,
          Exec.run_panicUnless, if_pos hlen, HeapRepr.addr_ofAddr, hwrite]
      refine ⟨x, _, hrun, .heap p _ hx (Heap.set_live_self _ _ _) (hb.overwrite hlen), rfl, ?_⟩
      rw [owned_of_ofUsize? hx]
      exact .write hp (Buffer.length_overwrite hfit)

/-- A borrower that fills the slice with another number of bytes panics. -/
theorem run_asBytesMut_of_ne (r : Stores h x bs) (hlen : new.length ≠ bs.length) :
    (asBytesMut new).run (x, h) = .error (.panic
      "copy_from_slice: source slice length does not match destination slice length") (x, h) := by
  cases r with
  | inline hpos hle hdisc hdata =>
      have hin := isInlined_of_disc hdisc hpos hle
      have hne := disc_ne_zero hpos hdisc
      have hold := run_inlined_asBytes (σ := NonEmptySinStr t × Heap)
        (r := ⟨x.disc.value, x.dataOrPartialPtr, hne, x.length_data⟩) (u := (x, h)) hle hdisc hdata
      simp only [asBytesMut, EStateM.run_bind, Exec.run_self, hin, if_true, getInlinedMut,
        run_getInlined hin hne, InlinedRepr.asBytesMut, hold, Exec.run_panicUnless, if_neg hlen]
  | heap p b hx hp hb =>
      have hin := isInlined_of_ofUsize? hx p.aligned
      have hold := hb.run_asBytes (r := HeapRepr.ofAddr p) hp
      simp only [asBytesMut, EStateM.run_bind, Exec.run_self, hin, Bool.false_eq_true, if_false]
      refine run_getHeapMut_error hx ?_
      simp only [EStateM.run_bind, Exec.run_self, Exec.run_onSnd, HeapRepr.asBytesMut, hold,
        Exec.run_panicUnless, if_neg hlen]

/-- Dropping does not look at the bytes. -/
theorem run_drop (r : Stores h x bs) :
    ∃ h', x.drop.run h = .ok () h' ∧ Transfer h h' x.owned none := by
  cases r with
  | inline hpos hle hdisc hdata =>
      have hin := isInlined_of_disc hdisc hpos hle
      refine ⟨h, by simp [drop, isHeap, hin], ?_⟩
      rw [owned_of_isInlined hin]
      exact (Quiet.refl h).transfer_none
  | heap p b hx hp hb =>
      have hfit := (layout_fits_blockSize_iff (t := t) bs.length).mpr
        (hb.storesLen (r := HeapRepr.ofAddr p) hp).cap_le_isizeMax
      have hcap := (hb.storesLen (r := HeapRepr.ofAddr p) hp).run_capacity
      have hrun : x.drop.run h =
          .ok () ((h.set p.val none).log (.dealloc b.id (blockSize t bs.length) b.size)) := by
        simp only [drop, isHeap_of_ofUsize? hx, if_true, dropHeap, EStateM.run_bind, run_getHeap hx,
          hcap, run_fromSizeAlignUnchecked hfit]
        exact run_dealloc hp
      refine ⟨_, hrun, ?_⟩
      rw [owned_of_ofUsize? hx]
      exact Transfer.dealloc hp

end Stores

/-- `as_str_mut` is `as_bytes_mut` after a check that a string passes. -/
theorem run_asStrMut {c : String} (r : Represents h x c) :
    (asStrMut s).run (x, h) = (asBytesMut (strBytes s)).run (x, h) := by
  cases r with
  | inline hpos hle hdisc hdata =>
      have hin := isInlined_of_disc hdisc hpos hle
      have hne := disc_ne_zero hpos hdisc
      have hold := run_inlined_asBytes (σ := NonEmptySinStr t × Heap)
        (r := ⟨x.disc.value, x.dataOrPartialPtr, hne, x.length_data⟩) (u := (x, h))
        (by rwa [length_strBytes]) (by rwa [length_strBytes]) hdata
      simp only [asStrMut, asBytesMut, EStateM.run_bind, Exec.run_self, hin, if_true,
        getInlinedMut, run_getInlined hin hne, InlinedRepr.asStrMut, InlinedRepr.asStr, hold,
        run_fromUtf8Unchecked]
  | heap p b hx hp hb =>
      have hin := isInlined_of_ofUsize? hx p.aligned
      simp only [asStrMut, asBytesMut, EStateM.run_bind, Exec.run_self, hin, Bool.false_eq_true,
        if_false]
      refine run_getHeapMut_congr hx ?_
      simp only [EStateM.run_bind, Exec.run_self, Exec.run_onSnd, HeapRepr.asStrMut,
        hb.run_asStr (r := HeapRepr.ofAddr p) hp]

end NonEmptySinStr

namespace SinStr

variable {h h' : Heap} {x : SinStr t} {bs new : List UInt8} {s : String}

/-- The value stores the bytes, whether or not they are UTF-8. -/
def Stores (h : Heap) (x : SinStr t) (bs : List UInt8) : Prop :=
  match x.inner with
  | none => bs = []
  | some n => n.Stores h bs

theorem represents_iff : Represents h x s ↔ Stores h x (strBytes s) := by
  obtain ⟨_ | n⟩ := x
  · exact strBytes_inj (t := "").symm
  · exact NonEmptySinStr.represents_iff

theorem run_onInner {α : Type} {n n' : NonEmptySinStr t} {m : Exec (NonEmptySinStr t × Heap) α}
    {v : α} (hm : m.run (n, h) = .ok v (n', h')) :
    (onInner n m).run (⟨some n⟩, h) = .ok v (⟨some n'⟩, h') := by
  unfold onInner
  simp only [EStateM.run] at hm ⊢
  rw [hm]

theorem run_onInner_error {α : Type} {n n' : NonEmptySinStr t}
    {m : Exec (NonEmptySinStr t × Heap) α} {e : Fault} (hm : m.run (n, h) = .error e (n', h')) :
    (onInner n m).run (⟨some n⟩, h) = .error e (⟨some n'⟩, h') := by
  unfold onInner
  simp only [EStateM.run] at hm ⊢
  rw [hm]

theorem run_onInner_congr {α : Type} {n : NonEmptySinStr t}
    {m m' : Exec (NonEmptySinStr t × Heap) α} (hm : m.run (n, h) = m'.run (n, h)) :
    (onInner n m).run (⟨some n⟩, h) = (onInner n m').run (⟨some n⟩, h) := by
  unfold onInner
  simp only [EStateM.run] at hm ⊢
  rw [hm]

namespace Stores

theorem run_asBytes (r : Stores h x bs) : x.asBytes.run h = .ok bs h := by
  obtain ⟨_ | n⟩ := x
  · obtain rfl : bs = [] := r
    rfl
  · exact NonEmptySinStr.Stores.run_asBytes r

theorem run_len (r : Stores h x bs) : x.len.run h = .ok bs.length h := by
  obtain ⟨_ | n⟩ := x
  · obtain rfl : bs = [] := r
    rfl
  · exact NonEmptySinStr.Stores.run_len r

theorem isInlined_eq (r : Stores h x bs) :
    x.isInlined = decide (bs.length ≤ t.nicheMaxInt) := by
  obtain ⟨_ | n⟩ := x
  · obtain rfl : bs = [] := r
    rfl
  · exact NonEmptySinStr.Stores.isInlined_eq r

/-- `as_str` is defined on valid UTF-8, and undefined behaviour on anything else. -/
theorem run_asStr (r : Stores h x bs) : x.asStr.run h = (fromUtf8Unchecked bs).run h := by
  obtain ⟨_ | n⟩ := x
  · obtain rfl : bs = [] := r
    exact (run_fromUtf8Unchecked "" h).symm
  · exact NonEmptySinStr.Stores.run_asStr r

theorem run_asBytesMut (r : Stores h x bs) (hlen : new.length = bs.length) :
    ∃ x' h', (asBytesMut new).run (x, h) = .ok () (x', h') ∧ Stores h' x' new ∧
      x'.owned = x.owned ∧ Rewritten h h' x.owned := by
  obtain ⟨_ | n⟩ := x
  · obtain rfl : bs = [] := r
    refine ⟨⟨none⟩, h, ?_, List.eq_nil_of_length_eq_zero hlen, rfl, .of_none h⟩
    simp [asBytesMut, List.eq_nil_of_length_eq_zero hlen]
  · obtain ⟨n', h', hrun, r', hown, hw⟩ :=
      NonEmptySinStr.Stores.run_asBytesMut (x := n) r hlen
    refine ⟨⟨some n'⟩, h', ?_, r', hown, hw⟩
    simpa [asBytesMut] using run_onInner hrun

theorem run_asBytesMut_of_ne (r : Stores h x bs) (hlen : new.length ≠ bs.length) :
    (asBytesMut new).run (x, h) = .error (.panic
      "copy_from_slice: source slice length does not match destination slice length") (x, h) := by
  obtain ⟨_ | n⟩ := x
  · obtain rfl : bs = [] := r
    simp only [asBytesMut, EStateM.run_bind, Exec.run_self, Exec.run_panicUnless]
    exact if_neg hlen
  · have hrun := NonEmptySinStr.Stores.run_asBytesMut_of_ne (x := n) r hlen
    simpa [asBytesMut] using run_onInner_error hrun

theorem owned_live (r : Stores h x bs) {p : Nat} (hp : x.owned = some p) :
    (h.live p).isSome := by
  obtain ⟨_ | n⟩ := x
  · cases hp
  · exact NonEmptySinStr.Stores.owned_live (x := n) r hp

theorem run_drop (r : Stores h x bs) :
    ∃ h', x.drop.run h = .ok () h' ∧ Transfer h h' x.owned none := by
  obtain ⟨_ | n⟩ := x
  · exact ⟨h, rfl, (Quiet.refl h).transfer_none⟩
  · exact NonEmptySinStr.Stores.run_drop (x := n) r

end Stores

/-- `as_str_mut` is `as_bytes_mut` after a check that a string passes. -/
theorem run_asStrMut {c : String} (r : Represents h x c) :
    (asStrMut s).run (x, h) = (asBytesMut (strBytes s)).run (x, h) := by
  obtain ⟨_ | n⟩ := x
  · simp [asStrMut, asBytesMut]
  · have hrun := run_onInner_congr (NonEmptySinStr.run_asStrMut (x := n) (s := s) r)
    simpa [asStrMut, asBytesMut] using hrun

/-- One borrow after another, each filled by its borrower. -/
def fillAll : List (List UInt8) → Exec (SinStr t × Heap) Unit
  | [] => return
  | new :: rest => do
      asBytesMut new
      fillAll rest

/-- Only the last filling is left; what came before it may be anything. -/
theorem Stores.run_fillAll {fills : List (List UInt8)} (r : Stores h x bs)
    (hlen : ∀ new ∈ fills, new.length = bs.length) :
    ∃ x' h', (fillAll fills).run (x, h) = .ok () (x', h') ∧ Stores h' x' (fills.getLastD bs) ∧
      x'.owned = x.owned ∧ Rewritten h h' x.owned := by
  induction fills generalizing x h bs with
  | nil => exact ⟨x, h, rfl, r, rfl, .refl h fun p hp => (r.owned_live hp)⟩
  | cons new rest ih =>
      have hnew : new.length = bs.length := hlen new List.mem_cons_self
      obtain ⟨x₁, h₁, hrun, r₁, hown, hw⟩ := r.run_asBytesMut hnew
      obtain ⟨x₂, h₂, hrest, r₂, hown', hw'⟩ :=
        ih r₁ fun n hn => (hlen n (List.mem_cons_of_mem new hn)).trans hnew.symm
      refine ⟨x₂, h₂, ?_, ?_, hown'.trans hown, hw.trans (hown ▸ hw')⟩
      · simp only [fillAll, EStateM.run_bind, hrun, hrest]
      · rwa [List.getLastD_cons]

/-- What holds of a value that stores these bytes: they can be read and dropped,
and it is a string value exactly where they are a string. -/
structure ShowsBytes (h : Heap) (x : SinStr t) (bs : List UInt8) : Prop where
  asBytes : x.asBytes.run h = .ok bs h
  len : x.len.run h = .ok bs.length h
  isInlined : x.isInlined = decide (bs.length ≤ t.nicheMaxInt)
  asStr : ∀ s, x.asStr.run h = .ok s h ↔ strBytes s = bs
  invalid : (∀ s, strBytes s ≠ bs) → x.asStr.run h = .error (.unsound .invalidUtf8) h
  represents : ∀ s, Represents h x s ↔ strBytes s = bs
  drop : ∃ h', x.drop.run h = .ok () h' ∧ Transfer h h' x.owned none

theorem Stores.showsBytes (r : Stores h x bs) : ShowsBytes h x bs where
  asBytes := r.run_asBytes
  len := r.run_len
  isInlined := r.isInlined_eq
  asStr := by
    intro s
    rw [r.run_asStr]
    rcases run_fromUtf8Unchecked_cases bs h with ⟨s', rfl, hrun⟩ | ⟨hne, hrun⟩
    · rw [hrun, EStateM.Result.ok.injEq, strBytes_inj]
      exact ⟨fun hs => hs.1.symm, fun hs => ⟨hs.symm, rfl⟩⟩
    · rw [hrun]
      constructor
      · intro hs
        cases hs
      · intro hs
        exact absurd hs (hne s)
  invalid := by
    intro hne
    rw [r.run_asStr]
    rcases run_fromUtf8Unchecked_cases bs h with ⟨s', hs', _⟩ | ⟨_, hrun⟩
    · exact absurd hs' (hne s')
    · exact hrun
  represents := by
    intro s
    rw [represents_iff]
    constructor
    · intro r'
      have hread := r'.run_asBytes
      rw [r.run_asBytes, EStateM.Result.ok.injEq] at hread
      exact hread.1.symm
    · rintro rfl
      exact r
  drop := r.run_drop

end SinStr

end Sinstr

