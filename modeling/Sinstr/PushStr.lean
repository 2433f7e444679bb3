import Sinstr.SetStr

/-!
# `push_str` and `as_str_mut`

Appending stays inline, moves from the word to a new block, fills the spare
room of the block, or grows the block. Growing rounds the recomputed capacity
plus the appended length once more, so the block may end up larger than the
capacity that is recomputed from the new length.
-/

namespace Sinstr

open Rust

variable {t : Target}

/-- `unused_str_capacity` for a heap string of length `n`. -/
def spare (t : Target) (n : Nat) : Nat := blockSize t n - t.size - n

/-- The size `grow_capacity` asks for: `next_step(capacity + by)`. -/
def grownSize (t : Target) (n u : Nat) : Nat := roundUp t.align (blockSize t n + u)

theorem add_spare (t : Target) (n : Nat) : t.size + n + spare t n = blockSize t n := by
  have := le_blockSize t n
  simp only [spare]
  omega

theorem le_spare_iff {n u : Nat} : u ≤ spare t n ↔ t.size + (n + u) ≤ blockSize t n := by
  have := add_spare t n
  omega

/-- Appending within the spare room stays in the capacity class. -/
theorem blockSize_of_le_spare {n u : Nat} (h : u ≤ spare t n) :
    blockSize t (n + u) = blockSize t n :=
  Nat.le_antisymm
    ((roundUp_le_iff t.align_pos (align_dvd_blockSize t n)).mpr (le_spare_iff.mp h))
    (blockSize_mono t (Nat.le_add_right n u))

/-- Two conditions for one class: the bytes fit the spare room, and the size of
the block does not change. -/
theorem le_spare_iff_blockSize_eq {n u : Nat} :
    u ≤ spare t n ↔ blockSize t (n + u) = blockSize t n := by
  constructor
  · exact blockSize_of_le_spare
  · intro heq
    rw [le_spare_iff, ← heq]
    exact le_blockSize t (n + u)

theorem align_dvd_grownSize (t : Target) (n u : Nat) : t.align ∣ grownSize t n u := dvd_roundUp _ _

theorem le_grownSize (t : Target) (n u : Nat) : blockSize t n + u ≤ grownSize t n u :=
  le_roundUp t.align_pos _

theorem grownSize_lt (t : Target) (n u : Nat) : grownSize t n u < blockSize t n + u + t.align :=
  roundUp_lt_add t.align_pos _

/-- The grown block holds the new length with its capacity. -/
theorem blockSize_le_grownSize (t : Target) (n u : Nat) :
    blockSize t (n + u) ≤ grownSize t n u := by
  rw [blockSize, roundUp_le_iff t.align_pos (align_dvd_grownSize t n u)]
  have := le_blockSize t n
  have := le_grownSize t n u
  omega

/-- Rounding twice gives the size that rounding once gives exactly when the
appended length is a multiple of the alignment or its remainder exceeds the
spare room. -/
theorem grownSize_eq_iff (t : Target) (n u : Nat) :
    grownSize t n u = blockSize t (n + u) ↔ u % t.align = 0 ∨ spare t n < u % t.align := by
  obtain ⟨k, hk⟩ := align_dvd_blockSize t n
  have hsum := add_spare t n
  have hnew : t.size + (n + u) = blockSize t n + u - spare t n := by omega
  have hmod : (blockSize t n + u) % t.align = u % t.align := by
    rw [hk, Nat.mul_add_mod]
  have hlt : spare t n < t.align := by
    have := blockSize_lt t n
    omega
  rw [blockSize, hnew, grownSize, eq_comm, roundUp_sub_eq_iff t.align_pos (by omega) (by omega),
    hmod]

/-- The appended lengths after which the block still has the recomputed size. -/
def PushKeeps (t : Target) (n u : Nat) : Prop :=
  n ≤ t.nicheMaxInt ∨ u ≤ spare t n ∨ u % t.align = 0 ∨ spare t n < u % t.align

/-- No sum in `grow_capacity` wraps. -/
theorem nextStep_grow {n u : Nat} (hcap : blockSize t n ≤ t.isizeMax) (hu : u ≤ t.isizeMax) :
    nextStep t (t.add (blockSize t n) u) = grownSize t n u := by
  have hM := t.modulus_eq
  have htop := t.add_align_le (align_dvd_blockSize t n) hcap
  have hlow := le_blockSize t n
  have hN := t.nicheMaxInt_lt_size
  rw [Machine.add_eq (by omega), nextStep_of_le (by omega) (by omega), grownSize]

/-- A buffer after `s` was appended to a string of length `n`. -/
def appended (t : Target) (buf : Buffer) (n : Nat) (s : String) : Buffer :=
  stored t buf (n + s.utf8ByteSize) (t.size + n) (strBytes s)

theorem length_appended {buf : Buffer} {n : Nat} {s : String}
    (hfit : t.size + (n + s.utf8ByteSize) ≤ buf.length) :
    (appended t buf n s).length = buf.length :=
  length_stored (by omega) (by rw [length_strBytes]; omega)

theorem BlockHolds.appended {buf : Buffer} {c s : String} {id : Nat}
    (hstr : buf.Holds t.size (strBytes c)) (hN : t.nicheMaxInt < c.utf8ByteSize)
    (hcap : blockSize t (c.utf8ByteSize + s.utf8ByteSize) ≤ buf.length)
    (hmax : buf.length ≤ t.isizeMax) :
    BlockHolds t ⟨id, appended t buf c.utf8ByteSize s⟩ (c ++ s) := by
  have hfit := (le_blockSize t _).trans hcap
  have hoff : t.size + (strBytes c).length ≤ t.size + c.utf8ByteSize := by rw [length_strBytes]
  have hfit' : t.size + c.utf8ByteSize + (strBytes s).length ≤ buf.length := by
    rw [length_strBytes]
    omega
  have hlen : (c ++ s).utf8ByteSize = c.utf8ByteSize + s.utf8ByteSize := String.utf8ByteSize_append
  exact
    { len_gt := by omega
      cap_le := by rwa [Block.size, length_appended hfit, hlen]
      size_le := by rwa [Block.size, length_appended hfit]
      len_bytes := by
        rw [hlen]
        exact stored_holds_len (Nat.le_add_right _ _) hfit'
      str_bytes := by
        rw [strBytes_append, Buffer.holds_append, length_strBytes]
        exact ⟨stored_holds_between hstr hoff hfit',
          stored_holds_bytes (Nat.le_add_right _ _) hfit'⟩ }

/-- What `grow_capacity` and the copy after it leave in the block. -/
def NonEmptySinStr.grownBytes (t : Target) (old : Buffer) (n : Nat) (s : String) : Buffer :=
  appended t (Buffer.resize old (grownSize t n s.utf8ByteSize)) n s

namespace HeapRepr

variable {a : Allocator t.toMachine} {h : Heap} {p : Addr t.toMachine} {b : Block} {n : Nat}
  {s : String}

/-- `grow_capacity` asks for `grownSize`, unless the assertion stops it. -/
theorem run_growCapacity {u : Nat} (hs : StoresLen t h (ofAddr p) b n) (hu : u ≤ t.isizeMax) :
    (growCapacity a u).run (ofAddr p, h) =
      if t.isizeMax ≤ grownSize t n u then
        .error (.panic "assertion failed: Self::is_valid_len(new_capacity)") (ofAddr p, h)
      else
        match a.realloc h p.val (grownSize t n u) with
        | none => .error (.allocError (blockSize t n)) (ofAddr p,
            h.log (.reallocFailed b.id (blockSize t n) b.size (grownSize t n u)))
        | some q => .ok () (ofAddr q,
            ((h.set p.val none).set q.val
              (some ⟨b.id, Buffer.resize b.bytes (grownSize t n u)⟩)).log
              (.realloc b.id (blockSize t n) b.size (grownSize t n u))) := by
  have hp : h.live p.val = some b := hs.live
  have hgt := hs.len_gt
  have hmin := le_blockSize t n
  have hgrown := le_grownSize t n u
  have hnext := nextStep_grow hs.cap_le_isizeMax hu
  have hold := layout_fits_of_le (align_dvd_blockSize t n) hs.cap_le_isizeMax
  have hvalid : IsValidLen t (grownSize t n u) ↔ ¬t.isizeMax ≤ grownSize t n u := by
    simp only [IsValidLen]
    omega
  simp only [growCapacity, EStateM.run_bind, Exec.run_self, Exec.run_onSnd, hs.run_capacity,
    run_fromSizeAlignUnchecked hold, hnext, Exec.run_panicUnless, hvalid, addr_ofAddr]
  by_cases hlimit : t.isizeMax ≤ grownSize t n u
  · simp only [hlimit, not_true, if_false, if_true]
  have hnew := layout_fits_of_le (align_dvd_grownSize t n u) (Nat.not_le.mp hlimit).le
  have hrealloc := run_realloc (a := a) ⟨blockSize t n, t.align⟩ hp
    (show 0 < grownSize t n u by omega) hnew
  cases ha : a.realloc h p.val (grownSize t n u) with
  | none =>
      rw [ha] at hrealloc
      simp only [hlimit, not_false_eq_true, if_true, if_false, Exec.run_onSnd, hrealloc,
        Exec.run_throw]
  | some q =>
      rw [ha] at hrealloc
      simp only [hlimit, not_false_eq_true, if_true, if_false, Exec.run_onSnd, hrealloc,
        Exec.run_setSelf]

/-- `HeapRepr::push_str`: into the spare room, or with growth. -/
theorem run_pushStr (hs : StoresLen t h (ofAddr p) b n) (hlen : s.utf8ByteSize ≤ t.isizeMax) :
    (pushStr a s).run (ofAddr p, h) =
      if s.utf8ByteSize ≤ spare t n then
        .ok () (ofAddr p, h.set p.val (some ⟨b.id, appended t b.bytes n s⟩))
      else if t.isizeMax ≤ grownSize t n s.utf8ByteSize then
        .error (.panic "assertion failed: Self::is_valid_len(new_capacity)") (ofAddr p, h)
      else
        match a.realloc h p.val (grownSize t n s.utf8ByteSize) with
        | none => .error (.allocError (blockSize t n)) (ofAddr p,
            h.log (.reallocFailed b.id (blockSize t n) b.size (grownSize t n s.utf8ByteSize)))
        | some q => .ok () (ofAddr q,
            ((h.set p.val none).set q.val
              (some ⟨b.id, NonEmptySinStr.grownBytes t b.bytes n s⟩)).log
              (.realloc b.id (blockSize t n) b.size (grownSize t n s.utf8ByteSize))) := by
  have hM := t.modulus_eq
  have hmin := le_blockSize t n
  have hmax := hs.cap_le_isizeMax
  have hadd : t.add n s.utf8ByteSize = n + s.utf8ByteSize := Machine.add_eq (by omega)
  have hunused := hs.run_unusedStrCapacity
  rw [← spare] at hunused
  simp only [pushStr, EStateM.run_bind, Exec.run_self, Exec.run_onSnd, hs.run_len, hunused,
    ge_iff_le]
  by_cases hroom : s.utf8ByteSize ≤ spare t n
  · obtain ⟨h₁, hwrite, hset⟩ := run_bytes_len (n + s.utf8ByteSize) (t.size + n) (strBytes s)
      hs.live (by omega)
      (by have := le_spare_iff.mp hroom
          have := hs.cap_le
          rw [length_strBytes]
          omega)
    simp only [if_pos hroom, EStateM.run_bind, Exec.run_onSnd, hs.run_len, addr_ofAddr, hwrite,
      hadd, hset, appended]
  simp only [if_neg hroom, EStateM.run_bind, run_growCapacity hs hlen]
  by_cases hlimit : t.isizeMax ≤ grownSize t n s.utf8ByteSize
  · simp only [if_pos hlimit]
  simp only [if_neg hlimit]
  cases ha : a.realloc h p.val (grownSize t n s.utf8ByteSize) with
  | none => rfl
  | some q =>
      have hgrown := le_grownSize t n s.utf8ByteSize
      obtain ⟨h₁, hset, hwrite⟩ := run_len_bytes (t := t) (n + s.utf8ByteSize) (t.size + n)
        (strBytes s) (p := q)
        (h := ((h.set p.val none).set q.val (some ⟨b.id, Buffer.resize b.bytes
          (grownSize t n s.utf8ByteSize)⟩)).log
            (.realloc b.id (blockSize t n) b.size (grownSize t n s.utf8ByteSize)))
        (by rw [Heap.log_live, Heap.set_live_self]) (by omega)
        (by rw [Block.size, Buffer.length_resize, length_strBytes]
            omega)
      simp only [Exec.run_self, Exec.run_onSnd, addr_ofAddr, hadd, hset, hwrite, Heap.log_set,
        Heap.set_set, NonEmptySinStr.grownBytes, appended]

end HeapRepr

namespace NonEmptySinStr

variable {a : Allocator t.toMachine} {h : Heap} {x : NonEmptySinStr t} {c s : String}
  {p : Addr t.toMachine} {b : Block} {n : Nat}

theorem run_pushStr_empty (hlen : x.len.run h = .ok n h) (h0 : s.utf8ByteSize = 0) :
    (pushStr a s).run (x, h) = .ok () (x, h) := by
  simp only [pushStr, EStateM.run_bind, Exec.run_self, Exec.run_onSnd, hlen, if_pos h0,
    EStateM.run_pure]

/-- `push_str` on a heap string: into the spare room, or with growth. -/
theorem run_pushStr_heap (hx : ofUsize? t p.val = some x)
    (hs : StoresLen t h (HeapRepr.ofAddr p) b n) (hpos : 0 < s.utf8ByteSize)
    (hlen : s.utf8ByteSize ≤ t.isizeMax) :
    (pushStr a s).run (x, h) =
      if s.utf8ByteSize ≤ spare t n then
        .ok () (x, h.set p.val (some ⟨b.id, appended t b.bytes n s⟩))
      else if t.isizeMax ≤ grownSize t n s.utf8ByteSize then
        .error (.panic "assertion failed: Self::is_valid_len(new_capacity)") (x, h)
      else
        match a.realloc h p.val (grownSize t n s.utf8ByteSize) with
        | none => .error (.allocError (blockSize t n)) (x,
            h.log (.reallocFailed b.id (blockSize t n) b.size (grownSize t n s.utf8ByteSize)))
        | some q =>
            let h' := ((h.set p.val none).set q.val
              (some ⟨b.id, grownBytes t b.bytes n s⟩)).log
                (.realloc b.id (blockSize t n) b.size
                  (grownSize t n s.utf8ByteSize))
            match ofUsize? t q.val with
            | none => .error (.unsound .invalidValue) (x, h')
            | some y => .ok () (y, h') := by
  have hM := t.modulus_eq
  have hgt := hs.len_gt
  have hmin := le_blockSize t n
  have hmax := hs.cap_le_isizeMax
  have hadd : t.add n s.utf8ByteSize = n + s.utf8ByteSize := Machine.add_eq (by omega)
  have hbig : ¬n + s.utf8ByteSize ≤ t.nicheMaxInt := by omega
  have hpush := HeapRepr.run_pushStr (a := a) hs hlen
  simp only [pushStr, EStateM.run_bind, Exec.run_self, Exec.run_onSnd,
    run_len_of_heap hx hs.run_len, if_neg hpos.ne', hadd, if_neg hbig, isHeap_of_ofUsize? hx,
    if_true]
  by_cases hroom : s.utf8ByteSize ≤ spare t n
  · rw [if_pos hroom] at hpush ⊢
    exact run_getHeapMut_ok hx hpush
  rw [if_neg hroom] at hpush ⊢
  by_cases hlimit : t.isizeMax ≤ grownSize t n s.utf8ByteSize
  · rw [if_pos hlimit] at hpush ⊢
    exact run_getHeapMut_error hx hpush
  rw [if_neg hlimit] at hpush ⊢
  cases ha : a.realloc h p.val (grownSize t n s.utf8ByteSize) with
  | none =>
      rw [ha] at hpush
      exact run_getHeapMut_error hx hpush
  | some q =>
      rw [ha] at hpush
      exact run_getHeapMut hx hpush

theorem holds_grownBytes {id : Nat} {old : Buffer} (hstr : old.Holds t.size (strBytes c))
    (hN : t.nicheMaxInt < c.utf8ByteSize)
    (hmax : grownSize t c.utf8ByteSize s.utf8ByteSize ≤ t.isizeMax) :
    BlockHolds t ⟨id, grownBytes t old c.utf8ByteSize s⟩ (c ++ s) := by
  have hmin := le_blockSize t c.utf8ByteSize
  have hgrown := le_grownSize t c.utf8ByteSize s.utf8ByteSize
  refine BlockHolds.appended (hstr.resize ?_) hN ?_ ?_
  · rw [length_strBytes]
    omega
  · rw [Buffer.length_resize]
    exact blockSize_le_grownSize t _ _
  · rwa [Buffer.length_resize]

theorem size_grownBytes (old : Buffer) (n : Nat) (s : String) :
    (grownBytes t old n s).length = grownSize t n s.utf8ByteSize := by
  have hmin := le_blockSize t n
  have hgrown := le_grownSize t n s.utf8ByteSize
  rw [grownBytes, length_appended (by rw [Buffer.length_resize]; omega), Buffer.length_resize]

theorem oversize_of_grownSize {n u : Nat} (h : t.isizeMax ≤ grownSize t n u) :
    Oversize t (n + u) := by
  have := grownSize_lt t n u
  have := blockSize_lt t n
  have := t.align_le_size
  simp only [Oversize]
  omega

/-- Appending within the word does not use the heap. -/
theorem run_pushStr_inline (r : Represents h x c) (hpos : 0 < s.utf8ByteSize)
    (hle : c.utf8ByteSize + s.utf8ByteSize ≤ t.nicheMaxInt) :
    ∃ x', (pushStr a s).run (x, h) = .ok () (x', h) ∧ x'.isInlined = true ∧
      Represents h x' (c ++ s) := by
  have hsize := t.nicheMaxInt_lt_size
  have hM := t.modulus_eq
  have hroom := t.four_mul_size_lt
  have hlen : (c ++ s).utf8ByteSize = c.utf8ByteSize + s.utf8ByteSize := String.utf8ByteSize_append
  have hadd : t.add c.utf8ByteSize s.utf8ByteSize = c.utf8ByteSize + s.utf8ByteSize :=
    Machine.add_eq (by omega)
  obtain ⟨disc, hdisc, hval⟩ := DiscriminantValues.ofByte?_length hle
  have hdata : x.dataOrPartialPtr.Holds 0 (strBytes c) := by
    cases r with
    | inline _ _ _ hdata => exact hdata
    | heap p b hx hp hb => have := hb.len_gt; omega
  have hfit : c.utf8ByteSize + (strBytes s).length ≤ x.dataOrPartialPtr.length := by
    rw [x.length_data, length_strBytes]
    omega
  have hnew : (x.dataOrPartialPtr.overwrite c.utf8ByteSize (strBytes s)).Holds 0
      (strBytes (c ++ s)) := by
    rw [strBytes_append, Buffer.holds_append]
    refine ⟨hdata.overwrite hfit (by simp), ?_⟩
    rw [length_strBytes, Nat.zero_add]
    exact Buffer.holds_overwrite hfit
  refine ⟨⟨disc, x.dataOrPartialPtr.overwrite c.utf8ByteSize (strBytes s),
    by rw [Buffer.length_overwrite hfit, x.length_data]⟩, ?_,
    isInlined_of_disc hval (by omega) hle,
    .inline (by omega) (by omega) (by rw [hval, hlen]) hnew⟩
  simp only [pushStr, EStateM.run_bind, Exec.run_self, Exec.run_onSnd, r.run_len, if_neg hpos.ne',
    hadd, if_pos hle, dif_pos hfit, hdisc, Exec.run_setSelf]

theorem outcome_pushStr_inline {keeps : Prop} (r : Represents h x c) (hpos : 0 < s.utf8ByteSize)
    (hle : c.utf8ByteSize + s.utf8ByteSize ≤ t.nicheMaxInt) :
    (resource t).Outcome keeps h x c (c ++ s) ((pushStr a s).run (x, h)) := by
  obtain ⟨x', hrun, hin, r'⟩ := run_pushStr_inline (a := a) r hpos hle
  rw [hrun]
  refine outcome_inline ?_ hin r'
  rw [r.isInlined_eq]
  exact decide_eq_true (by omega)

/-- `push_str` on an inline value that moves to the heap, through a temporary `String`. -/
theorem run_pushStr_toHeap (r : Represents h x c) (hcle : c.utf8ByteSize ≤ t.nicheMaxInt)
    (hlen : s.utf8ByteSize ≤ t.isizeMax) (hN : t.nicheMaxInt < c.utf8ByteSize + s.utf8ByteSize) :
    (pushStr a s).run (x, h) =
      let n := c.utf8ByteSize + s.utf8ByteSize
      let h₁ := h.log (.scratch n (a.scratch h n))
      if t.isizeMax < n then .error (.panic "capacity overflow") (x, h)
      else if a.scratch h n then Exec.replacing x ((newHeap a (c ++ s)).run h₁)
      else .error (.allocError n) (x, h₁) := by
  have hsize := t.nicheMaxInt_lt_size
  have hM := t.modulus_eq
  have hroom := t.four_mul_size_lt
  have hadd : t.add c.utf8ByteSize s.utf8ByteSize = c.utf8ByteSize + s.utf8ByteSize :=
    Machine.add_eq (by omega)
  have hin : x.isInlined = true := by rw [r.isInlined_eq, decide_eq_true hcle]
  have hheap : x.isHeap = false := isHeap_of_isInlined hin
  have hne : s.utf8ByteSize ≠ 0 := by omega
  simp only [pushStr, EStateM.run_bind, Exec.run_self, r.run_len, if_neg hne, hadd,
    if_neg (Nat.not_le.mpr hN), hheap, Bool.false_eq_true, if_false, Exec.run_onSnd, r.run_asStr]
  by_cases hover : t.isizeMax < c.utf8ByteSize + s.utf8ByteSize
  · simp only [run_concat_overflow (Nat.not_le.mpr hover), if_pos hover]
  simp only [run_concat (Nat.not_lt.mp hover), if_neg hover]
  cases a.scratch h (c.utf8ByteSize + s.utf8ByteSize) with
  | false => rfl
  | true =>
      have hassign := run_assign_newHeap (a := a) (s := c ++ s)
        (h := h.log (.scratch (c.utf8ByteSize + s.utf8ByteSize) true)) hin
      simpa [Exec.run_onSnd] using hassign

theorem outcome_pushStr_toHeap {keeps : Prop} (r : Represents h x c)
    (hcle : c.utf8ByteSize ≤ t.nicheMaxInt) (hlen : s.utf8ByteSize ≤ t.isizeMax)
    (hN : t.nicheMaxInt < c.utf8ByteSize + s.utf8ByteSize) :
    (resource t).Outcome keeps h x c (c ++ s) ((pushStr a s).run (x, h)) := by
  have hcat : (c ++ s).utf8ByteSize = c.utf8ByteSize + s.utf8ByteSize := String.utf8ByteSize_append
  have hin : x.isInlined = true := by rw [r.isInlined_eq, decide_eq_true hcle]
  have hquiet (granted : Bool) :
      Quiet h (h.log (.scratch (c.utf8ByteSize + s.utf8ByteSize) granted)) := Quiet.log trivial
  rw [run_pushStr_toHeap r hcle hlen hN]
  simp only
  split_ifs with hover hgrant
  · refine .fault (MayFault.panic _ ?_) fun _ => ⟨rfl, Quiet.refl h, fun _ hc => hc⟩
    simp only [Oversize]
    omega
  · rw [hgrant, ← run_assign_newHeap hin]
    have hrep := (resource t).rep_congr r (fun q _ => congrFun (hquiet true).live q)
    have hassign := (built_newHeap (a := a) (s := c ++ s)
      (h := h.log (.scratch (c.utf8ByteSize + s.utf8ByteSize) true))
      (by omega) (by omega)).assign keeps hrep
    exact hassign.of_quiet (hquiet true) fun hc => hc.log trivial
  · rw [Bool.not_eq_true] at hgrant
    rw [hgrant]
    exact .fault (MayFault.allocError _ (Heap.refused_log rfl)) fun _ =>
      ⟨rfl, hquiet false, fun _ hc => hc.log trivial⟩

/-- Appending to a heap string. -/
theorem outcome_pushStr_heap (hx : ofUsize? t p.val = some x) (hp : h.live p.val = some b)
    (hb : BlockHolds t b c) (hpos : 0 < s.utf8ByteSize) (hlen : s.utf8ByteSize ≤ t.isizeMax) :
    (resource t).Outcome (PushKeeps t c.utf8ByteSize s.utf8ByteSize) h x c (c ++ s)
      ((pushStr a s).run (x, h)) := by
  have hcat : (c ++ s).utf8ByteSize = c.utf8ByteSize + s.utf8ByteSize := String.utf8ByteSize_append
  rw [run_pushStr_heap hx (hb.storesLen hp) hpos hlen]
  split_ifs with hroom hlimit
  · have hclass := blockSize_of_le_spare hroom
    have hcap : blockSize t (c.utf8ByteSize + s.utf8ByteSize) ≤ b.size := by
      rw [hclass]
      exact hb.cap_le
    refine outcome_write hx hp (BlockHolds.appended hb.str_bytes hb.len_gt hcap hb.size_le)
      (length_appended ((le_blockSize t _).trans hcap)) ?_
    rw [hcat, hclass]
  · refine .fault (MayFault.panic _ ?_) fun _ => ⟨rfl, Quiet.refl h, fun _ hc => hc⟩
    rw [hcat]
    exact oversize_of_grownSize hlimit
  · have hsize := size_grownBytes (t := t) b.bytes c.utf8ByteSize s
    have hout := outcome_realloc (a := a) (c := c) (PushKeeps t c.utf8ByteSize s.utf8ByteSize) hx hp
      (holds_grownBytes (s := s) hb.str_bytes hb.len_gt (Nat.not_le.mp hlimit).le) ?_
    · rwa [hsize] at hout
    · intro hk
      have hgt := hb.len_gt
      rw [hsize, hcat, grownSize_eq_iff]
      rcases hk with hk | hk | hk
      · omega
      · exact absurd hk hroom
      · exact hk

/-- `push_str` on any value. -/
theorem outcome_pushStr (r : Represents h x c) (hlen : s.utf8ByteSize ≤ t.isizeMax) :
    (resource t).Outcome (PushKeeps t c.utf8ByteSize s.utf8ByteSize) h x c (c ++ s)
      ((pushStr a s).run (x, h)) := by
  by_cases h0 : s.utf8ByteSize = 0
  · rw [run_pushStr_empty r.run_len h0, utf8ByteSize_eq_zero.mp h0, String.append_empty]
    exact Resource.Outcome.unchanged (R := resource t) _ r
  have hpos := Nat.pos_of_ne_zero h0
  cases r with
  | inline hposc hlec hdisc hdata =>
      by_cases hle : c.utf8ByteSize + s.utf8ByteSize ≤ t.nicheMaxInt
      · exact outcome_pushStr_inline (.inline hposc hlec hdisc hdata) hpos hle
      · exact outcome_pushStr_toHeap (.inline hposc hlec hdisc hdata) hlec hlen
          (Nat.not_le.mp hle)
  | heap p b hx hp hb => exact outcome_pushStr_heap hx hp hb hpos hlen

/-- Overwriting a string in place by one of the same length. -/
theorem outcome_asStrMut {keeps : Prop} (r : Represents h x c)
    (hlen : s.utf8ByteSize = c.utf8ByteSize) :
    (resource t).Outcome keeps h x c s ((asStrMut s).run (x, h)) := by
  have hmode := r.isInlined_eq
  have hsame : (strBytes s).length = (strBytes c).length := by
    rwa [length_strBytes, length_strBytes]
  cases r with
  | inline hpos hle hdisc hdata =>
      have hin : x.isInlined = true := by rw [hmode, decide_eq_true hle]
      have hne := disc_ne_zero hpos hdisc
      have hsize := t.nicheMaxInt_lt_size
      have hfit : 0 + (strBytes s).length ≤ x.dataOrPartialPtr.length := by
        rw [x.length_data, length_strBytes]
        omega
      have hold := run_inlined_asBytes (σ := NonEmptySinStr t × Heap)
        (r := ⟨x.disc.value, x.dataOrPartialPtr, hne, x.length_data⟩) (u := (x, h))
        (by rwa [length_strBytes]) (by rwa [length_strBytes]) hdata
      have hfit' : (strBytes s).length ≤ x.dataOrPartialPtr.length := by rwa [Nat.zero_add] at hfit
      simp only [asStrMut, EStateM.run_bind, Exec.run_self, hin, if_true, getInlinedMut,
        run_getInlined hin hne, InlinedRepr.asStrMut, InlinedRepr.asStr, hold,
        run_fromUtf8Unchecked, InlinedRepr.asBytesMut, Exec.run_panicUnless, if_pos hsame,
        dif_pos hfit', EStateM.run_pure, Exec.run_setSelf]
      exact outcome_inline hin hin (.inline (by omega) (by omega) (by rw [hdisc, hlen])
        (Buffer.holds_overwrite hfit))
  | heap p b hx hp hb =>
      have hin : x.isInlined = false := isInlined_of_ofUsize? hx p.aligned
      have hold := hb.run_asBytes (r := HeapRepr.ofAddr p) hp
      have hfit : t.size + (strBytes s).length ≤ b.size := by
        rw [length_strBytes, hlen]
        exact hb.fits
      have hwrite := run_writeBytes hp hfit
      have hrun : (asStrMut s).run (x, h) = .ok () (x,
          h.set p.val (some ⟨b.id, b.bytes.overwrite t.size (strBytes s)⟩)) := by
        simp only [asStrMut, EStateM.run_bind, Exec.run_self, hin, Bool.false_eq_true, if_false]
        refine run_getHeapMut_ok hx ?_
        simp only [EStateM.run_bind, Exec.run_self, Exec.run_onSnd, HeapRepr.asStrMut,
          hb.run_asStr (r := HeapRepr.ofAddr p) hp, HeapRepr.asBytesMut, hold,
          Exec.run_panicUnless, if_pos hsame, HeapRepr.addr_ofAddr, hwrite]
      rw [hrun]
      refine outcome_write hx hp ?_ (Buffer.length_overwrite hfit) (by rw [hlen])
      exact
        { len_gt := by rw [hlen]; exact hb.len_gt
          cap_le := by rw [Block.size, Buffer.length_overwrite hfit, hlen]; exact hb.cap_le
          size_le := by rw [Block.size, Buffer.length_overwrite hfit]; exact hb.size_le
          len_bytes := by rw [hlen]; exact hb.len_bytes.overwrite hfit (by simp)
          str_bytes := Buffer.holds_overwrite hfit }

end NonEmptySinStr

namespace SinStr

variable {a : Allocator t.toMachine} {h : Heap} {x : SinStr t} {c s : String}

/-- `push_str` on any value, the empty one included. -/
theorem outcome_pushStr (r : Represents h x c) (hlen : s.utf8ByteSize ≤ t.isizeMax) :
    (resource t).Outcome (PushKeeps t c.utf8ByteSize s.utf8ByteSize) h x c (c ++ s)
      ((pushStr a s).run (x, h)) := by
  have hrep : (resource t).Rep h x c := r
  obtain ⟨_ | n⟩ := x
  · obtain rfl : c = "" := r
    have hnew := (built_new (a := a) (h := h) hlen).assign
      (PushKeeps t "".utf8ByteSize s.utf8ByteSize) hrep
    rw [String.empty_append]
    simpa [pushStr, assign, resource] using hnew
  · have hpush := outcome_onInner _ (x := ⟨some n⟩)
      (NonEmptySinStr.outcome_pushStr (a := a) r hlen)
    simpa [pushStr] using hpush

/-- Overwriting a string in place by one of the same length. -/
theorem outcome_asStrMut {keeps : Prop} (r : Represents h x c)
    (hlen : s.utf8ByteSize = c.utf8ByteSize) :
    (resource t).Outcome keeps h x c s ((asStrMut s).run (x, h)) := by
  have hrep : (resource t).Rep h x c := r
  obtain ⟨_ | n⟩ := x
  · obtain rfl : c = "" := r
    obtain rfl := utf8ByteSize_eq_zero.mp (hlen.trans (utf8ByteSize_eq_zero.mpr rfl))
    have hout := Resource.Outcome.unchanged keeps hrep
    simpa [asStrMut] using hout
  · have hmut := outcome_onInner keeps (x := ⟨some n⟩)
      (NonEmptySinStr.outcome_asStrMut r hlen)
    simpa [asStrMut] using hmut

end SinStr

end Sinstr
