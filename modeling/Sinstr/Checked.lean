import Sinstr.PushStr

/-!
# `push_str` with overflow checks

The functions that `push_str` runs through, once more, with the arithmetic of a
build that checks for overflow: a sum or difference that would wrap panics. Where
the checked program ends as the wrapping one does, nothing wrapped in between.
Only `is_inlined` wraps on purpose, by `wrapping_sub`, and is left as it is.
-/

namespace Rust

variable {m : Machine} {σ : Type} {a b : Nat} {s : σ}

/-- `+` on `usize` with overflow checks. -/
def checkedAdd (m : Machine) (a b : Nat) : Exec σ Nat := do
  Exec.panicUnless (a + b < m.modulus) "attempt to add with overflow"
  return a + b

/-- `-` on `usize` with overflow checks. -/
def checkedSub (a b : Nat) : Exec σ Nat := do
  Exec.panicUnless (b ≤ a) "attempt to subtract with overflow"
  return a - b

theorem run_checkedAdd (h : a + b < m.modulus) :
    (checkedAdd m a b : Exec σ Nat).run s = .ok (m.add a b) s := by
  simp [checkedAdd, h, Machine.add_eq h]

theorem run_checkedSub (hb : b ≤ a) (ha : a < m.modulus) :
    (checkedSub a b : Exec σ Nat).run s = .ok (m.sub a b) s := by
  simp [checkedSub, hb, Machine.sub_eq hb ha]

end Rust

namespace Sinstr

open Rust

variable {t : Target}

namespace Checked

/-- `next_step`. -/
def nextStep {σ : Type} (t : Target) (len : Nat) : Exec σ Nat := do
  let n := if t.nicheMaxInt ≤ len then len else t.nicheMaxInt
  let sum ← checkedAdd t.toMachine n (lenCapStep t)
  return (← checkedSub sum 1) &&& t.not (lenCapStep t - 1)

namespace HeapRepr

/-- `HeapRepr::capacity`. -/
def capacity (t : Target) (self : HeapRepr) : Exec Heap Nat := do
  let len ← self.len t
  Exec.require .uncheckedAdd (len + t.size < t.modulus)
  let capacity ← nextStep t (t.add len t.size)
  Exec.require .invalidValue (capacity ≠ 0)
  return capacity

/-- `HeapRepr::str_capacity`. -/
def strCapacity (t : Target) (self : HeapRepr) : Exec Heap Nat := do
  let strCapacity ← checkedSub (← capacity t self) t.size
  Exec.require .invalidValue (strCapacity ≠ 0)
  return strCapacity

/-- `HeapRepr::unused_str_capacity`. -/
def unusedStrCapacity (t : Target) (self : HeapRepr) : Exec Heap Nat := do
  checkedSub (← strCapacity t self) (← self.len t)

/-- `HeapRepr::grow_capacity`. -/
def growCapacity (a : Allocator t.toMachine) (by_ : Nat) : Exec (HeapRepr × Heap) Unit := do
  let self ← Exec.self
  let capacity ← Exec.onSnd (capacity t self)
  let layout ← Layout.fromSizeAlignUnchecked t.toMachine capacity t.align
  let newCapacity ← nextStep t (← checkedAdd t.toMachine capacity by_)
  Exec.panicUnless (IsValidLen t newCapacity) "assertion failed: Self::is_valid_len(new_capacity)"
  match ← Exec.onSnd (realloc a self.addr layout newCapacity) with
  | none => throw (.allocError layout.size)
  | some p => Exec.setSelf (HeapRepr.ofAddr p)

/-- `HeapRepr::push_str`. -/
def pushStr (a : Allocator t.toMachine) (s : String) : Exec (HeapRepr × Heap) Unit := do
  let self ← Exec.self
  let curLen ← Exec.onSnd (self.len t)
  if (← Exec.onSnd (unusedStrCapacity t self)) ≥ s.utf8ByteSize then
    Exec.onSnd (writeBytes self.addr (t.size + (← Exec.onSnd (self.len t))) (strBytes s))
    let newLen ← checkedAdd t.toMachine curLen s.utf8ByteSize
    Exec.onSnd (writeUsize t.toMachine self.addr newLen)
  else
    growCapacity a s.utf8ByteSize
    let self ← Exec.self
    let newLen ← checkedAdd t.toMachine curLen s.utf8ByteSize
    Exec.onSnd (writeUsize t.toMachine self.addr newLen)
    Exec.onSnd (writeBytes self.addr (t.size + curLen) (strBytes s))

end HeapRepr

namespace NonEmptySinStr

/-- `new_heap`. -/
def newHeap (a : Allocator t.toMachine) (s : String) : Exec Heap (NonEmptySinStr t) := do
  let len := s.utf8ByteSize
  Exec.require .callerContract (t.nicheMaxInt < len)
  Exec.assertUnchecked (IsValidLen t len)
  let totalSize ← checkedAdd t.toMachine t.size len
  Exec.panicUnless (totalSize ≤ t.isizeMax) "NonEmptySinStr::new_heap should never exceed max size"
  let allocSize ← nextStep t totalSize
  let layout ← Layout.fromSizeAlignUnchecked t.toMachine allocSize t.align
  match ← alloc a layout with
  | none => throw (.allocError layout.size)
  | some p =>
      writeUsize t.toMachine p.val len
      writeBytes p.val t.size (strBytes s)
      match NonEmptySinStr.ofUsize? t p.val with
      | none => throw (.unsound .invalidValue)
      | some self => return self

/-- `new`. -/
def new (a : Allocator t.toMachine) (s : String) : Exec Heap (Option (NonEmptySinStr t)) := do
  let len := s.utf8ByteSize
  if len = 0 then return none
  else if t.nicheMaxInt ≥ len then return some (← NonEmptySinStr.newInline t s)
  else return some (← newHeap a s)

theorem length_overwrite_data (self : NonEmptySinStr t) (s : String) (len : Nat)
    (h : len + (strBytes s).length ≤ self.dataOrPartialPtr.length) :
    (self.dataOrPartialPtr.overwrite len (strBytes s)).length = t.size - 1 := by
  rw [Buffer.length_overwrite h, self.length_data]

/-- `push_str`. -/
def pushStr (a : Allocator t.toMachine) (s : String) : Exec (NonEmptySinStr t × Heap) Unit := do
  let self ← Exec.self
  let len ← Exec.onSnd self.len
  if s.utf8ByteSize = 0 then return
  let newLen ← checkedAdd t.toMachine len s.utf8ByteSize
  if newLen ≤ t.nicheMaxInt then
    if h : len + (strBytes s).length ≤ self.dataOrPartialPtr.length then
      match DiscriminantValues.ofByte? t (UInt8.ofNat newLen) with
      | none => throw (.unsound .invalidValue)
      | some disc =>
          Exec.setSelf ⟨disc, self.dataOrPartialPtr.overwrite len (strBytes s),
            length_overwrite_data self s len h⟩
    else
      throw (.panic "range end index out of range for slice")
  else if self.isHeap then
    NonEmptySinStr.getHeapMut (HeapRepr.pushStr a s)
  else
    let both ← Exec.onSnd (do concat a (← self.asStr) s)
    NonEmptySinStr.assign (← Exec.onSnd (newHeap a both))

end NonEmptySinStr

variable {σ : Type} {u : σ} {h : Heap} {r : HeapRepr} {b : Block} {n : Nat}

theorem run_nextStep (hN : t.nicheMaxInt ≤ n) (hsum : n + t.align < t.modulus) :
    (nextStep t n : Exec σ Nat).run u = .ok (Sinstr.nextStep t n) u := by
  have hpos := t.align_pos
  have hadd : n + lenCapStep t < t.modulus := hsum
  have hone : 1 ≤ t.add n (lenCapStep t) := by
    rw [Machine.add_eq hadd, lenCapStep]
    omega
  have hlt : t.add n (lenCapStep t) < t.modulus := by rwa [Machine.add_eq hadd]
  simp only [nextStep, Sinstr.nextStep, if_pos hN, EStateM.run_bind, run_checkedAdd hadd,
    run_checkedSub hone hlt, EStateM.run_pure]

namespace HeapRepr

theorem run_capacity (hs : StoresLen t h r b n) :
    (capacity t r).run h = .ok (blockSize t n) h := by
  have hrun := hs.run_capacity
  have hsum := hs.sum_lt_modulus
  have hN := t.nicheMaxInt_lt_size
  have hadd : t.add n t.size = n + t.size := Machine.add_eq (by omega)
  have hnext := run_nextStep (σ := Heap) (u := h) (t := t) (n := t.add n t.size) (by omega)
    (by omega)
  simp only [Sinstr.HeapRepr.capacity, EStateM.run_bind, hs.run_len] at hrun
  simpa only [capacity, EStateM.run_bind, hs.run_len, hnext, Exec.run_require,
    if_pos (show n + t.size < t.modulus by omega)] using hrun

theorem run_unusedStrCapacity (hs : StoresLen t h r b n) :
    (unusedStrCapacity t r).run h = (r.unusedStrCapacity t).run h := by
  have hsum := hs.sum_lt_modulus
  have hgt := hs.len_gt
  have hlow := le_blockSize t n
  have hhigh := blockSize_lt t n
  have hsub : t.sub (blockSize t n) t.size = blockSize t n - t.size :=
    Machine.sub_eq (by omega) (by omega)
  have hne : t.sub (blockSize t n) t.size ≠ 0 := by omega
  have hstr := run_checkedSub (m := t.toMachine) (σ := Heap) (s := h)
    (a := blockSize t n) (b := t.size) (by omega) (by omega)
  have hunused := run_checkedSub (m := t.toMachine) (σ := Heap) (s := h)
    (a := t.sub (blockSize t n) t.size) (b := n) (by omega) (by omega)
  simp only [unusedStrCapacity, strCapacity, Sinstr.HeapRepr.unusedStrCapacity,
    Sinstr.HeapRepr.strCapacity, EStateM.run_bind, run_capacity hs, hs.run_capacity, hstr,
    Exec.run_require, if_pos hne, EStateM.run_pure, hs.run_len, hunused]

/-- The assertion comes after the additions; they do not need it. -/
theorem run_growCapacity {a : Allocator t.toMachine} {k : Nat} (hs : StoresLen t h r b n)
    (hk : k ≤ t.isizeMax) :
    (growCapacity a k).run (r, h) = (Sinstr.HeapRepr.growCapacity a k).run (r, h) := by
  have hM := t.modulus_eq
  have hlow := le_blockSize t n
  have hN := t.nicheMaxInt_lt_size
  have htop := t.add_align_le (align_dvd_blockSize t n) hs.cap_le_isizeMax
  have hadd : t.add (blockSize t n) k = blockSize t n + k := Machine.add_eq (by omega)
  have hsum := run_checkedAdd (m := t.toMachine) (σ := HeapRepr × Heap) (s := (r, h))
    (a := blockSize t n) (b := k) (by omega)
  have hnext := run_nextStep (σ := HeapRepr × Heap) (u := (r, h)) (t := t)
    (n := t.add (blockSize t n) k) (by omega) (by omega)
  have hfit := layout_fits_of_le (align_dvd_blockSize t n) hs.cap_le_isizeMax
  simp only [growCapacity, Sinstr.HeapRepr.growCapacity, EStateM.run_bind, Exec.run_self,
    Exec.run_onSnd, run_capacity hs, hs.run_capacity, run_fromSizeAlignUnchecked hfit, hsum]
  rewrite [hnext]
  rfl

theorem run_pushStr {a : Allocator t.toMachine} {s : String} (hs : StoresLen t h r b n)
    (hlen : s.utf8ByteSize ≤ t.isizeMax) :
    (pushStr a s).run (r, h) = (Sinstr.HeapRepr.pushStr a s).run (r, h) := by
  have hM := t.modulus_eq
  have hlow := le_blockSize t n
  have hmax := hs.cap_le_isizeMax
  have hsum : ∀ u : HeapRepr × Heap, (checkedAdd t.toMachine n s.utf8ByteSize).run u =
      .ok (t.add n s.utf8ByteSize) u := fun u => run_checkedAdd (by omega)
  simp only [pushStr, Sinstr.HeapRepr.pushStr, EStateM.run_bind, Exec.run_self, Exec.run_onSnd,
    hs.run_len, run_unusedStrCapacity hs, hs.run_unusedStrCapacity]
  split
  · simp only [EStateM.run_bind, Exec.run_onSnd, hs.run_len, hsum]
  · simp only [EStateM.run_bind, run_growCapacity hs hlen, hsum]

end HeapRepr

namespace NonEmptySinStr

open Sinstr.NonEmptySinStr (Represents ofUsize?)

variable {a : Allocator t.toMachine} {x : NonEmptySinStr t} {c s : String} {p : Addr t.toMachine}

theorem run_newHeap (hlen : s.utf8ByteSize ≤ t.isizeMax) :
    (newHeap a s).run h = (Sinstr.NonEmptySinStr.newHeap a s).run h := by
  have hlt := size_add_lt_modulus t hlen
  have hN := t.nicheMaxInt_lt_size
  have hadd : t.add t.size s.utf8ByteSize = t.size + s.utf8ByteSize := Machine.add_eq (by omega)
  have hsum : ∀ u : Heap, (checkedAdd t.toMachine t.size s.utf8ByteSize).run u =
      .ok (t.add t.size s.utf8ByteSize) u := fun u => run_checkedAdd (by omega)
  have hnext : ∀ u : Heap, (nextStep t (t.add t.size s.utf8ByteSize)).run u =
      .ok (Sinstr.nextStep t (t.add t.size s.utf8ByteSize)) u :=
    fun u => run_nextStep (by omega) (by omega)
  unfold newHeap Sinstr.NonEmptySinStr.newHeap
  refine Exec.run_bind_congr fun _ u _ => ?_
  refine Exec.run_bind_congr fun _ v _ => ?_
  rewrite [EStateM.run_bind, hsum v]
  refine Exec.run_bind_congr fun _ w _ => ?_
  rewrite [EStateM.run_bind, hnext w]
  rfl

theorem run_new (hlen : s.utf8ByteSize ≤ t.isizeMax) :
    (new a s).run h = (Sinstr.NonEmptySinStr.new a s).run h := by
  unfold new Sinstr.NonEmptySinStr.new
  by_cases h0 : s.utf8ByteSize = 0
  · simp only [if_pos h0]
  · by_cases hle : t.nicheMaxInt ≥ s.utf8ByteSize
    · simp only [if_neg h0, if_pos hle]
    · simp only [if_neg h0, if_neg hle, EStateM.run_bind, run_newHeap hlen]

/-- The sum with the current length decides the branch. -/
theorem run_pushStr_of_branches (hlen : x.len.run h = .ok n h)
    (hsum : n + s.utf8ByteSize < t.modulus)
    (hheap : x.isHeap = true → (NonEmptySinStr.getHeapMut (HeapRepr.pushStr a s)).run (x, h) =
      (NonEmptySinStr.getHeapMut (Sinstr.HeapRepr.pushStr a s)).run (x, h))
    (hnew : x.isHeap = false →
      (do let both ← Exec.onSnd (do concat a (← x.asStr) s)
          NonEmptySinStr.assign (← Exec.onSnd (newHeap a both))).run (x, h) =
      (do let both ← Exec.onSnd (do concat a (← x.asStr) s)
          NonEmptySinStr.assign (← Exec.onSnd (Sinstr.NonEmptySinStr.newHeap a both))).run (x, h)) :
    (pushStr a s).run (x, h) = (Sinstr.NonEmptySinStr.pushStr a s).run (x, h) := by
  have hadd := run_checkedAdd (m := t.toMachine) (σ := NonEmptySinStr t × Heap) (s := (x, h)) hsum
  simp only [pushStr, Sinstr.NonEmptySinStr.pushStr, EStateM.run_bind, Exec.run_self,
    Exec.run_onSnd, hlen]
  by_cases h0 : s.utf8ByteSize = 0
  · simp only [if_pos h0]
  simp only [if_neg h0, EStateM.run_bind, hadd]
  by_cases hle : t.add n s.utf8ByteSize ≤ t.nicheMaxInt
  · rewrite [if_pos hle, if_pos hle]
    rfl
  simp only [if_neg hle]
  cases hmode : x.isHeap with
  | true => simpa using hheap hmode
  | false => simpa using hnew hmode

theorem run_pushStr_heap (hx : ofUsize? t p.val = some x)
    (hs : StoresLen t h (HeapRepr.ofAddr p) b n) (hlen : s.utf8ByteSize ≤ t.isizeMax) :
    (pushStr a s).run (x, h) = (Sinstr.NonEmptySinStr.pushStr a s).run (x, h) := by
  have hM := t.modulus_eq
  have hlow := le_blockSize t n
  have hmax := hs.cap_le_isizeMax
  have hmode : x.isHeap = true := Sinstr.NonEmptySinStr.isHeap_of_ofUsize? hx
  refine run_pushStr_of_branches (Sinstr.NonEmptySinStr.run_len_of_heap hx hs.run_len) (by omega)
    (fun _ => ?_) fun hinline => ?_
  · exact Sinstr.NonEmptySinStr.run_getHeapMut_congr hx (HeapRepr.run_pushStr hs hlen)
  · rw [hmode] at hinline
    cases hinline

/-- The library refuses to concatenate beyond `isize::MAX`. -/
theorem run_pushStr_inline (r : Represents h x c) (hmode : x.isHeap = false)
    (hlen : s.utf8ByteSize ≤ t.isizeMax) :
    (pushStr a s).run (x, h) = (Sinstr.NonEmptySinStr.pushStr a s).run (x, h) := by
  have hM := t.modulus_eq
  have hc := r.len_le
  refine run_pushStr_of_branches r.run_len (by omega) (fun hheap => ?_) fun _ => ?_
  · rw [hmode] at hheap
    cases hheap
  · simp only [EStateM.run_bind, Exec.run_onSnd, r.run_asStr]
    by_cases hover : c.utf8ByteSize + s.utf8ByteSize ≤ t.isizeMax
    · have hcat : (c ++ s).utf8ByteSize ≤ t.isizeMax := by rwa [String.utf8ByteSize_append]
      simp only [run_concat hover]
      cases a.scratch h (c.utf8ByteSize + s.utf8ByteSize) with
      | false => rfl
      | true => simp only [if_true, Exec.run_onSnd, run_newHeap hcat]
    · simp only [run_concat_overflow hover]

/-- Appending to any value, no sum or difference wraps. -/
theorem run_pushStr (r : Represents h x c) (hlen : s.utf8ByteSize ≤ t.isizeMax) :
    (pushStr a s).run (x, h) = (Sinstr.NonEmptySinStr.pushStr a s).run (x, h) := by
  have hinline := r.isInlined_eq
  cases r with
  | heap p b hx hp hb => exact run_pushStr_heap hx (hb.storesLen hp) hlen
  | inline hpos hle hdisc hdata =>
      rw [decide_eq_true hle] at hinline
      exact run_pushStr_inline (.inline hpos hle hdisc hdata)
        (Sinstr.NonEmptySinStr.isHeap_of_isInlined hinline) hlen

end NonEmptySinStr

end Checked

end Sinstr
