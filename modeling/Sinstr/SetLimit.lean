import Sinstr.Limits

/-!
# The limit of `set_str`

The move from the word to a block checks the documented limit, and the branches
between blocks only promise it. So the same argument can panic on one value and
reach undefined behaviour on another.
-/

namespace Sinstr

open Rust Exec

variable {t : Target}

/-- The faults that depend on what the allocator returns. -/
def OfAllocator : Fault → Prop
  | .allocError _ => True
  | .unsound .invalidValue => True
  | _ => False

/-- How a setter ends at a length that is too large: from the word it meets the
checks of `new_heap`, in a block its own `assert_unchecked`. -/
def limitFault (t : Target) (n : Nat) : (isHeap : Bool) → Option Fault
  | true =>
      if t.isizeMax < blockSize t n then some (.unsound .assertUnchecked) else none
  | false =>
      if n = t.isizeMax then some (.unsound .assertUnchecked)
      else if t.isizeMax < t.size + n then
        some (.panic "NonEmptySinStr::new_heap should never exceed max size")
      else if t.isizeMax < blockSize t n then some (.unsound .layout)
      else none

/-- A result that only the allocator can spoil. -/
theorem ne_some_of_allocator {result : Option Fault} {e : Fault}
    (hr : ∀ e' ∈ result, OfAllocator e') (he : ¬OfAllocator e) : result ≠ some e :=
  fun heq => he (hr e heq)

theorem limitFault_of_le {n : Nat} (hn : blockSize t n ≤ t.isizeMax) (isHeap : Bool) :
    limitFault t n isHeap = none := by
  have hmin := le_blockSize t n
  have hone := t.one_lt_size
  cases isHeap with
  | true => rw [limitFault, if_neg (Nat.not_lt.mpr hn)]
  | false => rw [limitFault, if_neg (by omega), if_neg (by omega), if_neg (by omega)]

theorem limitFault_asserts_iff (n : Nat) (isHeap : Bool) :
    limitFault t n isHeap = some (.unsound .assertUnchecked) ↔
      isHeap = true ∧ t.isizeMax < blockSize t n ∨ isHeap = false ∧ n = t.isizeMax := by
  cases isHeap with
  | true => simp [limitFault]
  | false =>
      rw [limitFault]
      split_ifs with hmax <;> simp [hmax]

theorem limitFault_panics_iff (n : Nat) (isHeap : Bool) :
    (∃ m, limitFault t n isHeap = some (.panic m)) ↔
      isHeap = false ∧ n ≠ t.isizeMax ∧ t.isizeMax < t.size + n := by
  cases isHeap with
  | true =>
      rw [limitFault]
      split_ifs <;> simp
  | false =>
      rw [limitFault]
      split_ifs with hmax htotal hblock
      · simp [hmax]
      · simp [hmax, htotal]
      · simp [htotal]
      · simp [htotal]

theorem blockSize_le_of_inline {n : Nat} (hn : n ≤ t.nicheMaxInt) : blockSize t n ≤ t.isizeMax := by
  have hsize := t.four_mul_size_lt
  have hlow := t.nicheMaxInt_lt_size
  have halign := t.align_le_size
  rw [blockSize_le_isizeMax_iff]
  omega

namespace NonEmptySinStr

variable {a : Allocator t.toMachine} {h : Heap} {x : NonEmptySinStr t} {c s : String} {e : Fault}

theorem newHeap_fault_iff (hN : t.nicheMaxInt < s.utf8ByteSize) (hlen : s.utf8ByteSize ≤ t.isizeMax)
    (he : ¬OfAllocator e) :
    fault? ((newHeap a s).run h) = some e ↔ limitFault t s.utf8ByteSize false = some e := by
  rw [run_newHeap hN hlen, limitFault]
  split_ifs
  · rfl
  · rfl
  · rfl
  · refine iff_false_intro (ne_some_of_allocator ?_ he)
    cases a.alloc h (blockSize t s.utf8ByteSize) with
    | none => simp [fault?, OfAllocator]
    | some p => cases hx : ofUsize? t p.val <;> simp [fault?, hx, OfAllocator]

/-- A short argument is stored in the word, whatever was there. -/
theorem fault_setStrUnchecked_short (r : Represents h x c) (hpos : 0 < s.utf8ByteSize)
    (hle : s.utf8ByteSize ≤ t.nicheMaxInt) : fault? ((setStrUnchecked a s).run (x, h)) = none := by
  obtain ⟨y, hrun, _⟩ := run_newInline (t := t) hpos hle
  obtain ⟨h', hdrop, _⟩ := (resource t).run_drop r
  have hdrop' : x.drop.run h = .ok () h' := hdrop
  simp only [setStrUnchecked, Exec.assertUnchecked, EStateM.run_bind, Exec.run_require,
    if_pos hpos.ne', Exec.run_self, if_pos hle, hrun, assign, Exec.assign, Exec.run_onSnd, hdrop',
    Exec.run_setSelf, fault?]

/-- The faults of a setter that the allocator has no part in. -/
theorem setStrUnchecked_fault_iff (r : Represents h x c) (hpos : 0 < s.utf8ByteSize)
    (hlen : s.utf8ByteSize ≤ t.isizeMax) (he : ¬OfAllocator e) :
    fault? ((setStrUnchecked a s).run (x, h)) = some e ↔
      limitFault t s.utf8ByteSize x.isHeap = some e := by
  by_cases hle : s.utf8ByteSize ≤ t.nicheMaxInt
  · rw [fault_setStrUnchecked_short r hpos hle, limitFault_of_le (blockSize_le_of_inline hle)]
  have hN := Nat.not_le.mp hle
  cases r with
  | inline hposc hlec hdisc hdata =>
      have hin := isInlined_of_disc hdisc hposc hlec
      rw [run_setStrUnchecked_toHeap hin hN, fault?_replacing, newHeap_fault_iff hN hlen he, isHeap,
        hin, Bool.not_true]
  | heap p b hx hp hb =>
      have hin := isInlined_of_ofUsize? hx p.aligned
      have hold := hb.cap_le.trans hb.size_le
      rw [run_setStrUnchecked_heap hx hp hb hN hlen, isHeap, hin, Bool.not_false, limitFault]
      split_ifs with hsame hbig
      · omega
      · simp
      · rfl
      · refine iff_false_intro (ne_some_of_allocator ?_ he)
        cases a.realloc h p.val (blockSize t s.utf8ByteSize) with
        | none => simp [fault?, OfAllocator]
        | some q => cases hy : ofUsize? t q.val <;> simp [fault?, hy, OfAllocator]

end NonEmptySinStr

/-- The documented limit: a panic beyond it, no panic below it, and no false
`assert_unchecked` anywhere. -/
structure LimitLaw (t : Target) (n : Nat) (fault : Option Fault) : Prop where
  panics_iff : (∃ message, fault = some (.panic message)) ↔ t.isizeMax < t.size + n
  no_assert : fault ≠ some (.unsound .assertUnchecked)

/-- The lengths for which a setter keeps to the documented limit: in a block they
have a valid size, in the word they are not `isize::MAX`. -/
def KeepsLimit (t : Target) (n : Nat) (isHeap : Bool) : Prop :=
  (isHeap = true → t.size + n + (t.align - 1) ≤ t.isizeMax) ∧ (isHeap = false → n < t.isizeMax)

theorem limitLaw_iff {n : Nat} {isHeap : Bool} {fault : Option Fault} (hn : n ≤ t.isizeMax)
    (hfault : ∀ e, ¬OfAllocator e → (fault = some e ↔ limitFault t n isHeap = some e)) :
    LimitLaw t n fault ↔ KeepsLimit t n isHeap := by
  have hround := blockSize_le_isizeMax_iff t n
  have hassert := (hfault (.unsound .assertUnchecked) id).trans (limitFault_asserts_iff n isHeap)
  have hpanic := (exists_congr fun m => hfault (.panic m) id).trans
    (limitFault_panics_iff n isHeap)
  have hlaw : LimitLaw t n fault ↔
      ((isHeap = false ∧ n ≠ t.isizeMax ∧ t.isizeMax < t.size + n) ↔ t.isizeMax < t.size + n) ∧
        ¬(isHeap = true ∧ t.isizeMax < blockSize t n ∨ isHeap = false ∧ n = t.isizeMax) := by
    rw [← hassert, ← hpanic]
    exact ⟨fun h => ⟨h.panics_iff, h.no_assert⟩, fun h => ⟨h.1, h.2⟩⟩
  rw [hlaw, KeepsLimit]
  cases isHeap with
  | true => simp; omega
  | false => simp; omega

namespace NonEmptySinStr

variable {a : Allocator t.toMachine} {spec : Nat → Option String} {i : Nat} {s : String}

theorem run_setStr_of_pos {h : Heap} {x : NonEmptySinStr t} (hpos : 0 < s.utf8ByteSize) :
    (setStr a s).run (x, h) = (setStrUnchecked a s).run (x, h) := by
  simp [setStr, hpos.ne']

theorem setStr_limitLaw_iff {h : Heap} {x : NonEmptySinStr t} {c : String} (r : Represents h x c)
    (hpos : 0 < s.utf8ByteSize) (hlen : s.utf8ByteSize ≤ t.isizeMax) :
    LimitLaw t s.utf8ByteSize (fault? ((setStr a s).run (x, h))) ↔
      KeepsLimit t s.utf8ByteSize x.isHeap := by
  rw [run_setStr_of_pos hpos]
  exact limitLaw_iff hlen fun e he => setStrUnchecked_fault_iff r hpos hlen he

end NonEmptySinStr

namespace SinStr

variable {a : Allocator t.toMachine} {h : Heap} {s : String}

theorem fault_onInner {α : Type} {n : NonEmptySinStr t} {x : SinStr t}
    {m : Exec (NonEmptySinStr t × Heap) α} :
    fault? ((onInner n m).run (x, h)) = fault? (m.run (n, h)) := by
  unfold onInner
  simp only [EStateM.run]
  cases m (n, h) <;> rfl

theorem run_setStr_some {n : NonEmptySinStr t} (hpos : 0 < s.utf8ByteSize) :
    (setStr a s).run (⟨some n⟩, h) =
      (onInner n (NonEmptySinStr.setStr a s)).run (⟨some n⟩, h) := by
  simp [setStr, hpos.ne']

end SinStr

/-- On a value that a run can produce, `set_str` of either type keeps to its
documented limit exactly if the length has a valid block size, for a value in a
block, and is not `isize::MAX`, for an inline value. -/
theorem set_str_limit_iff (a : Allocator t.toMachine) (i : Nat) (s : String)
    (hpos : 0 < s.utf8ByteSize) (hlen : s.utf8ByteSize ≤ t.isizeMax) :
    (∀ spec w x, Reachable (NonEmptySinStr.interface a) (fun _ _ => True) spec w →
      w.vals i = some x →
      (LimitLaw t s.utf8ByteSize (fault? ((NonEmptySinStr.setStr a s).run (x, w.heap))) ↔
        KeepsLimit t s.utf8ByteSize x.isHeap)) ∧
    (∀ spec w x, Reachable (SinStr.interface a) (fun _ _ => True) spec w →
      w.vals i = some x → x ≠ SinStr.EMPTY →
      (LimitLaw t s.utf8ByteSize (fault? ((SinStr.setStr a s).run (x, w.heap))) ↔
        KeepsLimit t s.utf8ByteSize x.isHeap)) := by
  refine ⟨fun spec w x hr hx => ?_, fun spec w x hr hx hne => ?_⟩
  · obtain ⟨c, _, r⟩ := hr.invariant.exists_content hx
    exact NonEmptySinStr.setStr_limitLaw_iff r hpos hlen
  · obtain ⟨c, _, r⟩ := hr.invariant.exists_content hx
    obtain ⟨_ | n⟩ := x
    · exact absurd rfl hne
    · rw [SinStr.run_setStr_some hpos, SinStr.fault_onInner]
      exact NonEmptySinStr.setStr_limitLaw_iff (x := n) r hpos hlen

/-- A value in a block and an inline one. -/
def twoModesRun : List (Op String Method) := [.build 0 "hello world", .build 1 "hello"]

theorem twoModesRun_reachable :
    Reachable NonEmptySinStr.paged (fun _ _ => True)
      (Op.applyAll NonEmptySinStr.paged (fun _ => none) twoModesRun)
      (final ((Op.execAll NonEmptySinStr.paged twoModesRun).run Pool.empty)) :=
  Reachable.of_returns
    ⟨⟨⟨rfl, by decide, by decide⟩, trivial⟩, ⟨⟨rfl, by decide, by decide⟩, trivial⟩, trivial⟩
    (by decide +kernel)

theorem twoModesRun_limitLaw :
    let w := final ((Op.execAll NonEmptySinStr.paged twoModesRun).run Pool.empty)
    ∃ x, w.vals 0 = some x ∧ LimitLaw (PointerWidth.w64.target .little) 12
      (fault? ((NonEmptySinStr.setStr (PointerWidth.w64.paged .little) "hello, world").run
        (x, w.heap))) := by
  intro w
  obtain ⟨x, hx, _⟩ := twoModesRun_reachable.invariant.exists_val (i := 0) (c := "hello world") rfl
  have hlimit : KeepsLimit (PointerWidth.w64.target .little) "hello, world".utf8ByteSize x.isHeap :=
    ⟨fun _ => by decide +kernel, fun _ => by decide +kernel⟩
  exact ⟨x, hx, ((set_str_limit_iff (PointerWidth.w64.paged .little) 0 "hello, world" (by decide)
    (by decide +kernel)).1 _ w x twoModesRun_reachable hx).mpr hlimit⟩

/-- One argument beyond the limit: the value in a block reaches a false
`assert_unchecked`, the inline one panics. -/
theorem limit_depends_on_mode :
    let s := asciiStr (2 ^ 63 - 7)
    ∃ spec w x y, Reachable NonEmptySinStr.paged (fun _ _ => True) spec w ∧
      w.vals 0 = some x ∧ w.vals 1 = some y ∧
      fault? ((NonEmptySinStr.setStr (PointerWidth.w64.paged .little) s).run (x, w.heap)) =
        some (.unsound .assertUnchecked) ∧
      fault? ((NonEmptySinStr.setStr (PointerWidth.w64.paged .little) s).run (y, w.heap)) =
        some (.panic "NonEmptySinStr::new_heap should never exceed max size") ∧
      ¬LimitLaw (PointerWidth.w64.target .little) s.utf8ByteSize
        (fault? ((NonEmptySinStr.setStr (PointerWidth.w64.paged .little) s).run (x, w.heap))) := by
  intro s
  have hlen : s.utf8ByteSize = 2 ^ 63 - 7 := utf8ByteSize_asciiStr _
  have hpos : 0 < s.utf8ByteSize := by omega
  have hmax : s.utf8ByteSize ≤ (PointerWidth.w64.target .little).isizeMax := by
    rw [hlen]
    decide +kernel
  clear_value s
  obtain ⟨x, hx, r⟩ := twoModesRun_reachable.invariant.exists_val (i := 0) (c := "hello world") rfl
  obtain ⟨y, hy, r'⟩ := twoModesRun_reachable.invariant.exists_val (i := 1) (c := "hello") rfl
  have hassert : fault? ((NonEmptySinStr.setStr (PointerWidth.w64.paged .little) s).run
      (x, (final ((Op.execAll NonEmptySinStr.paged twoModesRun).run Pool.empty)).heap)) =
        some (.unsound .assertUnchecked) := by
    have hother : ¬OfAllocator (.unsound .assertUnchecked) := id
    have hheap : x.isHeap = true := (NonEmptySinStr.Represents.isHeap_iff r).mpr (by decide +kernel)
    rw [NonEmptySinStr.run_setStr_of_pos hpos,
      NonEmptySinStr.setStrUnchecked_fault_iff r hpos hmax hother, hheap, hlen]
    decide +kernel
  have hpanic : fault? ((NonEmptySinStr.setStr (PointerWidth.w64.paged .little) s).run
      (y, (final ((Op.execAll NonEmptySinStr.paged twoModesRun).run Pool.empty)).heap)) =
        some (.panic "NonEmptySinStr::new_heap should never exceed max size") := by
    have hother (m : String) : ¬OfAllocator (.panic m) := id
    have hheap : y.isHeap = false := by
      rw [NonEmptySinStr.isHeap, NonEmptySinStr.Represents.isInlined_eq r']
      decide +kernel
    rw [NonEmptySinStr.run_setStr_of_pos hpos,
      NonEmptySinStr.setStrUnchecked_fault_iff r' hpos hmax (hother _), hheap, hlen]
    decide +kernel
  exact ⟨_, _, x, y, twoModesRun_reachable, hx, hy, hassert, hpanic,
    fun law => law.no_assert hassert⟩

end Sinstr
