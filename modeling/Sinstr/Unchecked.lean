import Sinstr.SetLimit
import Sinstr.Refinement

/-!
# The unchecked setter

`SinStr::set_str_unchecked` takes an empty value for one that is about to own a
block. Everywhere else it is `set_str` without the test for the empty string.
-/

namespace Sinstr

open Rust Exec

variable {t : Target}

/-- Below the documented limit, a size that is too large goes unchecked. -/
theorem limitFault_of_lt {n : Nat} (hn : t.size + n ≤ t.isizeMax)
    (hbig : t.isizeMax < blockSize t n) (isHeap : Bool) :
    limitFault t n isHeap = some (.unsound .assertUnchecked) ∨
      limitFault t n isHeap = some (.unsound .layout) := by
  have hone := t.one_lt_size
  cases isHeap with
  | true => exact Or.inl (by rw [limitFault, if_pos hbig])
  | false =>
      exact Or.inr (by rw [limitFault, if_neg (by omega), if_neg (by omega), if_pos hbig])

namespace SinStr

variable {a : Allocator t.toMachine} {h : Heap} {x : SinStr t} {s : String}

/-- `set_str_unchecked` keeps the contracts of what it calls, and where `set_str`
succeeds it leaves the same content in the same mode. -/
structure UncheckedAgrees (a : Allocator t.toMachine) (h : Heap) (x : SinStr t) (s : String) :
    Prop where
  contract : fault? ((setStrUnchecked a s).run (x, h)) ≠ some (.unsound .callerContract)
  no_assert : fault? ((setStrUnchecked a s).run (x, h)) ≠ some (.unsound .assertUnchecked)
  layout : fault? ((setStrUnchecked a s).run (x, h)) ≠ some (.unsound .layout)
  agrees : ∀ x₁ h₁, (setStr a s).run (x, h) = .ok () (x₁, h₁) →
    ∃ x₂ h₂ c, (setStrUnchecked a s).run (x, h) = .ok () (x₂, h₂) ∧
      Observes h₁ x₁ c ∧ Observes h₂ x₂ c

theorem run_setStrUnchecked_some {n : NonEmptySinStr t} (hpos : 0 < s.utf8ByteSize) :
    (setStrUnchecked a s).run (⟨some n⟩, h) = (setStr a s).run (⟨some n⟩, h) := by
  have hinner : NonEmptySinStr.setStr a s = NonEmptySinStr.setStrUnchecked a s := by
    simp [NonEmptySinStr.setStr, Exec.panicUnless, hpos.ne']
  rw [run_setStr_some hpos, hinner]
  simp [setStrUnchecked, hpos.ne']

theorem run_setStr_EMPTY (hpos : 0 < s.utf8ByteSize) :
    (setStr a s).run (EMPTY, h) = replacing EMPTY ((new a s).run h) := by
  have hassign := run_assign_of_quiet_drop drop (new a s) (x := EMPTY) (h := h) fun _ => rfl
  simpa [setStr, hpos.ne', EMPTY, assign] using hassign

theorem run_setStrUnchecked_EMPTY (hpos : 0 < s.utf8ByteSize) :
    (setStrUnchecked a s).run (EMPTY, h) = replacing EMPTY ((newHeap a s).run h) := by
  have hassign := run_assign_of_quiet_drop drop (newHeap a s) (x := EMPTY) (h := h)
    fun _ => rfl
  simpa [setStrUnchecked, hpos.ne', EMPTY, assign] using hassign

theorem fault_newHeap :
    fault? ((newHeap a s).run h) = fault? ((NonEmptySinStr.newHeap a s).run h) := by
  simp only [newHeap, EStateM.run_bind]
  cases (NonEmptySinStr.newHeap a s).run h <;> rfl

/-- The empty value calls `new_heap` for a length that belongs in the word. -/
theorem fault_setStrUnchecked_EMPTY (hpos : 0 < s.utf8ByteSize)
    (hle : s.utf8ByteSize ≤ t.nicheMaxInt) :
    fault? ((setStrUnchecked a s).run ((EMPTY : SinStr t), h)) =
      some (.unsound .callerContract) := by
  rw [run_setStrUnchecked_EMPTY hpos, fault?_replacing, fault_newHeap]
  simp [NonEmptySinStr.newHeap, Nat.not_lt.mpr hle, fault?]

/-- Apart from that, the two setters are the same. -/
theorem run_setStrUnchecked (hpos : 0 < s.utf8ByteSize)
    (hsome : x = EMPTY → t.nicheMaxInt < s.utf8ByteSize) :
    (setStrUnchecked a s).run (x, h) = (setStr a s).run (x, h) := by
  obtain ⟨_ | n⟩ := x
  · have hN := hsome rfl
    have hnew : (new a s).run h = (newHeap a s).run h := by
      simp only [new, newHeap, NonEmptySinStr.new, hpos.ne', Nat.not_le.mpr hN, if_false,
        EStateM.run_bind]
      cases (NonEmptySinStr.newHeap a s).run h <;> rfl
    exact (run_setStrUnchecked_EMPTY hpos).trans (hnew ▸ (run_setStr_EMPTY hpos).symm)
  · exact run_setStrUnchecked_some hpos

theorem setStrUnchecked_fault_iff {c : String} {e : Fault} (r : Represents h x c)
    (hpos : 0 < s.utf8ByteSize) (hlen : s.utf8ByteSize ≤ t.isizeMax)
    (hsome : x = EMPTY → t.nicheMaxInt < s.utf8ByteSize) (he : ¬OfAllocator e) :
    fault? ((setStrUnchecked a s).run (x, h)) = some e ↔
      limitFault t s.utf8ByteSize x.isHeap = some e := by
  obtain ⟨_ | n⟩ := x
  · have hfault : fault? ((setStrUnchecked a s).run (⟨none⟩, h)) =
        fault? ((NonEmptySinStr.newHeap a s).run h) := by
      rw [← fault_newHeap, ← fault?_replacing EMPTY, ← run_setStrUnchecked_EMPTY hpos]
      rfl
    rw [hfault]
    exact NonEmptySinStr.newHeap_fault_iff (hsome rfl) hlen he
  · rw [run_setStrUnchecked_some hpos, run_setStr_some hpos, fault_onInner,
      NonEmptySinStr.run_setStr_of_pos hpos]
    exact NonEmptySinStr.setStrUnchecked_fault_iff (x := n) r hpos hlen he

theorem uncheckedAgrees_iff {c : String} (r : Represents h x c) (hpos : 0 < s.utf8ByteSize)
    (hlen : t.size + s.utf8ByteSize ≤ t.isizeMax) :
    UncheckedAgrees a h x s ↔ (x = EMPTY → t.nicheMaxInt < s.utf8ByteSize) ∧
      t.size + s.utf8ByteSize + (t.align - 1) ≤ t.isizeMax := by
  have hround := blockSize_le_isizeMax_iff t s.utf8ByteSize
  have hmax : s.utf8ByteSize ≤ t.isizeMax := by omega
  constructor
  · intro hagree
    have hsome : x = EMPTY → t.nicheMaxInt < s.utf8ByteSize := by
      rintro rfl
      exact Nat.not_le.mp fun hle => hagree.contract (fault_setStrUnchecked_EMPTY hpos hle)
    refine ⟨hsome, hround.mp (Nat.not_lt.mp fun hbig => ?_)⟩
    rcases limitFault_of_lt hlen hbig x.isHeap with hf | hf
    · exact hagree.no_assert ((setStrUnchecked_fault_iff r hpos hmax hsome id).mpr hf)
    · exact hagree.layout ((setStrUnchecked_fault_iff r hpos hmax hsome id).mpr hf)
  · rintro ⟨hsome, hfit⟩
    have hnone := limitFault_of_le (hround.mpr hfit) x.isHeap
    have hno : ∀ {e : Fault}, ¬OfAllocator e →
        fault? ((setStrUnchecked a s).run (x, h)) ≠ some e := by
      intro e he
      rw [Ne, setStrUnchecked_fault_iff r hpos hmax hsome he, hnone]
      nofun
    refine ⟨hno id, hno id, hno id, fun x₁ h₁ hrun => ?_⟩
    have hout : (resource t).Outcome True h x c s ((setStr a s).run (x, h)) := outcome_setStr r hmax
    rw [hrun] at hout
    cases hout with
    | done rep _ _ =>
        exact ⟨x₁, h₁, s, (run_setStrUnchecked hpos hsome).trans hrun,
          Represents.observes rep, Represents.observes rep⟩

end SinStr

/-- On every value that a run can produce, and for every argument within the size
limit, the two setters agree exactly if the value is not the empty one receiving
an inline length and the rounded size is valid as well. -/
theorem set_str_unchecked_agrees_iff {a : Allocator t.toMachine} {spec : Nat → Option String}
    {w : Pool (SinStr t)} {i : Nat} {x : SinStr t} {s : String}
    (hr : Reachable (SinStr.interface a) (fun _ _ => True) spec w) (hx : w.vals i = some x)
    (hpos : 0 < s.utf8ByteSize) (hlen : t.size + s.utf8ByteSize ≤ t.isizeMax) :
    SinStr.UncheckedAgrees a w.heap x s ↔
      (x = SinStr.EMPTY → t.nicheMaxInt < s.utf8ByteSize) ∧
        t.size + s.utf8ByteSize + (t.align - 1) ≤ t.isizeMax := by
  obtain ⟨c, _, r⟩ := hr.invariant.exists_content hx
  exact SinStr.uncheckedAgrees_iff r hpos hlen

theorem inlineEmptyRun_unchecked_agrees :
    let w := final ((Op.execAll SinStr.paged SinStr.inlineEmptyRun).run Pool.empty)
    ∃ x, w.vals 0 = some x ∧
      SinStr.UncheckedAgrees (PointerWidth.w64.paged .little) w.heap x "hello, world" := by
  intro w
  obtain ⟨x, hx, _⟩ :=
    SinStr.inlineEmptyRun_reachable.invariant.exists_val (i := 0) (c := "abc") rfl
  exact ⟨x, hx, (set_str_unchecked_agrees_iff SinStr.inlineEmptyRun_reachable hx (by decide)
    (by decide +kernel)).mpr ⟨fun _ => by decide +kernel, by decide +kernel⟩⟩

/-- `set_str_unchecked("abc")` on the empty value violates the contract of
`new_heap`, and `set_str("abc")` succeeds. -/
theorem empty_set_str_unchecked_violates :
    ∃ spec w x, Reachable SinStr.paged (fun _ _ => True) spec w ∧ w.vals 1 = some x ∧
      returns ((SinStr.setStr (PointerWidth.w64.paged .little) "abc").run (x, w.heap)) = true ∧
      fault? ((SinStr.setStrUnchecked (PointerWidth.w64.paged .little) "abc").run (x, w.heap)) =
        some (.unsound .callerContract) ∧
      ¬SinStr.UncheckedAgrees (PointerWidth.w64.paged .little) w.heap x "abc" := by
  let w := final ((Op.execAll SinStr.paged SinStr.inlineEmptyRun).run Pool.empty)
  have hempty : w.vals 1 = some SinStr.EMPTY := by
    obtain ⟨⟨_ | n⟩, hx, r⟩ :=
      SinStr.inlineEmptyRun_reachable.invariant.exists_val (i := 1) (c := "") rfl
    · exact hx
    · exact absurd rfl (NonEmptySinStr.Represents.ne_empty (x := n) r)
  have hreturns : returns ((SinStr.setStr (PointerWidth.w64.paged .little) "abc").run
      (SinStr.EMPTY, w.heap)) = true := by decide +kernel
  have hfault : fault? ((SinStr.setStrUnchecked (PointerWidth.w64.paged .little) "abc").run
      (SinStr.EMPTY, w.heap)) = some (.unsound .callerContract) :=
    SinStr.fault_setStrUnchecked_EMPTY (by decide) (by decide)
  exact ⟨_, w, _, SinStr.inlineEmptyRun_reachable, hempty, hreturns, hfault,
    fun hagree => hagree.contract hfault⟩

end Sinstr
