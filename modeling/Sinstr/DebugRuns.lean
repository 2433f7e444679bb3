import Sinstr.DebugAsserts
import Sinstr.Guarantees

/-!
# Runs of the debug build

A program that is compiled with debug assertions and overflow checks keeps all the
guarantees, and differs from its release build only where that one is undefined. The
assertions also make up for the gap in the contract of `SinStr::set_str_unchecked`:
in the debug build what it documents is enough, for an allocator that goes by the
address of a block alone.
-/

namespace Sinstr

open Rust

variable {t : Target}

/-- Reads and comparisons depend on what values stand for alone. -/
def Views.ofRep {V : Type} {R R' : Resource V String} (views : Views R t)
    (hrep : ∀ {h x s}, R'.Rep h x s → R.Rep h x s) : Views R' t where
  isInlined := views.isInlined
  asBytes := views.asBytes
  asStr := views.asStr
  eq := views.eq
  cmp := views.cmp
  partialCmp := views.partialCmp
  hash := views.hash
  writes := views.writes
  isInlined_eq r := views.isInlined_eq (hrep r)
  run_asBytes r := views.run_asBytes (hrep r)
  run_asStr r := views.run_asStr (hrep r)
  run_eq r r' := views.run_eq (hrep r) (hrep r')
  run_cmp r r' := views.run_cmp (hrep r) (hrep r')
  run_partialCmp r r' := views.run_partialCmp (hrep r) (hrep r')
  run_hash r := views.run_hash (hrep r)

/-- The debug build keeps the guarantees, and takes the next step and any further run
as the release build does, unless an assertion stops it. -/
structure DebugAgrees {V B M : Type} {I : Interface V String B M} (G : Guard I Debug.assertions)
    (views : Views I.toResource t) (spec : Nat → Option String) (w : Pool V) : Prop where
  guarantees : Guarantees G.interface (views.ofRep id) spec w
  step : ∀ op : Op B M, op.Legal I spec → Asserted Debug.assertions (Guard.Kept w)
    ((op.exec I).run w) ((op.exec G.interface).run w)
  run : ∀ ops, Op.LegalRun I (fun _ _ => True) spec ops →
    Asserted Debug.assertions (fun _ => True) ((Op.execAll I ops).run w)
      ((Op.execAll G.interface ops).run w)

theorem debugAgrees_of_reachable {V B M : Type} {I : Interface V String B M}
    {G : Guard I Debug.assertions} (views : Views I.toResource t) {spec : Nat → Option String}
    {w : Pool V} (hr : Reachable G.interface (fun _ _ => True) spec w) :
    DebugAgrees G views spec w where
  guarantees := .of_invariant _ hr.invariant
  step _ hlegal := G.exec (G.invariant_iff.mp hr.invariant) hlegal
  run _ hlegal := G.execAll (G.invariant_iff.mp hr.invariant) hlegal

/-- The debug build reaches whatever the release build reaches, and wherever it gets,
it behaves as the release build or panics in an assertion before undefined behaviour. -/
theorem debug_agrees (a : Allocator t.toMachine) :
    (∀ spec w,
      (Reachable (NonEmptySinStr.api a) (fun _ _ => True) spec w →
        Reachable (Debug.NonEmptySinStr.guard a).interface (fun _ _ => True) spec w) ∧
      (Reachable (Debug.NonEmptySinStr.guard a).interface (fun _ _ => True) spec w →
        DebugAgrees (Debug.NonEmptySinStr.guard a)
          (NonEmptySinStr.views (NonEmptySinStr.MayFault t)) spec w)) ∧
    (∀ spec w,
      (Reachable (SinStr.api a) (fun _ _ => True) spec w →
        Reachable (Debug.SinStr.guard a).interface (fun _ _ => True) spec w) ∧
      (Reachable (Debug.SinStr.guard a).interface (fun _ _ => True) spec w →
        DebugAgrees (Debug.SinStr.guard a) (SinStr.views t) spec w)) :=
  ⟨fun _ _ => ⟨(Debug.NonEmptySinStr.guard a).reachable, debugAgrees_of_reachable _⟩,
    fun _ _ => ⟨(Debug.SinStr.guard a).reachable, debugAgrees_of_reachable _⟩⟩

/-- A debug build of the run that mixes safe and unsafe functions. -/
theorem SinStr.mixedRun_debug_agrees :
    DebugAgrees (Debug.SinStr.guard (PointerWidth.w64.paged .little))
      (views (PointerWidth.w64.target .little))
      (Op.applyAll (api (PointerWidth.w64.paged .little)) (fun _ => none) mixedRun)
      (Exec.final ((Op.execAll (api (PointerWidth.w64.paged .little)) mixedRun).run Pool.empty)) :=
  ((debug_agrees (PointerWidth.w64.paged .little)).2 _ _).2
    (((debug_agrees (PointerWidth.w64.paged .little)).2 _ _).1 mixedRun_reachable)

namespace Debug.SinStr

variable {a : Allocator t.toMachine} {h : Heap} {x : SinStr t} {c s : String}

/-- The faults of a program that only keeps to what is documented. -/
inductive DocumentedFault (t : Target) (c : String) : Fault → Heap → Prop
  | guarded {e h'} (he : AssertedFault assertions (MayFault t) c e h') : DocumentedFault t c e h'
  | inlineLength {h'} (hle : c.utf8ByteSize ≤ t.nicheMaxInt) :
      DocumentedFault t c (.panic "assertion failed: HeapRepr::is_valid_len(len)") h'

/-- The assertion of `new_heap` refuses a length that belongs in the word. -/
theorem run_setStrUnchecked_inlineLength (r : Sinstr.SinStr.Represents h x "")
    (hpos : 0 < s.utf8ByteSize) (hle : s.utf8ByteSize ≤ t.nicheMaxInt) :
    (setStrUnchecked a s).run (x, h) =
      .error (.panic "assertion failed: HeapRepr::is_valid_len(len)") (x, h) := by
  have hvalid : ¬IsValidLen t s.utf8ByteSize := NonEmptySinStr.not_isValidLen hle
  obtain ⟨_ | n⟩ := x
  · simp only [setStrUnchecked, EStateM.run_bind, Exec.run_panicUnless, if_pos hpos.ne',
      Exec.run_self, Exec.run_onSnd, newHeap, NonEmptySinStr.newHeap, if_neg hvalid]
  · exact absurd rfl (Sinstr.SinStr.Represents.ne_empty r)

/-- The debug build of `SinStr` under the contracts that it documents: the argument of
`set_str_unchecked` is not empty, whatever the value. -/
def documented (a : Allocator t.toMachine) :
    Interface (SinStr t) String Sinstr.SinStr.Maker Mutator where
  toResource := (guard a).resource.withFaults (DocumentedFault t)
  build := build a
  value := Sinstr.SinStr.Maker.value
  Buildable := Sinstr.SinStr.Maker.Buildable t
  clone := clone a
  call := mutate a
  effect := Mutator.effect
  Callable := Mutator.Callable t
  Keeps := Mutator.Keeps t
  built hb := ((guard a).interface.built hb).withFaults .guarded
  cloned r := ((guard a).interface.cloned r).withFaults .guarded
  called := by
    intro h x c m r hcall
    by_cases hempty : ∀ s, m = .setStrUnchecked s → c = "" → t.nicheMaxInt < s.utf8ByteSize
    · exact ((guard a).interface.called (m := m) r ⟨hcall, hempty⟩).withFaults .guarded
    · simp only [not_forall, not_lt] at hempty
      obtain ⟨s, rfl, rfl, hle⟩ := hempty
      rw [mutate, run_setStrUnchecked_inlineLength r hcall.1 hle]
      exact .fault (.inlineLength hle) fun _ => ⟨rfl, .refl h, fun _ hc => hc⟩

/-- What is left undefined: a layout that is too large, or an address that the type of
the word excludes. -/
theorem DocumentedFault.cases {e : Fault} (he : DocumentedFault t c e h) :
    e.Unwinds ∨ e = .unsound .layout ∧ Oversize t c.utf8ByteSize ∨
      e = .unsound .invalidValue ∧ ¬t.Complete := by
  cases he with
  | inlineLength _ => exact Or.inl trivial
  | guarded he =>
      cases he with
      | caught _ _ => exact Or.inl trivial
      | same he hne =>
          cases he with
          | allocError _ _ => exact Or.inl trivial
          | panic _ _ => exact Or.inl trivial
          | assertUnchecked _ => exact absurd rfl hne
          | layout hover => exact Or.inr (Or.inl ⟨rfl, hover⟩)
          | invalidValue hcomplete => exact Or.inr (Or.inr ⟨rfl, hcomplete⟩)

end Debug.SinStr

/-- In the debug build the documented contracts are enough: every run that keeps them
has the guarantees, and no step takes a false condition for granted. Where
`set_str_unchecked` mistakes the empty value for one on the heap it panics. -/
theorem documented_contracts_suffice (a : Allocator t.toMachine) (spec : Nat → Option String)
    (w : Pool (SinStr t))
    (hr : Reachable (Debug.SinStr.documented a) (fun _ _ => True) spec w) :
    Guarantees (Debug.SinStr.documented a) ((SinStr.views t).ofRep id) spec w ∧
      ∀ (op : Op SinStr.Maker Mutator) (e : Fault) (w' : Pool (SinStr t)),
        op.Legal (Debug.SinStr.documented a) spec →
        (op.exec (Debug.SinStr.documented a)).run w = .error e w' →
          e.Unwinds ∧ w'.vals = w.vals ∨
          ∃ s, op.content (Debug.SinStr.documented a) spec = some s ∧
            (e = .unsound .layout ∧ Oversize t s.utf8ByteSize ∨
              e = .unsound .invalidValue ∧ ¬t.Complete) := by
  have hguarantees : Guarantees (Debug.SinStr.documented a) ((SinStr.views t).ofRep id) spec w :=
    .of_invariant _ hr.invariant
  refine ⟨hguarantees, fun op e w' hlegal hrun => ?_⟩
  obtain ⟨⟨s, hs, he⟩, hkept⟩ := hguarantees.fault hlegal hrun
  rcases Debug.SinStr.DocumentedFault.cases he with hu | hunsound
  · exact Or.inl ⟨hu, (hkept hu).1⟩
  · exact Or.inr ⟨s, hs, hunsound⟩

namespace Debug.SinStr

def defaultRun : List (Op Sinstr.SinStr.Maker Mutator) := [.build 0 .default]

def shortCall : Op Sinstr.SinStr.Maker Mutator := .call 0 (.setStrUnchecked "abc")

/-- The pool that the panicking call leaves. -/
def caughtPool : Pool (SinStr (PointerWidth.w64.target .little)) :=
  Exec.final ((shortCall.exec (documented (PointerWidth.w64.paged .little))).run
    (Exec.final ((Op.execAll (documented (PointerWidth.w64.paged .little)) defaultRun).run
      Pool.empty)))

theorem caughtPool_reachable :
    Reachable (documented (PointerWidth.w64.paged .little)) (fun _ _ => True)
      (Op.applyAll (documented (PointerWidth.w64.paged .little)) (fun _ => none) defaultRun)
      caughtPool := by
  have hrun : Op.LegalRun (documented (PointerWidth.w64.paged .little)) (fun _ _ => True)
      (fun _ => none) defaultRun := ⟨⟨⟨rfl, trivial⟩, trivial⟩, trivial⟩
  have hlegal : shortCall.Legal (documented (PointerWidth.w64.paged .little))
      (Op.applyAll (documented (PointerWidth.w64.paged .little)) (fun _ => none) defaultRun) :=
    ⟨"", rfl, by decide, by decide +kernel⟩
  have hfault : Exec.fault? ((shortCall.exec (documented (PointerWidth.w64.paged .little))).run
      (Exec.final ((Op.execAll (documented (PointerWidth.w64.paged .little)) defaultRun).run
        Pool.empty))) = some (.panic "assertion failed: HeapRepr::is_valid_len(len)") := by
    decide +kernel
  exact (Reachable.of_returns hrun (by decide +kernel)).tail
    (.unwound hlegal trivial (Exec.eq_error_of_fault? hfault) trivial)

/-- The word "abc" is not written into the empty value; the pool is as good as before. -/
theorem caughtPool_guarantees :
    Guarantees (documented (PointerWidth.w64.paged .little))
      ((Sinstr.SinStr.views (PointerWidth.w64.target .little)).ofRep id)
      (Op.applyAll (documented (PointerWidth.w64.paged .little)) (fun _ => none) defaultRun)
      caughtPool :=
  (documented_contracts_suffice (PointerWidth.w64.paged .little) _ _ caughtPool_reachable).1

end Debug.SinStr

end Sinstr
