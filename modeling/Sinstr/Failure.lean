import Sinstr.Runs

/-!
# Failure atomicity

An operation that panics or is refused memory leaves its value, the blocks and
the whole pool as they were: every point of failure comes before the first
visible change.
-/

namespace Sinstr

open Rust

variable {t : Target} {V B M : Type} {I : Interface V String B M} {spec : Nat → Option String}
  {w : Pool V} {x : V} {i : Nat}

/-- The word, the blocks and their account are the same, and the pool can go on
as if the operation had not been called. -/
structure Restored (I : Interface V String B M) (spec : Nat → Option String) (w : Pool V) (x x' : V)
    (h' : Heap) : Prop where
  word : x' = x
  live : h'.live = w.heap.live
  created : h'.created = w.heap.created
  freed : h'.freed = w.heap.freed
  invariant : Invariant I spec ⟨w.vals, h'⟩

/-- If the call unwinds, nothing has changed. -/
def FailsAtomically {α : Type} (I : Interface V String B M) (spec : Nat → Option String)
    (w : Pool V) (x : V) (result : EStateM.Result Fault (V × Heap) α) : Prop :=
  ∀ e x' h', result = .error e (x', h') → e.Unwinds → Restored I spec w x x' h'

theorem restored_of_quiet (hinv : Invariant I spec w) {h' : Heap} (hq : Quiet w.heap h') :
    Restored I spec w x x h' :=
  ⟨rfl, hq.live, hq.created, hq.freed, hinv.quiet hq⟩

theorem failsAtomically_call {m : M} (hinv : Invariant I spec w) (hx : w.vals i = some x)
    (hcall : ∀ c, spec i = some c → I.Callable m c) :
    FailsAtomically I spec w x ((I.call m).run (x, w.heap)) := by
  obtain ⟨c, hc, r⟩ := hinv.exists_content hx
  have hout := I.called r (hcall c hc)
  intro e x' h' hrun hu
  rw [hrun] at hout
  cases hout with
  | fault he unwind =>
      obtain ⟨rfl, hq, _⟩ := unwind hu
      exact restored_of_quiet hinv hq

theorem failsAtomically_clone (hinv : Invariant I spec w) (hx : w.vals i = some x) :
    FailsAtomically I spec w x ((Exec.onSnd (I.clone x)).run (x, w.heap)) := by
  obtain ⟨c, _, r⟩ := hinv.exists_content hx
  have hout := I.cloned r
  intro e x' h' hrun hu
  rw [Exec.run_onSnd] at hrun
  generalize (I.clone x).run w.heap = result at hout hrun
  cases hout with
  | done rep transfer snug exact => cases hrun
  | fault he unwind =>
      cases hrun
      exact restored_of_quiet hinv (unwind hu).1

/-- `set_str`, `push_str` and `clone` of both types either succeed or, when they
panic or are refused memory, leave everything as it was. -/
theorem failure_atomicity (a : Allocator t.toMachine) (i : Nat) (s : String)
    (hs : s.utf8ByteSize ≤ t.isizeMax) :
    (∀ spec w x, Reachable (NonEmptySinStr.interface a) (fun _ _ => True) spec w →
      w.vals i = some x →
      FailsAtomically (NonEmptySinStr.interface a) spec w x
        ((NonEmptySinStr.setStr a s).run (x, w.heap)) ∧
      FailsAtomically (NonEmptySinStr.interface a) spec w x
        ((NonEmptySinStr.pushStr a s).run (x, w.heap)) ∧
      FailsAtomically (NonEmptySinStr.interface a) spec w x
        ((Exec.onSnd (x.clone a)).run (x, w.heap))) ∧
    (∀ spec w x, Reachable (SinStr.interface a) (fun _ _ => True) spec w →
      w.vals i = some x →
      FailsAtomically (SinStr.interface a) spec w x ((SinStr.setStr a s).run (x, w.heap)) ∧
      FailsAtomically (SinStr.interface a) spec w x ((SinStr.pushStr a s).run (x, w.heap)) ∧
      FailsAtomically (SinStr.interface a) spec w x
        ((Exec.onSnd (x.clone a)).run (x, w.heap))) := by
  refine ⟨fun spec w x hr hx => ?_, fun spec w x hr hx => ?_⟩
  · have hinv := hr.invariant
    exact ⟨failsAtomically_call (m := Method.setStr s) hinv hx fun _ _ => hs,
      failsAtomically_call (m := Method.pushStr s) hinv hx fun _ _ => hs,
      failsAtomically_clone hinv hx⟩
  · have hinv := hr.invariant
    exact ⟨failsAtomically_call (m := Method.setStr s) hinv hx fun _ _ => hs,
      failsAtomically_call (m := Method.pushStr s) hinv hx fun _ _ => hs,
      failsAtomically_clone hinv hx⟩

/-- An allocator with a single page: no block can be moved. -/
abbrev onePage : Allocator (PointerWidth.w64.target .little).toMachine :=
  .among ((PointerWidth.w64.pages .little).take 1)

/-- A heap string on the only page. -/
def onePageRun : List (Op String Method) := [.build 0 "123456789"]

theorem onePageRun_reachable :
    Reachable (NonEmptySinStr.interface onePage) (fun _ _ => True)
      (Op.applyAll (NonEmptySinStr.interface onePage) (fun _ => none) onePageRun)
      (Exec.final ((Op.execAll (NonEmptySinStr.interface onePage) onePageRun).run Pool.empty)) :=
  Reachable.of_returns ⟨⟨⟨rfl, by decide, by decide⟩, trivial⟩, trivial⟩ (by decide +kernel)

/-- Growing the string is refused, and the string is as before. -/
theorem onePageRun_push_refused :
    let w := Exec.final ((Op.execAll (NonEmptySinStr.interface onePage) onePageRun).run Pool.empty)
    ∃ x, w.vals 0 = some x ∧
      Exec.returns ((NonEmptySinStr.pushStr onePage "0123456789").run (x, w.heap)) = false ∧
      FailsAtomically (NonEmptySinStr.interface onePage)
        (Op.applyAll (NonEmptySinStr.interface onePage) (fun _ => none) onePageRun) w x
        ((NonEmptySinStr.pushStr onePage "0123456789").run (x, w.heap)) := by
  intro w
  obtain ⟨x, hx, _⟩ := onePageRun_reachable.invariant.exists_val (i := 0) (c := "123456789") rfl
  have hrefused : (w.vals 0).map (fun x => Exec.returns
      ((NonEmptySinStr.pushStr onePage "0123456789").run (x, w.heap))) = some false := by
    decide +kernel
  rw [hx, Option.map_some, Option.some.injEq] at hrefused
  exact ⟨x, hx, hrefused,
    ((failure_atomicity onePage 0 "0123456789" (by decide)).1 _ w x onePageRun_reachable hx).2.1⟩

end Sinstr
