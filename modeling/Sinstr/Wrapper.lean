import Sinstr.Api
import Sinstr.Rust.Embed

/-!
# `SinStr` around `NonEmptySinStr`

A `SinStr` is a `NonEmptySinStr` or nothing. On programs that never make an empty
string the option cannot be seen: both types take the same steps on the same heap, to
the same words and the same faults. This needs no invariant.
-/

namespace Sinstr

open Rust

variable {t : Target}

namespace SinStr

variable {a : Allocator t.toMachine} {h : Heap} {x : SinStr t} {n : NonEmptySinStr t} {s : String}

/-- The `Some` of a word. -/
def ofInner (n : NonEmptySinStr t) : SinStr t := ⟨some n⟩

/-- Builders that do not make an empty string. -/
def BuildsText (b : Builder) : Prop := 0 < b.value.utf8ByteSize

/-- All changes but `set_str("")`, which `NonEmptySinStr` refuses. -/
def SetsText (m : Mutator) : Prop := ∀ s, m = .setStr s → 0 < s.utf8ByteSize

theorem run_return_some {m : Exec Heap (NonEmptySinStr t)} :
    (do return ⟨some (← m)⟩ : Exec Heap (SinStr t)).run h =
      Exec.mapValue ofInner (m.run h) := by
  simp only [EStateM.run_bind]
  cases m.run h <;> rfl

theorem run_new_of_pos (hpos : 0 < s.utf8ByteSize) :
    (new a s).run h = Exec.mapValue ofInner ((NonEmptySinStr.newUnwrap a s).run h) := by
  simp only [new, EStateM.run_bind, NonEmptySinStr.run_new_of_pos hpos]
  cases (NonEmptySinStr.newUnwrap a s).run h <;> rfl

theorem run_build_ofInner {b : Builder} (hb : BuildsText b) (h : Heap) :
    (build a (.of b)).run h = Exec.mapValue ofInner ((NonEmptySinStr.build a b).run h) := by
  cases b with
  | new s => exact run_new_of_pos hb
  | newConst s =>
      have hne : s.utf8ByteSize ≠ 0 := Nat.ne_of_gt hb
      simp only [build, newConst, if_neg hne]
      exact run_return_some
  | literal s =>
      have hne : s.utf8ByteSize ≠ 0 := Nat.ne_of_gt hb
      by_cases hle : s.utf8ByteSize ≤ t.nicheMaxInt
      · simp only [build, sinstrLiteral, NonEmptySinStr.build, neSinstrLiteral, EStateM.run_bind,
          Exec.run_panicUnless, if_pos hle, if_neg hne, if_pos hne]
        exact run_return_some
      · simp only [build, sinstrLiteral, NonEmptySinStr.build, neSinstrLiteral, EStateM.run_bind,
          Exec.run_panicUnless, if_neg hle]
        rfl
  | newInline s => exact run_return_some
  | newHeap s => exact run_return_some
  | visitStr s =>
      have hpos : 0 < s.utf8ByteSize := hb
      rw [NonEmptySinStr.build, NonEmptySinStr.run_unwrap_visitStr hpos, ← run_new_of_pos hpos]
      exact run_unwrap_ok (new a s) h

theorem run_onInner_eq {α : Type} (m : Exec (NonEmptySinStr t × Heap) α) :
    (onInner n m).run (x, h) = Exec.mapState (Prod.map ofInner id) (m.run (n, h)) := by
  unfold onInner
  simp only [EStateM.run]
  cases m (n, h) <;> rfl

theorem run_mutate_ofInner {m : Mutator} (hm : SetsText m) (n : NonEmptySinStr t) (h : Heap) :
    (mutate a m).run (ofInner n, h) =
      Exec.mapState (Prod.map ofInner id) ((NonEmptySinStr.mutate a m).run (n, h)) := by
  cases m with
  | setStr s =>
      rw [← run_onInner_eq (x := ofInner n)]
      exact run_setStr_some (hm s rfl)
  | setStrUnchecked s =>
      by_cases h0 : s.utf8ByteSize = 0
      · simp only [mutate, setStrUnchecked, NonEmptySinStr.mutate, NonEmptySinStr.setStrUnchecked,
          EStateM.run_bind, Exec.run_require, h0, ne_eq, not_true, if_false]
        rfl
      · rw [← run_onInner_eq (x := ofInner n)]
        simp only [mutate, setStrUnchecked, EStateM.run_bind, Exec.run_require, ne_eq, h0,
          not_false_eq_true, if_true, Exec.run_self, ofInner]
        rfl
  | pushStr s => exact run_onInner_eq (x := ofInner n) (NonEmptySinStr.pushStr a s)
  | asStrMut s => exact run_onInner_eq (x := ofInner n) (NonEmptySinStr.asStrMut s)
  | asBytesMut new => exact run_onInner_eq (x := ofInner n) (NonEmptySinStr.asBytesMut new)

theorem embeds (a : Allocator t.toMachine) :
    Embeds (NonEmptySinStr.api a) (api a) ofInner .of BuildsText SetsText where
  build := run_build_ofInner
  clone _ _ := run_return_some
  call := run_mutate_ofInner
  drop _ _ := rfl

end SinStr

/-- A program that never makes an empty string does the same with `SinStr` as with
`NonEmptySinStr`: step by step the same words, the same heap and the same end. -/
theorem wrapper_simulates (a : Allocator t.toMachine) (ops : List (Op Builder Mutator))
    (hops : ∀ op ∈ ops, op.Admits SinStr.BuildsText SinStr.SetsText)
    (w : Pool (NonEmptySinStr t)) :
    (Op.execAll (SinStr.api a) (ops.map (Op.map .of))).run (w.map SinStr.ofInner) =
      Exec.mapState (Pool.map SinStr.ofInner) ((Op.execAll (NonEmptySinStr.api a) ops).run w) :=
  (SinStr.embeds a).execAll hops w

/-- A literal that moves to a block, is cloned and comes back into the word. -/
def literalRun : List (Op Builder Mutator) :=
  [.build 0 (.literal "abc"), .call 0 (.pushStr "defghijkl"), .clone 1 0, .call 1 (.setStr "xyz")]

theorem literalRun_simulates :
    (Op.execAll (SinStr.api (PointerWidth.w64.paged .little)) (literalRun.map (Op.map .of))).run
        (Pool.empty.map SinStr.ofInner) =
      Exec.mapState (Pool.map SinStr.ofInner)
        ((Op.execAll (NonEmptySinStr.api (PointerWidth.w64.paged .little)) literalRun).run
          Pool.empty) := by
  refine wrapper_simulates (PointerWidth.w64.paged .little) literalRun (fun op hop => ?_) Pool.empty
  simp only [literalRun, List.mem_cons, List.not_mem_nil, or_false] at hop
  rcases hop with rfl | rfl | rfl | rfl
  · exact (by decide : 0 < "abc".utf8ByteSize)
  · rintro s hs
    cases hs
  · trivial
  · rintro s hs
    cases hs
    decide

end Sinstr
