import Sinstr.Refinement

/-!
# Unique ownership in a pool

However values are built, cloned, changed, moved and dropped, each live block
belongs to exactly one value in heap mode, and a step on one value cannot be
seen through another.
-/

namespace Sinstr

open Rust

variable {t : Target} {a : Allocator t.toMachine} {spec : Nat → Option String}
  {w w' : Pool (SinStr t)} {k : Nat}

theorem NonEmptySinStr.Represents.isHeap_iff_owned {h : Heap} {x : NonEmptySinStr t} {s : String}
    (r : x.Represents h s) : x.isHeap = true ↔ ∃ p, x.owned = some p := by
  cases r with
  | inline hpos hle hdisc _ =>
      have hin := isInlined_of_disc hdisc hpos hle
      simp [isHeap, hin, owned_of_isInlined hin]
  | heap p b hx _ _ =>
      rw [isHeap, isInlined_of_ofUsize? hx p.aligned, owned_of_ofUsize? hx]
      simp

namespace SinStr

theorem Represents.isHeap_iff_owned {h : Heap} {x : SinStr t} {s : String}
    (r : Represents h x s) : x.isHeap = true ↔ ∃ p, x.owned = some p := by
  obtain ⟨_ | n⟩ := x
  · simp [isHeap, owned]
  · have hn : n.Represents h s := r
    exact hn.isHeap_iff_owned

/-- The word of place `k`, the block it owns and every read of it are the same. -/
def Untouched (w w' : Pool (SinStr t)) (k : Nat) : Prop :=
  w'.vals k = w.vals k ∧ ∀ x, w.vals k = some x →
    (∀ p, x.owned = some p → w'.heap.live p = w.heap.live p) ∧
    ∃ s, x.Observes w.heap s ∧ x.Observes w'.heap s

theorem untouched_of_frame (hinv : Invariant (interface a) spec w) (hvals : w'.vals k = w.vals k)
    (hlive : ∀ x p, w.vals k = some x → x.owned = some p → w'.heap.live p = w.heap.live p) :
    Untouched w w' k := by
  refine ⟨hvals, fun x hx => ⟨fun p hp => hlive x p hx hp, ?_⟩⟩
  obtain ⟨s, _, r⟩ := hinv.exists_content hx
  have r' : Represents w'.heap x s := (resource t).rep_congr r fun p hp => hlive x p hx hp
  exact ⟨s, r.observes, r'.observes⟩

/-- What a legal step may do to a pool: it never touches memory that is not
live, it leaves alone the places it does not name, and a panic or a refused
request leaves everything alone. -/
structure StepIsolated (w : Pool (SinStr t)) (op : Op String Method)
    (result : EStateM.Result Fault (Pool (SinStr t)) Unit) : Prop where
  no_dead : ∀ w', result ≠ .error (.unsound .deadBlock) w'
  frame : ∀ w', result = .ok () w' → ∀ k ∉ op.places, Untouched w w' k
  unwound : ∀ e w', result = .error e w' → e.Unwinds → ∀ k, Untouched w w' k

theorem stepIsolated {op : Op String Method} (hinv : Invariant (interface a) spec w)
    (hlegal : op.Legal (interface a) spec) :
    StepIsolated w op ((op.exec (interface a)).run w) := by
  have hout := exec_outcome hinv hlegal
  generalize (op.exec (interface a)).run w = result at hout
  cases hout with
  | @done w₁ _ frame _ =>
      refine ⟨nofun, fun w' heq k hk => ?_, nofun⟩
      cases heq
      exact untouched_of_frame hinv (frame k hk).1 (frame k hk).2
  | @fault e w₁ he unwind =>
      refine ⟨fun w' heq => ?_, nofun, fun e' w' heq hu k => ?_⟩
      · cases heq
        obtain ⟨c, _, hf⟩ := he
        cases hf
      · cases heq
        obtain ⟨hvals, hq, _⟩ := unwind hu
        exact untouched_of_frame hinv (congrFun hvals k) fun x p _ _ => congrFun hq.live p

/-- In every reachable pool the live blocks correspond one to one to the values
in heap mode, every value reads as the content the steps gave it, every legal
step is isolated from the other values, and once all values are dropped each
block has been freed exactly once. -/
theorem unique_ownership (hr : Reachable (interface a) (fun _ _ => True) spec w) :
    (∀ i x, w.vals i = some x → x.isHeap = true →
      ∃ p, x.owned = some p ∧ (w.heap.live p).isSome) ∧
    (∀ p, (w.heap.live p).isSome →
      ∃! i, ∃ x, w.vals i = some x ∧ x.isHeap = true ∧ x.owned = some p) ∧
    (∀ i x, w.vals i = some x → ∃ s, spec i = some s ∧ x.Observes w.heap s) ∧
    (∀ op : Op String Method, op.Legal (interface a) spec →
      StepIsolated w op ((op.exec (interface a)).run w)) ∧
    ((∀ i, w.vals i = none) → (∀ p, w.heap.live p = none) ∧ w.heap.freed.Nodup ∧
      w.heap.freed.Perm w.heap.created) := by
  have hinv := hr.invariant
  have hown : ∀ {i x p}, w.vals i = some x → x.owned = some p →
      Pool.own (resource t).owned w.vals i = some p := by
    intro i x p hx hp
    rw [Pool.own, hx]
    exact hp
  refine ⟨fun i x hx hheap => ?_, fun p hp => ?_, fun i x hx => ?_,
    fun op hlegal => stepIsolated hinv hlegal, fun hempty => ?_⟩
  · obtain ⟨s, _, r⟩ := hinv.exists_content hx
    obtain ⟨p, hp⟩ := Represents.isHeap_iff_owned r |>.mp hheap
    exact ⟨p, hp, hinv.owned.live (hown hx hp)⟩
  · obtain ⟨i, hi⟩ := hinv.owned.owner hp
    obtain ⟨x, hx, hxp⟩ := Option.bind_eq_some_iff.mp hi
    obtain ⟨s, _, r⟩ := hinv.exists_content hx
    refine ⟨i, ⟨x, hx, (Represents.isHeap_iff_owned r).mpr ⟨p, hxp⟩, hxp⟩, ?_⟩
    rintro j ⟨y, hy, _, hyp⟩
    exact hinv.owned.inj (hown hy hyp) hi
  · obtain ⟨s, hs, r⟩ := hinv.exists_content hx
    exact ⟨s, hs, Represents.observes r⟩
  · obtain ⟨hlive, hfreed⟩ := hinv.all_dropped hempty
    exact ⟨hlive, hinv.ledger.freed_nodup, hfreed⟩

/-- A value and its clone, changed apart, one moved over the other, and dropped. -/
def sampleRun : List (Op String Method) :=
  [.build 0 "123456789", .clone 1 0, .call 1 (.pushStr "0123456789"), .call 0 (.setStr "abc"),
    .assign 0 1, .drop 0]

/-- Its first four steps: `"abc"` in the word of place 0, a block with place 1. -/
def heldRun : List (Op String Method) := sampleRun.take 4

theorem sampleRun_legal : Op.LegalRun paged (fun _ _ => True) (fun _ => none) sampleRun :=
  ⟨⟨⟨rfl, (by decide : "123456789".utf8ByteSize ≤ _)⟩, trivial⟩, ⟨⟨rfl, rfl⟩, trivial⟩,
    ⟨⟨_, rfl, by decide⟩, trivial⟩, ⟨⟨_, rfl, by decide⟩, trivial⟩,
    ⟨⟨by decide, rfl, rfl⟩, trivial⟩, ⟨rfl, trivial⟩, trivial⟩

theorem heldRun_legal : Op.LegalRun paged (fun _ _ => True) (fun _ => none) heldRun := by
  obtain ⟨hbuild, hclone, hpush, hset, _⟩ := sampleRun_legal
  exact ⟨hbuild, hclone, hpush, hset, trivial⟩

/-- With an inline and a heap value in the pool the block has one owner, and a push onto
it leaves the other place alone; after the whole run every block is freed. -/
theorem sampleRun_ownership :
    let w := Exec.final ((Op.execAll paged heldRun).run Pool.empty)
    let w' := Exec.final ((Op.execAll paged sampleRun).run Pool.empty)
    (∃ x y p, w.vals 0 = some x ∧ x.isHeap = false ∧ w.vals 1 = some y ∧ y.owned = some p ∧
      (w.heap.live p).isSome ∧
      ∃! i, ∃ z, w.vals i = some z ∧ z.isHeap = true ∧ z.owned = some p) ∧
    (∃ w₁, ((Op.call 1 (.pushStr "xyz")).exec paged).run w = .ok () w₁ ∧ Untouched w w₁ 0) ∧
    (∀ p, w'.heap.live p = none) ∧ w'.heap.freed.Nodup ∧ w'.heap.freed.Perm w'.heap.created := by
  intro w w'
  have hr : Reachable paged (fun _ _ => True) (Op.applyAll paged (fun _ => none) heldRun) w :=
    Reachable.of_returns heldRun_legal (by decide +kernel)
  have hr' : Reachable paged (fun _ _ => True) (Op.applyAll paged (fun _ => none) sampleRun) w' :=
    Reachable.of_returns sampleRun_legal (by decide +kernel)
  obtain ⟨hlive, howner, _, hisolated, _⟩ := unique_ownership hr
  refine ⟨?_, ?_, ?_⟩
  · have hmodes : (w.vals 0).map isHeap = some false ∧ (w.vals 1).map isHeap = some true := by
      decide +kernel
    obtain ⟨x, hx, hinline⟩ := Option.map_eq_some_iff.mp hmodes.1
    obtain ⟨y, hy, hheap⟩ := Option.map_eq_some_iff.mp hmodes.2
    obtain ⟨p, hp, hsome⟩ := hlive 1 y hy hheap
    exact ⟨x, y, p, hx, hinline, hy, hp, hsome, howner p hsome⟩
  · have hrun := Exec.eq_ok_of_returns
      (r := ((Op.call 1 (.pushStr "xyz")).exec paged).run w) (by decide +kernel)
    have hlegal : (Op.call 1 (.pushStr "xyz") : Op String Method).Legal paged
        (Op.applyAll paged (fun _ => none) heldRun) := ⟨_, rfl, by decide⟩
    exact ⟨_, hrun, (hisolated _ hlegal).frame _ hrun 0 (by simp [Op.places])⟩
  · refine (unique_ownership hr').2.2.2.2 fun i => hr'.invariant.vals_eq_none ?_
    by_cases h0 : i = 0 <;> by_cases h1 : i = 1 <;>
      simp [sampleRun, Op.applyAll, Op.apply, h0, h1]

end SinStr

end Sinstr
