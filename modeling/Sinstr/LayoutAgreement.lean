import Sinstr.Runs

/-!
# Agreement on layouts

No capacity is stored, so every `realloc` and `dealloc` names a block by the
size that `capacity` recomputes from the length. Growing rounds a capacity that
is rounded already, and the two sizes can then differ for good.
-/

namespace Sinstr

open Rust

variable {t : Target}

/-- In heap mode, the block was requested with the size that `capacity`
recomputes from the stored length. -/
def NonEmptySinStr.LayoutAgrees (h : Heap) (x : NonEmptySinStr t) : Prop :=
  x.isHeap = true → ∃ hp b n,
    (x.getHeap : Exec Heap HeapRepr).run h = .ok hp h ∧
    h.live hp.addr = some b ∧
    (hp.len t).run h = .ok n h ∧
    (hp.capacity t).run h = .ok b.size h ∧
    b.size = nextStep t (t.add n t.size)

theorem NonEmptySinStr.layoutAgrees_of_snug {h : Heap} {x : NonEmptySinStr t} {c : String}
    (r : x.Represents h c) (hs : Snug h x.owned (blockSize t c.utf8ByteSize)) :
    x.LayoutAgrees h := by
  intro hheap
  cases r with
  | inline hpos hle hdisc _ =>
      rw [isHeap, isInlined_of_disc hdisc hpos hle] at hheap
      cases hheap
  | heap p b hx hp hb =>
      have hsize := hs p.val b (owned_of_ofUsize? hx) hp
      have hcap := hb.run_capacity (r := HeapRepr.ofAddr p) hp
      refine ⟨HeapRepr.ofAddr p, b, c.utf8ByteSize, run_getHeap hx h, hp, hb.run_len hp, ?_, ?_⟩
      · rw [hcap, hsize]
      · rw [hsize, nextStep_add_size hb.len_le]

/-- The condition is exact: a push outside it leaves a block whose size is not
the recomputed one. -/
theorem NonEmptySinStr.not_layoutAgrees_of_push {a : Allocator t.toMachine} {h h' : Heap}
    {x x' : NonEmptySinStr t} {c s : String} (r : x.Represents h c)
    (hlen : s.utf8ByteSize ≤ t.isizeMax) (hkeeps : ¬PushKeeps t c.utf8ByteSize s.utf8ByteSize)
    (hrun : (pushStr a s).run (x, h) = .ok () (x', h')) : ¬x'.LayoutAgrees h' := by
  simp only [PushKeeps, not_or, Nat.not_le] at hkeeps
  obtain ⟨hN, hroom, hrem⟩ := hkeeps
  have hcat : (c ++ s).utf8ByteSize = c.utf8ByteSize + s.utf8ByteSize := String.utf8ByteSize_append
  have hout := outcome_pushStr (a := a) r hlen
  rw [hrun] at hout
  cases hout with
  | done rep _ _ =>
  cases r with
  | inline _ hle _ _ => omega
  | heap p b hx hp hb =>
      rw [run_pushStr_heap hx (hb.storesLen hp) (by omega) hlen,
        if_neg (Nat.not_le.mpr hroom)] at hrun
      split at hrun
      · cases hrun
      · cases ha : a.realloc h p.val (grownSize t c.utf8ByteSize s.utf8ByteSize) with
        | none => rw [ha] at hrun; cases hrun
        | some q =>
            cases hy : ofUsize? t q.val with
            | none => simp only [ha, hy] at hrun; cases hrun
            | some y =>
                simp only [ha, hy, EStateM.Result.ok.injEq, Prod.mk.injEq, true_and] at hrun
                obtain ⟨rfl, rfl⟩ := hrun
                intro hagree
                obtain ⟨hp', b', n, hget, hlive, hn, _, hsize⟩ :=
                  hagree (rep.isHeap_iff.mpr (by omega))
                have hgot := (run_getHeap hy _).symm.trans hget
                simp only [EStateM.Result.ok.injEq, and_true] at hgot
                subst hgot
                rw [HeapRepr.addr_ofAddr, Heap.log_live, Heap.set_live_self,
                  Option.some.injEq] at hlive
                have hlen' := rep.run_len
                simp only [len, isInlined_of_ofUsize? hy q.aligned, Bool.false_eq_true, if_false,
                  EStateM.run_bind, run_getHeap hy, hn, EStateM.Result.ok.injEq, and_true] at hlen'
                rw [← hlive, Block.size, size_grownBytes, hlen', nextStep_add_size rep.len_le, hcat,
                  grownSize_eq_iff] at hsize
                omega

/-- The real size of the block beside the recomputed one. -/
def NonEmptySinStr.sizes (h : Heap) (x : NonEmptySinStr t) : Option (Nat × Nat) :=
  match (x.getHeap : Exec Heap HeapRepr).run h with
  | .error _ _ => none
  | .ok hp _ =>
      match h.live hp.addr, (hp.capacity t).run h with
      | some b, .ok capacity _ => some (b.size, capacity)
      | _, _ => none

theorem NonEmptySinStr.LayoutAgrees.sizes_eq {h : Heap} {x : NonEmptySinStr t}
    (hx : x.LayoutAgrees h) (hheap : x.isHeap = true) : ∃ n, x.sizes h = some (n, n) := by
  obtain ⟨hp, b, n, hget, hlive, _, hcap, _⟩ := hx hheap
  exact ⟨b.size, by simp only [sizes, hget, hlive, hcap]⟩

/-- As long as no push grows a block by a length whose remainder modulo the
alignment is not zero and fits the spare room, every block has the recomputed
size and every allocator call names a block by its real size. -/
theorem layout_agreement {a : Allocator t.toMachine} {spec : Nat → Option String}
    {w : Pool (NonEmptySinStr t)}
    (hr : Reachable (NonEmptySinStr.interface a)
      (fun spec op => op.Keeps (NonEmptySinStr.interface a) spec) spec w) :
    (∀ i x, w.vals i = some x → x.LayoutAgrees w.heap) ∧ w.heap.ExactCalls := by
  have hinv := hr.invariant
  have htight := hr.tight fun _ _ h => h
  refine ⟨fun i x hx => ?_, htight.exact⟩
  obtain ⟨c, hc, r⟩ := hinv.exists_content hx
  exact NonEmptySinStr.layoutAgrees_of_snug r (htight.snug hx hc)

/-- Nine bytes, seven more in the spare room, and eight more with growth. -/
def exactRun : List (Op String Method) :=
  [.build 0 "123456789", .call 0 (.pushStr "abcdefg"), .call 0 (.pushStr "ABCDEFGH"), .clone 1 0,
    .drop 0]

theorem exactRun_legal :
    Op.LegalRun NonEmptySinStr.paged (fun spec op => op.Keeps NonEmptySinStr.paged spec)
      (fun _ => none) exactRun := by
  refine ⟨⟨⟨rfl, by decide, by decide⟩, trivial⟩, ⟨⟨_, rfl, by decide⟩, ?_⟩,
    ⟨⟨_, rfl, by decide⟩, ?_⟩, ⟨⟨rfl, rfl⟩, trivial⟩, ⟨rfl, trivial⟩, trivial⟩
  · rintro c hc
    cases hc
    exact Or.inr (Or.inl (by decide +kernel))
  · rintro c hc
    cases hc
    exact Or.inr (Or.inr (Or.inl (by decide +kernel)))

/-- The clone that is left has the recomputed size, as all the calls before it. -/
theorem exactRun_layouts :
    let w := Exec.final ((Op.execAll NonEmptySinStr.paged exactRun).run Pool.empty)
    (∃ x, w.vals 1 = some x ∧ x.isHeap = true ∧ x.LayoutAgrees w.heap) ∧ w.heap.ExactCalls := by
  intro w
  obtain ⟨hlayouts, hexact⟩ :=
    layout_agreement (w := w) (Reachable.of_returns exactRun_legal (by decide +kernel))
  have hheap : (w.vals 1).map NonEmptySinStr.isHeap = some true := by decide +kernel
  obtain ⟨x, hx, hmode⟩ := Option.map_eq_some_iff.mp hheap
  exact ⟨⟨x, hx, hmode, hlayouts 1 x hx⟩, hexact⟩

/-- Nine bytes in a block of 24, grown by 15: `next_step(24 + 15)` asks for 40,
and from the new length 24 the capacity is recomputed as 32. -/
def overgrownRun : List (Op String Method) :=
  [.build 0 "123456789", .call 0 (.pushStr "123456789012345")]

/-- Growth breaks the agreement, and the block is released by the wrong size. -/
theorem overgrownRun_disagrees :
    ∃ spec w, Reachable NonEmptySinStr.paged (fun _ _ => True) spec w ∧
      (∃ x, w.vals 0 = some x ∧ ¬x.LayoutAgrees w.heap) ∧
      ∃ w', ((Op.drop 0).exec NonEmptySinStr.paged).run w = .ok () w' ∧ ¬w'.heap.ExactCalls := by
  let w := Exec.final ((Op.execAll NonEmptySinStr.paged overgrownRun).run Pool.empty)
  have hr : Reachable NonEmptySinStr.paged (fun _ _ => True)
      (Op.applyAll NonEmptySinStr.paged (fun _ => none) overgrownRun) w :=
    Reachable.of_returns
      ⟨⟨⟨rfl, by decide, by decide⟩, trivial⟩, ⟨⟨_, rfl, by decide⟩, trivial⟩, trivial⟩
      (by decide +kernel)
  have hheap : (w.vals 0).map NonEmptySinStr.isHeap = some true := by decide +kernel
  have hsizes : (w.vals 0).bind (NonEmptySinStr.sizes w.heap) = some (40, 32) := by decide +kernel
  refine ⟨_, w, hr, ?_, _, Exec.eq_ok_of_returns (by decide +kernel), by decide +kernel⟩
  cases hx : w.vals 0 with
  | none =>
      rw [hx] at hheap
      cases hheap
  | some x =>
      rw [hx] at hheap hsizes
      refine ⟨x, rfl, fun hagree => ?_⟩
      obtain ⟨n, hn⟩ := hagree.sizes_eq (Option.some.inj hheap)
      rw [Option.bind_some, hn] at hsizes
      cases hsizes

end Sinstr
