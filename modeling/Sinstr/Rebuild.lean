import Sinstr.Growth
import Sinstr.Guarantees
import Sinstr.Rust.Rebuild

/-!
# Setters and pushes against new values

`set_str`, `push_str` and the overwrites reuse what a value has. The plain way to the
same string is to make a new value and assign it. Over any run both ways show the same
strings in the same modes, and the first asks for blocks no more often.
-/

namespace Sinstr

open Rust

variable {t : Target}

section Prices

variable {n m u : Nat} {block : Option Nat}

/-- There is a block to release exactly if there is one after making the content. -/
theorem length_dropRequests (hs : Settled t n block) :
    (dropRequests t n block).length = (dropRequests t n (newCharge t n).block).length := by
  cases hs with
  | inline hle => rw [newCharge_of_le hle]
  | exact hN => rw [newCharge_of_lt hN]
  | grown hN =>
      rw [newCharge_of_lt hN]
      rfl

theorem length_setCharge (hs : Settled t n block) :
    (setCharge t n m block).requests.length ≤
      (dropRequests t n (newCharge t n).block).length + (newCharge t m).requests.length := by
  rw [← length_dropRequests hs]
  by_cases hle : m ≤ t.nicheMaxInt
  · rw [setCharge_of_le hle]
    exact Nat.le_add_right _ _
  · have hN := Nat.not_le.mp hle
    cases block with
    | none =>
        rw [setCharge_none]
        exact Nat.le_add_left _ _
    | some size =>
        rw [setCharge_some hN, newCharge_of_lt hN]
        split_ifs <;> simp [dropRequests]

theorem length_pushCharge (hs : Settled t n block) :
    (pushCharge t n u block).requests.length ≤
      (dropRequests t n (newCharge t n).block).length + (newCharge t (n + u)).requests.length := by
  rw [← length_dropRequests hs]
  cases block with
  | none => exact Nat.le_add_left _ _
  | some size =>
      have hN := hs.nicheMaxInt_lt
      rw [pushCharge, newCharge_of_lt (by omega : t.nicheMaxInt < n + u)]
      split_ifs <;> simp [dropRequests]

theorem Mutator.length_charge {m : Mutator} {c : String} (hs : Settled t c.utf8ByteSize block) :
    (m.charge t c block).requests.length ≤
      (dropRequests t c.utf8ByteSize (newCharge t c.utf8ByteSize).block).length +
        (newCharge t (m.effect c).utf8ByteSize).requests.length := by
  cases m with
  | setStr s | setStrUnchecked s => exact length_setCharge hs
  | pushStr s =>
      have hcat : (c ++ s).utf8ByteSize = c.utf8ByteSize + s.utf8ByteSize :=
        String.utf8ByteSize_append
      rw [Mutator.effect, hcat]
      exact length_pushCharge hs
  | asStrMut s | asBytesMut new => exact Nat.zero_le _

end Prices

/-- The pool of a program, and that of the plain program. -/
structure Rebuilds {V : Type} {R : Resource V String} (views : Views R t) (w w' : Pool V) :
    Prop where
  shown : ∀ i, Option.Rel (fun x y => ∃ s, (views.asStr x).run w.heap = .ok s w.heap ∧
    (views.asStr y).run w'.heap = .ok s w'.heap ∧ views.isInlined x = views.isInlined y)
    (w.vals i) (w'.vals i)
  requests : w.heap.requests.length ≤ w'.heap.requests.length
  /-- The blocks have the same sizes but for a push that grew one by a step too much. -/
  blocks : ∀ {i x y}, w.vals i = some x → w'.vals i = some y →
    w.heap.sizeOf (R.owned x) = w'.heap.sizeOf (R.owned y) ∨
      w.heap.sizeOf (R.owned x) = (w'.heap.sizeOf (R.owned y)).map (· + t.align)

theorem Settled.of_made {n : Nat} {block : Option Nat} (hs : Settled t n block) :
    block = (newCharge t n).block ∨ block = (newCharge t n).block.map (· + t.align) := by
  cases hs with
  | inline hle => exact Or.inl (by rw [newCharge_of_le hle])
  | exact hN => exact Or.inl (by rw [newCharge_of_lt hN])
  | grown hN => exact Or.inr (by rw [newCharge_of_lt hN]; rfl)

section Rebuilds

variable {V B M : Type} {I I' : Interface V String B M} {R : Resource V String} {T : Tariff I}
  {spec : Nat → Option String} {w w' : Pool V}

theorem account_blocks {i : Nat} {x : V} (hx : w.vals i = some x) :
    (w.account R.owned).blocks i = w.heap.sizeOf (R.owned x) := by
  simp [Pool.account, Pool.own, hx]

theorem rebuilds_of_cheaper (views : Views R t)
    (hrep : ∀ {h x s}, I.Rep h x s → R.Rep h x s) (hrep' : ∀ {h x s}, I'.Rep h x s → R.Rep h x s)
    (hmade : ∀ s, T.make s = newCharge t s.utf8ByteSize) (hinv : Invariant I spec w)
    (hinv' : Invariant I' spec w')
    (hcheap : Cheaper T (fun s => Settled t s.utf8ByteSize) spec (w.account R.owned)
      (w'.account R.owned)) : Rebuilds views w w' where
  shown := by
    intro i
    cases hs : spec i with
    | none =>
        rw [hinv.vals_eq_none hs, hinv'.vals_eq_none hs]
        exact .none
    | some s =>
        obtain ⟨x, hx, r⟩ := hinv.exists_val hs
        obtain ⟨y, hy, r'⟩ := hinv'.exists_val hs
        rw [hx, hy]
        exact .some ⟨s, views.run_asStr (hrep r), views.run_asStr (hrep' r'),
          (views.isInlined_eq (hrep r)).trans (views.isInlined_eq (hrep' r')).symm⟩
  requests := hcheap.requests
  blocks := by
    intro i x y hx hy
    obtain ⟨s, hs, _⟩ := hinv.exists_content hx
    have hmadeblock := hcheap.made hs
    have hsettled := hcheap.admitted hs
    rw [account_blocks hy, hmade] at hmadeblock
    rw [account_blocks hx] at hsettled
    rw [hmadeblock]
    exact hsettled.of_made

end Rebuilds

namespace NonEmptySinStr

/-- Every string that a value stands for can be made by `new`. -/
theorem thrifty (a : Allocator t.toMachine) :
    (tariff a).Thrifty (fun s => Settled t s.utf8ByteSize) where
  make c := (newCharge_sound c.utf8ByteSize).1
  change hs hm := ⟨(Mutator.charge_sound hm hs).1, Mutator.length_charge hs⟩
  release hs := (length_dropRequests hs).le

end NonEmptySinStr

namespace SinStr

theorem thrifty (a : Allocator t.toMachine) :
    (tariff a).Thrifty (fun s => Settled t s.utf8ByteSize) where
  make c := (newCharge_sound c.utf8ByteSize).1
  change {_ _ _} hs (hm : Callable t _ _) :=
    ⟨(Mutator.charge_sound hm.1 hs).1, Mutator.length_charge hs⟩
  release hs := (length_dropRequests hs).le

end SinStr

/-- Changing values in place shows the same strings as assigning new values does, and
never makes more requests for blocks, over all runs and with any two allocators. -/
theorem rebuild_agrees (a a' : Allocator t.toMachine) (k : Nat) :
    (∀ ops w w', Op.LegalRun (NonEmptySinStr.api a) (fun _ _ => True) (fun _ => none) ops →
      (∀ op ∈ ops, k ∉ op.places) →
      (Op.execAll (NonEmptySinStr.api a) ops).run Pool.empty = .ok () w →
      (Op.execAll (NonEmptySinStr.api a') (Op.rebuiltAll (NonEmptySinStr.api a) .new k
        (fun _ => none) ops)).run Pool.empty = .ok () w' →
      Rebuilds (NonEmptySinStr.views (NonEmptySinStr.MayFault t)) w w') ∧
    (∀ ops w w', Op.LegalRun (SinStr.api a) (fun _ _ => True) (fun _ => none) ops →
      (∀ op ∈ ops, k ∉ op.places) →
      (Op.execAll (SinStr.api a) ops).run Pool.empty = .ok () w →
      (Op.execAll (SinStr.api a') (Op.rebuiltAll (SinStr.api a) (fun s => .of (.new s)) k
        (fun _ => none) ops)).run Pool.empty = .ok () w' →
      Rebuilds (SinStr.views t) w w') := by
  constructor
  · intro ops w w' hlegal hk hrun hrun'
    have hA : (NonEmptySinStr.tariff a).Alike (NonEmptySinStr.tariff a') :=
      ⟨⟨rfl, rfl, rfl, rfl⟩, rfl, rfl, rfl⟩
    have hmake : ∀ s, (NonEmptySinStr.api a).value (.new s) = s := fun _ => rfl
    have hbuild : ∀ {h x s}, (NonEmptySinStr.api a).Rep h x s →
        (NonEmptySinStr.api a).Buildable (.new s) :=
      fun r => ⟨NonEmptySinStr.Represents.pos r, NonEmptySinStr.Represents.len_le r⟩
    obtain ⟨hinv, hinv', hcheap⟩ := Cheaper.of_runs (NonEmptySinStr.thrifty a) hA hmake hbuild hk
      hlegal hrun hrun'
    exact rebuilds_of_cheaper _ id id (fun _ => rfl) hinv hinv' hcheap
  · intro ops w w' hlegal hk hrun hrun'
    have hA : (SinStr.tariff a).Alike (SinStr.tariff a') := ⟨⟨rfl, rfl, rfl, rfl⟩, rfl, rfl, rfl⟩
    have hmake : ∀ s, (SinStr.api a).value (.of (.new s)) = s := fun _ => rfl
    have hbuild : ∀ {h x s}, (SinStr.api a).Rep h x s → (SinStr.api a).Buildable (.of (.new s)) :=
      fun r => SinStr.Represents.len_le r
    obtain ⟨hinv, hinv', hcheap⟩ := Cheaper.of_runs (SinStr.thrifty a) hA hmake hbuild hk hlegal
      hrun hrun'
    exact rebuilds_of_cheaper _ id id (fun _ => rfl) hinv hinv' hcheap

/-- The plain program makes its values in place 9. -/
def plainRun : List (Op Builder Mutator) :=
  Op.rebuiltAll (NonEmptySinStr.api (PointerWidth.w64.paged .little)) .new 9 (fun _ => none)
    chargedRun

/-- Five requests in place are eight with new values. -/
theorem chargedRun_rebuilds :
    Rebuilds (NonEmptySinStr.views (NonEmptySinStr.MayFault (PointerWidth.w64.target .little)))
      (Exec.final ((Op.execAll (NonEmptySinStr.api (PointerWidth.w64.paged .little))
        chargedRun).run Pool.empty))
      (Exec.final ((Op.execAll (NonEmptySinStr.api (PointerWidth.w64.paged .little))
        plainRun).run Pool.empty)) ∧
    (Exec.final ((Op.execAll (NonEmptySinStr.api (PointerWidth.w64.paged .little)) plainRun).run
      Pool.empty)).heap.requests.length = 8 :=
  ⟨(rebuild_agrees (PointerWidth.w64.paged .little) (PointerWidth.w64.paged .little) 9).1 chargedRun
    _ _ chargedRun_legal (by decide) (Exec.eq_ok_of_returns (by decide +kernel))
    (Exec.eq_ok_of_returns (by decide +kernel)), by decide +kernel⟩

end Sinstr
