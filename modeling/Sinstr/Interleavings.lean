import Sinstr.Rust.Interleave
import Sinstr.Targets

/-!
# Programs that take turns

The crate keeps no state outside its values. Programs that each work on values of their
own may therefore be interleaved in any order: the strings, the modes, the sizes of the
blocks and the requests are the same, and what can stop one order can stop any other.
-/

namespace Sinstr

open Rust

variable {t : Target}

/-- Below the lengths whose sizes may not be a layout, only the allocator stops a step. -/
theorem MayFault.refused {s : String} {e : Fault} {h : Heap} (he : MayFault t s e h)
    (hc : t.Complete) (hs : ¬Oversize t s.utf8ByteSize) :
    (∃ n, e = .allocError n) ∧ h.Refused := by
  cases he with
  | allocError size hr => exact ⟨⟨size, rfl⟩, hr⟩
  | panic _ ho | assertUnchecked ho | layout ho => exact absurd ho hs
  | invalidValue hn => exact absurd hc hn

theorem NonEmptySinStr.MayFault.refused {s : String} {e : Fault} {h : Heap}
    (he : NonEmptySinStr.MayFault t s e h) (hc : t.Complete) (hpos : 0 < s.utf8ByteSize)
    (hs : ¬Oversize t s.utf8ByteSize) : (∃ n, e = .allocError n) ∧ h.Refused := by
  cases he with
  | of he => exact he.refused hc hs
  | empty hempty _ =>
      subst hempty
      exact absurd hpos (Nat.lt_irrefl 0)

/-- What a run has in common with every other order of the same programs' steps. The
contents that are stored on the way all have the property `Storable`. -/
structure OrdersAgree {V B M : Type} (I I' : Interface V String B M)
    (views : Views I.toResource t) (views' : Views I'.toResource t) (Storable : String → Prop)
    (ops ops' : List (Op B M)) : Prop where
  legal : Op.LegalRun I' (fun _ _ => True) (fun _ => none) ops'
  returned : ∀ {w w'}, (Op.execAll I ops).run Pool.empty = .ok () w →
    (Op.execAll I' ops').run Pool.empty = .ok () w' →
    SameStrings views views' w w' ∧ SameStorage views views' w w' ∧
      w.heap.requests.Perm w'.heap.requests
  refused : t.Complete → (∀ s ∈ Op.contents I (fun _ => none) ops, Storable s) →
    ∀ {e w'}, (Op.execAll I' ops').run Pool.empty = .error e w' →
      (∃ n, e = .allocError n) ∧ w'.heap.Refused

section Orders

variable {V B M ι : Type} [DecidableEq ι] {side : Nat → ι} {I I' : Interface V String B M}
  {T : Tariff I} {T' : Tariff I'} {ops ops' : List (Op B M)}

theorem ordersAgree_of_alike (views : Views I.toResource t) (views' : Views I'.toResource t)
    {Storable : String → Prop} (hT : T.Alike T')
    (hstorable : t.Complete → ∀ {s e h}, Storable s → I'.Faults s e h →
      (∃ n, e = .allocError n) ∧ h.Refused)
    (hint : Interleaved (Op.owner side) ops ops') (hwithin : Op.Within side ops)
    (hlegal : Op.LegalRun I (fun _ _ => True) (fun _ => none) ops) :
    OrdersAgree I I' views views' Storable ops ops' where
  legal := legalRun_interleaved hT hint hwithin hlegal
  returned := by
    intro w w' hrun hrun'
    have hinv := (Reachable.execAll .refl hlegal hrun).invariant
    have hinv' := invariant_interleaved hT hint hwithin hlegal hrun'
    obtain ⟨hblocks, hrequests⟩ := account_interleaved hT hint hwithin hlegal hrun hrun'
    exact ⟨sameStrings_of_invariant views views' hinv hinv',
      sameStorage_of_blocks views views' rfl hinv hinv' hblocks, hrequests⟩
  refused := by
    intro hc hall e w' hrun'
    obtain ⟨s, hs, hfault⟩ := fault_interleaved hT hint hwithin hlegal hrun'
    exact hstorable hc (hall s hs) hfault

end Orders

/-- Programs that share the heap and no value may take turns in any order, with any two
allocators. -/
theorem interleavings_agree {ι : Type} [DecidableEq ι] (side : Nat → ι)
    (a a' : Allocator t.toMachine) :
    (∀ ops ops', Interleaved (Op.owner side) ops ops' → Op.Within side ops →
      Op.LegalRun (NonEmptySinStr.api a) (fun _ _ => True) (fun _ => none) ops →
      OrdersAgree (NonEmptySinStr.api a) (NonEmptySinStr.api a')
        (NonEmptySinStr.views (NonEmptySinStr.MayFault t))
        (NonEmptySinStr.views (NonEmptySinStr.MayFault t))
        (fun s => 0 < s.utf8ByteSize ∧ ¬Oversize t s.utf8ByteSize) ops ops') ∧
    (∀ ops ops', Interleaved (Op.owner side) ops ops' → Op.Within side ops →
      Op.LegalRun (SinStr.api a) (fun _ _ => True) (fun _ => none) ops →
      OrdersAgree (SinStr.api a) (SinStr.api a') (SinStr.views t) (SinStr.views t)
        (fun s => ¬Oversize t s.utf8ByteSize) ops ops') := by
  have hwidth : t.SameWidth t := ⟨rfl, rfl⟩
  constructor
  · intro ops ops' hint hwithin hlegal
    refine ordersAgree_of_alike _ _ (NonEmptySinStr.tariff_alike hwidth a a') ?_ hint hwithin hlegal
    intro hc s e h hs he
    exact NonEmptySinStr.MayFault.refused he hc hs.1 hs.2
  · intro ops ops' hint hwithin hlegal
    refine ordersAgree_of_alike _ _ (SinStr.tariff_alike hwidth a a') ?_ hint hwithin hlegal
    intro hc s e h hs he
    exact MayFault.refused he hc hs

/-- One program has the even places, the other one the odd ones. -/
def evenSide (k : Nat) : Bool := k % 2 == 0

/-- The first program, and after it the second. -/
def firstThenSecond : List (Op Builder Mutator) :=
  [.build 0 (.new "123456789"), .call 0 (.pushStr "0123456789"), .drop 0,
    .build 1 (.new "abc"), .call 1 (.pushStr "defghijklm"), .clone 3 1]

/-- The programs taking turns. -/
def takingTurns : List (Op Builder Mutator) :=
  [.build 1 (.new "abc"), .build 0 (.new "123456789"), .call 1 (.pushStr "defghijklm"),
    .call 0 (.pushStr "0123456789"), .clone 3 1, .drop 0]

def turnsPool (ops : List (Op Builder Mutator)) :
    Pool (NonEmptySinStr (PointerWidth.w64.target .little)) :=
  Exec.final ((Op.execAll (NonEmptySinStr.api (PointerWidth.w64.paged .little)) ops).run Pool.empty)

/-- The same requests in another order, for the same strings. -/
theorem takingTurns_agree :
    let views := NonEmptySinStr.views (NonEmptySinStr.MayFault (PointerWidth.w64.target .little))
    SameStrings views views (turnsPool firstThenSecond) (turnsPool takingTurns) ∧
    SameStorage views views (turnsPool firstThenSecond) (turnsPool takingTurns) ∧
    (turnsPool firstThenSecond).heap.requests.Perm (turnsPool takingTurns).heap.requests := by
  have hint : Interleaved (Op.owner evenSide) firstThenSecond takingTurns := by
    intro o
    cases o <;> rfl
  have hwithin : Op.Within evenSide firstThenSecond := by
    simp [Op.Within, firstThenSecond, Op.touched, Op.owner, Op.place, evenSide]
  have hlegal : Op.LegalRun (NonEmptySinStr.api (PointerWidth.w64.paged .little)) (fun _ _ => True)
      (fun _ => none) firstThenSecond :=
    ⟨⟨⟨rfl, by decide, (by decide : "123456789".utf8ByteSize ≤ _)⟩, trivial⟩,
      ⟨⟨_, rfl, (by decide : "0123456789".utf8ByteSize ≤ _)⟩, trivial⟩, ⟨rfl, trivial⟩,
      ⟨⟨rfl, by decide, (by decide : "abc".utf8ByteSize ≤ _)⟩, trivial⟩,
      ⟨⟨_, rfl, (by decide : "defghijklm".utf8ByteSize ≤ _)⟩, trivial⟩,
      ⟨⟨rfl, rfl⟩, trivial⟩, trivial⟩
  exact ((interleavings_agree evenSide (PointerWidth.w64.paged .little)
    (PointerWidth.w64.paged .little)).1 _ _ hint hwithin hlegal).returned
      (Exec.eq_ok_of_returns (by decide +kernel)) (Exec.eq_ok_of_returns (by decide +kernel))

end Sinstr
