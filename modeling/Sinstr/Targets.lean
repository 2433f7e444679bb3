import Sinstr.Charges
import Sinstr.Compare

/-!
# One program on two targets

Pointer width and byte order decide where the bytes of a string are kept, but not what
a program sees of it. On targets that differ only in their byte order even the storage
modes, the blocks and the requests of the allocator are the same.
-/

namespace Sinstr

open Rust

variable {t t' : Target} {V V' B M : Type}

/-- The places of two pools show the same strings, which compare in the same way. -/
structure SameStrings {R : Resource V String} {R' : Resource V' String} (views : Views R t)
    (views' : Views R' t') (w : Pool V) (w' : Pool V') : Prop where
  shown : ∀ i, Option.Rel (fun x y => ∃ s, (views.asStr x).run w.heap = .ok s w.heap ∧
    (views'.asStr y).run w'.heap = .ok s w'.heap) (w.vals i) (w'.vals i)
  compared : ∀ {i j x y x' y'}, w.vals i = some x → w.vals j = some y → w'.vals i = some x' →
    w'.vals j = some y' → ∃ b o,
      (views.eq x y).run w.heap = .ok b w.heap ∧ (views'.eq x' y').run w'.heap = .ok b w'.heap ∧
      (views.cmp x y).run w.heap = .ok o w.heap ∧ (views'.cmp x' y').run w'.heap = .ok o w'.heap

/-- The places keep their strings in the same modes, in blocks of the same sizes. -/
structure SameStorage {R : Resource V String} {R' : Resource V' String} (views : Views R t)
    (views' : Views R' t') (w : Pool V) (w' : Pool V') : Prop where
  modes : ∀ {i x x'}, w.vals i = some x → w'.vals i = some x' →
    views.isInlined x = views'.isInlined x'
  blocks : ∀ i, w.heap.sizeOf (Pool.own R.owned w.vals i) =
    w'.heap.sizeOf (Pool.own R'.owned w'.vals i)

section Shared

variable {I : Interface V String B M} {I' : Interface V' String B M} {spec : Nat → Option String}
  {w : Pool V} {w' : Pool V'}

/-- Two pools that stand for the same contents. -/
theorem sameStrings_of_invariant (views : Views I.toResource t) (views' : Views I'.toResource t')
    (hinv : Invariant I spec w) (hinv' : Invariant I' spec w') :
    SameStrings views views' w w' where
  shown := by
    intro i
    cases hs : spec i with
    | none =>
        rw [hinv.vals_eq_none hs, hinv'.vals_eq_none hs]
        exact .none
    | some s =>
        obtain ⟨x, hx, r⟩ := hinv.exists_val hs
        obtain ⟨y, hy, r'⟩ := hinv'.exists_val hs
        rw [hx, hy]
        exact .some ⟨s, views.run_asStr r, views'.run_asStr r'⟩
  compared := by
    intro i j x y x' y' hx hy hx' hy'
    obtain ⟨s, hs, r⟩ := hinv.exists_content hx
    obtain ⟨d, hd, q⟩ := hinv.exists_content hy
    obtain ⟨s', hs', r'⟩ := hinv'.exists_content hx'
    obtain ⟨d', hd', q'⟩ := hinv'.exists_content hy'
    obtain rfl : s = s' := Option.some.inj (hs.symm.trans hs')
    obtain rfl : d = d' := Option.some.inj (hd.symm.trans hd')
    exact ⟨_, _, views.run_eq r q, views'.run_eq r' q', views.run_cmp r q, views'.run_cmp r' q'⟩

theorem sameStorage_of_blocks (views : Views I.toResource t) (views' : Views I'.toResource t')
    (hniche : t.nicheMaxInt = t'.nicheMaxInt) (hinv : Invariant I spec w)
    (hinv' : Invariant I' spec w')
    (hblocks : (w.account I.owned).blocks = (w'.account I'.owned).blocks) :
    SameStorage views views' w w' where
  modes := by
    intro i x x' hx hx'
    obtain ⟨s, hs, r⟩ := hinv.exists_content hx
    obtain ⟨s', hs', r'⟩ := hinv'.exists_content hx'
    obtain rfl : s = s' := Option.some.inj (hs.symm.trans hs')
    rw [views.isInlined_eq r, views'.isInlined_eq r', hniche]
  blocks := congrFun hblocks

end Shared

/-- The targets differ in nothing but the byte order and the declared discriminants. -/
structure Target.SameWidth (t t' : Target) : Prop where
  size : t.size = t'.size
  alignLog : t.alignLog = t'.alignLog

/-- What is computed from the width alone. -/
structure WidthShared (t t' : Target) : Prop where
  nicheMaxInt : t.nicheMaxInt = t'.nicheMaxInt
  newCharge : newCharge t = newCharge t'
  dropRequests : dropRequests t = dropRequests t'
  charge : Mutator.charge t = Mutator.charge t'
  buildable : Builder.Buildable t = Builder.Buildable t'
  makable : SinStr.Maker.Buildable t = SinStr.Maker.Buildable t'
  callable : Mutator.Callable t = Mutator.Callable t'
  callableSome : SinStr.Callable t = SinStr.Callable t'

theorem Target.SameWidth.shared (hw : t.SameWidth t') : WidthShared t t' := by
  obtain ⟨⟨size, alignLog, endian, _, _⟩, _, _, _, _⟩ := t
  obtain ⟨⟨size', alignLog', endian', _, _⟩, _, _, _, _⟩ := t'
  obtain ⟨rfl, rfl⟩ := hw
  exact ⟨rfl, rfl, rfl, rfl, rfl, rfl, rfl, rfl⟩

theorem NonEmptySinStr.tariff_alike (hw : t.SameWidth t') (a : Allocator t.toMachine)
    (a' : Allocator t'.toMachine) : (tariff a).Alike (tariff a') where
  interface :=
    { value := rfl
      effect := rfl
      buildable := by
        funext b
        exact congrArg (0 < b.value.utf8ByteSize ∧ ·) (congrFun hw.shared.buildable b)
      callable := hw.shared.callable }
  make := by
    funext c
    exact congrFun hw.shared.newCharge c.utf8ByteSize
  change := hw.shared.charge
  release := by
    funext c
    exact congrFun hw.shared.dropRequests c.utf8ByteSize

theorem SinStr.tariff_alike (hw : t.SameWidth t') (a : Allocator t.toMachine)
    (a' : Allocator t'.toMachine) : (tariff a).Alike (tariff a') where
  interface := ⟨rfl, rfl, hw.shared.makable, hw.shared.callableSome⟩
  make := by
    funext c
    exact congrFun hw.shared.newCharge c.utf8ByteSize
  change := hw.shared.charge
  release := by
    funext c
    exact congrFun hw.shared.dropRequests c.utf8ByteSize

/-- What a run has in common with the run of the same steps on another target. -/
structure TargetsAgree (I : Interface V String B M) (I' : Interface V' String B M)
    (views : Views I.toResource t) (views' : Views I'.toResource t') (ops : List (Op B M)) :
    Prop where
  strings : ∀ {w w'}, Op.LegalRun I' (fun _ _ => True) (fun _ => none) ops →
    (Op.execAll I ops).run Pool.empty = .ok () w →
    (Op.execAll I' ops).run Pool.empty = .ok () w' → SameStrings views views' w w'
  legal : t.SameWidth t' → Op.LegalRun I' (fun _ _ => True) (fun _ => none) ops
  storage : ∀ {w w'}, t.SameWidth t' → (Op.execAll I ops).run Pool.empty = .ok () w →
    (Op.execAll I' ops).run Pool.empty = .ok () w' →
    SameStorage views views' w w' ∧ w.heap.requests = w'.heap.requests

theorem targetsAgree_of_alike {I : Interface V String B M} {I' : Interface V' String B M}
    {T : Tariff I} {T' : Tariff I'} (views : Views I.toResource t)
    (views' : Views I'.toResource t') (hvalue : I.value = I'.value) (heffect : I.effect = I'.effect)
    (hT : t.SameWidth t' → T.Alike T') {ops : List (Op B M)}
    (hlegal : Op.LegalRun I (fun _ _ => True) (fun _ => none) ops) :
    TargetsAgree I I' views views' ops where
  strings := by
    intro w w' hlegal' hrun hrun'
    have hinv := (Reachable.execAll .refl hlegal hrun).invariant
    have hinv' := (Reachable.execAll .refl hlegal' hrun').invariant
    rw [← Op.applyAll_shared hvalue heffect] at hinv'
    exact sameStrings_of_invariant views views' hinv hinv'
  legal hw := hlegal.alike (hT hw).interface
  storage := by
    intro w w' hw hrun hrun'
    have haccount := account_alike (hT hw) hlegal hrun hrun'
    have hinv := (Reachable.execAll .refl hlegal hrun).invariant
    have hinv' := (Reachable.execAll .refl (hlegal.alike (hT hw).interface) hrun').invariant
    rw [← Op.applyAll_shared hvalue heffect] at hinv'
    exact ⟨sameStorage_of_blocks views views' hw.shared.nicheMaxInt hinv hinv'
      (congrArg Account.blocks haccount.symm), congrArg Account.requests haccount.symm⟩

/-- The same steps on two targets leave the same strings, which compare alike. If only the
byte order differs, the steps are legal on both, the strings are stored in the same way,
and the allocators receive the same requests. -/
theorem targets_agree (a : Allocator t.toMachine) (a' : Allocator t'.toMachine) :
    (∀ ops, Op.LegalRun (NonEmptySinStr.api a) (fun _ _ => True) (fun _ => none) ops →
      TargetsAgree (NonEmptySinStr.api a) (NonEmptySinStr.api a')
        (NonEmptySinStr.views (NonEmptySinStr.MayFault t))
        (NonEmptySinStr.views (NonEmptySinStr.MayFault t')) ops) ∧
    (∀ ops, Op.LegalRun (SinStr.api a) (fun _ _ => True) (fun _ => none) ops →
      TargetsAgree (SinStr.api a) (SinStr.api a') (SinStr.views t) (SinStr.views t') ops) := by
  constructor
  · intro ops hlegal
    have hvalue : (NonEmptySinStr.api a).value = (NonEmptySinStr.api a').value := rfl
    have heffect : (NonEmptySinStr.api a).effect = (NonEmptySinStr.api a').effect := rfl
    exact targetsAgree_of_alike _ _ hvalue heffect
      (fun hw => NonEmptySinStr.tariff_alike hw a a') hlegal
  · intro ops hlegal
    have hvalue : (SinStr.api a).value = (SinStr.api a').value := rfl
    have heffect : (SinStr.api a).effect = (SinStr.api a').effect := rfl
    exact targetsAgree_of_alike _ _ hvalue heffect (fun hw => SinStr.tariff_alike hw a a') hlegal

/-- The run on 64 bits of either byte order. -/
def orderedPool (e : Endian) : Pool (NonEmptySinStr (PointerWidth.w64.target e)) :=
  Exec.final
    ((Op.execAll (NonEmptySinStr.api (PointerWidth.w64.paged e)) chargedRun).run Pool.empty)

/-- The five requests of the run are made in either byte order. -/
theorem chargedRun_targets :
    SameStrings (NonEmptySinStr.views (NonEmptySinStr.MayFault (PointerWidth.w64.target .little)))
      (NonEmptySinStr.views (NonEmptySinStr.MayFault (PointerWidth.w64.target .big)))
      (orderedPool .little) (orderedPool .big) ∧
    SameStorage (NonEmptySinStr.views (NonEmptySinStr.MayFault (PointerWidth.w64.target .little)))
      (NonEmptySinStr.views (NonEmptySinStr.MayFault (PointerWidth.w64.target .big)))
      (orderedPool .little) (orderedPool .big) ∧
    (orderedPool .little).heap.requests = (orderedPool .big).heap.requests := by
  have hagree := (targets_agree (PointerWidth.w64.paged .little) (PointerWidth.w64.paged .big)).1
    chargedRun chargedRun_legal
  have hwidth : (PointerWidth.w64.target .little).SameWidth (PointerWidth.w64.target .big) :=
    ⟨rfl, rfl⟩
  have hrun := Exec.eq_ok_of_returns (r := (Op.execAll (NonEmptySinStr.api
    (PointerWidth.w64.paged .little)) chargedRun).run Pool.empty) (by decide +kernel)
  have hrun' := Exec.eq_ok_of_returns (r := (Op.execAll (NonEmptySinStr.api
    (PointerWidth.w64.paged .big)) chargedRun).run Pool.empty) (by decide +kernel)
  exact ⟨hagree.strings (hagree.legal hwidth) hrun hrun', hagree.storage hwidth hrun hrun'⟩

end Sinstr
