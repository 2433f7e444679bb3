import Sinstr.Api
import Sinstr.Compare

/-!
# What the whole interface guarantees

Runs that mix safe and unsafe functions, constants and deserialized values keep
the same invariant as runs of the safe methods. On it rest the contract of
`as_bytes_mut` and the round trip through a data format.
-/

namespace Sinstr

open Rust

variable {t : Target}

/-- What holds of a pool, and of every step that its program may take next. -/
structure Guarantees {V B M : Type} (I : Interface V String B M) (views : Views I.toResource t)
    (spec : Nat → Option String) (w : Pool V) : Prop where
  reads : ∀ {i x}, w.vals i = some x → ∃ s, spec i = some s ∧
    (views.asStr x).run w.heap = .ok s w.heap ∧
    (views.asBytes x).run w.heap = .ok (strBytes s) w.heap ∧
    views.isInlined x = decide (s.utf8ByteSize ≤ t.nicheMaxInt)
  lawful : views.Lawful w
  owned : ∀ {i x p}, w.vals i = some x → I.owned x = some p → (w.heap.live p).isSome
  owner : ∀ {p}, (w.heap.live p).isSome → ∃! i, ∃ x, w.vals i = some x ∧ I.owned x = some p
  frame : ∀ {op : Op B M} {w'}, op.Legal I spec → (op.exec I).run w = .ok () w' →
    ∀ k ∉ op.places, w'.vals k = w.vals k ∧
      ∀ x p, w.vals k = some x → I.owned x = some p → w'.heap.live p = w.heap.live p
  fault : ∀ {op : Op B M} {e w'}, op.Legal I spec → (op.exec I).run w = .error e w' →
    (∃ s, op.content I spec = some s ∧ I.Faults s e w'.heap) ∧
    (e.Unwinds → w'.vals = w.vals ∧ w'.heap.live = w.heap.live)
  released : (∀ i, w.vals i = none) → (∀ p, w.heap.live p = none) ∧ w.heap.freed.Nodup ∧
    w.heap.freed.Perm w.heap.created

theorem Guarantees.of_invariant {V B M : Type} {I : Interface V String B M}
    (views : Views I.toResource t) {spec : Nat → Option String} {w : Pool V}
    (hinv : Invariant I spec w) : Guarantees I views spec w where
  reads := by
    intro i x hx
    obtain ⟨s, hs, r⟩ := hinv.exists_content hx
    exact ⟨s, hs, views.run_asStr r, views.run_asBytes r, views.isInlined_eq r⟩
  lawful := views.lawful hinv
  owned := by
    intro i x p hx hp
    exact hinv.owned.live (i := i) (by rw [Pool.own, hx]; exact hp)
  owner := by
    intro p hp
    obtain ⟨i, hi⟩ := hinv.owned.owner hp
    refine ⟨i, Option.bind_eq_some_iff.mp hi, ?_⟩
    rintro j ⟨y, hy, hyp⟩
    exact hinv.owned.inj (by rw [Pool.own, hy]; exact hyp) hi
  frame := by
    intro op w' hlegal hrun
    have hout := exec_outcome hinv hlegal
    rw [hrun] at hout
    cases hout with
    | done _ frame _ => exact frame
  fault := by
    intro op e w' hlegal hrun
    have hout := exec_outcome hinv hlegal
    rw [hrun] at hout
    cases hout with
    | fault he unwind => exact ⟨he, fun hu => ⟨(unwind hu).1, (unwind hu).2.1.live⟩⟩
  released := by
    intro hempty
    obtain ⟨hlive, hfreed⟩ := hinv.all_dropped hempty
    exact ⟨hlive, hinv.ledger.freed_nodup, hfreed⟩

/-- However the functions of the interface are mixed, unsafe ones under their
contracts included, every value reads and compares as its content, each block has
one owner, a step touches no other value, and a failed step changes nothing. -/
theorem api_guarantees (a : Allocator t.toMachine) :
    (∀ spec w, Reachable (NonEmptySinStr.api a) (fun _ _ => True) spec w →
      Guarantees (NonEmptySinStr.api a)
        (NonEmptySinStr.views (NonEmptySinStr.MayFault t)) spec w) ∧
    (∀ spec w, Reachable (SinStr.api a) (fun _ _ => True) spec w →
      Guarantees (SinStr.api a) (SinStr.views t) spec w) :=
  ⟨fun _ _ hr => .of_invariant _ hr.invariant, fun _ _ hr => .of_invariant _ hr.invariant⟩

namespace SinStr

/-- A constant, the default and a deserialized string, changed by unsafe functions. -/
def mixedRun : List (Op Maker Mutator) :=
  [.build 0 (.of (.literal "abc")), .build 1 .default, .build 2 (.of (.visitStr "deserialized")),
    .call 1 (.setStrUnchecked "unchecked"), .call 0 (.asBytesMut [0x41, 0x42, 0x43]),
    .call 2 (.pushStr " and appended to"), .clone 3 2, .assign 1 3]

theorem mixedRun_legal :
    Op.LegalRun (api (PointerWidth.w64.paged .little)) (fun _ _ => True) (fun _ => none)
      mixedRun := by
  refine ⟨⟨⟨rfl, (by decide : "abc".utf8ByteSize ≤ _)⟩, trivial⟩, ⟨⟨rfl, trivial⟩, trivial⟩,
    ⟨⟨rfl, (by decide : "deserialized".utf8ByteSize ≤ _)⟩, trivial⟩,
    ⟨⟨"", rfl, ⟨by decide, by decide⟩, ?_⟩, trivial⟩,
    ⟨⟨"abc", rfl, ⟨by decide, by decide +kernel⟩, ?_⟩, trivial⟩,
    ⟨⟨"deserialized", rfl, (by decide : " and appended to".utf8ByteSize ≤ _), ?_⟩, trivial⟩,
    ⟨⟨rfl, rfl⟩, trivial⟩, ⟨⟨by decide, rfl, rfl⟩, trivial⟩, trivial⟩
  · rintro s hs _
    cases hs
    decide
  · rintro s hs
    cases hs
  · rintro s hs
    cases hs

theorem mixedRun_reachable :
    Reachable (api (PointerWidth.w64.paged .little)) (fun _ _ => True)
      (Op.applyAll (api (PointerWidth.w64.paged .little)) (fun _ => none) mixedRun)
      (Exec.final ((Op.execAll (api (PointerWidth.w64.paged .little)) mixedRun).run Pool.empty)) :=
  .of_returns mixedRun_legal (by decide +kernel)

theorem mixedRun_guarantees :
    Guarantees (api (PointerWidth.w64.paged .little)) (views (PointerWidth.w64.target .little))
      (Op.applyAll (api (PointerWidth.w64.paged .little)) (fun _ => none) mixedRun)
      (Exec.final ((Op.execAll (api (PointerWidth.w64.paged .little)) mixedRun).run Pool.empty)) :=
  (api_guarantees (PointerWidth.w64.paged .little)).2 _ _ mixedRun_reachable

variable {a : Allocator t.toMachine} {spec : Nat → Option String} {w : Pool (SinStr t)} {i : Nat}
  {x : SinStr t} {c : String} {fills : List (List UInt8)}

/-- The bytes behind `as_bytes_mut` may be anything between borrows: whatever was
written, they read back, nothing else in the pool moves, and the value can be
dropped. Only `as_str` is undefined on bytes that are no string, and as soon as
they are one the pool is as good as before. -/
theorem utf8_contract (hr : Reachable (api a) (fun _ _ => True) spec w) (hx : w.vals i = some x)
    (hc : spec i = some c) (hlen : ∀ new ∈ fills, new.length = c.utf8ByteSize) :
    ∃ x' h', (fillAll fills).run (x, w.heap) = .ok () (x', h') ∧ h'.calls = w.heap.calls ∧
      x'.owned = x.owned ∧ ShowsBytes h' x' (fills.getLastD (strBytes c)) ∧
      (∀ j y, j ≠ i → w.vals j = some y → ∃ s, spec j = some s ∧ y.Observes h' s) ∧
      ∀ s, strBytes s = fills.getLastD (strBytes c) → Guarantees (api a) (views t)
        (Function.update spec i (some s)) ⟨Function.update w.vals i (some x'), h'⟩ := by
  have hinv := hr.invariant
  obtain ⟨c', hc', r⟩ := hinv.exists_content hx
  obtain rfl : c = c' := Option.some.inj (hc.symm.trans hc')
  have hfill : ∀ new ∈ fills, new.length = (strBytes c).length := by simpa using hlen
  obtain ⟨x', h', hrun, r', hown, hw⟩ := (represents_iff.mp r).run_fillAll hfill
  have ht : Transfer w.heap h' ((w.vals i).bind (api a).owned) ((some x').bind (api a).owned) := by
    have hown' : (api a).owned x' = (api a).owned x := hown
    rw [hx, Option.bind_some, Option.bind_some, hown']
    exact hw.transfer
  refine ⟨x', h', hrun, hw.calls, hown, r'.showsBytes, fun j y hji hy => ?_, fun s hs => ?_⟩
  · obtain ⟨s, hs, ry⟩ := hinv.exists_content hy
    have ry' : Represents h' y s :=
      (api a).rep_congr ry fun p hp => hinv.frame hji ht hy hp
    exact ⟨s, hs, ry'.observes⟩
  · have rs : Represents h' x' s := represents_iff.mpr (hs ▸ r')
    exact .of_invariant _ (hinv.replace ht (.some rs))

/-- Two borrows of the same three bytes, the second of which leaves no string. -/
theorem mixedRun_utf8_contract :
    let w := Exec.final
      ((Op.execAll (api (PointerWidth.w64.paged .little)) mixedRun).run Pool.empty)
    ∃ x x' h', w.vals 0 = some x ∧
      (fillAll [[0x61, 0x62, 0x63], [0x61, 0xff, 0x63]]).run (x, w.heap) = .ok () (x', h') ∧
      ShowsBytes h' x' [0x61, 0xff, 0x63] := by
  intro w
  obtain ⟨x, hx, _⟩ := mixedRun_reachable.invariant.exists_val (i := 0) (c := "ABC")
    (by decide +kernel)
  have hlen : ∀ new ∈ ([[0x61, 0x62, 0x63], [0x61, 0xff, 0x63]] : List (List UInt8)),
      new.length = "ABC".utf8ByteSize := by decide
  obtain ⟨x', h', hrun, _, _, hshows, _⟩ :=
    utf8_contract mixedRun_reachable hx (by decide +kernel) hlen
  exact ⟨x, x', h', hx, hrun, hshows⟩

end SinStr

/-- Reading back what was written for a value of the pool. -/
structure RoundTrips {V B M E O : Type} (I : Interface V String B M)
    (views : Views I.toResource t) (serialize : V → Exec Heap (Except E O))
    (read : O → Exec Heap (Except E V)) (spec : Nat → Option String) (w : Pool V) : Prop where
  /-- Reading does not fail for a reason of the format or of the type. -/
  accepted : ∀ {i x out e h'}, w.vals i = some x →
    (serialize x).run w.heap = .ok (.ok out) w.heap → (read out).run w.heap ≠ .ok (.error e) h'
  /-- The value that is read is equal to the one written, in a reachable pool. -/
  equal : ∀ {i j x y out h'}, w.vals i = some x → spec j = none →
    (serialize x).run w.heap = .ok (.ok out) w.heap → (read out).run w.heap = .ok (.ok y) h' →
    Reachable I (fun _ _ => True) (Function.update spec j (spec i))
      ⟨Function.update w.vals j (some y), h'⟩ ∧ (views.eq x y).run h' = .ok true h'

/-- The reader is a builder of the type, fed with the string that was written. -/
theorem roundTrips_of_builder {V B M E O : Type} {I : Interface V String B M}
    {views : Views I.toResource t} {serialize : V → Exec Heap (Except E O)}
    {read : O → Exec Heap (Except E V)} {spec : Nat → Option String} {w : Pool V}
    (serializeStr : String → Except E O) (builder : String → B)
    (hvalue : ∀ s, I.value (builder s) = s)
    (hbuildable : ∀ {h x s}, I.Rep h x s → I.Buildable (builder s))
    (hserialize : ∀ {h x s}, I.Rep h x s → (serialize x).run h = .ok (serializeStr s) h)
    (hread : ∀ {s out}, serializeStr s = .ok out → I.Buildable (builder s) →
      ∀ h, (read out).run h =
        (do return .ok (← I.build (builder s)) : Exec Heap (Except E V)).run h)
    (hr : Reachable I (fun _ _ => True) spec w) : RoundTrips I views serialize read spec w where
  accepted := by
    intro i x out e h' hx hout hrun
    obtain ⟨s, _, r⟩ := hr.invariant.exists_content hx
    rw [hserialize r, EStateM.Result.ok.injEq] at hout
    rw [hread hout.1 (hbuildable r), EStateM.run_bind] at hrun
    cases hbuild : (I.build (builder s)).run w.heap with
    | ok y h₁ =>
        rw [hbuild] at hrun
        cases hrun
    | error f h₁ =>
        rw [hbuild] at hrun
        cases hrun
  equal := by
    intro i j x y out h' hx hj hout hrun
    obtain ⟨s, hs, r⟩ := hr.invariant.exists_content hx
    rw [hserialize r, EStateM.Result.ok.injEq] at hout
    rw [hread hout.1 (hbuildable r), EStateM.run_bind] at hrun
    have hbuild : (I.build (builder s)).run w.heap = .ok y h' := by
      cases hb : (I.build (builder s)).run w.heap with
      | ok z h₁ =>
          rw [hb] at hrun
          cases hrun
          rfl
      | error f h₁ =>
          rw [hb] at hrun
          cases hrun
    have hexec : ((Op.build j (builder s) : Op B M).exec I).run w =
        .ok () ⟨Function.update w.vals j (some y), h'⟩ := by
      simp only [EStateM.run] at hbuild
      simp only [Op.exec, EStateM.run_bind]
      simp only [Pool.onHeap, EStateM.run, hbuild]
      rfl
    have hlegal : (Op.build j (builder s) : Op B M).Legal I spec := ⟨hj, hbuildable r⟩
    have hreach := hr.tail (.done (G := fun _ _ => True) hlegal trivial hexec)
    have happly : (Op.build j (builder s) : Op B M).apply I spec =
        Function.update spec j (spec i) := by rw [Op.apply, hvalue, hs]
    rw [happly] at hreach
    have hij : i ≠ j := by
      rintro rfl
      rw [hs] at hj
      cases hj
    have hinv : Invariant I _ _ := Reachable.invariant hreach
    obtain ⟨c, hc, rx⟩ := hinv.exists_content (i := i) (x := x) (by simpa [hij] using hx)
    obtain ⟨d, hd, ry⟩ := hinv.exists_content (i := j) (x := y) (by simp)
    rw [Function.update_of_ne hij] at hc
    rw [Function.update_self] at hd
    obtain rfl : c = d := Option.some.inj (hc.symm.trans hd)
    refine ⟨hreach, ?_⟩
    rw [views.run_eq rx ry, decide_eq_true rfl]

/-- A data format: what its serializer writes for a string, its deserializer finds
again as a string, in one form or another. -/
def Faithful {E O : Type} (serializeStr : String → Except E O) (read : O → Except E Input) : Prop :=
  ∀ s out, serializeStr s = .ok out → ∃ found, read out = .ok found ∧ found.str? = some s

theorem run_deserializeStr {E V : Type} {errors : DeError E} {visitor : Visitor E V}
    {found : Input} {s : String} (hfound : found.str? = some s) :
    deserializeStr errors (.ok found) visitor = visitor.visitStr s := by
  cases found with
  | str s' | borrowedStr s' | string s' | char c' =>
      obtain rfl := Option.some.inj hfound
      rfl
  | other found => cases hfound

theorem NonEmptySinStr.run_visitStr_build {E : Type} {errors : DeError E}
    {a : Allocator t.toMachine} {s : String} (hpos : 0 < s.utf8ByteSize) (h : Heap) :
    ((nonEmptySinStrVisitor errors a).visitStr s).run h =
      (do return .ok (← build a (.visitStr s)) :
        Exec Heap (Except E (NonEmptySinStr t))).run h := by
  rw [run_visitStr hpos, EStateM.run_bind, EStateM.run_bind, build, run_unwrap_visitStr hpos]

theorem SinStr.run_visitStr {E : Type} {a : Allocator t.toMachine} (s : String) (h : Heap) :
    ((sinStrVisitor a).visitStr s).run h =
      (do return .ok (← build a (.of (.visitStr s))) : Exec Heap (Except E (SinStr t))).run h := by
  have hunwrap := run_unwrap_ok (E := Unit) (new a s) h
  rw [EStateM.run_bind, build]
  simp only [sinStrVisitor, hunwrap]
  rw [EStateM.run_bind]

theorem SinStr.Represents.len_le {h : Heap} {x : SinStr t} {s : String} (r : Represents h x s) :
    s.utf8ByteSize ≤ t.isizeMax := by
  obtain ⟨_ | n⟩ := x
  · obtain rfl : s = "" := r
    exact Nat.zero_le _
  · exact NonEmptySinStr.Represents.len_le (x := n) r

/-- Through any faithful format, whatever has been done to a value, it is read back
equal to what was written, whichever way it is stored. -/
theorem serde_round_trip {E O : Type} (errors : DeError E) {serializeStr : String → Except E O}
    {read : O → Except E Input} (hformat : Faithful serializeStr read)
    (a : Allocator t.toMachine) :
    (∀ spec w, Reachable (NonEmptySinStr.api a) (fun _ _ => True) spec w →
      RoundTrips (NonEmptySinStr.api a) (NonEmptySinStr.views (NonEmptySinStr.MayFault t))
        (NonEmptySinStr.serialize serializeStr)
        (fun out => NonEmptySinStr.deserialize errors a (read out)) spec w) ∧
    (∀ spec w, Reachable (SinStr.api a) (fun _ _ => True) spec w →
      RoundTrips (SinStr.api a) (SinStr.views t) (SinStr.serialize serializeStr)
        (fun out => SinStr.deserialize errors a (read out)) spec w) := by
  constructor
  · intro spec w hr
    refine roundTrips_of_builder serializeStr .visitStr (fun _ => rfl) (fun r => ?_)
      (fun r => ?_) ?_ hr
    · exact ⟨NonEmptySinStr.Represents.pos r, NonEmptySinStr.Represents.len_le r⟩
    · simp only [NonEmptySinStr.serialize, EStateM.run_bind,
        NonEmptySinStr.Represents.run_asStr r, EStateM.run_pure]
    · intro s out hout hbuild h
      obtain ⟨found, hread, hfound⟩ := hformat s out hout
      rw [NonEmptySinStr.deserialize, hread, run_deserializeStr hfound]
      exact NonEmptySinStr.run_visitStr_build hbuild.1 h
  · intro spec w hr
    refine roundTrips_of_builder serializeStr (fun s => .of (.visitStr s))
      (fun _ => rfl) (fun r => ?_) (fun r => ?_) ?_ hr
    · exact SinStr.Represents.len_le r
    · simp only [SinStr.serialize, EStateM.run_bind, (SinStr.Represents.observes r).asStr,
        EStateM.run_pure]
    · intro s out hout _ h
      obtain ⟨found, hread, hfound⟩ := hformat s out hout
      rw [SinStr.deserialize, hread, run_deserializeStr hfound]
      exact SinStr.run_visitStr s h

/-- The format that writes a string as it is. -/
theorem mixedRun_round_trip :
    RoundTrips (SinStr.api (PointerWidth.w64.paged .little))
      (SinStr.views (PointerWidth.w64.target .little))
      (SinStr.serialize (.ok : String → Except String String))
      (fun out => SinStr.deserialize ⟨fun _ s => s, fun _ s => s⟩ (PointerWidth.w64.paged .little)
        (.ok (.str out)))
      (Op.applyAll (SinStr.api (PointerWidth.w64.paged .little)) (fun _ => none) SinStr.mixedRun)
      (Exec.final ((Op.execAll (SinStr.api (PointerWidth.w64.paged .little)) SinStr.mixedRun).run
        Pool.empty)) := by
  have hformat : Faithful (.ok : String → Except String String) fun out => .ok (.str out) := by
    intro s out hout
    exact ⟨.str out, rfl, congrArg some (Except.ok.inj hout).symm⟩
  exact (serde_round_trip ⟨fun _ s => s, fun _ s => s⟩ hformat
    (PointerWidth.w64.paged .little)).2 _ _ SinStr.mixedRun_reachable

end Sinstr
