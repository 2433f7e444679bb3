import Sinstr.Rust.Pool

/-!
# Builds with assertions

A build with assertions runs the same programs with an assertion that panics before
each condition that the other build takes for granted. If the programs of an
interface are guarded in this way, so are its runs, and the invariant of the one
build is the invariant of the other.
-/

namespace Rust

section Results

variable {σ τ α β : Type} {texts : List String} {calm calm' : σ → Prop}
  {r r' : EStateM.Result Fault σ α}

/-- How a program ends without and with assertions: alike, no false condition having
been taken for granted, or in a panic that comes before it, in a calm state. -/
inductive Asserted (texts : List String) (calm : σ → Prop) :
    EStateM.Result Fault σ α → EStateM.Result Fault σ α → Prop
  | same {r₀} (hr : Exec.fault? r₀ ≠ some (.unsound .assertUnchecked)) :
      Asserted texts calm r₀ r₀
  | caught {text s} (ht : text ∈ texts) (hs : calm s) :
      Asserted texts calm (.error (.unsound .assertUnchecked) s) (.error (.panic text) s)

namespace Asserted

theorem ok (a : α) (s : σ) : Asserted texts calm (.ok a s) (.ok a s) := by
  apply same
  rw [Exec.fault?_ok]
  exact (Option.some_ne_none _).symm

theorem error {e : Fault} (he : e ≠ .unsound .assertUnchecked) (s : σ) :
    Asserted texts calm (.error e s : EStateM.Result Fault σ α) (.error e s) := by
  apply same
  rw [Exec.fault?_error]
  exact fun heq => he (Option.some.inj heq)

theorem mono (hr : Asserted texts calm r r') (hcalm : ∀ s, calm s → calm' s) :
    Asserted texts calm' r r' := by
  cases hr with
  | same hr => exact .same hr
  | caught ht hs => exact .caught ht (hcalm _ hs)

theorem eq_ok_iff (hr : Asserted texts calm r r') {a : α} {s : σ} :
    r' = .ok a s ↔ r = .ok a s := by
  cases hr with
  | same _ => rfl
  | caught _ _ =>
      constructor
      · intro h
        cases h
      · intro h
        cases h

theorem bind {m m' : Exec σ α} {f f' : α → Exec σ β} {s : σ}
    (hm : Asserted texts calm (m.run s) (m'.run s))
    (hf : ∀ a s', m.run s = .ok a s' → Asserted texts calm ((f a).run s') ((f' a).run s')) :
    Asserted texts calm ((m >>= f).run s) ((m' >>= f').run s) := by
  rw [EStateM.run_bind, EStateM.run_bind]
  generalize m.run s = r at hm hf
  generalize m'.run s = r' at hm
  cases hm with
  | same hr =>
      cases r with
      | ok a s' => exact hf a s' rfl
      | error e s' => exact .same hr
  | caught ht hs => exact .caught ht hs

/-- A program that asserts nothing may come first. -/
theorem bind_left {m : Exec σ α} {f f' : α → Exec σ β} {s : σ}
    (hm : Exec.fault? (m.run s) ≠ some (.unsound .assertUnchecked))
    (hf : ∀ a s', m.run s = .ok a s' → Asserted texts calm ((f a).run s') ((f' a).run s')) :
    Asserted texts calm ((m >>= f).run s) ((m >>= f').run s) :=
  bind (.same hm) hf

/-- What is done with a value that has been built asserts nothing. -/
theorem bind_pure {m m' : Exec σ α} {s : σ} (f : α → β)
    (hm : Asserted texts calm (m.run s) (m'.run s)) :
    Asserted texts calm ((do return f (← m) : Exec σ β).run s)
      ((do return f (← m') : Exec σ β).run s) :=
  bind hm fun a s' _ => ok (f a) s'

theorem onSnd {calm : σ × τ → Prop} {m m' : Exec τ α} {x : σ} {h : τ}
    (hm : Asserted texts (fun h' => calm (x, h')) (m.run h) (m'.run h)) :
    Asserted texts calm ((Exec.onSnd m).run (x, h)) ((Exec.onSnd m').run (x, h)) := by
  rw [Exec.run_onSnd, Exec.run_onSnd]
  generalize m.run h = r at hm
  generalize m'.run h = r' at hm
  cases hm with
  | same hr =>
      cases r with
      | ok a h' => exact ok a (x, h')
      | error e h' => exact error (fun he => hr (congrArg some he)) (x, h')
  | caught ht hs => exact .caught ht hs

/-- `*self = m?`, where dropping the old value asserts nothing. -/
theorem assign {calm : σ × τ → Prop} {m m' : Exec τ σ} {drop drop' : σ → Exec τ Unit} {x : σ}
    {h : τ} (hm : Asserted texts (fun h' => calm (x, h')) (m.run h) (m'.run h))
    (hdrop : ∀ y h₁, m.run h = .ok y h₁ → ∃ h₂, (drop x).run h₁ = .ok () h₂ ∧
      (drop' x).run h₁ = .ok () h₂) :
    Asserted texts calm
      ((do Exec.assign drop (← Exec.onSnd m) : Exec (σ × τ) Unit).run (x, h))
      ((do Exec.assign drop' (← Exec.onSnd m') : Exec (σ × τ) Unit).run (x, h)) := by
  refine bind (onSnd hm) fun y s hy => ?_
  rw [Exec.run_onSnd] at hy
  cases hrun : m.run h with
  | error e h₁ =>
      rw [hrun] at hy
      cases hy
  | ok z h₁ =>
      rw [hrun] at hy
      cases hy
      obtain ⟨h₂, hdrop₁, hdrop₂⟩ := hdrop y h₁ hrun
      simp only [Exec.assign, EStateM.run_bind, Exec.run_self, Exec.run_onSnd, hdrop₁, hdrop₂,
        Exec.run_setSelf]
      exact ok () (y, h₂)

end Asserted

end Results

/-- No block changed, and no call named a wrong size. -/
structure Calm (h h' : Heap) : Prop where
  quiet : Quiet h h'
  exact : h.ExactCalls → h'.ExactCalls

theorem Calm.refl (h : Heap) : Calm h h := ⟨.refl h, id⟩

theorem Calm.log {h : Heap} {c : Call} (hc : c.Neutral) (he : c.Exact) : Calm h (h.log c) :=
  ⟨.log hc, fun hh => hh.log he⟩

theorem Calm.trans {h h' h'' : Heap} (hc : Calm h h') (hc' : Calm h' h'') : Calm h h'' :=
  ⟨hc.quiet.trans hc'.quiet, hc'.exact ∘ hc.exact⟩

/-- A newly built value leaves the old one what it was. -/
theorem Resource.Built.rep_old {V C : Type} {R : Resource V C} {h h' : Heap} {x y : V} {c c' : C}
    (hrep : R.Rep h x c) (hb : R.Built h c' (.ok y h')) : R.Rep h' x c := by
  cases hb with
  | done _ transfer _ _ =>
      refine R.rep_congr hrep fun p hp => transfer.frame (by simp) fun hp' => ?_
      have hlive := R.rep_live hrep p hp
      rw [transfer.fresh hp' (by simp)] at hlive
      cases hlive

/-- Replacing a value by a newly built one, where the builds drop values alike. -/
theorem Asserted.assign_built {V C : Type} {R : Resource V C} {texts : List String} {h : Heap}
    {x : V} {c c' : C} {m m' : Exec Heap V} {drop : V → Exec Heap Unit}
    (hdrop : ∀ {h x c}, R.Rep h x c → (drop x).run h = (R.drop x).run h) (hrep : R.Rep h x c)
    (hb : R.Built h c' (m.run h)) (hm : Asserted texts (Calm h) (m.run h) (m'.run h)) :
    Asserted texts (fun s => s.1 = x ∧ Calm h s.2)
      ((do Exec.assign R.drop (← Exec.onSnd m) : Exec (V × Heap) Unit).run (x, h))
      ((do Exec.assign drop (← Exec.onSnd m') : Exec (V × Heap) Unit).run (x, h)) := by
  refine .assign (hm.mono fun _ hcalm => ⟨rfl, hcalm⟩) fun y h₁ hy => ?_
  rw [hy] at hb
  have hold := hb.rep_old hrep
  obtain ⟨h₂, hrun, _⟩ := R.run_drop hold
  exact ⟨h₂, hrun, (hdrop hold).trans hrun⟩

/-- The faults of a build with assertions, from those of the build without. -/
inductive AssertedFault {C : Type} (texts : List String) (F : C → Fault → Heap → Prop) (c : C) :
    Fault → Heap → Prop
  | same {e h} (he : F c e h) (hne : e ≠ .unsound .assertUnchecked) : AssertedFault texts F c e h
  | caught {text h} (he : F c (.unsound .assertUnchecked) h) (ht : text ∈ texts) :
      AssertedFault texts F c (.panic text) h

/-- The programs of an interface in a build with assertions. -/
structure Guard {V C B M : Type} (I : Interface V C B M) (texts : List String) where
  build : B → Exec Heap V
  clone : V → Exec Heap V
  call : M → Exec (V × Heap) Unit
  drop : V → Exec Heap Unit
  build_asserted : ∀ {b h}, I.Buildable b →
    Asserted texts (Calm h) ((I.build b).run h) ((build b).run h)
  clone_asserted : ∀ {h x c}, I.Rep h x c →
    Asserted texts (Calm h) ((I.clone x).run h) ((clone x).run h)
  call_asserted : ∀ {h x c m}, I.Rep h x c → I.Callable m c →
    Asserted texts (fun s => s.1 = x ∧ Calm h s.2) ((I.call m).run (x, h)) ((call m).run (x, h))
  drop_eq : ∀ {h x c}, I.Rep h x c → (drop x).run h = (I.drop x).run h

namespace Guard

variable {V C B M : Type} {I : Interface V C B M} {texts : List String} (G : Guard I texts)

/-- The values are the same; they are dropped by the build with assertions. -/
def resource : Resource V C where
  Rep := I.Rep
  owned := I.owned
  need := I.need
  Faults := AssertedFault texts I.Faults
  drop := G.drop
  rep_congr := I.rep_congr
  rep_live := I.rep_live
  run_drop hrep := by
    rw [G.drop_eq hrep]
    exact I.run_drop hrep

variable {h : Heap} {x : V} {c c' : C}

theorem built {r r' : EStateM.Result Fault Heap V} (hr : Asserted texts (Calm h) r r')
    (hb : I.toResource.Built h c r) : G.resource.Built h c r' := by
  cases hr with
  | same hne =>
      cases hb with
      | done rep transfer snug exact => exact .done rep transfer snug exact
      | fault he unwind => exact .fault (.same he fun heq => hne (congrArg some heq)) unwind
  | caught ht hcalm =>
      cases hb with
      | fault he _ => exact .fault (.caught he ht) fun _ => ⟨hcalm.quiet, hcalm.exact⟩

theorem outcome {keeps : Prop} {r r' : EStateM.Result Fault (V × Heap) Unit}
    (hr : Asserted texts (fun s => s.1 = x ∧ Calm h s.2) r r')
    (ho : I.toResource.Outcome keeps h x c c' r) : G.resource.Outcome keeps h x c c' r' := by
  cases hr with
  | same hne =>
      cases ho with
      | done rep transfer exact => exact .done rep transfer exact
      | fault he unwind => exact .fault (.same he fun heq => hne (congrArg some heq)) unwind
  | caught ht hcalm =>
      obtain ⟨hx, hcalm⟩ := hcalm
      cases ho with
      | fault he _ =>
          exact .fault (.caught he ht) fun _ => ⟨hx, hcalm.quiet, fun _ => hcalm.exact⟩

/-- The interface of the build with assertions: the same contents and contracts. -/
def interface : Interface V C B M where
  toResource := G.resource
  build := G.build
  value := I.value
  Buildable := I.Buildable
  clone := G.clone
  call := G.call
  effect := I.effect
  Callable := I.Callable
  Keeps := I.Keeps
  built hb := G.built (G.build_asserted hb) (I.built hb)
  cloned hrep := G.built (G.clone_asserted hrep) (I.cloned hrep)
  called hrep hcall := G.outcome (G.call_asserted hrep hcall) (I.called hrep hcall)

variable {P : (Nat → Option C) → Op B M → Prop} {spec : Nat → Option C} {w : Pool V} {op : Op B M}
  {ops : List (Op B M)}

theorem invariant_iff : Invariant G.interface spec w ↔ Invariant I spec w :=
  ⟨fun hinv => ⟨hinv.reps, hinv.owned, hinv.ledger⟩,
    fun hinv => ⟨hinv.reps, hinv.owned, hinv.ledger⟩⟩

theorem legal_iff : op.Legal G.interface spec ↔ op.Legal I spec := by
  cases op <;> rfl

theorem apply_eq : op.apply G.interface spec = op.apply I spec := by
  cases op <;> rfl

/-- The state in which an assertion stops a step: the values are all there. -/
def Kept (w w' : Pool V) : Prop := w'.vals = w.vals ∧ Calm w.heap w'.heap

/-- How a step ends whose program on the heap makes the value of place `i`. -/
def stored (w : Pool V) (i : Nat) :
    EStateM.Result Fault Heap V → EStateM.Result Fault (Pool V) Unit
  | .ok x h => .ok () ⟨Function.update w.vals i (some x), h⟩
  | .error e h => .error e ⟨w.vals, h⟩

theorem asserted_stored (i : Nat) {r r' : EStateM.Result Fault Heap V}
    (hr : Asserted texts (Calm w.heap) r r') :
    Asserted texts (Kept w) (stored w i r) (stored w i r') := by
  cases hr with
  | same hr =>
      cases r with
      | ok x h => exact .ok () _
      | error e h => exact .error (fun he => hr (congrArg some he)) _
  | caught ht hcalm => exact .caught ht ⟨rfl, hcalm⟩

/-- How a step ends that calls a program on the value of place `i`. -/
def returned (w : Pool V) (i : Nat) :
    EStateM.Result Fault (V × Heap) Unit → EStateM.Result Fault (Pool V) Unit
  | .ok _ (x', h) => .ok () ⟨Function.update w.vals i (some x'), h⟩
  | .error e (x', h) => .error e ⟨Function.update w.vals i (some x'), h⟩

theorem asserted_returned {i : Nat} {x : V} {r r' : EStateM.Result Fault (V × Heap) Unit}
    (hx : w.vals i = some x)
    (hr : Asserted texts (fun s => s.1 = x ∧ Calm w.heap s.2) r r') :
    Asserted texts (Kept w) (returned w i r) (returned w i r') := by
  cases hr with
  | same hr =>
      cases r with
      | ok u s => exact .ok () _
      | error e s => exact .error (fun he => hr (congrArg some he)) _
  | @caught _ s ht hs =>
      obtain ⟨x', h'⟩ := s
      obtain ⟨rfl, hcalm⟩ := hs
      refine .caught ht ⟨?_, hcalm⟩
      rw [← hx, Function.update_eq_self]

/-- Every step ends in both builds alike, unless an assertion stops it. -/
theorem exec (hinv : Invariant I spec w) (hlegal : op.Legal I spec) :
    Asserted texts (Kept w) ((op.exec I).run w) ((op.exec G.interface).run w) := by
  cases op with
  | build i b =>
      rw [Op.run_build, Op.run_build]
      exact asserted_stored i (G.build_asserted hlegal.2)
  | clone i j =>
      obtain ⟨c, hc⟩ := Option.isSome_iff_exists.mp hlegal.2
      obtain ⟨y, hy, hrep⟩ := hinv.exists_val hc
      rw [Op.run_clone hy, Op.run_clone hy]
      exact asserted_stored i (G.clone_asserted hrep)
  | call i m =>
      obtain ⟨c, hc, hcall⟩ := hlegal
      obtain ⟨x, hx, hrep⟩ := hinv.exists_val hc
      rw [Op.run_call m hx, Op.run_call m hx]
      exact asserted_returned hx (G.call_asserted hrep hcall)
  | assign i j =>
      obtain ⟨_, hi, hj⟩ := hlegal
      obtain ⟨c, hc⟩ := Option.isSome_iff_exists.mp hi
      obtain ⟨d, hd⟩ := Option.isSome_iff_exists.mp hj
      obtain ⟨x, hx, hrep⟩ := hinv.exists_val hc
      obtain ⟨y, hy, _⟩ := hinv.exists_val hd
      obtain ⟨h', hdrop, _⟩ := I.run_drop hrep
      have hdrop' : (G.interface.drop x).run w.heap = .ok () h' := (G.drop_eq hrep).trans hdrop
      rw [Op.run_assign hx hy, Op.run_assign hx hy, hdrop, hdrop']
      exact .ok () _
  | drop i =>
      obtain ⟨c, hc⟩ := Option.isSome_iff_exists.mp hlegal
      obtain ⟨x, hx, hrep⟩ := hinv.exists_val hc
      obtain ⟨h', hdrop, _⟩ := I.run_drop hrep
      have hdrop' : (G.interface.drop x).run w.heap = .ok () h' := (G.drop_eq hrep).trans hdrop
      rw [Op.run_drop hx, Op.run_drop hx, hdrop, hdrop']
      exact .ok () _

/-- A whole run ends in both builds alike, unless an assertion stops it. -/
theorem execAll (hinv : Invariant I spec w) (hlegal : Op.LegalRun I P spec ops) :
    Asserted texts (fun _ => True) ((Op.execAll I ops).run w)
      ((Op.execAll G.interface ops).run w) := by
  induction ops generalizing spec w with
  | nil => exact .ok () w
  | cons op ops ih =>
      obtain ⟨⟨hop, hg⟩, hrest⟩ := hlegal
      refine .bind ((G.exec hinv hop).mono fun _ _ => trivial) fun _ w' hstep => ?_
      exact ih (invariant_step hinv (.done (G := P) hop hg hstep)) hrest

/-- Whatever one build reaches the other one reaches. -/
theorem reachable (hr : Reachable I P spec w) : Reachable G.interface P spec w := by
  have hrun : ∀ s, Relation.ReflTransGen (Step I P) (fun _ => none, Pool.empty) s →
      Reachable G.interface P s.1 s.2 := by
    intro s hs
    induction hs with
    | refl => exact .refl
    | tail hs hstep ih =>
        have hinv : Invariant I _ _ := Reachable.invariant hs
        refine ih.tail ?_
        cases hstep with
        | done hlegal hg hrun =>
            have hsame := G.exec hinv hlegal
            rw [hrun] at hsame
            rw [← G.apply_eq]
            exact .done (G.legal_iff.mpr hlegal) hg (hsame.eq_ok_iff.mpr rfl)
        | unwound hlegal hg hrun hu =>
            have hsame := G.exec hinv hlegal
            rw [hrun] at hsame
            generalize hrun' : (Op.exec G.interface _).run _ = r' at hsame
            cases hsame with
            | same _ => exact .unwound (G.legal_iff.mpr hlegal) hg hrun' hu
            | caught _ _ => exact absurd hu id
  exact hrun (spec, w) hr

end Guard

end Rust
