import Sinstr.Rust.Ownership

/-!
# Values that own at most one block

A `Resource` is a type of values, each of which stands for a content and owns
at most one block. `Built` says what building a value may end in, `Outcome`
what a method on `&mut self` may end in: the value stands for the new content,
or the fault is one that the content allows and, if the program unwinds,
nothing has changed.
-/

namespace Rust

/-- The owned block, if there is one, was requested with size `n`. -/
def Snug (h : Heap) (o : Option Nat) (n : Nat) : Prop :=
  ∀ p b, o = some p → h.live p = some b → b.size = n

theorem snug_none (h : Heap) (n : Nat) : Snug h none n := fun _ _ hp => by cases hp

theorem snug_of_live {h : Heap} {p : Nat} {b : Block} (hp : h.live p = some b) :
    Snug h (some p) b.size := by
  intro q c hq hc
  rw [← Option.some.inj hq, hp] at hc
  rw [← Option.some.inj hc]

theorem Snug.congr {h h' : Heap} {o : Option Nat} {n : Nat} (hs : Snug h o n)
    (hlive : ∀ p, o = some p → h'.live p = h.live p) : Snug h' o n :=
  fun p b hp hb => hs p b hp (by rw [← hlive p hp, hb])

/-- Values in `V` that stand for contents in `C`. -/
structure Resource (V C : Type) where
  Rep : Heap → V → C → Prop
  owned : V → Option Nat
  /-- The block size that the code recomputes from the content. -/
  need : C → Nat
  /-- The faults, and the heaps they leave, that may stop an operation on the way to
  this content. -/
  Faults : C → Fault → Heap → Prop
  drop : V → Exec Heap Unit
  rep_congr : ∀ {h h' x c}, Rep h x c →
    (∀ p, owned x = some p → h'.live p = h.live p) → Rep h' x c
  rep_live : ∀ {h x c}, Rep h x c → ∀ p, owned x = some p → (h.live p).isSome
  run_drop : ∀ {h x c}, Rep h x c → ∃ h', (drop x).run h = .ok () h' ∧
    Transfer h h' (owned x) none ∧
    (Snug h (owned x) (need c) → h.ExactCalls → h'.ExactCalls)

namespace Resource

variable {V C : Type} (R : Resource V C)

/-- What building a value for the content `c` may end in. -/
inductive Built (h : Heap) (c : C) : EStateM.Result Fault Heap V → Prop
  | done {x h'} (rep : R.Rep h' x c) (transfer : Transfer h h' none (R.owned x))
      (snug : Snug h' (R.owned x) (R.need c)) (exact : h.ExactCalls → h'.ExactCalls) :
      Built h c (.ok x h')
  | fault {e h'} (he : R.Faults c e h')
      (unwind : e.Unwinds → Quiet h h' ∧ (h.ExactCalls → h'.ExactCalls)) :
      Built h c (.error e h')

/-- What a method on `&mut self` that turns the content `c` into `c'` may end
in. Only where `keeps` holds is the block promised to have the recomputed size. -/
inductive Outcome (keeps : Prop) (h : Heap) (x : V) (c c' : C) :
    EStateM.Result Fault (V × Heap) Unit → Prop
  | done {x' h'} (rep : R.Rep h' x' c') (transfer : Transfer h h' (R.owned x) (R.owned x'))
      (exact : keeps → Snug h (R.owned x) (R.need c) → h.ExactCalls →
        Snug h' (R.owned x') (R.need c') ∧ h'.ExactCalls) :
      Outcome keeps h x c c' (.ok () (x', h'))
  | fault {e x' h'} (he : R.Faults c' e h')
      (unwind : e.Unwinds → x' = x ∧ Quiet h h' ∧
        (Snug h (R.owned x) (R.need c) → h.ExactCalls → h'.ExactCalls)) :
      Outcome keeps h x c c' (.error e (x', h'))

variable {R} {h h' : Heap} {x : V} {c c' : C}

/-- A new value that owns nothing. -/
theorem Built.of_owned_none (hrep : R.Rep h x c) (hown : R.owned x = none) :
    R.Built h c (.ok x h) := by
  refine .done hrep ?_ ?_ id
  · rw [hown]
    exact (Quiet.refl h).transfer_none
  · rw [hown]
    exact snug_none h _

theorem Built.unsound {cause : Unsound} (he : R.Faults c (.unsound cause) h') :
    R.Built h c (.error (.unsound cause) h') :=
  .fault he False.elim

theorem Outcome.unsound {keeps : Prop} {cause : Unsound} {x' : V}
    (he : R.Faults c' (.unsound cause) h') :
    R.Outcome keeps h x c c' (.error (.unsound cause) (x', h')) :=
  .fault he False.elim

/-- A value that owns nothing gives way to another one. -/
theorem Outcome.of_owned_none {keeps : Prop} {x' : V} (hrep : R.Rep h x' c')
    (hown : R.owned x = none) (hown' : R.owned x' = none) :
    R.Outcome keeps h x c c' (.ok () (x', h)) := by
  refine .done hrep ?_ fun _ _ hc => ⟨?_, hc⟩
  · rw [hown, hown']
    exact (Quiet.refl h).transfer_none
  · rw [hown']
    exact snug_none h _

/-- Replacing a value by a newly built one: `*self = m?`. -/
theorem Built.assign {m : Exec Heap V} (keeps : Prop) (hrep : R.Rep h x c)
    (hb : R.Built h c' (m.run h)) :
    R.Outcome keeps h x c c'
      ((do Exec.assign R.drop (← Exec.onSnd m) : Exec (V × Heap) Unit).run (x, h)) := by
  simp only [EStateM.run_bind, Exec.run_onSnd]
  generalize hr : m.run h = r at hb
  cases hb with
  | @fault e h' he unwind =>
      refine .fault he fun hu => ?_
      obtain ⟨hq, hexact⟩ := unwind hu
      exact ⟨rfl, hq, fun _ => hexact⟩
  | @done x' h' rep transfer snug exact =>
      have hold : ∀ p, R.owned x = some p → h'.live p = h.live p := by
        intro p hp
        have hlive := R.rep_live hrep p hp
        refine transfer.frame (by simp) fun hp' => ?_
        rw [transfer.fresh hp' (by simp)] at hlive
        cases hlive
      obtain ⟨h'', hdrop, hgive, hcalls⟩ := R.run_drop (R.rep_congr hrep hold)
      have hnew : ∀ p, R.owned x' = some p → h''.live p = h'.live p := by
        intro p hp'
        refine hgive.frame (fun hp => ?_) (by simp)
        have hlive := R.rep_live hrep p hp
        rw [transfer.fresh hp' (by simp)] at hlive
        cases hlive
      simp only [Exec.assign, EStateM.run_bind, Exec.run_self, Exec.run_onSnd, hdrop,
        Exec.run_setSelf]
      refine .done (R.rep_congr rep hnew) (transfer.swap hgive (R.rep_live hrep)) ?_
      intro _ hs hc
      exact ⟨snug.congr hnew, hcalls (hs.congr hold) (exact hc)⟩

/-- A method that leaves the value alone. -/
theorem Outcome.unchanged (keeps : Prop) (hrep : R.Rep h x c) :
    R.Outcome keeps h x c c (.ok () (x, h)) :=
  .done hrep ((Quiet.refl h).transfer (R.rep_live hrep)) fun _ hs hc => ⟨hs, hc⟩

/-- A method may follow calls that changed no block. -/
theorem Outcome.of_quiet {keeps : Prop} {r : EStateM.Result Fault (V × Heap) Unit} (hq : Quiet h h')
    (hexact : h.ExactCalls → h'.ExactCalls) (ho : R.Outcome keeps h' x c c' r) :
    R.Outcome keeps h x c c' r := by
  have hsnug : ∀ {n}, Snug h (R.owned x) n → Snug h' (R.owned x) n :=
    fun hs => hs.congr fun p _ => by rw [hq.live]
  cases ho with
  | done rep transfer exact =>
      exact .done rep (hq.then_transfer transfer) fun hk hs hc => exact hk (hsnug hs) (hexact hc)
  | fault he unwind =>
      refine .fault he fun hu => ?_
      obtain ⟨hx, hq', hexact'⟩ := unwind hu
      exact ⟨hx, hq.trans hq', fun hs hc => hexact' (hsnug hs) (hexact hc)⟩

/-- The same values, with other faults. -/
def withFaults (R : Resource V C) (F : C → Fault → Heap → Prop) : Resource V C :=
  { R with Faults := F }

theorem Built.withFaults {F : C → Fault → Heap → Prop} {r : EStateM.Result Fault Heap V}
    (hF : ∀ {e h}, R.Faults c e h → F c e h) (hb : R.Built h c r) :
    (R.withFaults F).Built h c r := by
  cases hb with
  | done rep transfer snug exact => exact .done rep transfer snug exact
  | fault he unwind => exact .fault (hF he) unwind

theorem Outcome.withFaults {keeps : Prop} {F : C → Fault → Heap → Prop}
    {r : EStateM.Result Fault (V × Heap) Unit} (hF : ∀ {e h}, R.Faults c' e h → F c' e h)
    (ho : R.Outcome keeps h x c c' r) : (R.withFaults F).Outcome keeps h x c c' r := by
  cases ho with
  | done rep transfer exact => exact .done rep transfer exact
  | fault he unwind => exact .fault (hF he) unwind

end Resource

end Rust
