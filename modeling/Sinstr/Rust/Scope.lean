import Sinstr.Rust.Interleave

/-!
# Scopes

At the end of a scope its variables are dropped, and also when the program unwinds out
of it. A scope that uses no other places leaves nothing behind, wherever its program
stopped.
-/

namespace Rust

variable {V C B M : Type} {I : Interface V C B M} {spec : Nat → Option C} {w w' : Pool V}
  {ops : List (Op B M)} {locals : List Nat} {e : Fault}

/-- The variables are dropped one after another. -/
def dropAll (I : Interface V C B M) : List Nat → Exec (Pool V) Unit
  | [] => return
  | i :: is => do
      (Op.drop i : Op B M).exec I
      dropAll I is

/-- A program with its variables. Undefined behaviour is the end of it. -/
def scope (I : Interface V C B M) (locals : List Nat) (ops : List (Op B M)) :
    Exec (Pool V) Unit := fun w =>
  match (Op.execAll I ops).run w with
  | .ok _ w' => (dropAll I locals).run w'
  | .error (.unsound cause) w' => .error (.unsound cause) w'
  | .error e w' =>
      match (dropAll I locals).run w' with
      | .ok _ w'' => .error e w''
      | .error e' w'' => .error e' w''

/-- No value is left and no block; every block was freed once. -/
structure Clean (w : Pool V) : Prop where
  vals : ∀ i, w.vals i = none
  live : ∀ p, w.heap.live p = none
  nodup : w.heap.freed.Nodup
  freed : w.heap.freed.Perm w.heap.created

theorem Clean.of_invariant (hinv : Invariant I spec w) (hspec : ∀ i, spec i = none) : Clean w := by
  have hvals : ∀ i, w.vals i = none := fun i => hinv.vals_eq_none (hspec i)
  obtain ⟨hlive, hfreed⟩ := hinv.all_dropped hvals
  exact ⟨hvals, hlive, hinv.ledger.freed_nodup, hfreed⟩

/-- A variable can always be dropped, also one that has been moved from. -/
theorem run_drop_place (hinv : Invariant I spec w) (i : Nat) :
    ∃ w', ((Op.drop i : Op B M).exec I).run w = .ok () w' ∧
      Invariant I (Function.update spec i none) w' := by
  cases hi : spec i with
  | none =>
      refine ⟨w, ?_, ?_⟩
      · simp only [Op.exec, EStateM.run_bind, EStateM.run_get, hinv.vals_eq_none hi,
          EStateM.run_pure]
      · rwa [← hi, Function.update_eq_self]
  | some c =>
      have hlegal : (Op.drop i : Op B M).Legal I spec := Option.isSome_iff_exists.mpr ⟨c, hi⟩
      obtain ⟨x, hx, hrep⟩ := hinv.exists_val hi
      obtain ⟨h, hdrop, _⟩ := I.run_drop hrep
      have hrun := Op.run_drop (I := I) hx
      rw [hdrop] at hrun
      exact ⟨_, hrun, invariant_step (G := fun _ _ => True) hinv (.done hlegal trivial hrun)⟩

theorem run_dropAll (hinv : Invariant I spec w) (locals : List Nat) :
    ∃ w' spec', (dropAll I locals).run w = .ok () w' ∧ Invariant I spec' w' ∧
      (∀ k ∈ locals, spec' k = none) ∧ ∀ k, spec k = none → spec' k = none := by
  induction locals generalizing spec w with
  | nil => exact ⟨w, spec, rfl, hinv, by simp, fun _ hk => hk⟩
  | cons i is ih =>
      obtain ⟨w₁, hrun, hinv₁⟩ := run_drop_place hinv i
      obtain ⟨w', spec', hrest, hinv', hlocals, hnone⟩ := ih hinv₁
      have hkeep : ∀ k, spec k = none → Function.update spec i none k = none := by
        intro k hk
        by_cases hki : k = i
        · rw [hki, Function.update_self]
        · rwa [Function.update_of_ne hki]
      refine ⟨w', spec', ?_, hinv', ?_, fun k hk => hnone k (hkeep k hk)⟩
      · rw [dropAll, EStateM.run_bind, hrun]
        exact hrest
      · intro k hk
        rcases List.mem_cons.mp hk with rfl | hk
        · exact hnone k (Function.update_self k none spec)
        · exact hlocals k hk

/-- Where a run stops, the places that it does not use are what they were. -/
theorem execAll_stops (hinv : Invariant I spec w)
    (hlegal : Op.LegalRun I (fun _ _ => True) spec ops)
    (hlocal : ∀ op ∈ ops, ∀ k ∈ op.touched, k ∈ locals)
    (hrun : (Op.execAll I ops).run w = .ok () w' ∨
      (Op.execAll I ops).run w = .error e w' ∧ e.Unwinds) :
    ∃ spec', Invariant I spec' w' ∧ ∀ k ∉ locals, spec' k = spec k := by
  induction ops generalizing spec w with
  | nil =>
      rcases hrun with hrun | ⟨hrun, _⟩
      · cases hrun
        exact ⟨spec, hinv, fun _ _ => rfl⟩
      · cases hrun
  | cons op ops ih =>
      obtain ⟨⟨hop, -⟩, hrest⟩ := hlegal
      simp only [Op.execAll, EStateM.run_bind] at hrun
      cases hstep : (op.exec I).run w with
      | ok u w₁ =>
          rw [hstep] at hrun
          obtain ⟨spec', hinv', hframe⟩ := ih
            (invariant_step (G := fun _ _ => True) hinv (.done hop trivial hstep)) hrest
            (fun op' hop' => hlocal op' (List.mem_cons_of_mem _ hop')) hrun
          refine ⟨spec', hinv', fun k hk => (hframe k hk).trans (Op.apply_frame fun htouched => ?_)⟩
          exact hk (hlocal op List.mem_cons_self k htouched)
      | error e₁ w₁ =>
          rw [hstep] at hrun
          rcases hrun with hrun | ⟨hrun, hu⟩
          · cases hrun
          · cases hrun
            exact ⟨spec, invariant_step (G := fun _ _ => True) hinv
              (.unwound hop trivial hstep hu), fun _ _ => rfl⟩

/-- How a scope ends: `w₀` is the pool in which its program stopped. -/
inductive Scoped (I : Interface V C B M) (ops : List (Op B M)) :
    EStateM.Result Fault (Pool V) Unit → Prop
  | returned {w₁} (hclean : Clean w₁) : Scoped I ops (.ok () w₁)
  | unwound {e₁ w₀ w₁} (hu : e₁.Unwinds)
      (hstop : (Op.execAll I ops).run Pool.empty = .error e₁ w₀)
      (he : ∃ c ∈ Op.contents I (fun _ => none) ops, I.Faults c e₁ w₀.heap)
      (hclean : Clean w₁) : Scoped I ops (.error e₁ w₁)
  | undefined {cause w₁}
      (he : ∃ c ∈ Op.contents I (fun _ => none) ops, I.Faults c (.unsound cause) w₁.heap) :
      Scoped I ops (.error (.unsound cause) w₁)

/-- A scope that uses its own variables leaves nothing behind. -/
theorem scoped_run (hlegal : Op.LegalRun I (fun _ _ => True) (fun _ => none) ops)
    (hlocal : ∀ op ∈ ops, ∀ k ∈ op.touched, k ∈ locals) :
    Scoped I ops ((scope I locals ops).run Pool.empty) := by
  have hclean {spec : Nat → Option C} {w : Pool V} (hinv : Invariant I spec w)
      (hframe : ∀ k ∉ locals, spec k = none) :
      ∃ w', (dropAll I locals).run w = .ok () w' ∧ Clean w' := by
    obtain ⟨w', spec', hrun, hinv', hlocals, hnone⟩ := run_dropAll hinv locals
    refine ⟨w', hrun, .of_invariant hinv' fun k => ?_⟩
    by_cases hk : k ∈ locals
    · exact hlocals k hk
    · exact hnone k (hframe k hk)
  have hscope : (scope I locals ops).run Pool.empty =
      match (Op.execAll I ops).run Pool.empty with
      | .ok _ w' => (dropAll I locals).run w'
      | .error (.unsound cause) w' => .error (.unsound cause) w'
      | .error e w' =>
          match (dropAll I locals).run w' with
          | .ok _ w'' => .error e w''
          | .error e' w'' => .error e' w'' := rfl
  rw [hscope]
  cases hrun : (Op.execAll I ops).run Pool.empty with
  | ok u w =>
      obtain ⟨spec, hinv, hframe⟩ := execAll_stops (e := .panic "") Invariant.empty hlegal hlocal
        (Or.inl hrun)
      obtain ⟨w', hdrop, hw'⟩ := hclean hinv hframe
      simp only [hdrop]
      exact .returned hw'
  | error e w =>
      obtain ⟨c, hc, hfault⟩ := fault_of_contents Invariant.empty hlegal hrun
      have hstops (hu : e.Unwinds) : ∃ w', (dropAll I locals).run w = .ok () w' ∧ Clean w' := by
        obtain ⟨spec, hinv, hframe⟩ := execAll_stops Invariant.empty hlegal hlocal
          (Or.inr ⟨hrun, hu⟩)
        exact hclean hinv hframe
      cases e with
      | unsound cause => exact .undefined ⟨c, hc, hfault⟩
      | panic message | allocError size =>
          obtain ⟨w', hdrop, hw'⟩ := hstops trivial
          simp only [hdrop]
          exact .unwound trivial hrun ⟨c, hc, hfault⟩ hw'

end Rust
