import Mathlib.Data.List.Perm.Basic

/-!
# Steps on cells with owners

A step reads and writes the cells that it touches, and no others. When every cell has an
owner and every step touches cells of one owner only, neither the cells at the end nor
the events nor the right to take the steps depends on how the owners take turns.
-/

namespace Rust

/-- Steps of type `O` on cells with contents in `D`; each of them emits an event. -/
structure Local (κ D O E : Type) where
  touched : O → List κ
  step : O → (κ → D) → κ → D
  emit : O → (κ → D) → E
  Allowed : O → (κ → D) → Prop
  step_frame : ∀ {op s k}, k ∉ touched op → step op s k = s k
  step_congr : ∀ {op s s'}, (∀ k ∈ touched op, s k = s' k) →
    ∀ k ∈ touched op, step op s k = step op s' k
  emit_congr : ∀ {op s s'}, (∀ k ∈ touched op, s k = s' k) → emit op s = emit op s'
  allowed_congr : ∀ {op s s'}, (∀ k ∈ touched op, s k = s' k) → Allowed op s → Allowed op s'

section Scripts

variable {O ι : Type} [DecidableEq ι] (owner : O → ι)

/-- The steps of one owner. -/
def script (o : ι) (ops : List O) : List O := ops.filter fun op => owner op = o

/-- Every owner takes the same steps in the same order. -/
def Interleaved (ops ops' : List O) : Prop := ∀ o, script owner o ops = script owner o ops'

variable {owner} {ops ops' : List O} {op : O} {o : ι}

theorem script_cons_self :
    script owner (owner op) (op :: ops) = op :: script owner (owner op) ops :=
  List.filter_cons_of_pos (by simp)

theorem script_cons_of_ne (hne : owner op ≠ o) :
    script owner o (op :: ops) = script owner o ops :=
  List.filter_cons_of_neg (by simpa using hne)

theorem script_script : script owner o (script owner o ops) = script owner o ops := by
  simp [script]

theorem mem_script_iff : op ∈ script owner o ops ↔ op ∈ ops ∧ owner op = o := by
  simp [script]

theorem Interleaved.mem (hint : Interleaved owner ops ops') (hop : op ∈ ops') : op ∈ ops := by
  have hmem : op ∈ script owner (owner op) ops' := mem_script_iff.mpr ⟨hop, rfl⟩
  rw [← hint] at hmem
  exact (mem_script_iff.mp hmem).1

end Scripts

/-- Lists whose entries come in the same order for every tag have the same entries. -/
theorem perm_of_tags {ι E : Type} [DecidableEq ι] {l l' : List (ι × E)}
    (htags : ∀ o, (l.filter fun e => e.1 = o) = l'.filter fun e => e.1 = o) : l.Perm l' := by
  classical
  refine List.perm_iff_count.mpr fun e => ?_
  have hcount (m : List (ι × E)) : (m.filter fun d => d.1 = e.1).count e = m.count e :=
    List.count_filter (by simp)
  rw [← hcount l, htags, hcount l']

namespace Local

variable {κ D O E ι : Type} (M : Local κ D O E) (owner : O → ι) (side : κ → ι)

def run : (κ → D) → List O → κ → D
  | s, [] => s
  | s, op :: ops => run (M.step op s) ops

/-- The events of a run, each with the owner of its step. -/
def events : (κ → D) → List O → List (ι × E)
  | _, [] => []
  | s, op :: ops => (owner op, M.emit op s) :: events (M.step op s) ops

def AllowedRun : (κ → D) → List O → Prop
  | _, [] => True
  | s, op :: ops => M.Allowed op s ∧ AllowedRun (M.step op s) ops

/-- Every step touches cells of its owner only. -/
def Confined (ops : List O) : Prop := ∀ op ∈ ops, ∀ k ∈ M.touched op, side k = owner op

/-- The cells of one owner are the same. -/
def AgreeOn (o : ι) (s s' : κ → D) : Prop := ∀ k, side k = o → s k = s' k

variable {M owner side} {s s' : κ → D} {op : O} {ops ops' : List O} {o : ι}

theorem Confined.tail (hconf : M.Confined owner side (op :: ops)) : M.Confined owner side ops :=
  fun op' hop => hconf op' (List.mem_cons_of_mem _ hop)

/-- What a step touches, states that agree for its owner share. -/
theorem agreeOn_touched (hop : ∀ k ∈ M.touched op, side k = owner op)
    (hs : AgreeOn side (owner op) s s') : ∀ k ∈ M.touched op, s k = s' k :=
  fun k hk => hs k (hop k hk)

theorem agreeOn_step (hop : ∀ k ∈ M.touched op, side k = owner op)
    (hs : AgreeOn side (owner op) s s') :
    AgreeOn side (owner op) (M.step op s) (M.step op s') := by
  intro k hk
  by_cases htouched : k ∈ M.touched op
  · exact M.step_congr (agreeOn_touched hop hs) k htouched
  · rw [M.step_frame htouched, M.step_frame htouched]
    exact hs k hk

/-- A step of another owner leaves the cells alone. -/
theorem agreeOn_step_other (hop : ∀ k ∈ M.touched op, side k = owner op) (hne : owner op ≠ o)
    (hs : AgreeOn side o s s') : AgreeOn side o (M.step op s) s' := by
  intro k hk
  have huntouched : k ∉ M.touched op := fun htouched => hne ((hop k htouched).symm.trans hk)
  rw [M.step_frame huntouched]
  exact hs k hk

variable [DecidableEq ι]

theorem Confined.script (hconf : M.Confined owner side ops) :
    M.Confined owner side (script owner o ops) :=
  fun op hop => hconf op (mem_script_iff.mp hop).1

/-- An owner sees what its own steps make of its cells. -/
theorem run_script (hconf : M.Confined owner side ops) (hs : AgreeOn side o s s') :
    AgreeOn side o (M.run s ops) (M.run s' (script owner o ops)) := by
  induction ops generalizing s s' with
  | nil => exact hs
  | cons op ops ih =>
      have hop := hconf op List.mem_cons_self
      by_cases howner : owner op = o
      · subst howner
        rw [script_cons_self]
        exact ih hconf.tail (agreeOn_step hop hs)
      · rw [script_cons_of_ne howner]
        exact ih hconf.tail (agreeOn_step_other hop howner hs)

theorem events_script (hconf : M.Confined owner side ops) (hs : AgreeOn side o s s') :
    (M.events owner s ops).filter (fun e => e.1 = o) =
      M.events owner s' (script owner o ops) := by
  induction ops generalizing s s' with
  | nil => rfl
  | cons op ops ih =>
      have hop := hconf op List.mem_cons_self
      by_cases howner : owner op = o
      · subst howner
        rw [script_cons_self, events, events, List.filter_cons_of_pos (by simp),
          ih hconf.tail (agreeOn_step hop hs), M.emit_congr (agreeOn_touched hop hs)]
      · rw [script_cons_of_ne howner, events, List.filter_cons_of_neg (by simpa using howner)]
        exact ih hconf.tail (agreeOn_step_other hop howner hs)

theorem allowedRun_script (hconf : M.Confined owner side ops) (hs : AgreeOn side o s s')
    (hallowed : M.AllowedRun s ops) : M.AllowedRun s' (script owner o ops) := by
  induction ops generalizing s s' with
  | nil => trivial
  | cons op ops ih =>
      obtain ⟨hhead, htail⟩ := hallowed
      have hop := hconf op List.mem_cons_self
      by_cases howner : owner op = o
      · subst howner
        rw [script_cons_self]
        exact ⟨M.allowed_congr (agreeOn_touched hop hs) hhead,
          ih hconf.tail (agreeOn_step hop hs) htail⟩
      · rw [script_cons_of_ne howner]
        exact ih hconf.tail (agreeOn_step_other hop howner hs) htail

/-- Steps that every owner may take alone may be taken together. -/
theorem allowedRun_of_scripts (hconf : M.Confined owner side ops)
    (hallowed : ∀ o, M.AllowedRun s (script owner o ops)) : M.AllowedRun s ops := by
  induction ops generalizing s with
  | nil => trivial
  | cons op ops ih =>
      have hop := hconf op List.mem_cons_self
      have hown := hallowed (owner op)
      rw [script_cons_self] at hown
      refine ⟨hown.1, ih hconf.tail fun o => ?_⟩
      by_cases howner : owner op = o
      · subst howner
        exact hown.2
      · have hother := hallowed o
        rw [script_cons_of_ne howner] at hother
        have hself : AgreeOn side o s s := fun _ _ => rfl
        have hsame : AgreeOn side o s (M.step op s) := fun k hk =>
          (agreeOn_step_other hop howner hself k hk).symm
        rw [← script_script]
        exact allowedRun_script hconf.tail.script hsame hother

section Interleaved

variable (hint : Interleaved owner ops ops') (hconf : M.Confined owner side ops)

include hint hconf

theorem confined_interleaved : M.Confined owner side ops' :=
  fun op hop => hconf op (hint.mem hop)

theorem run_interleaved : M.run s ops = M.run s ops' := by
  have hsame : ∀ o, AgreeOn side o s s := fun _ _ _ => rfl
  funext k
  rw [run_script hconf (hsame (side k)) k rfl, hint,
    run_script (confined_interleaved hint hconf) (hsame (side k)) k rfl]

theorem events_interleaved : (M.events owner s ops).Perm (M.events owner s ops') := by
  have hsame : ∀ o, AgreeOn side o s s := fun _ _ _ => rfl
  refine perm_of_tags fun o => ?_
  rw [events_script hconf (hsame o), hint,
    events_script (confined_interleaved hint hconf) (hsame o)]

theorem allowedRun_interleaved (hallowed : M.AllowedRun s ops) : M.AllowedRun s ops' := by
  refine allowedRun_of_scripts (confined_interleaved hint hconf) fun o => ?_
  rw [← hint]
  exact allowedRun_script hconf (fun _ _ => rfl) hallowed

end Interleaved

end Local

end Rust
