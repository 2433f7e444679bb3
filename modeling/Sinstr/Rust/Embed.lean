import Sinstr.Rust.Pool

/-!
# One type inside another

A type of owning values whose programs, seen through a function on the values, are the
programs of another type. Then the steps of its pools are steps of the other pools,
with the same heap and the same faults.
-/

namespace Rust

section Map

variable {σ τ α β V V' B B' M : Type}

/-- The same end in another state. -/
def Exec.mapState (f : σ → τ) : EStateM.Result Fault σ α → EStateM.Result Fault τ α
  | .ok a s => .ok a (f s)
  | .error e s => .error e (f s)

/-- The same end with another result. -/
def Exec.mapValue (f : α → β) : EStateM.Result Fault σ α → EStateM.Result Fault σ β
  | .ok a s => .ok (f a) s
  | .error e s => .error e s

/-- The pool of the images, on the same heap. -/
def Pool.map (f : V → V') (w : Pool V) : Pool V' := ⟨fun i => (w.vals i).map f, w.heap⟩

@[simp] theorem Pool.map_heap (f : V → V') (w : Pool V) : (w.map f).heap = w.heap := rfl

@[simp] theorem Pool.map_vals (f : V → V') (w : Pool V) (i : Nat) :
    (w.map f).vals i = (w.vals i).map f := rfl

theorem Pool.map_update (f : V → V') (vals : Nat → Option V) (i : Nat) (v : Option V) (h : Heap) :
    Pool.map f ⟨Function.update vals i v, h⟩ =
      ⟨Function.update (Pool.map f ⟨vals, h⟩).vals i (v.map f), h⟩ := by
  refine Pool.mk.injEq _ _ _ _ ▸ ⟨funext fun k => ?_, rfl⟩
  by_cases hk : k = i
  · subst k
    simp
  · simp [hk]

def Op.map (g : B → B') : Op B M → Op B' M
  | .build i b => .build i (g b)
  | .clone i j => .clone i j
  | .call i m => .call i m
  | .assign i j => .assign i j
  | .drop i => .drop i

end Map

variable {V V' C C' B B' M : Type} {I : Interface V C B M} {I' : Interface V' C' B' M}
  {f : V → V'} {g : B → B'} {okB : B → Prop} {okM : M → Prop}

/-- The programs of `I'` on images are those of `I`, as far as the conditions accept. -/
structure Embeds (I : Interface V C B M) (I' : Interface V' C' B' M) (f : V → V') (g : B → B')
    (okB : B → Prop) (okM : M → Prop) : Prop where
  build : ∀ {b}, okB b → ∀ h, (I'.build (g b)).run h = Exec.mapValue f ((I.build b).run h)
  clone : ∀ x h, (I'.clone (f x)).run h = Exec.mapValue f ((I.clone x).run h)
  call : ∀ {m}, okM m → ∀ x h,
    (I'.call m).run (f x, h) = Exec.mapState (Prod.map f id) ((I.call m).run (x, h))
  drop : ∀ x h, (I'.drop (f x)).run h = (I.drop x).run h

/-- The step builds and calls what the conditions accept. -/
def Op.Admits (okB : B → Prop) (okM : M → Prop) : Op B M → Prop
  | .build _ b => okB b
  | .call _ m => okM m
  | .clone _ _ | .assign _ _ | .drop _ => True

section Empty

variable {w : Pool V} {i j : Nat}

/-- What a step does that finds no value to work on. -/
theorem Op.run_clone_none (hy : w.vals j = none) :
    ((Op.clone i j : Op B M).exec I).run w = .ok () w := by
  simp only [Op.exec, EStateM.run_bind, EStateM.run_get, hy, EStateM.run_pure]

theorem Op.run_call_none (m : M) (hx : w.vals i = none) :
    ((Op.call i m : Op B M).exec I).run w = .ok () w := by
  simp only [Op.exec, Pool.onPlace, EStateM.run, hx]

theorem Op.run_assign_none (hy : w.vals j = none) :
    ((Op.assign i j : Op B M).exec I).run w = .ok () w := by
  simp only [Op.exec, EStateM.run_bind, EStateM.run_get, hy, EStateM.run_pure]

theorem Op.run_assign_none_left {y : V} (hx : w.vals i = none) (hy : w.vals j = some y) :
    ((Op.assign i j : Op B M).exec I).run w = .ok () ⟨Function.update w.vals j none, w.heap⟩ := by
  simp only [Op.exec, EStateM.run_bind, EStateM.run_get, hy]
  simp only [Pool.onPlace, EStateM.run, hx]
  rfl

theorem Op.run_drop_none (hx : w.vals i = none) :
    ((Op.drop i : Op B M).exec I).run w = .ok () w := by
  simp only [Op.exec, EStateM.run_bind, EStateM.run_get, hx, EStateM.run_pure]

end Empty

namespace Embeds

variable {op : Op B M}

/-- One step in both pools. -/
theorem exec (he : Embeds I I' f g okB okM) (hop : op.Admits okB okM) (w : Pool V) :
    ((op.map g).exec I').run (w.map f) = Exec.mapState (Pool.map f) ((op.exec I).run w) := by
  have hnone {i : Nat} (hx : w.vals i = none) : (w.map f).vals i = none := by
    rw [Pool.map_vals, hx]
    rfl
  have hsome {i : Nat} {x : V} (hx : w.vals i = some x) : (w.map f).vals i = some (f x) := by
    rw [Pool.map_vals, hx]
    rfl
  cases op with
  | build i b =>
      rw [Op.map, Op.run_build, Op.run_build, Pool.map_heap, he.build hop]
      cases (I.build b).run w.heap with
      | ok x h => simp only [Exec.mapValue, Exec.mapState, Pool.map_update]; rfl
      | error e h => rfl
  | clone i j =>
      cases hy : w.vals j with
      | none =>
          rw [Op.map, Op.run_clone_none (hnone hy), Op.run_clone_none hy]
          rfl
      | some y =>
          rw [Op.map, Op.run_clone (hsome hy), Op.run_clone hy, Pool.map_heap, he.clone]
          cases (I.clone y).run w.heap with
          | ok x h => simp only [Exec.mapValue, Exec.mapState, Pool.map_update]; rfl
          | error e h => rfl
  | call i m =>
      cases hx : w.vals i with
      | none =>
          rw [Op.map, Op.run_call_none m (hnone hx), Op.run_call_none m hx]
          rfl
      | some x =>
          rw [Op.map, Op.run_call m (hsome hx), Op.run_call m hx, Pool.map_heap, he.call hop]
          cases (I.call m).run (x, w.heap) with
          | ok u s => simp only [Exec.mapState, Pool.map_update]; rfl
          | error e s => simp only [Exec.mapState, Pool.map_update]; rfl
  | assign i j =>
      cases hy : w.vals j with
      | none =>
          rw [Op.map, Op.run_assign_none (hnone hy), Op.run_assign_none hy]
          rfl
      | some y =>
          cases hx : w.vals i with
          | none =>
              rw [Op.map, Op.run_assign_none_left (hnone hx) (hsome hy),
                Op.run_assign_none_left hx hy]
              simp only [Exec.mapState, Pool.map_update]
              rfl
          | some x =>
              rw [Op.map, Op.run_assign (hsome hx) (hsome hy), Op.run_assign hx hy, Pool.map_heap,
                he.drop]
              cases (I.drop x).run w.heap with
              | ok u h => simp only [Exec.mapState, Pool.map_update]; rfl
              | error e h => rfl
  | drop i =>
      cases hx : w.vals i with
      | none =>
          rw [Op.map, Op.run_drop_none (hnone hx), Op.run_drop_none hx]
          rfl
      | some x =>
          rw [Op.map, Op.run_drop (hsome hx), Op.run_drop hx, Pool.map_heap, he.drop]
          cases (I.drop x).run w.heap with
          | ok u h => simp only [Exec.mapState, Pool.map_update]; rfl
          | error e h => rfl

/-- A whole run in both pools. -/
theorem execAll (he : Embeds I I' f g okB okM) {ops : List (Op B M)}
    (hops : ∀ op ∈ ops, op.Admits okB okM) (w : Pool V) :
    (Op.execAll I' (ops.map (Op.map g))).run (w.map f) =
      Exec.mapState (Pool.map f) ((Op.execAll I ops).run w) := by
  induction ops generalizing w with
  | nil => rfl
  | cons op ops ih =>
      have hstep := he.exec (hops op List.mem_cons_self) w
      simp only [List.map_cons, Op.execAll, EStateM.run_bind, hstep]
      cases (op.exec I).run w with
      | ok u w' => exact ih (fun op hop => hops op (List.mem_cons_of_mem _ hop)) w'
      | error e w' => rfl

end Embeds

end Rust
