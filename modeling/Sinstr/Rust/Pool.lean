import Sinstr.Rust.Resource

/-!
# Pools of owning values

Places hold values that share one heap. An `Interface` lists the programs that
build, clone and change a value, with the content that each is meant to leave
and the proof that it leaves it. The reference model of a pool is the map from
places to contents; every run of every interface refines it, owns each live
block exactly once, and leaves alone the values it does not name.
-/

namespace Rust

/-- The programs of a type of owning values. -/
structure Interface (V C B M : Type) extends Resource V C where
  build : B → Exec Heap V
  /-- The content that a builder is meant to leave. -/
  value : B → C
  Buildable : B → Prop
  clone : V → Exec Heap V
  call : M → Exec (V × Heap) Unit
  /-- What a method is meant to do to the content. -/
  effect : M → C → C
  Callable : M → C → Prop
  /-- The calls after which the block still has the recomputed size. -/
  Keeps : M → C → Prop
  built : ∀ {b h}, Buildable b → toResource.Built h (value b) ((build b).run h)
  cloned : ∀ {h x c}, Rep h x c → toResource.Built h c ((clone x).run h)
  called : ∀ {h x c m}, Rep h x c → Callable m c →
    toResource.Outcome (Keeps m c) h x c (effect m c) ((call m).run (x, h))

/-- Values in places, and the heap they share. -/
structure Pool (V : Type) where
  vals : Nat → Option V
  heap : Heap

namespace Pool

variable {V : Type}

def empty : Pool V := ⟨fun _ => none, Heap.empty⟩

def put (i : Nat) (v : Option V) (w : Pool V) : Pool V :=
  { w with vals := Function.update w.vals i v }

/-- Code that uses the heap only. -/
def onHeap {α : Type} (m : Exec Heap α) : Exec (Pool V) α := fun w =>
  match m.run w.heap with
  | .ok x h => .ok x { w with heap := h }
  | .error e h => .error e { w with heap := h }

/-- A method on `&mut self`, called on the value of a place. -/
def onPlace (i : Nat) (m : Exec (V × Heap) Unit) : Exec (Pool V) Unit := fun w =>
  match w.vals i with
  | none => .ok () w
  | some x =>
      match m.run (x, w.heap) with
      | .ok _ (x, h) => .ok () ⟨Function.update w.vals i (some x), h⟩
      | .error e (x, h) => .error e ⟨Function.update w.vals i (some x), h⟩

/-- What the places own. -/
def own (owned : V → Option Nat) (vals : Nat → Option V) : Nat → Option Nat :=
  fun i => (vals i).bind owned

theorem own_update (owned : V → Option Nat) (vals : Nat → Option V) (i : Nat) (v : Option V) :
    own owned (Function.update vals i v) = Function.update (own owned vals) i (v.bind owned) := by
  funext j
  by_cases hji : j = i
  · subst j
    simp [own]
  · simp [own, hji]

end Pool

/-- One step of a program that uses a pool. -/
inductive Op (B M : Type)
  | build (i : Nat) (b : B)
  /-- Place `i` receives a clone of the value in place `j`. -/
  | clone (i j : Nat)
  | call (i : Nat) (m : M)
  /-- The value in place `j` is moved over the value in place `i`. -/
  | assign (i j : Nat)
  | drop (i : Nat)

namespace Op

variable {V C B M : Type}

/-- The step as a program. -/
def exec (I : Interface V C B M) : Op B M → Exec (Pool V) Unit
  | .build i b => do
      let x ← Pool.onHeap (I.build b)
      modify (Pool.put i (some x))
  | .clone i j => do
      match (← get).vals j with
      | none => return
      | some y =>
          let x ← Pool.onHeap (I.clone y)
          modify (Pool.put i (some x))
  | .call i m => Pool.onPlace i (I.call m)
  | .assign i j => do
      match (← get).vals j with
      | none => return
      | some y =>
          Pool.onPlace i (Exec.assign I.drop y)
          modify (Pool.put j none)
  | .drop i => do
      match (← get).vals i with
      | none => return
      | some x =>
          Pool.onHeap (I.drop x)
          modify (Pool.put i none)

/-- The step on the reference model. -/
def apply (I : Interface V C B M) (spec : Nat → Option C) : Op B M → Nat → Option C
  | .build i b => Function.update spec i (some (I.value b))
  | .clone i j => Function.update spec i (spec j)
  | .call i m => Function.update spec i ((spec i).map (I.effect m))
  | .assign i j => Function.update (Function.update spec i (spec j)) j none
  | .drop i => Function.update spec i none

/-- The steps that a program can take: it builds into empty places and uses
values that exist. -/
def Legal (I : Interface V C B M) (spec : Nat → Option C) : Op B M → Prop
  | .build i b => spec i = none ∧ I.Buildable b
  | .clone i j => spec i = none ∧ (spec j).isSome
  | .call i m => ∃ c, spec i = some c ∧ I.Callable m c
  | .assign i j => i ≠ j ∧ (spec i).isSome ∧ (spec j).isSome
  | .drop i => (spec i).isSome

/-- The content that the step is about to store. -/
def content (I : Interface V C B M) (spec : Nat → Option C) : Op B M → Option C
  | .build _ b => some (I.value b)
  | .clone _ j => spec j
  | .call i m => (spec i).map (I.effect m)
  | .assign _ _ => none
  | .drop _ => none

/-- The places whose value the step may change. -/
def places : Op B M → List Nat
  | .build i _ => [i]
  | .clone i _ => [i]
  | .call i _ => [i]
  | .assign i j => [i, j]
  | .drop i => [i]

/-- Steps one after another. -/
def execAll (I : Interface V C B M) : List (Op B M) → Exec (Pool V) Unit
  | [] => return
  | op :: ops => do
      op.exec I
      execAll I ops

def applyAll (I : Interface V C B M) : (Nat → Option C) → List (Op B M) → Nat → Option C
  | spec, [] => spec
  | spec, op :: ops => applyAll I (op.apply I spec) ops

/-- Every step is legal where it is taken and meets the condition `G`. -/
def LegalRun (I : Interface V C B M) (G : (Nat → Option C) → Op B M → Prop) :
    (Nat → Option C) → List (Op B M) → Prop
  | _, [] => True
  | spec, op :: ops => (op.Legal I spec ∧ G spec op) ∧ LegalRun I G (op.apply I spec) ops

/-- The step leaves the block sizes as they are recomputed. -/
def Keeps (I : Interface V C B M) (spec : Nat → Option C) : Op B M → Prop
  | .call i m => ∀ c, spec i = some c → I.Keeps m c
  | _ => True

end Op

variable {V C B M : Type} {I : Interface V C B M} {spec : Nat → Option C} {w : Pool V}
  {h' : Heap} {i j : Nat} {op : Op B M}

/-- Every place holds a value that stands for its content, the places own
exactly the live blocks, and the record accounts for them. -/
structure Invariant (I : Interface V C B M) (spec : Nat → Option C) (w : Pool V) : Prop where
  reps : ∀ i, Option.Rel (I.Rep w.heap) (w.vals i) (spec i)
  owned : Owned (Pool.own I.owned w.vals) w.heap
  ledger : Ledger w.heap

/-- Every block has the recomputed size, and was never named by another one. -/
structure Tight (I : Interface V C B M) (spec : Nat → Option C) (w : Pool V) : Prop where
  snug : ∀ {i x c}, w.vals i = some x → spec i = some c → Snug w.heap (I.owned x) (I.need c)
  exact : w.heap.ExactCalls

namespace Invariant

theorem empty : Invariant I (fun _ => none) Pool.empty where
  reps := fun _ => .none
  owned :=
    { live := by intro i p hp; cases hp
      owner := by intro p hp; cases hp
      inj := by intro i j p hp; cases hp }
  ledger := Ledger.empty

/-- The value of a place that has a content. -/
theorem exists_val (hinv : Invariant I spec w) {c : C} (hc : spec i = some c) :
    ∃ x, w.vals i = some x ∧ I.Rep w.heap x c := by
  have hrel := hinv.reps i
  rw [hc] at hrel
  cases hv : w.vals i with
  | none => rw [hv] at hrel; cases hrel
  | some x => rw [hv] at hrel; cases hrel with | some hrep => exact ⟨x, rfl, hrep⟩

theorem exists_content (hinv : Invariant I spec w) {x : V} (hx : w.vals i = some x) :
    ∃ c, spec i = some c ∧ I.Rep w.heap x c := by
  have hrel := hinv.reps i
  rw [hx] at hrel
  cases hc : spec i with
  | none => rw [hc] at hrel; cases hrel
  | some c => rw [hc] at hrel; cases hrel with | some hrep => exact ⟨c, rfl, hrep⟩

theorem vals_eq_none (hinv : Invariant I spec w) (hi : spec i = none) : w.vals i = none := by
  have hrel := hinv.reps i
  rw [hi] at hrel
  cases hv : w.vals i with
  | none => rfl
  | some x => rw [hv] at hrel; cases hrel

/-- The blocks of a value decide what it stands for. -/
theorem reps_congr (hinv : Invariant I spec w)
    (hlive : ∀ {x p}, w.vals j = some x → I.owned x = some p → h'.live p = w.heap.live p) :
    Option.Rel (I.Rep h') (w.vals j) (spec j) := by
  have hrel := hinv.reps j
  cases hv : w.vals j with
  | none =>
      rw [hv] at hrel
      cases hc : spec j with
      | none => exact .none
      | some c => rw [hc] at hrel; cases hrel
  | some x =>
      obtain ⟨c, hc, hrep⟩ := hinv.exists_content hv
      rw [hc]
      exact .some (I.rep_congr hrep fun p hp => hlive hv hp)

/-- What a call on place `i` may not touch. -/
theorem frame (hinv : Invariant I spec w) {o : Option Nat} (hij : j ≠ i)
    (ht : Transfer w.heap h' ((w.vals i).bind I.owned) o) {x : V} (hx : w.vals j = some x) {p : Nat}
    (hp : I.owned x = some p) : h'.live p = w.heap.live p :=
  hinv.owned.other (i := i) (j := j) ht hij (by simp [Pool.own, hx, hp])

/-- A call on place `i` that exchanges its value. -/
theorem replace {v : Option V} {c : Option C} (hinv : Invariant I spec w)
    (ht : Transfer w.heap h' ((w.vals i).bind I.owned) (v.bind I.owned))
    (hrep : Option.Rel (I.Rep h') v c) :
    Invariant I (Function.update spec i c) ⟨Function.update w.vals i v, h'⟩ where
  reps := by
    intro j
    by_cases hji : j = i
    · subst j
      simpa using hrep
    · simp only [Function.update_of_ne hji]
      exact hinv.reps_congr fun hx hp => hinv.frame hji ht hx hp
  owned := by
    rw [Pool.own_update]
    exact hinv.owned.transfer ht
  ledger := ht.ledger hinv.ledger

/-- A move into an empty place. -/
theorem move (hinv : Invariant I spec w) (hij : i ≠ j) (hi : w.vals i = none) :
    Invariant I (Function.update (Function.update spec i (spec j)) j none)
      ⟨Function.update (Function.update w.vals i (w.vals j)) j none, w.heap⟩ where
  reps := by
    intro k
    by_cases hkj : k = j
    · subst k
      simp
    · by_cases hki : k = i
      · subst k
        simpa [hkj] using hinv.reps j
      · simpa [hkj, hki] using hinv.reps k
  owned := by
    rw [Pool.own_update, Pool.own_update]
    exact hinv.owned.move hij (by simp [Pool.own, hi])
  ledger := hinv.ledger

theorem quiet (hinv : Invariant I spec w) (hq : Quiet w.heap h') :
    Invariant I spec ⟨w.vals, h'⟩ where
  reps := fun _ => hinv.reps_congr fun _ _ => by rw [hq.live]
  owned :=
    { live := fun hp => by rw [hq.live]; exact hinv.owned.live hp
      owner := fun hp => hinv.owned.owner (by rwa [hq.live] at hp)
      inj := hinv.owned.inj }
  ledger := hq.ledger hinv.ledger

end Invariant

namespace Tight

/-- A call on place `i` that leaves a block of the recomputed size. -/
theorem replace {v : Option V} {c : Option C} (htight : Tight I spec w) (hinv : Invariant I spec w)
    (ht : Transfer w.heap h' ((w.vals i).bind I.owned) (v.bind I.owned))
    (hsnug : ∀ {x d}, v = some x → c = some d → Snug h' (I.owned x) (I.need d))
    (hexact : h'.ExactCalls) :
    Tight I (Function.update spec i c) ⟨Function.update w.vals i v, h'⟩ where
  snug := by
    intro j x d hx hd
    by_cases hji : j = i
    · subst j
      simp only [Function.update_self] at hx hd
      exact hsnug hx hd
    · simp only [Function.update_of_ne hji] at hx hd
      exact (htight.snug hx hd).congr fun p hp => hinv.frame hji ht hx hp
  exact := hexact

theorem move (htight : Tight I spec w) :
    Tight I (Function.update (Function.update spec i (spec j)) j none)
      ⟨Function.update (Function.update w.vals i (w.vals j)) j none, w.heap⟩ where
  snug := by
    intro k x d hx hd
    by_cases hkj : k = j
    · subst k
      simp only [Function.update_self] at hx
      cases hx
    · simp only [Function.update_of_ne hkj] at hx hd
      by_cases hki : k = i
      · subst k
        simp only [Function.update_self] at hx hd
        exact htight.snug hx hd
      · simp only [Function.update_of_ne hki] at hx hd
        exact htight.snug hx hd
  exact := htight.exact

theorem quiet (htight : Tight I spec w) (hq : Quiet w.heap h') (hexact : h'.ExactCalls) :
    Tight I spec ⟨w.vals, h'⟩ where
  snug := fun hx hc => (htight.snug hx hc).congr fun p _ => by rw [hq.live]
  exact := hexact

end Tight

/-- What a legal step may end in. -/
inductive StepOutcome (I : Interface V C B M) (spec : Nat → Option C) (w : Pool V) (op : Op B M) :
    EStateM.Result Fault (Pool V) Unit → Prop
  | done {w'} (inv : Invariant I (op.apply I spec) w')
      (frame : ∀ k ∉ op.places, w'.vals k = w.vals k ∧
        ∀ x p, w.vals k = some x → I.owned x = some p → w'.heap.live p = w.heap.live p)
      (tight : op.Keeps I spec → Tight I spec w → Tight I (op.apply I spec) w') :
      StepOutcome I spec w op (.ok () w')
  | fault {e w'} (he : ∃ c, op.content I spec = some c ∧ I.Faults c e w'.heap)
      (unwind : e.Unwinds → w'.vals = w.vals ∧ Quiet w.heap w'.heap ∧
        (Tight I spec w → w'.heap.ExactCalls)) :
      StepOutcome I spec w op (.error e w')

/-- Storing a newly built value in an empty place. -/
theorem stepOutcome_of_built (op : Op B M) {c : C} {m : Exec Heap V} (hinv : Invariant I spec w)
    (hi : spec i = none) (hplaces : i ∈ op.places) (hcontent : op.content I spec = some c)
    (happly : op.apply I spec = Function.update spec i (some c))
    (hb : I.Built w.heap c (m.run w.heap)) :
    StepOutcome I spec w op ((do
      let x ← Pool.onHeap m
      modify (Pool.put i (some x)) : Exec (Pool V) Unit).run w) := by
  have hv := hinv.vals_eq_none hi
  have hrun : (Pool.onHeap m).run w = match m.run w.heap with
      | .ok x h => .ok x { w with heap := h }
      | .error e h => .error e { w with heap := h } := rfl
  simp only [EStateM.run_bind, hrun]
  generalize m.run w.heap = result at hb
  cases hb with
  | fault he unwind =>
      refine .fault ⟨c, hcontent, he⟩ fun hu => ?_
      obtain ⟨hq, hexact⟩ := unwind hu
      exact ⟨rfl, hq, fun htight => hexact htight.exact⟩
  | @done x h rep transfer snug exact =>
      have ht : Transfer w.heap h ((w.vals i).bind I.owned) ((some x).bind I.owned) := by
        rw [hv]
        exact transfer
      refine .done ?_ (fun k hk => ?_) fun _ htight => ?_
      · rw [happly]
        exact hinv.replace ht (.some rep)
      · have hki : k ≠ i := fun h => hk (h ▸ hplaces)
        exact ⟨Function.update_of_ne hki _ _, fun y p hy hp => hinv.frame hki ht hy hp⟩
      · rw [happly]
        refine htight.replace hinv ht (fun hx hd => ?_) (exact htight.exact)
        rw [← Option.some.inj hx, ← Option.some.inj hd]
        exact snug

/-- Every legal step refines the step of the reference model or stops in one of
the faults of its content, and then, if the program unwinds, changed nothing. -/
theorem exec_outcome (hinv : Invariant I spec w) (hlegal : op.Legal I spec) :
    StepOutcome I spec w op ((op.exec I).run w) := by
  cases op with
  | build i b =>
      obtain ⟨hi, hb⟩ := hlegal
      exact stepOutcome_of_built (.build i b) hinv hi (by simp [Op.places]) rfl rfl
        (I.built hb)
  | clone i j =>
      obtain ⟨hi, hj⟩ := hlegal
      obtain ⟨c, hc⟩ := Option.isSome_iff_exists.mp hj
      obtain ⟨y, hy, hrep⟩ := hinv.exists_val hc
      have hout := stepOutcome_of_built (.clone i j) hinv hi (by simp [Op.places]) hc
        (by rw [Op.apply, hc]) (I.cloned hrep)
      simpa [Op.exec, hy] using hout
  | call i m =>
      obtain ⟨c, hc, hcall⟩ := hlegal
      obtain ⟨x, hx, hrep⟩ := hinv.exists_val hc
      have hout := I.called hrep hcall
      simp only [Op.exec, Pool.onPlace, EStateM.run, hx]
      simp only [EStateM.run] at hout
      generalize I.call m (x, w.heap) = result at hout
      cases hout with
      | @fault e x' h he unwind =>
          refine .fault ⟨I.effect m c, by rw [Op.content, hc]; rfl, he⟩ fun hu => ?_
          obtain ⟨rfl, hq, hexact⟩ := unwind hu
          refine ⟨?_, hq, fun htight => hexact (htight.snug hx hc) htight.exact⟩
          rw [← hx, Function.update_eq_self]
      | @done x' h rep transfer exact =>
          have ht : Transfer w.heap h ((w.vals i).bind I.owned) ((some x').bind I.owned) := by
            rw [hx]
            exact transfer
          have happly : (Op.call i m : Op B M).apply I spec =
              Function.update spec i (some (I.effect m c)) := by rw [Op.apply, hc]; rfl
          refine .done ?_ (fun k hk => ?_) fun hkeeps htight => ?_
          · rw [happly]
            exact hinv.replace ht (.some rep)
          · have hki : k ≠ i := fun h => hk (by simp [Op.places, h])
            exact ⟨Function.update_of_ne hki _ _, fun y p hy hp => hinv.frame hki ht hy hp⟩
          · obtain ⟨hsnug, hcalls⟩ := exact (hkeeps c hc) (htight.snug hx hc) htight.exact
            rw [happly]
            refine htight.replace hinv ht (fun hy hd => ?_) hcalls
            rw [← Option.some.inj hy, ← Option.some.inj hd]
            exact hsnug
  | assign i j =>
      obtain ⟨hij, hi, hj⟩ := hlegal
      obtain ⟨c, hc⟩ := Option.isSome_iff_exists.mp hi
      obtain ⟨d, hd⟩ := Option.isSome_iff_exists.mp hj
      obtain ⟨x, hx, hrep⟩ := hinv.exists_val hc
      obtain ⟨y, hy, -⟩ := hinv.exists_val hd
      obtain ⟨h, hdrop, transfer, exact⟩ := I.run_drop hrep
      have hrun : ((Op.assign i j : Op B M).exec I).run w =
          .ok () ⟨Function.update (Function.update w.vals i (w.vals j)) j none, h⟩ := by
        have hassign : (Exec.assign I.drop y).run (x, w.heap) = .ok () (y, h) := by
          simp [Exec.assign, Exec.run_onSnd, hdrop]
        simp only [EStateM.run] at hassign
        simp only [Op.exec, EStateM.run_bind, EStateM.run_get, hy]
        simp only [Pool.onPlace, EStateM.run, hx, hassign]
        rfl
      rw [hrun]
      have ht : Transfer w.heap h ((w.vals i).bind I.owned) ((none : Option V).bind I.owned) := by
        rw [hx]
        exact transfer
      have hinv' := hinv.replace ht (c := none) .none
      have hji : j ≠ i := Ne.symm hij
      have hmove := hinv'.move hij (Function.update_self i none w.vals)
      simp only [Function.update_of_ne hji, Function.update_idem] at hmove
      refine .done hmove (fun k hk => ?_) fun _ htight => ?_
      · obtain ⟨hki, hkj⟩ : k ≠ i ∧ k ≠ j := by simpa [Op.places, not_or] using hk
        refine ⟨by simp [hki, hkj], fun z p hz hp => hinv.frame hki ht hz hp⟩
      · have htight' := (htight.replace hinv ht (c := none) (by simp)
          (exact (htight.snug hx hc) htight.exact)).move (i := i) (j := j)
        simp only [Function.update_of_ne hji, Function.update_idem] at htight'
        exact htight'
  | drop i =>
      obtain ⟨c, hc⟩ := Option.isSome_iff_exists.mp hlegal
      obtain ⟨x, hx, hrep⟩ := hinv.exists_val hc
      obtain ⟨h, hdrop, transfer, exact⟩ := I.run_drop hrep
      have hrun : ((Op.drop i : Op B M).exec I).run w =
          .ok () ⟨Function.update w.vals i none, h⟩ := by
        simp only [EStateM.run] at hdrop
        simp only [Op.exec, EStateM.run_bind, EStateM.run_get, hx]
        simp only [Pool.onHeap, EStateM.run, hdrop]
        rfl
      rw [hrun]
      have ht : Transfer w.heap h ((w.vals i).bind I.owned) ((none : Option V).bind I.owned) := by
        rw [hx]
        exact transfer
      refine .done (hinv.replace ht .none) (fun k hk => ?_) fun _ htight => ?_
      · have hki : k ≠ i := fun h => hk (by simp [Op.places, h])
        exact ⟨Function.update_of_ne hki _ _, fun z p hz hp => hinv.frame hki ht hz hp⟩
      · exact htight.replace hinv ht (by simp) (exact (htight.snug hx hc) htight.exact)

/-- One legal step of a run that meets the condition `G`. A step that unwinds
is one the program may survive; undefined behaviour ends the run. -/
inductive Step (I : Interface V C B M) (G : (Nat → Option C) → Op B M → Prop) :
    (Nat → Option C) × Pool V → (Nat → Option C) × Pool V → Prop
  | done {spec w op w'} (hlegal : op.Legal I spec) (hg : G spec op)
      (hrun : (op.exec I).run w = .ok () w') : Step I G (spec, w) (op.apply I spec, w')
  | unwound {spec w op e w'} (hlegal : op.Legal I spec) (hg : G spec op)
      (hrun : (op.exec I).run w = .error e w') (hu : e.Unwinds) : Step I G (spec, w) (spec, w')

/-- The pools, each with its reference model, that runs from the empty pool reach. -/
def Reachable (I : Interface V C B M) (G : (Nat → Option C) → Op B M → Prop)
    (spec : Nat → Option C) (w : Pool V) : Prop :=
  Relation.ReflTransGen (Step I G) (fun _ => none, Pool.empty) (spec, w)

section Runs

variable {G : (Nat → Option C) → Op B M → Prop} {s s' : (Nat → Option C) × Pool V}

theorem invariant_step (hinv : Invariant I s.1 s.2) (hs : Step I G s s') :
    Invariant I s'.1 s'.2 := by
  cases hs with
  | done hlegal _ hrun =>
      have hout := exec_outcome hinv hlegal
      rw [hrun] at hout
      cases hout with
      | done inv _ _ => exact inv
  | unwound hlegal _ hrun hu =>
      have hout := exec_outcome hinv hlegal
      rw [hrun] at hout
      cases hout with
      | @fault e w' he unwind =>
          obtain ⟨hvals, hq, _⟩ := unwind hu
          have hquiet := hinv.quiet hq
          rwa [← hvals] at hquiet

theorem tight_step (hkeeps : ∀ spec op, G spec op → op.Keeps I spec) (hinv : Invariant I s.1 s.2)
    (htight : Tight I s.1 s.2) (hs : Step I G s s') : Tight I s'.1 s'.2 := by
  cases hs with
  | done hlegal hg hrun =>
      have hout := exec_outcome hinv hlegal
      rw [hrun] at hout
      cases hout with
      | done _ _ tight => exact tight (hkeeps _ _ hg) htight
  | unwound hlegal _ hrun hu =>
      have hout := exec_outcome hinv hlegal
      rw [hrun] at hout
      cases hout with
      | @fault e w' he unwind =>
          obtain ⟨hvals, hq, hexact⟩ := unwind hu
          have hquiet := htight.quiet hq (hexact htight)
          rwa [← hvals] at hquiet

/-- Every run refines the reference model and owns each live block once. -/
theorem Reachable.invariant (hr : Reachable I G spec w) : Invariant I spec w := by
  have hrun : ∀ s, Relation.ReflTransGen (Step I G) (fun _ => none, Pool.empty) s →
      Invariant I s.1 s.2 := by
    intro s hs
    induction hs with
    | refl => exact Invariant.empty
    | tail _ hstep ih => exact invariant_step ih hstep
  exact hrun (spec, w) hr

/-- A run whose steps all keep the recomputed sizes has them throughout. -/
theorem Reachable.tight (hkeeps : ∀ spec op, G spec op → op.Keeps I spec)
    (hr : Reachable I G spec w) : Tight I spec w := by
  have hrun : ∀ s, Relation.ReflTransGen (Step I G) (fun _ => none, Pool.empty) s →
      Invariant I s.1 s.2 ∧ Tight I s.1 s.2 := by
    intro s hs
    induction hs with
    | refl =>
        refine ⟨Invariant.empty, ?_, ?_⟩
        · intro i x c hx
          cases hx
        · intro c hc
          cases hc
    | tail _ hstep ih => exact ⟨invariant_step ih.1 hstep, tight_step hkeeps ih.1 ih.2 hstep⟩
  exact (hrun (spec, w) hr).2

/-- A sequence of legal steps that returns extends a run. -/
theorem Reachable.execAll {ops : List (Op B M)} {w' : Pool V} (hr : Reachable I G spec w)
    (hlegal : Op.LegalRun I G spec ops) (hrun : (Op.execAll I ops).run w = .ok () w') :
    Reachable I G (Op.applyAll I spec ops) w' := by
  induction ops generalizing spec w with
  | nil =>
      cases hrun
      exact hr
  | cons op ops ih =>
      obtain ⟨⟨hop, hg⟩, hrest⟩ := hlegal
      simp only [Op.execAll, EStateM.run_bind] at hrun
      cases hstep : (op.exec I).run w with
      | error e w₁ =>
          rw [hstep] at hrun
          cases hrun
      | ok u w₁ =>
          rw [hstep] at hrun
          exact ih (hr.tail (.done hop hg hstep)) hrest hrun

/-- A sequence of legal steps that returns is a run. -/
theorem Reachable.of_returns {ops : List (Op B M)} (hlegal : Op.LegalRun I G (fun _ => none) ops)
    (hreturns : Exec.returns ((Op.execAll I ops).run Pool.empty) = true) :
    Reachable I G (Op.applyAll I (fun _ => none) ops)
      (Exec.final ((Op.execAll I ops).run Pool.empty)) :=
  Reachable.execAll .refl hlegal (Exec.eq_ok_of_returns hreturns)

/-- Once every place is empty no block is live, and each was freed once. -/
theorem Invariant.all_dropped (hinv : Invariant I spec w) (hempty : ∀ i, w.vals i = none) :
    (∀ p, w.heap.live p = none) ∧ w.heap.freed.Perm w.heap.created := by
  have hnone : ∀ p, w.heap.live p = none := by
    intro p
    by_contra hp
    obtain ⟨i, hi⟩ := hinv.owned.owner (Option.isSome_iff_ne_none.mpr hp)
    rw [Pool.own, hempty i] at hi
    cases hi
  exact ⟨hnone, hinv.ledger.freed_perm_created hnone⟩

end Runs

section Run

variable {x y : V}

theorem Op.run_build (b : B) : ((Op.build i b : Op B M).exec I).run w =
    match (I.build b).run w.heap with
    | .ok x h => .ok () ⟨Function.update w.vals i (some x), h⟩
    | .error e h => .error e ⟨w.vals, h⟩ := by
  simp only [Op.exec, EStateM.run_bind]
  simp only [Pool.onHeap, EStateM.run]
  cases I.build b w.heap <;> rfl

theorem Op.run_clone (hy : w.vals j = some y) : ((Op.clone i j : Op B M).exec I).run w =
    match (I.clone y).run w.heap with
    | .ok x h => .ok () ⟨Function.update w.vals i (some x), h⟩
    | .error e h => .error e ⟨w.vals, h⟩ := by
  simp only [Op.exec, EStateM.run_bind, EStateM.run_get, hy]
  simp only [Pool.onHeap, EStateM.run]
  cases I.clone y w.heap <;> rfl

theorem Op.run_call (m : M) (hx : w.vals i = some x) : ((Op.call i m : Op B M).exec I).run w =
    match (I.call m).run (x, w.heap) with
    | .ok _ (x', h) => .ok () ⟨Function.update w.vals i (some x'), h⟩
    | .error e (x', h) => .error e ⟨Function.update w.vals i (some x'), h⟩ := by
  simp only [Op.exec, Pool.onPlace, EStateM.run, hx]

theorem Op.run_assign (hx : w.vals i = some x) (hy : w.vals j = some y) :
    ((Op.assign i j : Op B M).exec I).run w =
      match (I.drop x).run w.heap with
      | .ok _ h => .ok () ⟨Function.update (Function.update w.vals i (some y)) j none, h⟩
      | .error e h => .error e ⟨w.vals, h⟩ := by
  have hassign : (Exec.assign I.drop y).run (x, w.heap) =
      match (I.drop x).run w.heap with
      | .ok _ h => .ok () (y, h)
      | .error e h => .error e (x, h) := by
    simp only [Exec.assign, EStateM.run_bind, Exec.run_self, Exec.run_onSnd]
    cases (I.drop x).run w.heap <;> rfl
  simp only [EStateM.run] at hassign
  simp only [Op.exec, EStateM.run_bind, EStateM.run_get, hy]
  simp only [Pool.onPlace, EStateM.run, hx, hassign]
  generalize I.drop x w.heap = result
  cases result with
  | ok u h => rfl
  | error e h => simp only [← hx, Function.update_eq_self]

theorem Op.run_drop (hx : w.vals i = some x) : ((Op.drop i : Op B M).exec I).run w =
    match (I.drop x).run w.heap with
    | .ok _ h => .ok () ⟨Function.update w.vals i none, h⟩
    | .error e h => .error e ⟨w.vals, h⟩ := by
  simp only [Op.exec, EStateM.run_bind, EStateM.run_get, hx]
  simp only [Pool.onHeap, EStateM.run]
  cases I.drop x w.heap <;> rfl

end Run

end Rust
