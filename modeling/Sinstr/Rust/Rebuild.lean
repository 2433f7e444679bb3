import Sinstr.Rust.Account

/-!
# Changing a value or building it anew

Every change of a value can be replaced by building the changed content in a free
place and moving it over the old value. The plain program that results has the same
contents throughout. If no single change costs more than that, the program with the
changes asks the allocator for no more than the plain one, over any run.
-/

namespace Rust

variable {V C B M : Type} {I : Interface V C B M} {spec : Nat → Option C} {make : C → B}
  {i j k : Nat} {op : Op B M} {ops ops' : List (Op B M)} {G : (Nat → Option C) → Op B M → Prop}

namespace Op

/-- The step without a change: the new content is built in place `k` and moved. -/
def rebuilt (I : Interface V C B M) (make : C → B) (k : Nat) (spec : Nat → Option C) :
    Op B M → List (Op B M)
  | .call i m =>
      match spec i with
      | none => []
      | some c => [.build k (make (I.effect m c)), .assign i k]
  | .build i b => [.build i b]
  | .clone i j => [.clone i j]
  | .assign i j => [.assign i j]
  | .drop i => [.drop i]

/-- The plain program. -/
def rebuiltAll (I : Interface V C B M) (make : C → B) (k : Nat) :
    (Nat → Option C) → List (Op B M) → List (Op B M)
  | _, [] => []
  | spec, op :: ops => op.rebuilt I make k spec ++ rebuiltAll I make k (op.apply I spec) ops

theorem applyAll_append (spec : Nat → Option C) (ops ops' : List (Op B M)) :
    applyAll I spec (ops ++ ops') = applyAll I (applyAll I spec ops) ops' := by
  induction ops generalizing spec with
  | nil => rfl
  | cons op ops ih => exact ih (op.apply I spec)

theorem legalRun_append : LegalRun I G spec (ops ++ ops') ↔
    LegalRun I G spec ops ∧ LegalRun I G (applyAll I spec ops) ops' := by
  induction ops generalizing spec with
  | nil => simp only [List.nil_append, LegalRun, applyAll, true_and]
  | cons op ops ih =>
      simp only [List.cons_append, LegalRun, applyAll, ih, and_assoc]

theorem chargeAll_append (T : Tariff I) (spec : Nat → Option C) (acc : Account)
    (ops ops' : List (Op B M)) : chargeAll T spec acc (ops ++ ops') =
      chargeAll T (applyAll I spec ops) (chargeAll T spec acc ops) ops' := by
  induction ops generalizing spec acc with
  | nil => rfl
  | cons op ops ih => exact ih (op.apply I spec) (op.charge T spec acc)

/-- A place that is free and not named stays free. -/
theorem apply_free (hfree : spec k = none) (hk : k ∉ op.places) : op.apply I spec k = none := by
  cases op with
  | build i b | clone i j | call i m | drop i =>
      have hki : k ≠ i := fun h => hk (by simp [places, h])
      rw [apply, Function.update_of_ne hki, hfree]
  | assign i j =>
      obtain ⟨hki, hkj⟩ : k ≠ i ∧ k ≠ j := by simpa [places, not_or] using hk
      rw [apply, Function.update_of_ne hkj, Function.update_of_ne hki, hfree]

/-- Building anew leaves the contents that the change leaves. -/
theorem applyAll_rebuilt (hmake : ∀ c, I.value (make c) = c) (hfree : spec k = none)
    (hk : k ∉ op.places) (hlegal : op.Legal I spec) :
    applyAll I spec (op.rebuilt I make k spec) = op.apply I spec := by
  cases op with
  | build i b | clone i j | assign i j | drop i => rfl
  | call i m =>
      obtain ⟨c, hc, _⟩ := hlegal
      have hki : k ≠ i := fun h => hk (by simp [places, h])
      simp only [rebuilt, hc, applyAll, apply, hmake, Option.map_some]
      funext l
      by_cases hlk : l = k
      · subst l
        simp [hki, hfree]
      · by_cases hli : l = i
        · subst l
          simp [hlk]
        · simp [hlk, hli]

theorem applyAll_rebuiltAll (hmake : ∀ c, I.value (make c) = c) (hfree : spec k = none)
    (hk : ∀ op ∈ ops, k ∉ op.places) (hlegal : LegalRun I G spec ops) :
    applyAll I spec (rebuiltAll I make k spec ops) = applyAll I spec ops := by
  induction ops generalizing spec with
  | nil => rfl
  | cons op ops ih =>
      obtain ⟨⟨hop, _⟩, hrest⟩ := hlegal
      have hkop := hk op List.mem_cons_self
      rw [rebuiltAll, applyAll_append, applyAll_rebuilt hmake hfree hkop hop, applyAll]
      exact ih (apply_free hfree hkop) (fun op' hop' => hk op' (List.mem_cons_of_mem op hop')) hrest

/-- What a run has stored may be built. -/
theorem legalRun_rebuilt {w w' : Pool V} (hbuild : ∀ {h x c}, I.Rep h x c → I.Buildable (make c))
    (hinv : Invariant I spec w) (hfree : spec k = none) (hk : k ∉ op.places)
    (hlegal : op.Legal I spec) (hrun : (op.exec I).run w = .ok () w') :
    LegalRun I (fun _ _ => True) spec (op.rebuilt I make k spec) := by
  cases op with
  | build i b | clone i j | assign i j | drop i => exact ⟨⟨hlegal, trivial⟩, trivial⟩
  | call i m =>
      have hout := exec_outcome hinv hlegal
      rw [hrun] at hout
      obtain ⟨c, hc, hcall⟩ := hlegal
      have hki : k ≠ i := fun h => hk (by simp [places, h])
      cases hout with
      | done inv _ _ =>
          have hnew : (call i m : Op B M).apply I spec i = some (I.effect m c) := by
            simp [apply, hc]
          obtain ⟨x, _, hrep⟩ := inv.exists_val hnew
          simp only [rebuilt, hc]
          exact ⟨⟨⟨hfree, hbuild hrep⟩, trivial⟩,
            ⟨⟨Ne.symm hki, by simp [apply, Ne.symm hki, hc], by simp [apply]⟩, trivial⟩, trivial⟩

theorem legalRun_rebuiltAll {w w' : Pool V} (hmake : ∀ c, I.value (make c) = c)
    (hbuild : ∀ {h x c}, I.Rep h x c → I.Buildable (make c)) (hinv : Invariant I spec w)
    (hfree : spec k = none) (hk : ∀ op ∈ ops, k ∉ op.places) (hlegal : LegalRun I G spec ops)
    (hrun : (execAll I ops).run w = .ok () w') :
    LegalRun I (fun _ _ => True) spec (rebuiltAll I make k spec ops) := by
  induction ops generalizing spec w with
  | nil => trivial
  | cons op ops ih =>
      obtain ⟨⟨hop, hg⟩, hrest⟩ := hlegal
      have hkop := hk op List.mem_cons_self
      simp only [execAll, EStateM.run_bind] at hrun
      cases hstep : (op.exec I).run w with
      | error e w₁ =>
          rw [hstep] at hrun
          cases hrun
      | ok u w₁ =>
          rw [hstep] at hrun
          rw [rebuiltAll, legalRun_append, applyAll_rebuilt hmake hfree hkop hop]
          refine ⟨legalRun_rebuilt hbuild hinv hfree hkop hop hstep, ?_⟩
          exact ih (invariant_step (G := G) hinv (.done hop hg hstep)) (apply_free hfree hkop)
            (fun op' hop' => hk op' (List.mem_cons_of_mem op hop')) hrest hrun

end Op

/-- No change costs more requests than releasing a freshly made block and making the
changed content, as long as the block is one that `P` admits. -/
structure Tariff.Thrifty (T : Tariff I) (P : C → Option Nat → Prop) : Prop where
  make : ∀ c, P c (T.make c).block
  change : ∀ {m c b}, P c b → I.Callable m c → P (I.effect m c) (T.change m c b).block ∧
    (T.change m c b).requests.length ≤
      (T.release c (T.make c).block).length + (T.make (I.effect m c)).requests.length
  release : ∀ {c b}, P c b → (T.release c b).length ≤ (T.release c (T.make c).block).length

/-- The account with changes and the account without them. -/
structure Cheaper (T : Tariff I) (P : C → Option Nat → Prop) (spec : Nat → Option C)
    (acc acc' : Account) : Prop where
  requests : acc.requests.length ≤ acc'.requests.length
  admitted : ∀ {i c}, spec i = some c → P c (acc.blocks i)
  made : ∀ {i c}, spec i = some c → acc'.blocks i = (T.make c).block

namespace Cheaper

variable {T : Tariff I} {P : C → Option Nat → Prop} {acc acc' : Account} {charge charge' : Charge}

theorem enter {c : Option C} (hcheap : Cheaper T P spec acc acc')
    (hreq : charge.requests.length ≤ charge'.requests.length)
    (hblock : ∀ d ∈ c, P d charge.block ∧ charge'.block = (T.make d).block) :
    Cheaper T P (Function.update spec i c) (acc.enter i charge) (acc'.enter i charge') where
  requests := by
    rw [Account.enter_requests, Account.enter_requests, List.length_append, List.length_append]
    exact Nat.add_le_add hreq hcheap.requests
  admitted := by
    intro l d hd
    by_cases hl : l = i
    · subst l
      rw [Function.update_self] at hd
      rw [Account.enter_blocks_self]
      exact (hblock d hd).1
    · rw [Function.update_of_ne hl] at hd
      rw [Account.enter_blocks_of_ne acc charge hl]
      exact hcheap.admitted hd
  made := by
    intro l d hd
    by_cases hl : l = i
    · subst l
      rw [Function.update_self] at hd
      rw [Account.enter_blocks_self]
      exact (hblock d hd).2
    · rw [Function.update_of_ne hl] at hd
      rw [Account.enter_blocks_of_ne acc' charge' hl]
      exact hcheap.made hd

/-- A change against building anew. -/
theorem call {m : M} {c : C} (hT : T.Thrifty P) (hmake : ∀ c, I.value (make c) = c)
    (hcheap : Cheaper T P spec acc acc') (hfree : spec k = none) (hki : k ≠ i)
    (hc : spec i = some c) (hcall : I.Callable m c) :
    Cheaper T P (Function.update spec i (some (I.effect m c)))
      (acc.enter i (T.change m c (acc.blocks i)))
      (Op.chargeAll T spec acc' [.build k (make (I.effect m c)), .assign i k]) := by
  have hcharge : Op.chargeAll T spec acc' [.build k (make (I.effect m c)), .assign i k] =
      (((acc'.enter k (T.make (I.effect m c))).enter i
        ⟨T.release c (acc'.blocks i), (T.make (I.effect m c)).block⟩).enter k ⟨[], none⟩) := by
    simp only [Op.chargeAll, Op.charge, Op.apply, hmake, Function.update_of_ne (Ne.symm hki), hc,
      Account.enter_blocks_self, Account.enter_blocks_of_ne _ _ (Ne.symm hki)]
  obtain ⟨hP, hcost⟩ := hT.change (hcheap.admitted hc) hcall
  rw [hcharge]
  refine ⟨?_, fun {l d} hd => ?_, fun {l d} hd => ?_⟩
  · have hold := hcheap.requests
    rw [hcheap.made hc]
    simp only [Account.enter_requests, List.length_append, List.length_nil]
    omega
  · by_cases hl : l = i
    · subst l
      rw [Function.update_self, Option.some.injEq] at hd
      rw [Account.enter_blocks_self, ← hd]
      exact hP
    · rw [Function.update_of_ne hl] at hd
      rw [Account.enter_blocks_of_ne acc _ hl]
      exact hcheap.admitted hd
  · by_cases hl : l = i
    · subst l
      rw [Function.update_self, Option.some.injEq] at hd
      rw [Account.enter_blocks_of_ne _ _ (Ne.symm hki), Account.enter_blocks_self, ← hd]
    · rw [Function.update_of_ne hl] at hd
      have hlk : l ≠ k := by
        rintro rfl
        rw [hfree] at hd
        cases hd
      rw [Account.enter_blocks_of_ne _ _ hlk, Account.enter_blocks_of_ne _ _ hl,
        Account.enter_blocks_of_ne _ _ hlk]
      exact hcheap.made hd

/-- One step of the program against its steps in the plain one. -/
theorem step (hT : T.Thrifty P) (hmake : ∀ c, I.value (make c) = c)
    (hcheap : Cheaper T P spec acc acc') (hfree : spec k = none) (hk : k ∉ op.places)
    (hlegal : op.Legal I spec) :
    Cheaper T P (op.apply I spec) (op.charge T spec acc)
      (Op.chargeAll T spec acc' (op.rebuilt I make k spec)) := by
  cases op with
  | build i b =>
      exact hcheap.enter le_rfl (by simpa using hT.make (I.value b))
  | clone i j =>
      obtain ⟨c, hc⟩ := Option.isSome_iff_exists.mp hlegal.2
      simp only [Op.rebuilt, Op.chargeAll, Op.charge, Op.apply, hc]
      exact hcheap.enter le_rfl (by simpa using hT.make c)
  | call i m =>
      obtain ⟨c, hc, hcall⟩ := hlegal
      have hki : k ≠ i := fun h => hk (by simp [Op.places, h])
      simp only [Op.rebuilt, Op.charge, Op.apply, hc, Option.map_some]
      exact hcheap.call hT hmake hfree hki hc hcall
  | assign i j =>
      obtain ⟨hij, hi, hj⟩ := hlegal
      obtain ⟨c, hc⟩ := Option.isSome_iff_exists.mp hi
      obtain ⟨d, hd⟩ := Option.isSome_iff_exists.mp hj
      simp only [Op.rebuilt, Op.chargeAll, Op.charge, Op.apply, hc, hd]
      refine Cheaper.enter (hcheap.enter ?_ ?_) le_rfl (by simp)
      · rw [hcheap.made hc]
        exact hT.release (hcheap.admitted hc)
      · simpa using ⟨hcheap.admitted hd, hcheap.made hd⟩
  | drop i =>
      obtain ⟨c, hc⟩ := Option.isSome_iff_exists.mp hlegal
      simp only [Op.rebuilt, Op.chargeAll, Op.charge, Op.apply, hc]
      refine hcheap.enter ?_ (by simp)
      rw [hcheap.made hc]
      exact hT.release (hcheap.admitted hc)

/-- A whole run of the program against the plain one. -/
theorem chargeAll (hT : T.Thrifty P) (hmake : ∀ c, I.value (make c) = c)
    (hcheap : Cheaper T P spec acc acc') (hfree : spec k = none)
    (hk : ∀ op ∈ ops, k ∉ op.places) (hlegal : Op.LegalRun I G spec ops) :
    Cheaper T P (Op.applyAll I spec ops) (Op.chargeAll T spec acc ops)
      (Op.chargeAll T spec acc' (Op.rebuiltAll I make k spec ops)) := by
  induction ops generalizing spec acc acc' with
  | nil => exact hcheap
  | cons op ops ih =>
      obtain ⟨⟨hop, _⟩, hrest⟩ := hlegal
      have hkop := hk op List.mem_cons_self
      rw [Op.rebuiltAll, Op.chargeAll_append, Op.applyAll_rebuilt hmake hfree hkop hop]
      exact ih (hcheap.step hT hmake hfree hkop hop) (Op.apply_free hfree hkop)
        (fun op' hop' => hk op' (List.mem_cons_of_mem op hop')) hrest

theorem empty : Cheaper T P (fun _ => none) Account.empty Account.empty where
  requests := le_rfl
  admitted := by
    intro i c hc
    cases hc
  made := by
    intro i c hc
    cases hc

/-- Both programs, run from the empty pool, each with its own allocator. -/
theorem of_runs {I' : Interface V C B M} {T' : Tariff I'} {w w' : Pool V} (hT : T.Thrifty P)
    (hA : T.Alike T') (hmake : ∀ c, I.value (make c) = c)
    (hbuild : ∀ {h x c}, I.Rep h x c → I.Buildable (make c)) (hk : ∀ op ∈ ops, k ∉ op.places)
    (hlegal : Op.LegalRun I G (fun _ => none) ops)
    (hrun : (Op.execAll I ops).run Pool.empty = .ok () w)
    (hrun' : (Op.execAll I' (Op.rebuiltAll I make k (fun _ => none) ops)).run Pool.empty =
      .ok () w') :
    Invariant I (Op.applyAll I (fun _ => none) ops) w ∧
      Invariant I' (Op.applyAll I (fun _ => none) ops) w' ∧
      Cheaper T P (Op.applyAll I (fun _ => none) ops) (w.account I.owned)
        (w'.account I'.owned) := by
  have hplain := Op.legalRun_rebuiltAll hmake hbuild .empty rfl hk hlegal hrun
  have hplain' := hplain.alike hA.interface
  have hspec := Op.applyAll_rebuiltAll hmake rfl hk hlegal
  rw [Op.applyAll_shared hA.interface.value hA.interface.effect] at hspec
  have hinv := (Reachable.execAll .refl hlegal hrun).invariant
  have hinv' := (Reachable.execAll .refl hplain' hrun').invariant
  rw [hspec] at hinv'
  refine ⟨hinv, hinv', ?_⟩
  rw [account_of_returns T hlegal hrun, account_of_returns T' hplain' hrun',
    ← Op.chargeAll_alike hA]
  exact Cheaper.empty.chargeAll hT hmake rfl hk hlegal

end Cheaper

end Rust
