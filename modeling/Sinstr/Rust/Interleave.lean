import Sinstr.Rust.Account
import Sinstr.Rust.Locality

/-!
# Interleaved programs on a pool

Several programs share a heap, and each place belongs to one of them. The contents of
the places, the sizes of their blocks and the requests that are made are those of the
programs taken one by one; only the order of the requests and the addresses depend on
how the programs take turns.
-/

namespace Rust

variable {V V' C B M : Type} {I : Interface V C B M} {I' : Interface V' C B M} {T : Tariff I}
  {T' : Tariff I'} {spec spec' : Nat → Option C} {acc acc' : Account} {op : Op B M}
  {ops ops' : List (Op B M)} {k : Nat}

namespace Op

/-- The place that the step leaves its result in. -/
def place : Op B M → Nat
  | .build i _ => i
  | .clone i _ => i
  | .call i _ => i
  | .assign i _ => i
  | .drop i => i

/-- The places that the step reads or changes. -/
def touched : Op B M → List Nat
  | .build i _ => [i]
  | .clone i j => [i, j]
  | .call i _ => [i]
  | .assign i j => [i, j]
  | .drop i => [i]

/-- The contents that the steps of a run store, one after another. -/
def contents (I : Interface V C B M) : (Nat → Option C) → List (Op B M) → List C
  | _, [] => []
  | spec, op :: ops => (op.content I spec).toList ++ contents I (op.apply I spec) ops

theorem contents_append (spec : Nat → Option C) (ops ops' : List (Op B M)) :
    contents I spec (ops ++ ops') =
      contents I spec ops ++ contents I (applyAll I spec ops) ops' := by
  induction ops generalizing spec with
  | nil => rfl
  | cons op ops ih =>
      rw [List.cons_append, contents, contents, ih, List.append_assoc]
      rfl

theorem contents_shared (hvalue : I.value = I'.value) (heffect : I.effect = I'.effect)
    (spec : Nat → Option C) (ops : List (Op B M)) :
    contents I spec ops = contents I' spec ops := by
  induction ops generalizing spec with
  | nil => rfl
  | cons op ops ih =>
      have hcontent : op.content I spec = op.content I' spec := by
        cases op <;> simp only [content, hvalue, heffect]
      rw [contents, contents, hcontent, apply_shared hvalue heffect, ih]

theorem apply_frame (hk : k ∉ op.touched) : op.apply I spec k = spec k := by
  cases op with
  | build i b | call i m | drop i =>
      have hki : k ≠ i := by simpa [touched] using hk
      exact Function.update_of_ne hki _ _
  | clone i j =>
      obtain ⟨hki, -⟩ : k ≠ i ∧ k ≠ j := by simpa [touched] using hk
      exact Function.update_of_ne hki _ _
  | assign i j =>
      obtain ⟨hki, hkj⟩ : k ≠ i ∧ k ≠ j := by simpa [touched] using hk
      rw [apply, Function.update_of_ne hkj, Function.update_of_ne hki]

theorem apply_congr (hspec : ∀ k ∈ op.touched, spec k = spec' k) (hk : k ∈ op.touched) :
    op.apply I spec k = op.apply I spec' k := by
  cases op with
  | build i b | drop i =>
      obtain rfl : k = i := by simpa [touched] using hk
      simp [apply]
  | call i m =>
      obtain rfl : k = i := by simpa [touched] using hk
      simp [apply, hspec k hk]
  | clone i j | assign i j =>
      have hj := hspec j (by simp [touched])
      have hcases : k = i ∨ k = j := by simpa [touched] using hk
      rcases hcases with rfl | rfl <;> simp [apply, Function.update_apply, hj]

theorem legal_congr (hspec : ∀ k ∈ op.touched, spec k = spec' k) (hlegal : op.Legal I spec) :
    op.Legal I spec' := by
  cases op with
  | build i b | call i m | drop i =>
      have hi := hspec i (by simp [touched])
      simpa only [Legal, ← hi] using hlegal
  | clone i j | assign i j =>
      have hi := hspec i (by simp [touched])
      have hj := hspec j (by simp [touched])
      simpa only [Legal, ← hi, ← hj] using hlegal

theorem content_congr (hspec : ∀ k ∈ op.touched, spec k = spec' k) :
    op.content I spec = op.content I spec' := by
  cases op with
  | build i b | assign i j | drop i => rfl
  | call i m => rw [content, content, hspec i (by simp [touched])]
  | clone i j => exact hspec j (by simp [touched])

/-- What the step adds to an account with these blocks. -/
def bill (T : Tariff I) (spec : Nat → Option C) (blocks : Nat → Option Nat) (op : Op B M) :
    Account :=
  op.charge T spec ⟨[], blocks⟩

theorem charge_eq_bill : op.charge T spec acc =
    ⟨(op.bill T spec acc.blocks).requests ++ acc.requests, (op.bill T spec acc.blocks).blocks⟩ := by
  cases op with
  | build i b => simp [bill, charge, Account.enter]
  | clone i j => cases hj : spec j <;> simp [bill, charge, Account.enter, hj]
  | call i m | assign i j | drop i => cases hi : spec i <;> simp [bill, charge, Account.enter, hi]

variable {blocks blocks' : Nat → Option Nat}

theorem bill_frame (hk : k ∉ op.touched) : (op.bill T spec blocks).blocks k = blocks k := by
  cases op with
  | build i b =>
      have hki : k ≠ i := by simpa [touched] using hk
      simp [bill, charge, hki]
  | call i m | drop i =>
      have hki : k ≠ i := by simpa [touched] using hk
      cases hi : spec i <;> simp [bill, charge, hi, hki]
  | clone i j =>
      obtain ⟨hki, -⟩ : k ≠ i ∧ k ≠ j := by simpa [touched] using hk
      cases hj : spec j <;> simp [bill, charge, hj, hki]
  | assign i j =>
      obtain ⟨hki, hkj⟩ : k ≠ i ∧ k ≠ j := by simpa [touched] using hk
      cases hi : spec i <;> simp [bill, charge, hi, hki, hkj]

theorem bill_requests_congr (hspec : ∀ k ∈ op.touched, spec k = spec' k)
    (hblocks : ∀ k ∈ op.touched, blocks k = blocks' k) :
    (op.bill T spec blocks).requests = (op.bill T spec' blocks').requests := by
  cases op with
  | build i b => rfl
  | clone i j =>
      have hj := hspec j (by simp [touched])
      simp only [bill, charge, hj]
      cases spec' j <;> rfl
  | call i m | assign i j | drop i =>
      have hi := hspec i (by simp [touched])
      have hb := hblocks i (by simp [touched])
      simp only [bill, charge, hi, hb]
      cases spec' i <;> rfl

theorem bill_blocks_congr (hspec : ∀ k ∈ op.touched, spec k = spec' k)
    (hblocks : ∀ k ∈ op.touched, blocks k = blocks' k) (hk : k ∈ op.touched) :
    (op.bill T spec blocks).blocks k = (op.bill T spec' blocks').blocks k := by
  have hbk := hblocks k hk
  cases op with
  | build i b =>
      obtain rfl : k = i := by simpa [touched] using hk
      simp [bill, charge]
  | call i m | drop i =>
      obtain rfl : k = i := by simpa [touched] using hk
      have hi := hspec k hk
      simp only [bill, charge, hi, hbk]
      cases spec' k <;> simp [hbk]
  | clone i j =>
      have hj := hspec j (by simp [touched])
      simp only [bill, charge, hj]
      cases spec' j <;> simp [Account.enter, Function.update_apply, hbk]
  | assign i j =>
      have hi := hspec i (by simp [touched])
      have hb := hblocks i (by simp [touched])
      have hbj := hblocks j (by simp [touched])
      simp only [bill, charge, hi, hb, hbj]
      cases spec' i <;> simp [Account.enter, Function.update_apply, hbk]

/-- A content and the size of the block that it is kept in. -/
abbrev Cell (C : Type) := Option C × Option Nat

/-- The steps on the contents and the accounts of a pool. Each emits what it stores and
what it requests. -/
def localSteps (T : Tariff I) : Local Nat (Cell C) (Op B M) (Option C × List Request) where
  touched := touched
  step op s k :=
    (op.apply I (fun k => (s k).1) k, (op.bill T (fun k => (s k).1) fun k => (s k).2).blocks k)
  emit op s :=
    (op.content I fun k => (s k).1, (op.bill T (fun k => (s k).1) fun k => (s k).2).requests)
  Allowed op s := op.Legal I fun k => (s k).1
  step_frame hk := Prod.ext (apply_frame hk) (bill_frame hk)
  step_congr hs _ hk :=
    Prod.ext (apply_congr (fun k hk => congrArg Prod.fst (hs k hk)) hk)
      (bill_blocks_congr (fun k hk => congrArg Prod.fst (hs k hk))
        (fun k hk => congrArg Prod.snd (hs k hk)) hk)
  emit_congr hs :=
    Prod.ext (content_congr fun k hk => congrArg Prod.fst (hs k hk))
      (bill_requests_congr (fun k hk => congrArg Prod.fst (hs k hk))
        fun k hk => congrArg Prod.snd (hs k hk))
  allowed_congr hs hlegal := legal_congr (fun k hk => congrArg Prod.fst (hs k hk)) hlegal

def cells (spec : Nat → Option C) (acc : Account) : Nat → Cell C := fun k => (spec k, acc.blocks k)

theorem step_cells : (localSteps T).step op (cells spec acc) =
    cells (op.apply I spec) (op.charge T spec acc) := by
  rw [charge_eq_bill]
  rfl

theorem run_cells : (localSteps T).run (cells spec acc) ops =
    cells (applyAll I spec ops) (chargeAll T spec acc ops) := by
  induction ops generalizing spec acc with
  | nil => rfl
  | cons op ops ih => rw [Local.run, step_cells, ih, applyAll, chargeAll]

theorem allowedRun_cells (T : Tariff I) (acc : Account) :
    (localSteps T).AllowedRun (cells spec acc) ops ↔ LegalRun I (fun _ _ => True) spec ops := by
  induction ops generalizing spec acc with
  | nil => exact Iff.rfl
  | cons op ops ih =>
      rw [Local.AllowedRun, step_cells, ih, LegalRun, and_true]
      exact Iff.rfl

section Owners

variable {ι : Type} {side : Nat → ι}

/-- Who takes the step, if every place has a side. -/
def owner (side : Nat → ι) (op : Op B M) : ι := side op.place

/-- Every step stays on one side. -/
def Within (side : Nat → ι) (ops : List (Op B M)) : Prop :=
  ∀ op ∈ ops, ∀ k ∈ op.touched, side k = op.owner side

theorem contents_eq (T : Tariff I) (acc : Account) (side : Nat → ι) : contents I spec ops =
    ((localSteps T).events (owner side) (cells spec acc) ops).filterMap fun e => e.2.1 := by
  induction ops generalizing spec acc with
  | nil => rfl
  | cons op ops ih =>
      have hemit : ((localSteps T).emit op (cells spec acc)).1 = op.content I spec := rfl
      rw [contents, Local.events, step_cells, List.filterMap_cons, hemit,
        ← ih (op.charge T spec acc)]
      cases op.content I spec <;> rfl

theorem requests_eq (side : Nat → ι) : (chargeAll T spec acc ops).requests =
    (((localSteps T).events (owner side) (cells spec acc) ops).map
      fun e => e.2.2).reverse.flatten ++ acc.requests := by
  induction ops generalizing spec acc with
  | nil => rfl
  | cons op ops ih =>
      have hemit : ((localSteps T).emit op (cells spec acc)).2 =
        (op.bill T spec acc.blocks).requests := rfl
      have hstep : (op.charge T spec acc).requests =
          (op.bill T spec acc.blocks).requests ++ acc.requests := by rw [charge_eq_bill]
      rw [chargeAll, ih, Local.events, step_cells, hstep, List.map_cons, hemit,
        List.reverse_cons, List.flatten_append]
      simp

variable [DecidableEq ι] (hint : Interleaved (owner side) ops ops') (hwithin : Within side ops)

include hint hwithin

theorem cells_interleaved (T : Tariff I) (spec : Nat → Option C) (acc : Account) :
    cells (applyAll I spec ops) (chargeAll T spec acc ops) =
      cells (applyAll I spec ops') (chargeAll T spec acc ops') := by
  rw [← run_cells, ← run_cells]
  exact Local.run_interleaved hint hwithin

theorem applyAll_interleaved (T : Tariff I) : applyAll I spec ops = applyAll I spec ops' := by
  funext k
  exact congrArg Prod.fst (congrFun (cells_interleaved hint hwithin T spec .empty) k)

theorem blocks_interleaved :
    (chargeAll T spec acc ops).blocks = (chargeAll T spec acc ops').blocks := by
  funext k
  exact congrArg Prod.snd (congrFun (cells_interleaved hint hwithin T spec acc) k)

theorem events_interleaved (T : Tariff I) (s : Nat → Cell C) :
    ((localSteps T).events (owner side) s ops).Perm ((localSteps T).events (owner side) s ops') :=
  Local.events_interleaved hint hwithin

theorem requests_interleaved :
    (chargeAll T spec acc ops).requests.Perm (chargeAll T spec acc ops').requests := by
  have hevents := (events_interleaved hint hwithin T (cells spec acc)).map fun e => e.2.2
  rw [requests_eq side, requests_eq side]
  refine List.Perm.append_right _ (List.Perm.flatten ?_)
  exact (List.reverse_perm _).trans (hevents.trans (List.reverse_perm _).symm)

theorem contents_interleaved (T : Tariff I) :
    (contents I spec ops).Perm (contents I spec ops') := by
  rw [contents_eq T .empty side, contents_eq T .empty side]
  exact (events_interleaved hint hwithin T _).filterMap _

theorem legalRun_interleaved (T : Tariff I) (hlegal : LegalRun I (fun _ _ => True) spec ops) :
    LegalRun I (fun _ _ => True) spec ops' := by
  rw [← allowedRun_cells T .empty] at hlegal ⊢
  exact Local.allowedRun_interleaved hint hwithin hlegal

end Owners

end Op

section Pools

variable {w : Pool V} {w' : Pool V'} {e : Fault}

/-- A run stops in a fault of one of the contents that it stores. -/
theorem fault_of_contents {w₀ : Pool V} (hinv : Invariant I spec w₀)
    (hlegal : Op.LegalRun I (fun _ _ => True) spec ops)
    (hrun : (Op.execAll I ops).run w₀ = .error e w) :
    ∃ c ∈ Op.contents I spec ops, I.Faults c e w.heap := by
  induction ops generalizing spec w₀ with
  | nil => cases hrun
  | cons op ops ih =>
      obtain ⟨⟨hop, -⟩, hrest⟩ := hlegal
      simp only [Op.execAll, EStateM.run_bind] at hrun
      have hout := exec_outcome hinv hop
      cases hstep : (op.exec I).run w₀ with
      | ok u w₁ =>
          rw [hstep] at hrun
          obtain ⟨c, hc, hfault⟩ := ih (invariant_step (G := fun _ _ => True) hinv
            (.done hop trivial hstep)) hrest hrun
          exact ⟨c, List.mem_append_right _ hc, hfault⟩
      | error e₁ w₁ =>
          rw [hstep] at hrun hout
          cases hrun
          cases hout with
          | fault he _ =>
              obtain ⟨c, hc, hfault⟩ := he
              exact ⟨c, List.mem_append_left _ (by rw [hc]; exact List.mem_cons_self), hfault⟩

variable {ι : Type} {side : Nat → ι} [DecidableEq ι] (hT : T.Alike T')
  (hint : Interleaved (Op.owner side) ops ops') (hwithin : Op.Within side ops)
  (hlegal : Op.LegalRun I (fun _ _ => True) (fun _ => none) ops)

include hT hint hwithin hlegal

theorem legalRun_interleaved : Op.LegalRun I' (fun _ _ => True) (fun _ => none) ops' :=
  (Op.legalRun_interleaved hint hwithin T hlegal).alike hT.interface

theorem invariant_interleaved (hrun' : (Op.execAll I' ops').run Pool.empty = .ok () w') :
    Invariant I' (Op.applyAll I (fun _ => none) ops) w' := by
  have hlegal' := legalRun_interleaved hT hint hwithin hlegal
  rw [Op.applyAll_interleaved hint hwithin T,
    Op.applyAll_shared hT.interface.value hT.interface.effect]
  exact (Reachable.execAll .refl hlegal' hrun').invariant

theorem account_interleaved (hrun : (Op.execAll I ops).run Pool.empty = .ok () w)
    (hrun' : (Op.execAll I' ops').run Pool.empty = .ok () w') :
    (w.account I.owned).blocks = (w'.account I'.owned).blocks ∧
      w.heap.requests.Perm w'.heap.requests := by
  have hlegal' := legalRun_interleaved hT hint hwithin hlegal
  have haccount := account_of_returns T hlegal hrun
  have haccount' := account_of_returns T' hlegal' hrun'
  rw [← Op.chargeAll_alike hT] at haccount'
  constructor
  · rw [haccount, haccount', Op.blocks_interleaved hint hwithin]
  · have hrequests : w.heap.requests = (w.account I.owned).requests := rfl
    have hrequests' : w'.heap.requests = (w'.account I'.owned).requests := rfl
    rw [hrequests, hrequests', haccount, haccount']
    exact Op.requests_interleaved hint hwithin

/-- Whatever stops one order of the steps is a fault of a content that every order stores. -/
theorem fault_interleaved (hrun' : (Op.execAll I' ops').run Pool.empty = .error e w') :
    ∃ c ∈ Op.contents I (fun _ => none) ops, I'.Faults c e w'.heap := by
  have hlegal' := legalRun_interleaved hT hint hwithin hlegal
  obtain ⟨c, hc, hfault⟩ := fault_of_contents Invariant.empty hlegal' hrun'
  rw [← Op.contents_shared hT.interface.value hT.interface.effect] at hc
  exact ⟨c, (Op.contents_interleaved hint hwithin T).mem_iff.mpr hc, hfault⟩

end Pools

end Rust
