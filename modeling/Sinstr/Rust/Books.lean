import Sinstr.Rust.Account
import Mathlib.Algebra.BigOperators.Group.Finset.Piecewise
import Mathlib.Algebra.BigOperators.Ring.Finset
import Mathlib.Algebra.Order.BigOperators.Group.Finset
import Mathlib.Algebra.Order.BigOperators.Group.List

/-!
# Books over requests

A price on requests is backed if each operation pays for what its place is worth
afterwards. Over a whole run the prices of all requests then add up to the worth of
the places that are left, and to the excess of the calls that paid more.
-/

namespace Rust

namespace Request

/-- What a request adds to the memory in use. -/
def held : Request → Int
  | .alloc size => size
  | .realloc _ actual new => new - actual
  | .dealloc _ actual => -actual

/-- What it adds in the books of an allocator that trusts the sizes it is told. -/
def booked : Request → Int
  | .alloc size => size
  | .realloc passed _ new => new - passed
  | .dealloc passed _ => -passed

/-- The block is named by the size it was requested with. -/
def Exact : Request → Prop
  | .alloc _ => True
  | .realloc passed actual _ => passed = actual
  | .dealloc passed actual => passed = actual

instance : DecidablePred Exact
  | .alloc _ => isTrue trivial
  | .realloc passed actual _ => inferInstanceAs (Decidable (passed = actual))
  | .dealloc passed actual => inferInstanceAs (Decidable (passed = actual))

/-- Counts the requests that name a block by another size than its own. -/
def misnamed (r : Request) : Int := if r.Exact then 0 else 1

theorem misnamed_nonneg (r : Request) : 0 ≤ r.misnamed := by
  rw [misnamed]
  split_ifs <;> omega

@[simp] theorem misnamed_alloc (size : Nat) : (alloc size).misnamed = 0 := if_pos trivial

@[simp] theorem misnamed_realloc (passed actual new : Nat) :
    (realloc passed actual new).misnamed = (dealloc passed actual).misnamed := rfl

@[simp] theorem misnamed_dealloc_self (size : Nat) : (dealloc size size).misnamed = 0 := if_pos rfl

theorem misnamed_dealloc_of_ne {passed actual : Nat} (hne : passed ≠ actual) :
    (dealloc passed actual).misnamed = 1 :=
  if_neg hne

theorem misnamed_eq_zero_iff {r : Request} : r.misnamed = 0 ↔ r.Exact := by
  simp [misnamed]

/-- The sum of the prices. -/
def total (price : Request → Int) (rs : List Request) : Int := (rs.map price).sum

@[simp] theorem total_nil (price : Request → Int) : total price [] = 0 := rfl

@[simp] theorem total_cons (price : Request → Int) (r : Request) (rs : List Request) :
    total price (r :: rs) = price r + total price rs := by
  simp [total]

@[simp] theorem total_append (price : Request → Int) (rs rs' : List Request) :
    total price (rs ++ rs') = total price rs + total price rs' := by
  simp [total]

theorem total_misnamed_nonneg (rs : List Request) : 0 ≤ total misnamed rs := by
  apply List.sum_nonneg
  simpa using fun r _ => misnamed_nonneg r

theorem total_misnamed_eq_zero_iff {rs : List Request} :
    total misnamed rs = 0 ↔ ∀ r ∈ rs, r.Exact := by
  induction rs with
  | nil => simp
  | cons r rs ih =>
      have hr := misnamed_nonneg r
      have hrs := total_misnamed_nonneg rs
      rw [total_cons, List.forall_mem_cons, ← ih, ← misnamed_eq_zero_iff]
      constructor
      · intro hsum
        omega
      · rintro ⟨hfirst, hrest⟩
        omega

/-- If a wrong name is one step short, the books exceed the memory in use by one
step for each of them. -/
theorem total_booked {step : Int} {rs : List Request}
    (hstep : ∀ r ∈ rs, r.booked = r.held + step * r.misnamed) :
    total booked rs = total held rs + step * total misnamed rs := by
  induction rs with
  | nil => simp
  | cons r rs ih =>
      have hr := hstep r List.mem_cons_self
      have hrs := ih fun q hq => hstep q (List.mem_cons_of_mem r hq)
      calc
        total booked (r :: rs) = r.held + step * r.misnamed +
            (total held rs + step * total misnamed rs) := by rw [total_cons, hr, hrs]
        _ = total held (r :: rs) + step * total misnamed (r :: rs) := by
            rw [total_cons, total_cons, Int.mul_add]
            omega

end Request

variable {V C B M : Type} {I : Interface V C B M} {T : Tariff I} {price : Request → Int}
  {backing : C → Option Nat → Int} {extra : M → C → Int} {P : C → Option Nat → Prop}

/-- What a place is worth, by its content and its block. -/
def worthAt (backing : C → Option Nat → Int) (c : Option C) (b : Option Nat) : Int :=
  c.elim 0 fun c => backing c b

@[simp] theorem worthAt_none (b : Option Nat) : worthAt backing none b = 0 := rfl

@[simp] theorem worthAt_some (c : C) (b : Option Nat) :
    worthAt backing (some c) b = backing c b := rfl

/-- Each operation pays for what its place is worth afterwards; a call may pay an excess. -/
structure Tariff.Backed (T : Tariff I) (price : Request → Int) (backing : C → Option Nat → Int)
    (extra : M → C → Int) (P : C → Option Nat → Prop) : Prop where
  make : ∀ c, Request.total price (T.make c).requests = backing c (T.make c).block
  change : ∀ {m c b}, P c b → I.Callable m c →
    Request.total price (T.change m c b).requests + backing c b =
      backing (I.effect m c) (T.change m c b).block + extra m c
  release : ∀ {c b}, P c b → Request.total price (T.release c b) + backing c b = 0

namespace Account

variable {acc : Account} {spec : Nat → Option C} {i : Nat} {s s' : Finset Nat}

/-- What the places in `s` are worth together. -/
def worth (backing : C → Option Nat → Int) (spec : Nat → Option C) (acc : Account)
    (s : Finset Nat) : Int :=
  ∑ i ∈ s, worthAt backing (spec i) (acc.blocks i)

/-- Entering a charge exchanges what one place was worth. -/
theorem worth_enter (backing : C → Option Nat → Int) (spec : Nat → Option C) (acc : Account)
    (charge : Charge) (c : Option C) (hi : i ∈ s) :
    (acc.enter i charge).worth backing (Function.update spec i c) s +
        worthAt backing (spec i) (acc.blocks i) =
      acc.worth backing spec s + worthAt backing c charge.block := by
  have hupdate : (fun k => worthAt backing (Function.update spec i c k)
      ((acc.enter i charge).blocks k)) =
        Function.update (fun k => worthAt backing (spec k) (acc.blocks k)) i
          (worthAt backing c charge.block) := by
    funext k
    by_cases hk : k = i
    · subst k
      simp
    · simp [hk]
  have hsum := Finset.add_sum_erase s (fun k => worthAt backing (spec k) (acc.blocks k)) hi
  have hnew := Finset.sum_update_of_mem hi (fun k => worthAt backing (spec k) (acc.blocks k))
    (worthAt backing c charge.block)
  rw [Finset.sdiff_singleton_eq_erase] at hnew
  rw [Account.worth, Account.worth, hupdate, hnew, ← hsum]
  omega

/-- Empty places are worth nothing. -/
theorem worth_of_subset (hsub : s ⊆ s') (hs : ∀ i ∉ s, spec i = none) :
    acc.worth backing spec s' = acc.worth backing spec s := by
  refine (Finset.sum_subset hsub fun i _ hi => ?_).symm
  rw [hs i hi, worthAt_none]

theorem worth_congr {backing' : C → Option Nat → Int}
    (heq : ∀ i c, spec i = some c → backing c (acc.blocks i) = backing' c (acc.blocks i)) :
    acc.worth backing spec s = acc.worth backing' spec s := by
  apply Finset.sum_congr rfl
  intro i _
  cases hc : spec i with
  | none => rfl
  | some c => exact heq i c hc

theorem worth_neg :
    acc.worth (fun c b => -backing c b) spec s = -acc.worth backing spec s := by
  rw [worth, worth, ← Finset.sum_neg_distrib]
  apply Finset.sum_congr rfl
  intro i _
  cases spec i with
  | none => rfl
  | some c => rfl

theorem worth_add_mul {backing' : C → Option Nat → Int} (k : Int) :
    acc.worth (fun c b => backing c b + k * backing' c b) spec s =
      acc.worth backing spec s + k * acc.worth backing' spec s := by
  rw [worth, worth, worth, Finset.mul_sum, ← Finset.sum_add_distrib]
  apply Finset.sum_congr rfl
  intro i _
  cases spec i with
  | none => simp
  | some c => rfl

section Nonneg

variable (hbacking : ∀ c b, 0 ≤ backing c b)

include hbacking

theorem worthAt_nonneg (c : Option C) (b : Option Nat) : 0 ≤ worthAt backing c b := by
  cases c with
  | none => exact le_rfl
  | some c => exact hbacking c b

theorem worth_nonneg : 0 ≤ acc.worth backing spec s :=
  Finset.sum_nonneg fun _ _ => worthAt_nonneg hbacking _ _

/-- Together the places are worth nothing exactly if each of them is. -/
theorem worth_eq_zero_iff (hs : ∀ i ∉ s, spec i = none) :
    acc.worth backing spec s = 0 ↔ ∀ i c, spec i = some c → backing c (acc.blocks i) = 0 := by
  rw [worth, Finset.sum_eq_zero_iff_of_nonneg fun _ _ => worthAt_nonneg hbacking _ _]
  constructor
  · intro hzero i c hc
    by_cases hi : i ∈ s
    · have hplace := hzero i hi
      rwa [hc, worthAt_some] at hplace
    · rw [hs i hi] at hc
      cases hc
  · intro hzero i _
    cases hc : spec i with
    | none => rfl
    | some c => exact hzero i c hc

end Nonneg

end Account

namespace Op

/-- What the step pays beyond what it leaves. -/
def excess (extra : M → C → Int) (spec : Nat → Option C) : Op B M → Int
  | .call i m => (spec i).elim 0 (extra m)
  | _ => 0

def excessAll (I : Interface V C B M) (extra : M → C → Int) :
    (Nat → Option C) → List (Op B M) → Int
  | _, [] => 0
  | spec, op :: ops => op.excess extra spec + excessAll I extra (op.apply I spec) ops

variable {spec : Nat → Option C} {acc : Account} {op : Op B M} {ops : List (Op B M)}
  {s : Finset Nat} {G : (Nat → Option C) → Op B M → Prop}

theorem excess_nonneg (hextra : ∀ m c, 0 ≤ extra m c) : 0 ≤ op.excess extra spec := by
  cases op with
  | call i m =>
      cases hc : spec i with
      | none => simp [Op.excess, hc]
      | some c => simpa [Op.excess, hc] using hextra m c
  | build i b => exact le_rfl
  | clone i j => exact le_rfl
  | assign i j => exact le_rfl
  | drop i => exact le_rfl

theorem excessAll_zero : excessAll I (fun _ _ => 0) spec ops = 0 := by
  induction ops generalizing spec with
  | nil => rfl
  | cons op ops ih =>
      have hop : op.excess (fun _ _ => 0) spec = 0 := by
        cases op with
        | call i m => cases hc : spec i <;> simp [Op.excess, hc]
        | build i b => rfl
        | clone i j => rfl
        | assign i j => rfl
        | drop i => rfl
      rw [excessAll, hop, ih, Int.add_zero]

theorem excessAll_nonneg (hextra : ∀ m c, 0 ≤ extra m c) :
    0 ≤ excessAll I extra spec ops := by
  induction ops generalizing spec with
  | nil => exact le_rfl
  | cons op ops ih => exact add_nonneg (excess_nonneg hextra) ih

/-- A run pays no excess exactly if every call keeps the size of its block. -/
theorem excessAll_eq_zero_iff (hextra : ∀ m c, 0 ≤ extra m c)
    (hkeeps : ∀ m c, extra m c = 0 ↔ I.Keeps m c) (hlegal : LegalRun I G spec ops) :
    excessAll I extra spec ops = 0 ↔ LegalRun I (fun spec op => op.Keeps I spec) spec ops := by
  induction ops generalizing spec with
  | nil => exact ⟨fun _ => trivial, fun _ => rfl⟩
  | cons op ops ih =>
      obtain ⟨⟨hop, -⟩, hrest⟩ := hlegal
      have hfirst : op.excess extra spec = 0 ↔ op.Keeps I spec := by
        cases op with
        | call i m =>
            cases hc : spec i with
            | none => simp [Op.excess, Op.Keeps, hc]
            | some c => simp [Op.excess, Op.Keeps, hc, hkeeps]
        | build i b => simp [Op.excess, Op.Keeps]
        | clone i j => simp [Op.excess, Op.Keeps]
        | assign i j => simp [Op.excess, Op.Keeps]
        | drop i => simp [Op.excess, Op.Keeps]
      have hnonneg : 0 ≤ op.excess extra spec := excess_nonneg hextra
      have hall : 0 ≤ excessAll I extra (op.apply I spec) ops := excessAll_nonneg hextra
      rw [excessAll, LegalRun, ← ih hrest, ← hfirst]
      constructor
      · intro hsum
        exact ⟨⟨hop, by omega⟩, by omega⟩
      · rintro ⟨⟨-, hzero⟩, hzeros⟩
        omega

/-- One step keeps the books: case by case, what is entered is what was paid. -/
theorem worth_charge (hT : T.Backed price backing extra P)
    (hblocks : ∀ i c, spec i = some c → P c (acc.blocks i)) (hlegal : op.Legal I spec)
    (hs : ∀ i ∈ op.places, i ∈ s) :
    Request.total price (op.charge T spec acc).requests + acc.worth backing spec s =
      Request.total price acc.requests +
        (op.charge T spec acc).worth backing (op.apply I spec) s + op.excess extra spec := by
  cases op with
  | build i b =>
      have hi : i ∈ s := hs i (by simp [Op.places])
      have hpaid := hT.make (I.value b)
      have henter := Account.worth_enter backing spec acc (T.make (I.value b))
        (some (I.value b)) hi
      simp only [hlegal.1, worthAt_none, worthAt_some] at henter
      simp only [Op.charge, Op.apply, Op.excess, Account.enter_requests, Request.total_append]
      omega
  | clone i j =>
      have hi : i ∈ s := hs i (by simp [Op.places])
      obtain ⟨c, hc⟩ := Option.isSome_iff_exists.mp hlegal.2
      have hpaid := hT.make c
      have henter := Account.worth_enter backing spec acc (T.make c) (some c) hi
      simp only [hlegal.1, worthAt_none, worthAt_some] at henter
      simp only [Op.charge, Op.apply, Op.excess, hc, Account.enter_requests, Request.total_append]
      omega
  | call i m =>
      have hi : i ∈ s := hs i (by simp [Op.places])
      obtain ⟨c, hc, hcall⟩ := hlegal
      have hpaid := hT.change (hblocks i c hc) hcall
      have henter := Account.worth_enter backing spec acc (T.change m c (acc.blocks i))
        (some (I.effect m c)) hi
      simp only [hc, worthAt_some] at henter
      simp only [Op.charge, Op.apply, Op.excess, hc, Option.map_some, Option.elim_some,
        Account.enter_requests, Request.total_append]
      omega
  | assign i j =>
      have hi : i ∈ s := hs i (by simp [Op.places])
      have hj : j ∈ s := hs j (by simp [Op.places])
      obtain ⟨hij, hi', hj'⟩ := hlegal
      obtain ⟨c, hc⟩ := Option.isSome_iff_exists.mp hi'
      obtain ⟨d, hd⟩ := Option.isSome_iff_exists.mp hj'
      have hpaid := hT.release (hblocks i c hc)
      have hfirst := Account.worth_enter backing spec acc
        ⟨T.release c (acc.blocks i), acc.blocks j⟩ (some d) hi
      -- the moved block is entered at `i` before it leaves `j`
      have hsecond := Account.worth_enter backing (Function.update spec i (some d))
        (acc.enter i ⟨T.release c (acc.blocks i), acc.blocks j⟩) ⟨[], none⟩ none hj
      simp only [hc, worthAt_some] at hfirst
      simp only [Function.update_of_ne (Ne.symm hij), hd, worthAt_none, worthAt_some,
        Account.enter_blocks_of_ne acc _ (Ne.symm hij)] at hsecond
      simp only [Op.charge, Op.apply, Op.excess, hc, hd, Account.enter_requests,
        Request.total_append, Request.total_nil]
      omega
  | drop i =>
      have hi : i ∈ s := hs i (by simp [Op.places])
      obtain ⟨c, hc⟩ := Option.isSome_iff_exists.mp hlegal
      have hpaid := hT.release (hblocks i c hc)
      have henter := Account.worth_enter backing spec acc
        ⟨T.release c (acc.blocks i), none⟩ none hi
      simp only [hc, worthAt_none, worthAt_some] at henter
      simp only [Op.charge, Op.apply, Op.excess, hc, Account.enter_requests, Request.total_append]
      omega

/-- A whole run keeps the books. -/
theorem worth_chargeAll (hT : T.Backed price backing extra P)
    (hP : ∀ {spec acc}, Ledgered T G spec acc → ∀ i c, spec i = some c → P c (acc.blocks i))
    (hled : Ledgered T G spec acc) (hlegal : LegalRun I G spec ops)
    (hs : ∀ op ∈ ops, ∀ i ∈ op.places, i ∈ s) :
    Request.total price (chargeAll T spec acc ops).requests + acc.worth backing spec s =
      Request.total price acc.requests +
        (chargeAll T spec acc ops).worth backing (applyAll I spec ops) s +
          excessAll I extra spec ops := by
  induction ops generalizing spec acc with
  | nil => simp [chargeAll, applyAll, excessAll]
  | cons op ops ih =>
      obtain ⟨⟨hop, hg⟩, hrest⟩ := hlegal
      have hstep := worth_charge hT (hP hled) hop (hs op List.mem_cons_self)
      have hrun := ih (.step hled hop hg) hrest fun q hq => hs q (List.mem_cons_of_mem op hq)
      rw [chargeAll, applyAll, excessAll]
      omega

end Op

/-- What a run from the empty pool has paid is what its places are worth in the end,
and the excess of its calls. -/
theorem total_of_returns {G : (Nat → Option C) → Op B M → Prop} {ops : List (Op B M)} {w : Pool V}
    {s : Finset Nat} (hT : T.Backed price backing extra P)
    (hP : ∀ {spec acc}, Ledgered T G spec acc → ∀ i c, spec i = some c → P c (acc.blocks i))
    (hlegal : Op.LegalRun I G (fun _ => none) ops)
    (hrun : (Op.execAll I ops).run Pool.empty = .ok () w)
    (hs : ∀ i ∉ s, Op.applyAll I (fun _ => none) ops i = none) :
    Request.total price w.heap.requests =
      (w.account I.owned).worth backing (Op.applyAll I (fun _ => none) ops) s +
        Op.excessAll I extra (fun _ => none) ops := by
  let touched : Finset Nat := s ∪ (ops.flatMap Op.places).toFinset
  have htouched : ∀ op ∈ ops, ∀ i ∈ op.places, i ∈ touched := by
    intro op hop i hi
    apply Finset.mem_union_right
    rw [List.mem_toFinset]
    exact List.mem_flatMap.mpr ⟨op, hop, hi⟩
  have hall := Op.worth_chargeAll hT hP .empty hlegal htouched
  have hstart : Account.empty.worth backing (fun _ => none) touched = 0 := by
    simp [Account.worth]
  rw [← account_of_returns T hlegal hrun, hstart,
    Account.worth_of_subset Finset.subset_union_left hs] at hall
  have hempty : Request.total price Account.empty.requests = 0 := rfl
  rw [hempty] at hall
  have hrequests : (w.account I.owned).requests = w.heap.requests := rfl
  rw [hrequests] at hall
  omega

end Rust
