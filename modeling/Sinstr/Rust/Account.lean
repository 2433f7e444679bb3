import Sinstr.Rust.Pool

/-!
# Accounts of memory

What a run asks of the allocator, kept apart from addresses, bytes and the choices
of the allocator. A `Tariff` prices the programs of an interface by the contents
they work on; the account that it predicts for a run is the account of every pool
that the run reaches.
-/

namespace Rust

/-- A request that was granted, without the identity of its block. -/
inductive Request
  | alloc (size : Nat)
  | realloc (passed actual new : Nat)
  | dealloc (passed actual : Nat)
  deriving DecidableEq, Repr

/-- Refused requests and temporary buffers are not accounted for. -/
def Call.request : Call → Option Request
  | .alloc _ size => some (.alloc size)
  | .realloc _ passed actual new => some (.realloc passed actual new)
  | .dealloc _ passed actual => some (.dealloc passed actual)
  | .allocFailed _ | .reallocFailed _ _ _ _ | .scratch _ _ => none

namespace Heap

variable (h : Heap) (p : Nat) (b : Option Block) (c : Call)

/-- The granted requests, the most recent first. -/
def requests : List Request := h.calls.filterMap Call.request

/-- The size of the block that is owned, if there is one. -/
def sizeOf (o : Option Nat) : Option Nat := o.bind fun p => (h.live p).map Block.size

@[simp] theorem requests_set : (h.set p b).requests = h.requests := rfl

@[simp] theorem requests_log : (h.log c).requests = c.request.toList ++ h.requests := by
  cases c <;> rfl

@[simp] theorem sizeOf_none : h.sizeOf none = none := rfl

@[simp] theorem sizeOf_log (o : Option Nat) : (h.log c).sizeOf o = h.sizeOf o := rfl

theorem sizeOf_some {h : Heap} {p : Nat} {b : Block} (hp : h.live p = some b) :
    h.sizeOf (some p) = some b.size := by
  simp [sizeOf, hp]

@[simp] theorem sizeOf_set_self (b : Block) : (h.set p (some b)).sizeOf (some p) = some b.size :=
  sizeOf_some (set_live_self h p (some b))

theorem sizeOf_congr {h h' : Heap} {o : Option Nat}
    (hlive : ∀ p, o = some p → h'.live p = h.live p) : h'.sizeOf o = h.sizeOf o := by
  cases o with
  | none => rfl
  | some p => simp [sizeOf, hlive p rfl]

end Heap

/-- What an operation costs: its requests, and the size of the block it leaves. -/
structure Charge where
  requests : List Request
  block : Option Nat

/-- The operation was charged on its way from `h` to `h'`, where it leaves `o` owned. -/
structure Charged (charge : Charge) (h h' : Heap) (o : Option Nat) : Prop where
  requests : h'.requests = charge.requests ++ h.requests
  block : h'.sizeOf o = charge.block

/-- A program that makes a value is charged if it returns, and for nothing if it unwinds. -/
inductive Billed {V : Type} (owned : V → Option Nat) (charge : Charge) (h : Heap) :
    EStateM.Result Fault Heap V → Prop
  | done {x h'} (hc : Charged charge h h' (owned x)) : Billed owned charge h (.ok x h')
  | fault {e h'} (hu : e.Unwinds → h'.requests = h.requests) : Billed owned charge h (.error e h')

/-- A method on `&mut self` as a program that makes the value it leaves. -/
def Exec.leaving {V : Type} : EStateM.Result Fault (V × Heap) Unit → EStateM.Result Fault Heap V
  | .ok _ (x, h) => .ok x h
  | .error e (_, h) => .error e h

@[simp] theorem Exec.leaving_replacing {V : Type} (old : V) (r : EStateM.Result Fault Heap V) :
    leaving (replacing old r) = r := by
  cases r <;> rfl

namespace Billed

variable {V C : Type} {owned : V → Option Nat} {charge : Charge} {h h' : Heap} {x : V}

/-- Nothing is owned and nothing was asked for. -/
theorem free (hown : owned x = none) : Billed owned ⟨[], none⟩ h (.ok x h) :=
  .done ⟨rfl, by rw [hown]; rfl⟩

theorem unsound {cause : Unsound} : Billed owned charge h (.error (.unsound cause) h') :=
  .fault False.elim

/-- Requests before the program that are not accounted for. -/
theorem of_requests_eq {r : EStateM.Result Fault Heap V} (hreq : h'.requests = h.requests)
    (hb : Billed owned charge h' r) : Billed owned charge h r := by
  cases hb with
  | done hc => exact .done ⟨by rw [hc.requests, hreq], hc.block⟩
  | fault hu => exact .fault fun hw => (hu hw).trans hreq

/-- Replacing a value by a newly built one: the old block is released on top. -/
theorem assign {R : Resource V C} {c c' : C} {m : Exec Heap V} {release : List Request}
    (hrep : R.Rep h x c) (hbuilt : R.Built h c' (m.run h))
    (hbill : Billed R.owned charge h (m.run h))
    (hdrop : ∀ h₁ h₂, R.Rep h₁ x c → h₁.sizeOf (R.owned x) = h.sizeOf (R.owned x) →
      (R.drop x).run h₁ = .ok () h₂ → h₂.requests = release ++ h₁.requests) :
    Billed R.owned ⟨release ++ charge.requests, charge.block⟩ h
      (Exec.leaving ((do Exec.assign R.drop (← Exec.onSnd m) : Exec (V × Heap) Unit).run
        (x, h))) := by
  simp only [EStateM.run_bind, Exec.run_onSnd]
  generalize m.run h = r at hbuilt hbill
  cases hbuilt with
  | fault he unwind =>
      cases hbill with
      | fault hu => exact .fault hu
  | @done x' h' rep transfer snug exact =>
      cases hbill with
      | done hc =>
      have hold : ∀ p, R.owned x = some p → h'.live p = h.live p := by
        intro p hp
        have hlive := R.rep_live hrep p hp
        refine transfer.frame (by simp) fun hp' => ?_
        rw [transfer.fresh hp' (by simp)] at hlive
        cases hlive
      obtain ⟨h'', hrun, hgive, _⟩ := R.run_drop (R.rep_congr hrep hold)
      have hnew : ∀ p, R.owned x' = some p → h''.live p = h'.live p := by
        intro p hp'
        refine hgive.frame (fun hp => ?_) (by simp)
        have hlive := R.rep_live hrep p hp
        rw [transfer.fresh hp' (by simp)] at hlive
        cases hlive
      have hreleased := hdrop h' h'' (R.rep_congr hrep hold) (Heap.sizeOf_congr hold) hrun
      simp only [Exec.assign, EStateM.run_bind, Exec.run_self, Exec.run_onSnd, hrun,
        Exec.run_setSelf, Exec.leaving]
      refine .done ⟨?_, ?_⟩
      · rw [hreleased, hc.requests, List.append_assoc]
      · rw [Heap.sizeOf_congr hnew, hc.block]

end Billed

/-- The prices of an interface. Making a value costs the same whether it is built or
cloned; the price of a change depends on the content and on the block's size. -/
structure Tariff {V C B M : Type} (I : Interface V C B M) where
  make : C → Charge
  change : M → C → Option Nat → Charge
  release : C → Option Nat → List Request
  built : ∀ {b h}, I.Buildable b → Billed I.owned (make (I.value b)) h ((I.build b).run h)
  cloned : ∀ {h x c}, I.Rep h x c → Billed I.owned (make c) h ((I.clone x).run h)
  called : ∀ {h x c m}, I.Rep h x c → I.Callable m c →
    Billed I.owned (change m c (h.sizeOf (I.owned x))) h
      (Exec.leaving ((I.call m).run (x, h)))
  dropped : ∀ {h x c h'}, I.Rep h x c → (I.drop x).run h = .ok () h' →
    h'.requests = release c (h.sizeOf (I.owned x)) ++ h.requests

/-- All granted requests, the most recent first, and the size of the block of each place. -/
@[ext] structure Account where
  requests : List Request
  blocks : Nat → Option Nat

def Account.empty : Account := ⟨[], fun _ => none⟩

/-- An operation on place `i` is entered. -/
def Account.enter (acc : Account) (i : Nat) (charge : Charge) : Account :=
  ⟨charge.requests ++ acc.requests, Function.update acc.blocks i charge.block⟩

@[simp] theorem Account.enter_requests (acc : Account) (i : Nat) (charge : Charge) :
    (acc.enter i charge).requests = charge.requests ++ acc.requests := rfl

@[simp] theorem Account.enter_blocks_self (acc : Account) (i : Nat) (charge : Charge) :
    (acc.enter i charge).blocks i = charge.block := by
  simp [Account.enter]

@[simp] theorem Account.enter_blocks_of_ne (acc : Account) {i k : Nat} (charge : Charge)
    (hk : k ≠ i) : (acc.enter i charge).blocks k = acc.blocks k := by
  simp [Account.enter, hk]

def Pool.account {V : Type} (owned : V → Option Nat) (w : Pool V) : Account :=
  ⟨w.heap.requests, fun i => w.heap.sizeOf (Pool.own owned w.vals i)⟩

variable {V C B M : Type} {I : Interface V C B M} {spec : Nat → Option C} {w w' : Pool V}
  {i j : Nat} {x y : V}

namespace Op

/-- The step in the account. -/
def charge (T : Tariff I) (spec : Nat → Option C) (acc : Account) : Op B M → Account
  | .build i b => acc.enter i (T.make (I.value b))
  | .clone i j =>
      match spec j with
      | none => acc
      | some c => acc.enter i (T.make c)
  | .call i m =>
      match spec i with
      | none => acc
      | some c => acc.enter i (T.change m c (acc.blocks i))
  | .assign i j =>
      match spec i with
      | none => acc
      | some c =>
          (acc.enter i ⟨T.release c (acc.blocks i), acc.blocks j⟩).enter j ⟨[], none⟩
  | .drop i =>
      match spec i with
      | none => acc
      | some c => acc.enter i ⟨T.release c (acc.blocks i), none⟩

def chargeAll (T : Tariff I) : (Nat → Option C) → Account → List (Op B M) → Account
  | _, acc, [] => acc
  | spec, acc, op :: ops => chargeAll T (op.apply I spec) (op.charge T spec acc) ops

end Op

section Step

variable {op : Op B M} {T : Tariff I} {charge : Charge} {o : Option Nat}

/-- A step that enters one charge for one place. -/
theorem account_eq_enter (hcharged : Charged charge w.heap w'.heap o)
    (hown : Pool.own I.owned w'.vals i = o)
    (hframe : ∀ k ≠ i, w'.heap.sizeOf (Pool.own I.owned w'.vals k) =
      w.heap.sizeOf (Pool.own I.owned w.vals k)) :
    w'.account I.owned = (w.account I.owned).enter i charge := by
  refine Account.ext hcharged.requests (funext fun k => ?_)
  by_cases hk : k = i
  · subst k
    simp only [Pool.account, Account.enter, Function.update_self, hown, hcharged.block]
  · simp only [Pool.account, Account.enter, Function.update_of_ne hk, hframe k hk]

/-- The account of a place that a step leaves alone. -/
theorem sizeOf_frame {k : Nat} (hvals : w'.vals k = w.vals k)
    (hlive : ∀ x p, w.vals k = some x → I.owned x = some p → w'.heap.live p = w.heap.live p) :
    w'.heap.sizeOf (Pool.own I.owned w'.vals k) = w.heap.sizeOf (Pool.own I.owned w.vals k) := by
  rw [Pool.own, Pool.own, hvals]
  refine Heap.sizeOf_congr fun p hp => ?_
  obtain ⟨x, hx, hown⟩ := Option.bind_eq_some_iff.mp hp
  exact hlive x p hx hown

/-- A step that returns is entered as the tariff says. -/
theorem account_step (T : Tariff I) (hinv : Invariant I spec w) (hlegal : op.Legal I spec)
    (hrun : (op.exec I).run w = .ok () w') :
    w'.account I.owned = op.charge T spec (w.account I.owned) := by
  have hout := exec_outcome hinv hlegal
  rw [hrun] at hout
  cases hout with
  | done _ frame _ =>
  have hframe : ∀ k ∉ op.places, w'.heap.sizeOf (Pool.own I.owned w'.vals k) =
      w.heap.sizeOf (Pool.own I.owned w.vals k) :=
    fun k hk => sizeOf_frame (frame k hk).1 (frame k hk).2
  cases op with
  | build i b =>
      have hbill := T.built (h := w.heap) hlegal.2
      rw [Op.run_build] at hrun
      cases hr : (I.build b).run w.heap with
      | error e h =>
          rw [hr] at hrun
          cases hrun
      | ok x h =>
          rw [hr] at hrun hbill
          cases hrun
          cases hbill with
          | done hc =>
              exact account_eq_enter hc (by simp [Pool.own]) fun k hk =>
                hframe k (by simpa [Op.places] using hk)
  | clone i j =>
      obtain ⟨c, hc⟩ := Option.isSome_iff_exists.mp hlegal.2
      obtain ⟨y, hy, hrep⟩ := hinv.exists_val hc
      have hbill := T.cloned hrep
      rw [Op.run_clone hy] at hrun
      simp only [Op.charge, hc]
      cases hr : (I.clone y).run w.heap with
      | error e h =>
          rw [hr] at hrun
          cases hrun
      | ok x h =>
          rw [hr] at hrun hbill
          cases hrun
          cases hbill with
          | done hc =>
              exact account_eq_enter hc (by simp [Pool.own]) fun k hk =>
                hframe k (by simpa [Op.places] using hk)
  | call i m =>
      obtain ⟨c, hc, hcall⟩ := hlegal
      obtain ⟨x, hx, hrep⟩ := hinv.exists_val hc
      have hbill := T.called hrep hcall
      have hblock : (w.account I.owned).blocks i = w.heap.sizeOf (I.owned x) := by
        simp [Pool.account, Pool.own, hx]
      rw [Op.run_call m hx] at hrun
      simp only [Op.charge, hc, hblock]
      cases hr : (I.call m).run (x, w.heap) with
      | error e s =>
          rw [hr] at hrun
          cases hrun
      | ok u s =>
          rw [hr] at hrun hbill
          cases hrun
          cases hbill with
          | done hc =>
              exact account_eq_enter hc (by simp [Pool.own]) fun k hk =>
                hframe k (by simpa [Op.places] using hk)
  | assign i j =>
      obtain ⟨hij, hi, hj⟩ := hlegal
      obtain ⟨c, hc⟩ := Option.isSome_iff_exists.mp hi
      obtain ⟨d, hd⟩ := Option.isSome_iff_exists.mp hj
      obtain ⟨x, hx, hrep⟩ := hinv.exists_val hc
      obtain ⟨y, hy, -⟩ := hinv.exists_val hd
      obtain ⟨h, hdrop, transfer, _⟩ := I.run_drop hrep
      have hreleased := T.dropped hrep hdrop
      rw [Op.run_assign hx hy, hdrop] at hrun
      cases hrun
      have hblock : (w.account I.owned).blocks i = w.heap.sizeOf (I.owned x) := by
        simp [Pool.account, Pool.own, hx]
      have ht : Transfer w.heap h ((w.vals i).bind I.owned) none := by
        rw [hx]
        exact transfer
      have hother : h.sizeOf (I.owned y) = w.heap.sizeOf (I.owned y) :=
        Heap.sizeOf_congr fun p hp => hinv.frame (Ne.symm hij) ht hy hp
      refine Account.ext ?_ (funext fun k => ?_)
      · simp only [Op.charge, hc, Account.enter, List.nil_append, hblock]
        exact hreleased
      · simp only [Op.charge, hc, Account.enter]
        by_cases hkj : k = j
        · subst k
          simp [Pool.account, Pool.own]
        · by_cases hki : k = i
          · subst k
            simp [Pool.account, Pool.own, hkj, hy, hother]
          · have hk := hframe k (by simp [Op.places, hki, hkj])
            simpa [Pool.account, hki, hkj] using hk
  | drop i =>
      obtain ⟨c, hc⟩ := Option.isSome_iff_exists.mp hlegal
      obtain ⟨x, hx, hrep⟩ := hinv.exists_val hc
      obtain ⟨h, hdrop, _, _⟩ := I.run_drop hrep
      have hblock : (w.account I.owned).blocks i = w.heap.sizeOf (I.owned x) := by
        simp [Pool.account, Pool.own, hx]
      have hreleased := T.dropped hrep hdrop
      rw [Op.run_drop hx, hdrop] at hrun
      cases hrun
      simp only [Op.charge, hc, hblock]
      exact account_eq_enter (o := none) ⟨hreleased, rfl⟩ (by simp [Pool.own]) fun k hk =>
        hframe k (by simpa [Op.places] using hk)

/-- A step that unwinds is not charged. -/
theorem account_unwound (T : Tariff I) {e : Fault} (hinv : Invariant I spec w)
    (hlegal : op.Legal I spec) (hrun : (op.exec I).run w = .error e w') (hu : e.Unwinds) :
    w'.account I.owned = w.account I.owned := by
  have hout := exec_outcome hinv hlegal
  rw [hrun] at hout
  cases hout with
  | fault _ unwind =>
  obtain ⟨hvals, hq, -⟩ := unwind hu
  suffices hreq : w'.heap.requests = w.heap.requests by
    refine Account.ext hreq (funext fun k => ?_)
    exact sizeOf_frame (congrFun hvals k) fun _ _ _ _ => by rw [hq.live]
  cases op with
  | build i b =>
      have hbill := T.built (h := w.heap) hlegal.2
      rw [Op.run_build] at hrun
      cases hr : (I.build b).run w.heap with
      | ok x h =>
          rw [hr] at hrun
          cases hrun
      | error e h =>
          rw [hr] at hrun hbill
          cases hrun
          cases hbill with
          | fault hnot => exact hnot hu
  | clone i j =>
      obtain ⟨c, hc⟩ := Option.isSome_iff_exists.mp hlegal.2
      obtain ⟨y, hy, hrep⟩ := hinv.exists_val hc
      have hbill := T.cloned hrep
      rw [Op.run_clone hy] at hrun
      cases hr : (I.clone y).run w.heap with
      | ok x h =>
          rw [hr] at hrun
          cases hrun
      | error e h =>
          rw [hr] at hrun hbill
          cases hrun
          cases hbill with
          | fault hnot => exact hnot hu
  | call i m =>
      obtain ⟨c, hc, hcall⟩ := hlegal
      obtain ⟨x, hx, hrep⟩ := hinv.exists_val hc
      have hbill := T.called hrep hcall
      rw [Op.run_call m hx] at hrun
      cases hr : (I.call m).run (x, w.heap) with
      | ok u s =>
          rw [hr] at hrun
          cases hrun
      | error e s =>
          rw [hr] at hrun hbill
          cases hrun
          cases hbill with
          | fault hnot => exact hnot hu
  | assign i j =>
      obtain ⟨c, hc⟩ := Option.isSome_iff_exists.mp hlegal.2.1
      obtain ⟨d, hd⟩ := Option.isSome_iff_exists.mp hlegal.2.2
      obtain ⟨x, hx, hrep⟩ := hinv.exists_val hc
      obtain ⟨y, hy, -⟩ := hinv.exists_val hd
      obtain ⟨h, hdrop, -, -⟩ := I.run_drop hrep
      rw [Op.run_assign hx hy, hdrop] at hrun
      cases hrun
  | drop i =>
      obtain ⟨c, hc⟩ := Option.isSome_iff_exists.mp hlegal
      obtain ⟨x, hx, hrep⟩ := hinv.exists_val hc
      obtain ⟨h, hdrop, -, -⟩ := I.run_drop hrep
      rw [Op.run_drop hx, hdrop] at hrun
      cases hrun

end Step

section Runs

variable {G : (Nat → Option C) → Op B M → Prop}

/-- The runs of the accounts: what the tariff predicts from the contents alone. -/
inductive Ledgered (T : Tariff I) (G : (Nat → Option C) → Op B M → Prop) :
    (Nat → Option C) → Account → Prop
  | empty : Ledgered T G (fun _ => none) Account.empty
  | step {spec acc op} (hled : Ledgered T G spec acc) (hlegal : op.Legal I spec)
      (hg : G spec op) : Ledgered T G (op.apply I spec) (op.charge T spec acc)

/-- The account of a reached pool is one that the tariff predicts. -/
theorem Reachable.account (T : Tariff I) (hr : Reachable I G spec w) :
    Ledgered T G spec (w.account I.owned) := by
  have hrun : ∀ s, Relation.ReflTransGen (Step I G) (fun _ => none, Pool.empty) s →
      Ledgered T G s.1 (s.2.account I.owned) := by
    intro s hs
    induction hs with
    | refl => exact .empty
    | @tail s s' hs hstep ih =>
        have hinv : Invariant I s.1 s.2 := Reachable.invariant hs
        cases hstep with
        | done hlegal hg hrun =>
            rw [account_step T hinv hlegal hrun]
            exact .step ih hlegal hg
        | unwound hlegal hg hrun hu =>
            rw [account_unwound T hinv hlegal hrun hu]
            exact ih
  exact hrun (spec, w) hr

/-- What holds of the block of every content and of every request. -/
structure Account.Sound (P : C → Option Nat → Prop) (Q : Request → Prop) (spec : Nat → Option C)
    (acc : Account) : Prop where
  blocks : ∀ {i c}, spec i = some c → P c (acc.blocks i)
  requests : ∀ r ∈ acc.requests, Q r

section Sound

variable {P : C → Option Nat → Prop} {Q : Request → Prop} {acc : Account} {charge : Charge}
  {c : Option C}

theorem Account.Sound.enter (hs : acc.Sound P Q spec) (hblock : ∀ d ∈ c, P d charge.block)
    (hreq : ∀ r ∈ charge.requests, Q r) :
    (acc.enter i charge).Sound P Q (Function.update spec i c) where
  blocks := by
    intro k d hd
    by_cases hk : k = i
    · subst k
      rw [Function.update_self] at hd
      rw [Account.enter_blocks_self]
      exact hblock d hd
    · rw [Function.update_of_ne hk] at hd
      rw [Account.enter_blocks_of_ne acc charge hk]
      exact hs.blocks hd
  requests := by
    intro r hr
    rcases List.mem_append.mp hr with hr | hr
    · exact hreq r hr
    · exact hs.requests r hr

/-- What the prices keep, every account of a run has. -/
theorem Ledgered.sound {T : Tariff I}
    (hmake : ∀ c, P c (T.make c).block ∧ ∀ r ∈ (T.make c).requests, Q r)
    (hchange : ∀ {m c b}, P c b → I.Callable m c →
      P (I.effect m c) (T.change m c b).block ∧ ∀ r ∈ (T.change m c b).requests, Q r)
    (hrelease : ∀ {c b}, P c b → ∀ r ∈ T.release c b, Q r) (hled : Ledgered T G spec acc) :
    acc.Sound P Q spec := by
  induction hled with
  | empty =>
      refine ⟨fun hc => ?_, fun r hr => ?_⟩
      · cases hc
      · cases hr
  | @step spec acc op hled hlegal hg ih =>
      cases op with
      | build i b =>
          obtain ⟨hblock, hreq⟩ := hmake (I.value b)
          exact ih.enter (by simpa using hblock) hreq
      | clone i j =>
          obtain ⟨c, hc⟩ := Option.isSome_iff_exists.mp hlegal.2
          obtain ⟨hblock, hreq⟩ := hmake c
          simp only [Op.charge, Op.apply, hc]
          exact ih.enter (by simpa using hblock) hreq
      | call i m =>
          obtain ⟨c, hc, hcall⟩ := hlegal
          obtain ⟨hblock, hreq⟩ := hchange (ih.blocks hc) hcall
          simp only [Op.charge, Op.apply, hc]
          exact ih.enter (by simpa using hblock) hreq
      | assign i j =>
          obtain ⟨hij, hi, hj⟩ := hlegal
          obtain ⟨c, hc⟩ := Option.isSome_iff_exists.mp hi
          obtain ⟨d, hd⟩ := Option.isSome_iff_exists.mp hj
          simp only [Op.charge, Op.apply, hc, hd]
          refine Account.Sound.enter (ih.enter ?_ (hrelease (ih.blocks hc))) ?_ ?_
          · simpa using ih.blocks hd
          · simp
          · simp
      | drop i =>
          obtain ⟨c, hc⟩ := Option.isSome_iff_exists.mp hlegal
          simp only [Op.charge, Op.apply, hc]
          exact ih.enter (by simp) (hrelease (ih.blocks hc))

end Sound

/-- The steps that a run has taken, in order, give the account of its pool. -/
theorem account_execAll (T : Tariff I) {ops : List (Op B M)} (hinv : Invariant I spec w)
    (hlegal : Op.LegalRun I G spec ops) (hrun : (Op.execAll I ops).run w = .ok () w') :
    w'.account I.owned = Op.chargeAll T spec (w.account I.owned) ops := by
  induction ops generalizing spec w with
  | nil =>
      cases hrun
      rfl
  | cons op ops ih =>
      obtain ⟨⟨hop, hg⟩, hrest⟩ := hlegal
      simp only [Op.execAll, EStateM.run_bind] at hrun
      cases hstep : (op.exec I).run w with
      | error e w₁ =>
          rw [hstep] at hrun
          cases hrun
      | ok u w₁ =>
          rw [hstep] at hrun
          rw [Op.chargeAll, ← account_step T hinv hop hstep]
          exact ih (invariant_step (G := G) hinv (.done hop hg hstep)) hrest hrun

/-- A run from the empty pool that returns has the account of its steps. -/
theorem account_of_returns (T : Tariff I) {ops : List (Op B M)}
    (hlegal : Op.LegalRun I G (fun _ => none) ops)
    (hrun : (Op.execAll I ops).run Pool.empty = .ok () w) :
    w.account I.owned = Op.chargeAll T (fun _ => none) Account.empty ops :=
  account_execAll T Invariant.empty hlegal hrun

end Runs

section Alike

variable {V' : Type}

/-- Two interfaces with the same contents and contracts. -/
structure Interface.Alike (I : Interface V C B M) (I' : Interface V' C B M) : Prop where
  value : I.value = I'.value
  effect : I.effect = I'.effect
  buildable : I.Buildable = I'.Buildable
  callable : I.Callable = I'.Callable

/-- The same prices. -/
structure Tariff.Alike {I : Interface V C B M} {I' : Interface V' C B M} (T : Tariff I)
    (T' : Tariff I') : Prop where
  interface : I.Alike I'
  make : T.make = T'.make
  change : T.change = T'.change
  release : T.release = T'.release

variable {I' : Interface V' C B M} {T : Tariff I} {T' : Tariff I'} {w' : Pool V'}
  {G : (Nat → Option C) → Op B M → Prop}

section Contents

variable (hvalue : I.value = I'.value) (heffect : I.effect = I'.effect) (spec : Nat → Option C)

include hvalue heffect

theorem Op.apply_shared (op : Op B M) : op.apply I spec = op.apply I' spec := by
  cases op <;> simp only [Op.apply, hvalue, heffect]

theorem Op.applyAll_shared (ops : List (Op B M)) :
    Op.applyAll I spec ops = Op.applyAll I' spec ops := by
  induction ops generalizing spec with
  | nil => rfl
  | cons op ops ih => rw [Op.applyAll, Op.applyAll, Op.apply_shared hvalue heffect, ih]

end Contents

theorem Op.legal_alike (hI : I.Alike I') (spec : Nat → Option C) (op : Op B M) :
    op.Legal I spec ↔ op.Legal I' spec := by
  cases op <;> simp only [Op.Legal, hI.buildable, hI.callable]

theorem Op.LegalRun.alike (hI : I.Alike I') {ops : List (Op B M)}
    (hlegal : Op.LegalRun I G spec ops) : Op.LegalRun I' G spec ops := by
  induction ops generalizing spec with
  | nil => trivial
  | cons op ops ih =>
      obtain ⟨⟨hop, hg⟩, hrest⟩ := hlegal
      rw [Op.apply_shared hI.value hI.effect] at hrest
      exact ⟨⟨(Op.legal_alike hI spec op).mp hop, hg⟩, ih hrest⟩

theorem Op.charge_alike (hT : T.Alike T') (spec : Nat → Option C) (acc : Account) (op : Op B M) :
    op.charge T spec acc = op.charge T' spec acc := by
  cases op <;> simp only [Op.charge, hT.interface.value, hT.make, hT.change, hT.release]

theorem Op.chargeAll_alike (hT : T.Alike T') (spec : Nat → Option C) (acc : Account)
    (ops : List (Op B M)) : Op.chargeAll T spec acc ops = Op.chargeAll T' spec acc ops := by
  induction ops generalizing spec acc with
  | nil => rfl
  | cons op ops ih =>
      rw [Op.chargeAll, Op.chargeAll, Op.charge_alike hT,
        Op.apply_shared hT.interface.value hT.interface.effect, ih]

/-- The same steps have the same account through every interface with the same prices. -/
theorem account_alike (hT : T.Alike T') {ops : List (Op B M)}
    (hlegal : Op.LegalRun I G (fun _ => none) ops)
    (hrun : (Op.execAll I ops).run Pool.empty = .ok () w)
    (hrun' : (Op.execAll I' ops).run Pool.empty = .ok () w') :
    w'.account I'.owned = w.account I.owned := by
  rw [account_of_returns T hlegal hrun,
    account_of_returns T' (hlegal.alike hT.interface) hrun', Op.chargeAll_alike hT]

end Alike

end Rust
