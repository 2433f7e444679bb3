import Sinstr.Rust.Heap
import Mathlib.Data.List.Perm.Basic

/-!
# Who owns which block

A value owns at most one block. `Transfer` says what a call on one value may
do to the heap: exchange the block it owns and touch nothing else. `Owned`
relates a whole pool of values to the live blocks, and `Ledger` relates the
live blocks to the record of calls.
-/

namespace Rust

/-- The block that a call brings into being. -/
def Call.created : Call → Option Nat
  | .alloc id _ => some id
  | _ => none

/-- The block that a call ends. -/
def Call.freed : Call → Option Nat
  | .dealloc id _ _ => some id
  | _ => none

namespace Heap

/-- Every caller named its block by the size it was requested with. -/
def ExactCalls (h : Heap) : Prop := ∀ c ∈ h.calls, c.Exact

instance (h : Heap) : Decidable h.ExactCalls := inferInstanceAs (Decidable (∀ c ∈ h.calls, _))

def created (h : Heap) : List Nat := h.calls.filterMap Call.created

def freed (h : Heap) : List Nat := h.calls.filterMap Call.freed

variable (h : Heap) (p : Nat) (b : Option Block) (c : Call)

theorem ExactCalls.log {h : Heap} {c : Call} (hc : h.ExactCalls) (he : c.Exact) :
    (h.log c).ExactCalls := by
  intro d hd
  rcases List.mem_cons.mp hd with rfl | hd
  · exact he
  · exact hc d hd

@[simp] theorem created_set : (h.set p b).created = h.created := rfl

@[simp] theorem freed_set : (h.set p b).freed = h.freed := rfl

@[simp] theorem created_log : (h.log c).created = c.created.toList ++ h.created := by
  cases c <;> rfl

@[simp] theorem freed_log : (h.log c).freed = c.freed.toList ++ h.freed := by
  cases c <;> rfl

end Heap

/-- The record accounts for the live blocks: a block is live, at one address,
exactly when it was created and not freed, and nothing was freed twice. -/
structure Ledger (h : Heap) : Prop where
  created_lt : ∀ id ∈ h.created, id < h.calls.length
  created_nodup : h.created.Nodup
  freed_nodup : h.freed.Nodup
  freed_created : ∀ id ∈ h.freed, id ∈ h.created
  live_iff : ∀ id, (∃ p b, h.live p = some b ∧ b.id = id) ↔ id ∈ h.created ∧ id ∉ h.freed
  id_inj : ∀ {p q b c}, h.live p = some b → h.live q = some c → b.id = c.id → p = q

namespace Ledger

variable {h : Heap} {p q n passed new : Nat} {b : Block} {bytes : Buffer} {c : Call}

theorem empty : Ledger Heap.empty where
  created_lt := by simp [Heap.created, Heap.empty]
  created_nodup := List.nodup_nil
  freed_nodup := List.nodup_nil
  freed_created := by simp [Heap.freed, Heap.empty]
  live_iff := by simp [Heap.created, Heap.empty]
  id_inj := by simp [Heap.empty]

/-- A call that creates and frees nothing. -/
theorem log (hl : Ledger h) (hc : c.created = none) (hf : c.freed = none) : Ledger (h.log c) where
  created_lt := by
    intro id hid
    have := hl.created_lt id (by simpa [hc] using hid)
    simp only [Heap.log_calls, List.length_cons]
    omega
  created_nodup := by simpa [hc] using hl.created_nodup
  freed_nodup := by simpa [hf] using hl.freed_nodup
  freed_created := by simpa [hc, hf] using hl.freed_created
  live_iff := by simpa [hc, hf] using hl.live_iff
  id_inj := hl.id_inj

theorem alloc (hl : Ledger h) (hp : h.live p = none) :
    Ledger ((h.set p (some ⟨h.calls.length, bytes⟩)).log (.alloc h.calls.length n)) where
  created_lt := by
    intro id hid
    simp only [Heap.created_log, Call.created, Option.toList_some, List.singleton_append,
      List.mem_cons, Heap.created_set] at hid
    simp only [Heap.log_calls, Heap.set_calls, List.length_cons]
    rcases hid with rfl | hid
    · omega
    · have := hl.created_lt id hid
      omega
  created_nodup := by
    have hnew : h.calls.length ∉ h.created := fun hmem => absurd (hl.created_lt _ hmem) (by omega)
    simpa [Call.created, hnew] using hl.created_nodup
  freed_nodup := by simpa [Call.freed] using hl.freed_nodup
  freed_created := by
    intro id hid
    have := hl.freed_created id (by simpa [Call.freed] using hid)
    simp [Call.created, this]
  live_iff := by
    intro id
    have hnew : h.calls.length ∉ h.freed := fun hmem =>
      absurd (hl.created_lt _ (hl.freed_created _ hmem)) (by omega)
    simp only [Heap.log_live, Heap.created_log, Heap.created_set, Heap.freed_log, Heap.freed_set,
      Call.created, Call.freed, Option.toList_some, Option.toList_none, List.nil_append,
      List.singleton_append, List.mem_cons]
    constructor
    · rintro ⟨q, b, hq, rfl⟩
      by_cases hqp : q = p
      · subst q
        rw [Heap.set_live_self, Option.some.injEq] at hq
        subst b
        exact ⟨Or.inl rfl, hnew⟩
      · rw [Heap.set_live_of_ne h _ hqp] at hq
        obtain ⟨hc, hf⟩ := (hl.live_iff b.id).mp ⟨q, b, hq, rfl⟩
        exact ⟨Or.inr hc, hf⟩
    · rintro ⟨rfl | hc, hf⟩
      · exact ⟨p, _, Heap.set_live_self h p _, rfl⟩
      · obtain ⟨q, b, hq, hid⟩ := (hl.live_iff id).mpr ⟨hc, hf⟩
        have hqp : q ≠ p := by
          rintro rfl
          rw [hp] at hq
          cases hq
        exact ⟨q, b, by rw [Heap.set_live_of_ne h _ hqp, hq], hid⟩
  id_inj := by
    have hfresh : ∀ {q b}, h.live q = some b → b.id ≠ h.calls.length := fun {q b} hq heq =>
      absurd (hl.created_lt _ ((hl.live_iff b.id).mp ⟨q, b, hq, rfl⟩).1) (by omega)
    intro q r b c hq hr hid
    rw [Heap.log_live] at hq hr
    by_cases hqp : q = p <;> by_cases hrp : r = p
    · rw [hqp, hrp]
    · subst q
      rw [Heap.set_live_self, Option.some.injEq] at hq
      rw [Heap.set_live_of_ne h _ hrp] at hr
      subst b
      exact absurd hid.symm (hfresh hr)
    · subst r
      rw [Heap.set_live_self, Option.some.injEq] at hr
      rw [Heap.set_live_of_ne h _ hqp] at hq
      subst c
      exact absurd hid (hfresh hq)
    · rw [Heap.set_live_of_ne h _ hqp] at hq
      rw [Heap.set_live_of_ne h _ hrp] at hr
      exact hl.id_inj hq hr hid

/-- A block that keeps its number may change its bytes and its address. -/
theorem relocate (hl : Ledger h) (hp : h.live p = some b) (hq : q = p ∨ h.live q = none) :
    Ledger ((h.set p none).set q (some ⟨b.id, bytes⟩)) := by
  have hcases : ∀ {r d}, ((h.set p none).set q (some ⟨b.id, bytes⟩)).live r = some d →
      (r = q ∧ d.id = b.id) ∨ (r ≠ p ∧ h.live r = some d) := by
    intro r d hr
    by_cases hrq : r = q
    · subst r
      rw [Heap.set_live_self, Option.some.injEq] at hr
      exact Or.inl ⟨rfl, by rw [← hr]⟩
    · rw [Heap.set_live_of_ne _ _ hrq] at hr
      by_cases hrp : r = p
      · subst r
        rw [Heap.set_live_self] at hr
        cases hr
      · rw [Heap.set_live_of_ne _ _ hrp] at hr
        exact Or.inr ⟨hrp, hr⟩
  exact
    { created_lt := hl.created_lt
      created_nodup := hl.created_nodup
      freed_nodup := hl.freed_nodup
      freed_created := hl.freed_created
      live_iff := by
        intro id
        refine Iff.trans ?_ (hl.live_iff id)
        constructor
        · rintro ⟨r, d, hr, rfl⟩
          rcases hcases hr with ⟨_, hid⟩ | ⟨_, hr'⟩
          · exact ⟨p, b, hp, hid.symm⟩
          · exact ⟨r, d, hr', rfl⟩
        · rintro ⟨r, d, hr, rfl⟩
          by_cases hrp : r = p
          · subst r
            rw [hp, Option.some.injEq] at hr
            exact ⟨q, ⟨b.id, bytes⟩, Heap.set_live_self _ _ _, by rw [hr]⟩
          · have hrq : r ≠ q := by
              rintro rfl
              rcases hq with hqp | hq
              · exact hrp hqp
              · rw [hq] at hr
                cases hr
            refine ⟨r, d, ?_, rfl⟩
            rw [Heap.set_live_of_ne _ _ hrq, Heap.set_live_of_ne _ _ hrp, hr]
      id_inj := by
        intro r r' d d' hr hr' hid
        rcases hcases hr with ⟨hrq, hd⟩ | ⟨hrp, hr⟩ <;>
          rcases hcases hr' with ⟨hrq', hd'⟩ | ⟨hrp', hr'⟩
        · rw [hrq, hrq']
        · exact absurd (hl.id_inj hr' hp (by omega)) hrp'
        · exact absurd (hl.id_inj hr hp (by omega)) hrp
        · exact hl.id_inj hr hr' hid }

theorem dealloc (hl : Ledger h) (hp : h.live p = some b) :
    Ledger ((h.set p none).log (.dealloc b.id passed b.size)) where
  created_lt := by
    intro id hid
    have := hl.created_lt id hid
    simp only [Heap.log_calls, Heap.set_calls, List.length_cons]
    omega
  created_nodup := hl.created_nodup
  freed_nodup := by
    have hnot := ((hl.live_iff b.id).mp ⟨p, b, hp, rfl⟩).2
    simpa [Call.freed, hnot] using hl.freed_nodup
  freed_created := by
    have hcre := ((hl.live_iff b.id).mp ⟨p, b, hp, rfl⟩).1
    simpa [Call.freed, Call.created, hcre] using hl.freed_created
  live_iff := by
    intro id
    simp only [Heap.log_live, Heap.created_log, Heap.created_set, Heap.freed_log, Heap.freed_set,
      Call.created, Call.freed, Option.toList_some, Option.toList_none, List.nil_append,
      List.singleton_append, List.mem_cons, not_or]
    constructor
    · rintro ⟨q, c, hq, rfl⟩
      have hqp : q ≠ p := by
        rintro rfl
        rw [Heap.set_live_self] at hq
        cases hq
      rw [Heap.set_live_of_ne h _ hqp] at hq
      obtain ⟨hc, hf⟩ := (hl.live_iff c.id).mp ⟨q, c, hq, rfl⟩
      exact ⟨hc, fun heq => hqp (hl.id_inj hq hp heq), hf⟩
    · rintro ⟨hc, hne, hf⟩
      obtain ⟨q, c, hq, hid⟩ := (hl.live_iff id).mpr ⟨hc, hf⟩
      have hqp : q ≠ p := by
        rintro rfl
        rw [hp, Option.some.injEq] at hq
        exact hne (by rw [← hid, hq])
      exact ⟨q, c, by rw [Heap.set_live_of_ne h _ hqp, hq], hid⟩
  id_inj := by
    intro q r c d hq hr hid
    have hlive : ∀ {x y}, (h.set p none).live x = some y → h.live x = some y := by
      intro x y hx
      by_cases hxp : x = p
      · subst x
        rw [Heap.set_live_self] at hx
        cases hx
      · rwa [Heap.set_live_of_ne h _ hxp] at hx
    exact hl.id_inj (hlive hq) (hlive hr) hid

/-- Once no block is live, every block that was ever created was freed once. -/
theorem freed_perm_created (hl : Ledger h) (hnone : ∀ p, h.live p = none) :
    h.freed.Perm h.created := by
  rw [List.perm_ext_iff_of_nodup hl.freed_nodup hl.created_nodup]
  intro id
  refine ⟨hl.freed_created id, fun hc => ?_⟩
  by_contra hf
  obtain ⟨p, b, hp, _⟩ := (hl.live_iff id).mpr ⟨hc, hf⟩
  rw [hnone p] at hp
  cases hp

end Ledger

/-- From owning block `o` to owning block `o'`: only these two addresses
change, an address newly owned was free, and one no longer owned is free. -/
structure Transfer (h h' : Heap) (o o' : Option Nat) : Prop where
  frame : ∀ {q}, o ≠ some q → o' ≠ some q → h'.live q = h.live q
  fresh : ∀ {q}, o' = some q → o ≠ some q → h.live q = none
  gone : ∀ {q}, o = some q → o' ≠ some q → h'.live q = none
  owned : ∀ {q}, o' = some q → (h'.live q).isSome
  ledger : Ledger h → Ledger h'

namespace Transfer

variable {h h' h'' : Heap} {o o' o'' : Option Nat} {p q n passed new : Nat} {b : Block}
  {bytes : Buffer} {c : Call}

theorem alloc (hp : h.live p = none) :
    Transfer h ((h.set p (some ⟨h.calls.length, bytes⟩)).log (.alloc h.calls.length n))
      none (some p) where
  frame := by
    intro q _ hq
    simp only [ne_eq, Option.some.injEq] at hq
    exact Heap.set_live_of_ne h _ (Ne.symm hq)
  fresh := by
    intro q hq _
    rw [← Option.some.inj hq, hp]
  gone := by intro q hq; cases hq
  owned := by intro q hq; simp [← Option.some.inj hq]
  ledger := fun hl => hl.alloc hp

theorem relocate (bytes : Buffer) (hp : h.live p = some b) (hq : q = p ∨ h.live q = none) :
    Transfer h ((h.set p none).set q (some ⟨b.id, bytes⟩)) (some p) (some q) where
  frame := by
    intro r hr hr'
    simp only [ne_eq, Option.some.injEq] at hr hr'
    rw [Heap.set_live_of_ne _ _ (Ne.symm hr'), Heap.set_live_of_ne _ _ (Ne.symm hr)]
  fresh := by
    intro r hr hr'
    simp only [ne_eq, Option.some.injEq] at hr hr'
    subst r
    exact hq.resolve_left (Ne.symm hr')
  gone := by
    intro r hr hr'
    simp only [ne_eq, Option.some.injEq] at hr hr'
    rw [Heap.set_live_of_ne _ _ (Ne.symm hr'), ← hr, Heap.set_live_self]
  owned := by intro r hr; simp [← Option.some.inj hr]
  ledger := fun hl => hl.relocate hp hq

theorem write (hp : h.live p = some b) :
    Transfer h (h.set p (some ⟨b.id, bytes⟩)) (some p) (some p) := by
  simpa using relocate bytes hp (Or.inl rfl)

theorem realloc (hp : h.live p = some b) (hq : q = p ∨ h.live q = none) :
    Transfer h (((h.set p none).set q (some ⟨b.id, bytes⟩)).log (.realloc b.id passed b.size new))
      (some p) (some q) where
  frame := (relocate bytes hp hq).frame
  fresh := (relocate bytes hp hq).fresh
  gone := (relocate bytes hp hq).gone
  owned := (relocate bytes hp hq).owned
  ledger := fun hl => (hl.relocate hp hq).log rfl rfl

theorem dealloc (hp : h.live p = some b) :
    Transfer h ((h.set p none).log (.dealloc b.id passed b.size)) (some p) none where
  frame := by
    intro q hq _
    simp only [ne_eq, Option.some.injEq] at hq
    exact Heap.set_live_of_ne h _ (Ne.symm hq)
  fresh := by intro q hq; cases hq
  gone := by
    intro q hq _
    rw [← Option.some.inj hq]
    exact Heap.set_live_self h p none
  owned := by intro q hq; cases hq
  ledger := fun hl => hl.dealloc hp

/-- A new block beside an old one that is then given up. -/
theorem swap (t : Transfer h h' none o') (t' : Transfer h' h'' o none)
    (ho : ∀ p, o = some p → (h.live p).isSome) : Transfer h h'' o o' where
  frame := fun hq hq' => by rw [t'.frame hq (by simp), t.frame (by simp) hq']
  fresh := fun hq _ => t.fresh hq (by simp)
  gone := fun hq _ => t'.gone hq (by simp)
  owned := by
    intro q hq
    have hne : o ≠ some q := by
      intro hoq
      have hsome := ho q hoq
      rw [t.fresh hq (by simp)] at hsome
      cases hsome
    rw [t'.frame hne (by simp)]
    exact t.owned hq
  ledger := t'.ledger ∘ t.ledger

end Transfer

/-- No block changed; at most the record grew. -/
structure Quiet (h h' : Heap) : Prop where
  live : h'.live = h.live
  created : h'.created = h.created
  freed : h'.freed = h.freed
  ledger : Ledger h → Ledger h'

namespace Quiet

variable {h h' h'' : Heap} {o o' : Option Nat} {c : Call}

theorem refl (h : Heap) : Quiet h h := ⟨rfl, rfl, rfl, id⟩

theorem log (hc : c.Neutral) : Quiet h (h.log c) where
  live := rfl
  created := by
    cases c <;> first | rfl | cases hc
  freed := by
    cases c <;> first | rfl | cases hc
  ledger := fun hl =>
    hl.log (by cases c <;> first | rfl | cases hc) (by cases c <;> first | rfl | cases hc)

theorem trans (q : Quiet h h') (q' : Quiet h' h'') : Quiet h h'' :=
  ⟨q'.live.trans q.live, q'.created.trans q.created, q'.freed.trans q.freed,
    q'.ledger ∘ q.ledger⟩

theorem transfer (q : Quiet h h') (ho : ∀ p, o = some p → (h.live p).isSome) :
    Transfer h h' o o where
  frame := fun _ _ => by rw [q.live]
  fresh := fun hp hne => absurd hp hne
  gone := fun hp hne => absurd hp hne
  owned := fun hp => by rw [q.live]; exact ho _ hp
  ledger := q.ledger

/-- Nothing is owned before or after. -/
theorem transfer_none (q : Quiet h h') : Transfer h h' none none :=
  q.transfer (by simp)

theorem then_transfer (q : Quiet h h') (t : Transfer h' h'' o o') : Transfer h h'' o o' where
  frame := fun ho ho' => by rw [t.frame ho ho', q.live]
  fresh := fun hp hne => by rw [← q.live, t.fresh hp hne]
  gone := t.gone
  owned := t.owned
  ledger := t.ledger ∘ q.ledger

end Quiet

/-- The pool owns exactly the live blocks, each once. -/
structure Owned {ι : Type} (own : ι → Option Nat) (h : Heap) : Prop where
  live : ∀ {i p}, own i = some p → (h.live p).isSome
  owner : ∀ {p}, (h.live p).isSome → ∃ i, own i = some p
  inj : ∀ {i j p}, own i = some p → own j = some p → i = j

namespace Owned

variable {ι : Type} [DecidableEq ι] {own : ι → Option Nat} {h h' : Heap} {i j : ι}
  {o : Option Nat} {p : Nat}

omit [DecidableEq ι] in
/-- A call on one value leaves the blocks of every other value as they were. -/
theorem other (ho : Owned own h) (t : Transfer h h' (own i) o) (hij : j ≠ i)
    (hj : own j = some p) : h'.live p = h.live p := by
  apply t.frame
  · exact fun hi => hij (ho.inj hj hi)
  · intro hp
    have hnone := t.fresh hp (fun hi => hij (ho.inj hj hi))
    have hsome := ho.live hj
    rw [hnone] at hsome
    cases hsome

theorem transfer (ho : Owned own h) (t : Transfer h h' (own i) o) :
    Owned (Function.update own i o) h' where
  live := by
    intro j p hj
    by_cases hij : j = i
    · subst j
      rw [Function.update_self] at hj
      exact t.owned hj
    · rw [Function.update_of_ne hij] at hj
      rw [ho.other t hij hj]
      exact ho.live hj
  owner := by
    intro p hp
    by_cases hop : o = some p
    · exact ⟨i, by rw [Function.update_self, hop]⟩
    · have hip : own i ≠ some p := by
        intro hip
        rw [t.gone hip hop] at hp
        cases hp
      rw [t.frame hip hop] at hp
      obtain ⟨j, hj⟩ := ho.owner hp
      have hij : j ≠ i := fun hij => hip (hij ▸ hj)
      exact ⟨j, by rw [Function.update_of_ne hij, hj]⟩
  inj := by
    have hnew : ∀ {k p}, k ≠ i → own k = some p → o ≠ some p := by
      intro k p hki hk hop
      have hnone := t.fresh hop (fun hi => hki (ho.inj hk hi))
      have hsome := ho.live hk
      rw [hnone] at hsome
      cases hsome
    intro j k p hj hk
    by_cases hji : j = i <;> by_cases hki : k = i
    · rw [hji, hki]
    · subst j
      rw [Function.update_self] at hj
      rw [Function.update_of_ne hki] at hk
      exact absurd hj (hnew hki hk)
    · subst k
      rw [Function.update_self] at hk
      rw [Function.update_of_ne hji] at hj
      exact absurd hk (hnew hji hj)
    · rw [Function.update_of_ne hji] at hj
      rw [Function.update_of_ne hki] at hk
      exact ho.inj hj hk

/-- Moving a value to a place that owns nothing. -/
theorem move (ho : Owned own h) (hij : i ≠ j) (hi : own i = none) :
    Owned (Function.update (Function.update own i (own j)) j none) h := by
  let swapped := fun k => if k = i then j else k
  have hmoved : ∀ {k p}, Function.update (Function.update own i (own j)) j none k = some p →
      k ≠ j ∧ own (swapped k) = some p := by
    intro k p hk
    by_cases hkj : k = j
    · subst k
      rw [Function.update_self] at hk
      cases hk
    · rw [Function.update_of_ne hkj] at hk
      by_cases hki : k = i
      · subst k
        rw [Function.update_self] at hk
        exact ⟨hkj, by simpa [swapped] using hk⟩
      · rw [Function.update_of_ne hki] at hk
        exact ⟨hkj, by simpa [swapped, hki] using hk⟩
  exact
    { live := fun hk => ho.live (hmoved hk).2
      owner := by
        intro p hp
        obtain ⟨k, hk⟩ := ho.owner hp
        by_cases hkj : k = j
        · subst k
          exact ⟨i, by rw [Function.update_of_ne hij, Function.update_self, hk]⟩
        · have hki : k ≠ i := by
            rintro rfl
            rw [hi] at hk
            cases hk
          exact ⟨k, by rw [Function.update_of_ne hkj, Function.update_of_ne hki, hk]⟩
      inj := by
        intro k l p hk hl
        obtain ⟨hkj, hk⟩ := hmoved hk
        obtain ⟨hlj, hl⟩ := hmoved hl
        have heq := ho.inj hk hl
        simp only [swapped] at heq
        split_ifs at heq with h1 h2 h2
        · rw [h1, h2]
        · exact absurd heq.symm hlj
        · exact absurd heq hkj
        · exact heq }

end Owned

end Rust
