import Sinstr.Refinement

/-!
# Equality, order and hashing

Equality compares the storage modes first. It is equality of strings because
the mode is a function of the length in every value that a run can produce.
`SinStr` derives its `Hash` through `Option`, which writes a discriminant that
`str` does not write.
-/

namespace Sinstr

open Rust

variable {t : Target}

/-- The reads and comparisons of a string type, with what they give on values
that stand for strings. -/
structure Views {V : Type} (R : Resource V String) (t : Target) where
  isInlined : V → Bool
  asBytes : V → Exec Heap (List UInt8)
  asStr : V → Exec Heap String
  eq : V → V → Exec Heap Bool
  cmp : V → V → Exec Heap Ordering
  partialCmp : V → V → Exec Heap (Option Ordering)
  hash : V → Exec Heap (List HashWrite)
  /-- The writes of `hash` for a content. -/
  writes : String → List HashWrite
  isInlined_eq : ∀ {h x s}, R.Rep h x s → isInlined x = decide (s.utf8ByteSize ≤ t.nicheMaxInt)
  run_asBytes : ∀ {h x s}, R.Rep h x s → (asBytes x).run h = .ok (strBytes s) h
  run_asStr : ∀ {h x s}, R.Rep h x s → (asStr x).run h = .ok s h
  run_eq : ∀ {h x y s s'}, R.Rep h x s → R.Rep h y s' →
    (eq x y).run h = .ok (decide (s = s')) h
  run_cmp : ∀ {h x y s s'}, R.Rep h x s → R.Rep h y s' → (cmp x y).run h = .ok (strCmp s s') h
  run_partialCmp : ∀ {h x y s s'}, R.Rep h x s → R.Rep h y s' →
    (partialCmp x y).run h = .ok (some (strCmp s s')) h
  run_hash : ∀ {h x s}, R.Rep h x s → (hash x).run h = .ok (writes s) h

namespace NonEmptySinStr

variable {h : Heap} {x y : NonEmptySinStr t} {s s' : String}

/-- The fast path on the storage mode never changes the answer. -/
theorem Represents.run_eq (r : Represents h x s) (r' : Represents h y s') :
    (x.eq y).run h = .ok (decide (s = s')) h := by
  by_cases hmode : x.isInlined = y.isInlined
  · simp only [eq, hmode, beq_self_eq_true, if_true, EStateM.run_bind, r.run_asStr, r'.run_asStr,
      EStateM.run_pure]
    rfl
  · have hne : s ≠ s' := by
      rintro rfl
      exact hmode (r.isInlined_eq.trans r'.isInlined_eq.symm)
    simp [eq, hmode, hne]

theorem Represents.run_cmp (r : Represents h x s) (r' : Represents h y s') :
    (x.cmp y).run h = .ok (strCmp s s') h := by
  simp only [cmp, EStateM.run_bind, r.run_asStr, r'.run_asStr, EStateM.run_pure]

theorem Represents.run_partialCmp (r : Represents h x s) (r' : Represents h y s') :
    (x.partialCmp y).run h = .ok (some (strCmp s s')) h := by
  simp only [partialCmp, EStateM.run_bind, r.run_cmp r', EStateM.run_pure]

theorem Represents.run_hash (r : Represents h x s) : x.hash.run h = .ok (strHash s) h := by
  simp only [hash, EStateM.run_bind, r.run_asStr, EStateM.run_pure]

/-- `NonEmptySinStr` hashes as its string. -/
def views (F : String → Fault → Heap → Prop) : Views ((resource t).withFaults F) t where
  isInlined := isInlined
  asBytes := asBytes
  asStr := asStr
  eq := eq
  cmp := cmp
  partialCmp := partialCmp
  hash := hash
  writes := strHash
  isInlined_eq := Represents.isInlined_eq
  run_asBytes := Represents.run_asBytes
  run_asStr := Represents.run_asStr
  run_eq := Represents.run_eq
  run_cmp := Represents.run_cmp
  run_partialCmp := Represents.run_partialCmp
  run_hash := Represents.run_hash

end NonEmptySinStr

namespace SinStr

variable {h : Heap} {x y : SinStr t} {s s' : String}

theorem Represents.ne_empty {n : NonEmptySinStr t} (r : Represents h ⟨some n⟩ s) : s ≠ "" :=
  NonEmptySinStr.Represents.ne_empty r

theorem Represents.run_eq (r : Represents h x s) (r' : Represents h y s') :
    (x.eq y).run h = .ok (decide (s = s')) h := by
  obtain ⟨_ | n⟩ := x <;> obtain ⟨_ | m⟩ := y
  · obtain rfl : s = "" := r
    obtain rfl : s' = "" := r'
    rfl
  · obtain rfl : s = "" := r
    rw [decide_eq_false (Ne.symm r'.ne_empty)]
    rfl
  · obtain rfl : s' = "" := r'
    rw [decide_eq_false r.ne_empty]
    rfl
  · exact NonEmptySinStr.Represents.run_eq r r'

/-- `None` is below every `Some`, as the empty string is below every other. -/
theorem Represents.run_cmp (r : Represents h x s) (r' : Represents h y s') :
    (x.cmp y).run h = .ok (strCmp s s') h := by
  obtain ⟨_ | n⟩ := x <;> obtain ⟨_ | m⟩ := y
  · obtain rfl : s = "" := r
    obtain rfl : s' = "" := r'
    rfl
  · obtain rfl : s = "" := r
    rw [strCmp_empty_left r'.ne_empty]
    rfl
  · obtain rfl : s' = "" := r'
    rw [strCmp_empty_right r.ne_empty]
    rfl
  · exact NonEmptySinStr.Represents.run_cmp r r'

theorem Represents.run_partialCmp (r : Represents h x s) (r' : Represents h y s') :
    (x.partialCmp y).run h = .ok (some (strCmp s s')) h := by
  obtain ⟨_ | n⟩ := x <;> obtain ⟨_ | m⟩ := y
  · obtain rfl : s = "" := r
    obtain rfl : s' = "" := r'
    rfl
  · obtain rfl : s = "" := r
    rw [strCmp_empty_left r'.ne_empty]
    rfl
  · obtain rfl : s' = "" := r'
    rw [strCmp_empty_right r.ne_empty]
    rfl
  · exact NonEmptySinStr.Represents.run_partialCmp r r'

/-- The writes of the derived `Hash`. -/
def hashWrites (s : String) : List HashWrite :=
  if s = "" then [.isize 0] else .isize 1 :: strHash s

theorem Represents.run_hash (r : Represents h x s) : x.hash.run h = .ok (hashWrites s) h := by
  obtain ⟨_ | n⟩ := x
  · obtain rfl : s = "" := r
    rfl
  · rw [hashWrites, if_neg r.ne_empty]
    simp only [hash, EStateM.run_bind, NonEmptySinStr.Represents.run_hash r, EStateM.run_pure]

def views (t : Target) : Views (resource t) t where
  isInlined := isInlined
  asBytes := asBytes
  asStr := asStr
  eq := eq
  cmp := cmp
  partialCmp := partialCmp
  hash := hash
  writes := hashWrites
  isInlined_eq r := r.observes.isInlined
  run_asBytes r := r.observes.asBytes
  run_asStr r := r.observes.asStr
  run_eq := Represents.run_eq
  run_cmp := Represents.run_cmp
  run_partialCmp := Represents.run_partialCmp
  run_hash := Represents.run_hash

end SinStr

namespace Views

variable {V M : Type} {I : Interface V String String M} {R : Resource V String}

/-- The comparisons of `x` and `y` are those of their bytes. -/
structure ComparesAsBytes (views : Views R t) (h : Heap) (x y : V) (bs bs' : List UInt8) (b : Bool)
    (o : Ordering) : Prop where
  left : (views.asBytes x).run h = .ok bs h
  right : (views.asBytes y).run h = .ok bs' h
  eq : (views.eq x y).run h = .ok b h
  eq_iff : b = true ↔ bs = bs'
  cmp : (views.cmp x y).run h = .ok o h
  cmp_eq : o = compareOfLessAndEq bs bs'
  partialCmp : (views.partialCmp x y).run h = .ok (some o) h
  cmp_eq_iff : o = .eq ↔ b = true
  hash : b = true → ∃ writes,
    (views.hash x).run h = .ok writes h ∧ (views.hash y).run h = .ok writes h

/-- Nothing tells `x` from `y` by comparing with `z`. -/
structure Interchangeable (views : Views R t) (h : Heap) (x y z : V) : Prop where
  mode : views.isInlined x = views.isInlined y
  eq_left : (views.eq x z).run h = (views.eq y z).run h
  eq_right : (views.eq z x).run h = (views.eq z y).run h
  cmp_left : (views.cmp x z).run h = (views.cmp y z).run h
  cmp_right : (views.cmp z x).run h = (views.cmp z y).run h
  hash : (views.hash x).run h = (views.hash y).run h

/-- All values of the pool compare as their bytes, and equal ones are
interchangeable. -/
structure Lawful (views : Views R t) (w : Pool V) : Prop where
  compares : ∀ {i j x y}, w.vals i = some x → w.vals j = some y →
    ∃ bs bs' b o, views.ComparesAsBytes w.heap x y bs bs' b o
  interchange : ∀ {i j k x y z}, w.vals i = some x → w.vals j = some y → w.vals k = some z →
    (views.eq x y).run w.heap = .ok true w.heap → views.Interchangeable w.heap x y z

/-- A value built from the string of another one, or cloned from it, is equal
to it, in a pool where equal values are interchangeable. -/
def Rebuilds (views : Views I.toResource t) (spec : Nat → Option String) (w : Pool V) : Prop :=
  ∀ i j x s w', ∀ op : Op String M, w.vals i = some x →
    (views.asStr x).run w.heap = .ok s w.heap → (op = .build j s ∨ op = .clone j i) →
    op.Legal I spec → (op.exec I).run w = .ok () w' →
    ∃ y, w'.vals i = some x ∧ w'.vals j = some y ∧
      (views.eq x y).run w'.heap = .ok true w'.heap ∧ views.Lawful w'

variable {spec : Nat → Option String} {w : Pool V}

theorem lawful {B : Type} {I : Interface V String B M} (views : Views I.toResource t)
    (hinv : Invariant I spec w) : views.Lawful w where
  compares := by
    intro i j x y hx hy
    obtain ⟨s, _, r⟩ := hinv.exists_content hx
    obtain ⟨s', _, r'⟩ := hinv.exists_content hy
    exact ⟨strBytes s, strBytes s', decide (s = s'), strCmp s s',
      { left := views.run_asBytes r
        right := views.run_asBytes r'
        eq := views.run_eq r r'
        eq_iff := by rw [decide_eq_true_iff, strBytes_inj]
        cmp := views.run_cmp r r'
        cmp_eq := bytesCmp_eq_compareOfLessAndEq _ _
        partialCmp := views.run_partialCmp r r'
        cmp_eq_iff := by rw [strCmp_eq_eq_iff, decide_eq_true_iff]
        hash := by
          intro heq
          obtain rfl := of_decide_eq_true heq
          exact ⟨_, views.run_hash r, views.run_hash r'⟩ }⟩
  interchange := by
    intro i j k x y z hx hy hz heq
    obtain ⟨s, _, r⟩ := hinv.exists_content hx
    obtain ⟨s', _, r'⟩ := hinv.exists_content hy
    obtain ⟨s'', _, r''⟩ := hinv.exists_content hz
    rw [views.run_eq r r', EStateM.Result.ok.injEq] at heq
    obtain rfl := of_decide_eq_true heq.1
    exact
      { mode := (views.isInlined_eq r).trans (views.isInlined_eq r').symm
        eq_left := (views.run_eq r r'').trans (views.run_eq r' r'').symm
        eq_right := (views.run_eq r'' r).trans (views.run_eq r'' r').symm
        cmp_left := (views.run_cmp r r'').trans (views.run_cmp r' r'').symm
        cmp_right := (views.run_cmp r'' r).trans (views.run_cmp r'' r').symm
        hash := (views.run_hash r).trans (views.run_hash r').symm }

theorem rebuilds (views : Views I.toResource t) (hvalue : ∀ s, I.value s = s)
    (hinv : Invariant I spec w) : views.Rebuilds spec w := by
  intro i j x s w' op hx hs hop hlegal hrun
  obtain ⟨c, hc, r⟩ := hinv.exists_content hx
  rw [views.run_asStr r, EStateM.Result.ok.injEq] at hs
  obtain rfl := hs.1
  have hout := exec_outcome hinv hlegal
  rw [hrun] at hout
  have hji : spec j = none ∧ op.apply I spec = Function.update spec j (some c) ∧
      op.places = [j] := by
    rcases hop with rfl | rfl
    · exact ⟨hlegal.1, by rw [Op.apply, hvalue], rfl⟩
    · exact ⟨hlegal.1, by rw [Op.apply, hc], rfl⟩
  obtain ⟨hj, happly, hplaces⟩ := hji
  have hij : i ≠ j := by
    rintro rfl
    rw [hc] at hj
    cases hj
  cases hout with
  | done inv frame _ =>
      have hxi : w'.vals i = some x := by
        rw [(frame i (by simpa [hplaces] using hij)).1, hx]
      rw [happly] at inv
      obtain ⟨y, hy, r'⟩ := inv.exists_val (Function.update_self j (some c) spec)
      obtain ⟨c', hc', r''⟩ := inv.exists_content hxi
      rw [Function.update_of_ne hij, hc, Option.some.injEq] at hc'
      obtain rfl := hc'
      refine ⟨y, hxi, hy, ?_, views.lawful inv⟩
      rw [views.run_eq r'' r', decide_eq_true rfl]

end Views

/-- In every reachable pool of either type all values compare as their bytes,
and a rebuilt or cloned value is equal to its original and interchangeable with
it. -/
theorem comparisons_agree (a : Allocator t.toMachine) :
    (∀ spec w, Reachable (NonEmptySinStr.interface a) (fun _ _ => True) spec w →
      (NonEmptySinStr.views (NonEmptySinStr.MayFault t)).Lawful w ∧
      Views.Rebuilds (I := NonEmptySinStr.interface a)
        (NonEmptySinStr.views (NonEmptySinStr.MayFault t)) spec w) ∧
    (∀ spec w, Reachable (SinStr.interface a) (fun _ _ => True) spec w →
      (SinStr.views t).Lawful w ∧
      Views.Rebuilds (I := SinStr.interface a) (SinStr.views t) spec w) := by
  refine ⟨fun spec w hr => ?_, fun spec w hr => ?_⟩
  · exact ⟨Views.lawful (I := NonEmptySinStr.interface a) _ hr.invariant,
      Views.rebuilds _ (fun _ => rfl) hr.invariant⟩
  · exact ⟨Views.lawful (I := SinStr.interface a) _ hr.invariant,
      Views.rebuilds _ (fun _ => rfl) hr.invariant⟩

/-- One value grown to eight bytes, another built with them. -/
def sameContentRun : List (Op String Method) :=
  [.build 0 "12345678", .build 1 "1234567", .call 1 (.pushStr "8")]

theorem sameContentRun_reachable :
    Reachable NonEmptySinStr.paged (fun _ _ => True)
      (Op.applyAll NonEmptySinStr.paged (fun _ => none) sameContentRun)
      (Exec.final ((Op.execAll NonEmptySinStr.paged sameContentRun).run Pool.empty)) := by
  have hlegal : Op.LegalRun NonEmptySinStr.paged (fun _ _ => True) (fun _ => none)
      sameContentRun :=
    ⟨⟨⟨rfl, by decide, by decide⟩, trivial⟩, ⟨⟨rfl, by decide, by decide⟩, trivial⟩,
      ⟨⟨_, rfl, by decide⟩, trivial⟩, trivial⟩
  exact Reachable.of_returns hlegal (by decide +kernel)

/-- The two are equal, a clone of the second is equal to it, and in the pool with the
clone no comparison with it tells them apart. -/
theorem sameContentRun_lawful :
    let views := NonEmptySinStr.views (NonEmptySinStr.MayFault (PointerWidth.w64.target .little))
    let w := Exec.final ((Op.execAll NonEmptySinStr.paged sameContentRun).run Pool.empty)
    ∃ x y z w', w.vals 0 = some x ∧ w.vals 1 = some y ∧
      (views.eq x y).run w.heap = .ok true w.heap ∧
      ((Op.clone 2 1).exec NonEmptySinStr.paged).run w = .ok () w' ∧ w'.vals 2 = some z ∧
      (views.eq y z).run w'.heap = .ok true w'.heap ∧ views.Interchangeable w'.heap y z x := by
  intro views w
  obtain ⟨hlawful, hrebuilds⟩ :=
    (comparisons_agree (PointerWidth.w64.paged .little)).1 _ _ sameContentRun_reachable
  have hinv := sameContentRun_reachable.invariant
  obtain ⟨x, hx, r⟩ := hinv.exists_val (i := 0) (c := "12345678") rfl
  obtain ⟨y, hy, r'⟩ := hinv.exists_val (i := 1) (c := "12345678") rfl
  obtain ⟨w', hrun⟩ : ∃ w', ((Op.clone 2 1).exec NonEmptySinStr.paged).run w = .ok () w' :=
    ⟨_, Exec.eq_ok_of_returns (by decide +kernel)⟩
  have hlegal : (Op.clone 2 1 : Op String Method).Legal NonEmptySinStr.paged
      (Op.applyAll NonEmptySinStr.paged (fun _ => none) sameContentRun) := ⟨rfl, rfl⟩
  obtain ⟨z, hy', hz, heq, hlawful'⟩ :=
    hrebuilds 1 2 y _ _ _ hy (views.run_asStr r') (Or.inr rfl) hlegal hrun
  have hx' : w'.vals 0 = some x := by
    have hout := exec_outcome hinv hlegal
    rw [hrun] at hout
    cases hout with
    | done _ frame _ => rw [(frame 0 (by simp [Op.places])).1, hx]
  exact ⟨x, y, z, _, hx, hy, views.run_eq r r', hrun, hz, heq, hlawful'.interchange hy' hz hx' heq⟩

namespace SinStr

variable {h : Heap} {x y : SinStr t} {s s' : String}

/-- Hashing the value makes the writes of hashing its borrow. -/
def HashLaw (h : Heap) (x : SinStr t) : Prop :=
  ∃ s, x.borrow.run h = .ok s h ∧ x.hash.run h = .ok (strHash s) h

/-- Equality and order are those of the borrows. -/
def EqOrdLaw (h : Heap) (x y : SinStr t) : Prop :=
  ∃ s s', x.borrow.run h = .ok s h ∧ y.borrow.run h = .ok s' h ∧
    (x.eq y).run h = .ok (decide (s = s')) h ∧ (x.cmp y).run h = .ok (strCmp s s') h

theorem Represents.eqOrdLaw (r : Represents h x s) (r' : Represents h y s') : EqOrdLaw h x y :=
  ⟨s, s', r.observes.asStr, r'.observes.asStr, r.run_eq r', r.run_cmp r'⟩

/-- The discriminant that the derived `Hash` writes first has no counterpart. -/
theorem hashWrites_ne (s : String) : hashWrites s ≠ strHash s := by
  unfold hashWrites strHash
  split <;> simp

theorem Represents.not_hashLaw (r : Represents h x s) : ¬HashLaw h x := by
  rintro ⟨s', hborrow, hhash⟩
  have hstr := r.observes.asStr
  rw [borrow, hstr, EStateM.Result.ok.injEq] at hborrow
  rw [← hborrow.1, r.run_hash, EStateM.Result.ok.injEq] at hhash
  exact hashWrites_ne s hhash.1

/-- No reachable value hashes as its borrow, although all compare as theirs. -/
theorem borrow_hash_law_fails {a : Allocator t.toMachine} {spec : Nat → Option String}
    {w : Pool (SinStr t)} {i : Nat} (hr : Reachable (interface a) (fun _ _ => True) spec w)
    (hx : w.vals i = some x) :
    ¬HashLaw w.heap x ∧ ∀ j y, w.vals j = some y → EqOrdLaw w.heap x y := by
  obtain ⟨s, _, r⟩ := hr.invariant.exists_content hx
  refine ⟨Represents.not_hashLaw r, fun j y hy => ?_⟩
  obtain ⟨s', _, r'⟩ := hr.invariant.exists_content hy
  exact Represents.eqOrdLaw r r'

theorem inlineEmptyRun_hash_fails :
    ∃ x, (Exec.final ((Op.execAll paged inlineEmptyRun).run Pool.empty)).vals 0 = some x ∧
      ¬HashLaw (Exec.final ((Op.execAll paged inlineEmptyRun).run Pool.empty)).heap x := by
  obtain ⟨x, hx, _⟩ := inlineEmptyRun_reachable.invariant.exists_val (i := 0) (c := "abc") rfl
  exact ⟨x, hx, (borrow_hash_law_fails inlineEmptyRun_reachable hx).1⟩

/-- The empty key writes a discriminant, and its borrow an empty string. -/
theorem empty_hash_ne_borrow_hash :
    ∃ spec w x, Reachable paged (fun _ _ => True) spec w ∧ w.vals 1 = some x ∧
      x.borrow.run w.heap = .ok "" w.heap ∧ x.hash.run w.heap = .ok [.isize 0] w.heap ∧
      ¬HashLaw w.heap x := by
  obtain ⟨x, hx, r⟩ := inlineEmptyRun_reachable.invariant.exists_val (i := 1) (c := "") rfl
  exact ⟨_, _, x, inlineEmptyRun_reachable, hx, (Represents.observes r).asStr,
    Represents.run_hash r, Represents.not_hashLaw r⟩

end SinStr

end Sinstr
