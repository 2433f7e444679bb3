import Sinstr.Debug
import Sinstr.Rust.Asserted

/-!
# The assertions of the debug build

Every function of the debug build ends as in the release build, or in the panic of an
assertion where the release build takes a false condition for granted. No sum or
difference wraps on the way, so the overflow checks change nothing.
-/

namespace Sinstr

open Rust

variable {t : Target}

namespace Debug

namespace NonEmptySinStr

open Sinstr.NonEmptySinStr (Represents ofUsize?)

variable {a : Allocator t.toMachine} {h : Heap} {x : NonEmptySinStr t} {c s : String}
  {p : Addr t.toMachine} {b : Block} {σ : Type} {u : σ}

theorem not_isValidLen (hle : s.utf8ByteSize ≤ t.nicheMaxInt) : ¬IsValidLen t s.utf8ByteSize :=
  fun hvalid => Nat.not_lt.mpr hle hvalid.2

theorem run_newInline (hle : s.utf8ByteSize ≤ t.nicheMaxInt) :
    (newInline t s).run u = (Sinstr.NonEmptySinStr.newInline t s).run u := by
  simp only [newInline, EStateM.run_bind, Exec.run_panicUnless, not_isValidLen hle,
    not_false_eq_true, if_true]

theorem asserted_newInline {calm : σ → Prop} (hpos : 0 < s.utf8ByteSize)
    (hle : s.utf8ByteSize ≤ t.nicheMaxInt) :
    Asserted assertions calm ((Sinstr.NonEmptySinStr.newInline t s).run u)
      ((newInline t s).run u) := by
  obtain ⟨x, hrun, _⟩ := Sinstr.NonEmptySinStr.run_newInline (t := t) hpos hle
  rw [run_newInline hle, hrun]
  exact .ok x u

theorem asserted_newHeap (hN : t.nicheMaxInt < s.utf8ByteSize)
    (hlen : s.utf8ByteSize ≤ t.isizeMax) :
    Asserted assertions (Calm h) ((Sinstr.NonEmptySinStr.newHeap a s).run h)
      ((newHeap a s).run h) := by
  by_cases hvalid : IsValidLen t s.utf8ByteSize
  · have hrun : (newHeap a s).run h = (Sinstr.NonEmptySinStr.newHeap a s).run h := by
      simp only [newHeap, EStateM.run_bind, Exec.run_panicUnless, if_pos hvalid]
      exact Checked.NonEmptySinStr.run_newHeap hlen
    rw [hrun]
    refine .same fun hfault => ?_
    have hlimit := (Sinstr.NonEmptySinStr.newHeap_fault_iff hN hlen id).mp hfault
    have hmax := (limitFault_asserts_iff s.utf8ByteSize false).mp hlimit
    have hlt := hvalid.1
    simp only [Bool.false_eq_true, false_and, false_or, true_and] at hmax
    omega
  · have hmax : s.utf8ByteSize = t.isizeMax := by
      simp only [IsValidLen] at hvalid
      omega
    rw [Sinstr.NonEmptySinStr.run_newHeap hN hlen, if_pos hmax]
    simp only [newHeap, EStateM.run_bind, Exec.run_panicUnless, if_neg hvalid]
    exact .caught (by simp [assertions]) (.refl h)

theorem asserted_new (hlen : s.utf8ByteSize ≤ t.isizeMax) :
    Asserted assertions (Calm h) ((Sinstr.NonEmptySinStr.new a s).run h) ((new a s).run h) := by
  simp only [Sinstr.NonEmptySinStr.new, new]
  split_ifs with h0 hle
  · exact .ok none h
  · exact .bind_pure some (asserted_newInline (Nat.pos_of_ne_zero h0) hle)
  · exact .bind_pure some (asserted_newHeap (Nat.not_le.mp hle) hlen)

theorem asserted_newUnwrap (hlen : s.utf8ByteSize ≤ t.isizeMax) :
    Asserted assertions (Calm h) ((Sinstr.NonEmptySinStr.newUnwrap a s).run h)
      ((newUnwrap a s).run h) := by
  refine .bind (asserted_new hlen) fun made h' _ => ?_
  cases made with
  | some x => exact .ok x h'
  | none => exact .error (by simp) h'

theorem asserted_visitStr {E : Type} {errors : DeError E} (hlen : s.utf8ByteSize ≤ t.isizeMax) :
    Asserted assertions (Calm h)
      ((unwrap ((nonEmptySinStrVisitor errors a).visitStr s)).run h)
      ((unwrap (visitStr errors a s)).run h) := by
  refine .bind (.bind (asserted_new hlen) fun made h' _ => ?_) fun result h' _ => ?_
  · cases made with
    | some x => exact .ok (Except.ok x) h'
    | none => exact .ok (Except.error (errors.invalidValue (.str s) nonEmptyExpecting)) h'
  · cases result with
    | ok x => exact .ok x h'
    | error e => exact .error (by simp) h'

theorem asserted_newConst (hpos : 0 < s.utf8ByteSize) (hle : s.utf8ByteSize ≤ t.nicheMaxInt) :
    Asserted assertions (Calm h) ((Sinstr.NonEmptySinStr.newConst t s).run h)
      ((newConst t s).run h) := by
  simp only [newConst, Sinstr.NonEmptySinStr.newConst, EStateM.run_bind, Exec.run_panicUnless,
    if_pos hpos.ne', if_pos hle]
  exact asserted_newInline hpos hle

theorem asserted_build {b : Builder} (hpos : 0 < b.value.utf8ByteSize) (hb : b.Buildable t) :
    Asserted assertions (Calm h) ((Sinstr.NonEmptySinStr.build a b).run h)
      ((build a b).run h) := by
  cases b with
  | new s => exact asserted_newUnwrap hb
  | newConst s => exact asserted_newConst hpos hb
  | literal s =>
      have hle : s.utf8ByteSize ≤ t.nicheMaxInt := hb
      have hne : s.utf8ByteSize ≠ 0 := hpos.ne'
      simp only [build, Sinstr.NonEmptySinStr.build, neSinstrLiteral, Sinstr.neSinstrLiteral,
        EStateM.run_bind, Exec.run_panicUnless, if_pos hne, if_pos hle]
      exact asserted_newInline hpos hle
  | newInline s => exact asserted_newInline hpos hb.2
  | newHeap s => exact asserted_newHeap hb.1 hb.2
  | visitStr s => exact asserted_visitStr hb

theorem run_drop (r : Represents h x c) : (drop x).run h = x.drop.run h := by
  have hmode := r.isHeap_iff
  cases r with
  | inline hpos hle hdisc hdata =>
      have hin := Sinstr.NonEmptySinStr.isInlined_of_disc hdisc hpos hle
      simp only [drop, Sinstr.NonEmptySinStr.drop, Sinstr.NonEmptySinStr.isHeap, hin]
      rfl
  | heap p b hx hp hb =>
      have hs := hb.storesLen (r := HeapRepr.ofAddr p) hp
      simp only [drop, Sinstr.NonEmptySinStr.drop, hmode.mpr hb.len_gt, if_true, dropHeap,
        Sinstr.NonEmptySinStr.dropHeap, EStateM.run_bind, Sinstr.NonEmptySinStr.run_getHeap hx,
        Checked.HeapRepr.run_capacity hs, hs.run_capacity]

/-- A clone is no longer than the string that is there. -/
theorem asserted_clone (r : Represents h x c) :
    Asserted assertions (Calm h) ((x.clone a).run h) ((clone a x).run h) := by
  cases hmode : x.isInlined with
  | true =>
      simp only [clone, Sinstr.NonEmptySinStr.clone, hmode, if_true]
      exact .ok _ h
  | false =>
      have hN : t.nicheMaxInt < c.utf8ByteSize :=
        r.isHeap_iff.mp (by rw [Sinstr.NonEmptySinStr.isHeap, hmode]; rfl)
      simp only [clone, Sinstr.NonEmptySinStr.clone, hmode, Bool.false_eq_true, if_false,
        EStateM.run_bind, r.run_asStr]
      exact asserted_newHeap hN r.len_le

/-- `*self = m?`. -/
theorem asserted_assign {m m' : Exec Heap (NonEmptySinStr t)} (r : Represents h x c)
    (hb : (Sinstr.NonEmptySinStr.resource t).Built h s (m.run h))
    (hm : Asserted assertions (Calm h) (m.run h) (m'.run h)) :
    Asserted assertions (fun s => s.1 = x ∧ Calm h s.2)
      ((do Sinstr.NonEmptySinStr.assign (← Exec.onSnd m) : Exec (NonEmptySinStr t × Heap) Unit).run
        (x, h))
      ((do assign (← Exec.onSnd m') : Exec (NonEmptySinStr t × Heap) Unit).run (x, h)) :=
  .assign_built (R := Sinstr.NonEmptySinStr.resource t) run_drop r hb hm

section SetStr

/-- In a block the setter asserts that the new size is valid. -/
theorem run_setStrUnchecked_heap (hx : ofUsize? t p.val = some x) (hp : h.live p.val = some b)
    (hb : BlockHolds t b c) (hN : t.nicheMaxInt < s.utf8ByteSize)
    (hlen : s.utf8ByteSize ≤ t.isizeMax) :
    (setStrUnchecked a s).run (x, h) =
      if t.isizeMax < blockSize t s.utf8ByteSize then
        .error (.panic "assertion failed: new_size <= isize::MAX as usize") (x, h)
      else (Sinstr.NonEmptySinStr.setStrUnchecked a s).run (x, h) := by
  have hpos : 0 < s.utf8ByteSize := by omega
  have hM := t.modulus_eq
  have hsize := t.nicheMaxInt_lt_size
  have hlt := size_add_lt_modulus t hlen
  have hheap : x.isHeap = true := Sinstr.NonEmptySinStr.isHeap_of_ofUsize? hx
  have hs := hb.storesLen (r := HeapRepr.ofAddr p) hp
  have hadd : t.add t.size s.utf8ByteSize = t.size + s.utf8ByteSize := Machine.add_eq (by omega)
  have hsum : ∀ u : HeapRepr × Heap, (checkedAdd t.toMachine t.size s.utf8ByteSize).run u =
      .ok (t.add t.size s.utf8ByteSize) u := fun u => run_checkedAdd (by omega)
  have hplain := nextStep_size_add hlen
  have hnext : ∀ u : HeapRepr × Heap, (Checked.nextStep t (t.add t.size s.utf8ByteSize)).run u =
      .ok (blockSize t s.utf8ByteSize) u := by
    intro u
    rw [Checked.run_nextStep (by omega) (by omega), hplain]
  have hold := hb.cap_le.trans hb.size_le
  simp only [setStrUnchecked, Sinstr.NonEmptySinStr.setStrUnchecked, Exec.assertUnchecked,
    EStateM.run_bind, Exec.run_require, Exec.run_panicUnless, if_pos hpos.ne', Exec.run_self,
    if_neg (Nat.not_le.mpr hN), hheap, if_true]
  by_cases hbig : t.isizeMax < blockSize t s.utf8ByteSize
  · have hne : ¬blockSize t c.utf8ByteSize = blockSize t s.utf8ByteSize := by omega
    rw [if_pos hbig]
    refine Sinstr.NonEmptySinStr.run_getHeapMut_error hx ?_
    simp only [EStateM.run_bind, Exec.run_self, hsum, hnext, Exec.run_onSnd,
      Checked.HeapRepr.run_capacity hs, if_neg hne, Exec.run_panicUnless,
      if_neg (Nat.not_le.mpr hbig)]
  · rw [if_neg hbig]
    refine Sinstr.NonEmptySinStr.run_getHeapMut_congr hx ?_
    simp only [EStateM.run_bind, Exec.run_self, hsum, hnext, Exec.run_onSnd,
      Checked.HeapRepr.run_capacity hs, hs.run_capacity, hplain]
    split
    · rfl
    · simp only [EStateM.run_bind, hsum, hnext, Exec.run_onSnd, hs.run_capacity, hplain,
        Exec.run_panicUnless, Exec.run_require, if_pos (Nat.not_lt.mp hbig)]
      rewrite [Checked.HeapRepr.run_capacity hs]
      rfl

theorem asserted_setStrUnchecked (r : Represents h x c) (hpos : 0 < s.utf8ByteSize)
    (hlen : s.utf8ByteSize ≤ t.isizeMax) :
    Asserted assertions (fun s => s.1 = x ∧ Calm h s.2)
      ((Sinstr.NonEmptySinStr.setStrUnchecked a s).run (x, h))
      ((setStrUnchecked a s).run (x, h)) := by
  by_cases hle : s.utf8ByteSize ≤ t.nicheMaxInt
  · obtain ⟨y, hrun, _⟩ := Sinstr.NonEmptySinStr.run_newInline (t := t) hpos hle
    have hassign := asserted_assign r (Sinstr.NonEmptySinStr.built_newInline (h := h) hpos hle)
      (asserted_newInline hpos hle)
    simp only [setStrUnchecked, Sinstr.NonEmptySinStr.setStrUnchecked, Exec.assertUnchecked,
      EStateM.run_bind, Exec.run_require, Exec.run_panicUnless, if_pos hpos.ne', Exec.run_self,
      if_pos hle, run_newInline hle, hrun]
    simpa only [EStateM.run_bind, Exec.run_onSnd, run_newInline hle, hrun] using hassign
  have hN := Nat.not_le.mp hle
  cases hmode : x.isInlined with
  | true =>
      have hheap : x.isHeap = false := Sinstr.NonEmptySinStr.isHeap_of_isInlined hmode
      simp only [setStrUnchecked, Sinstr.NonEmptySinStr.setStrUnchecked, Exec.assertUnchecked,
        EStateM.run_bind, Exec.run_require, Exec.run_panicUnless, if_pos hpos.ne', Exec.run_self,
        if_neg hle, hheap, Bool.false_eq_true, if_false]
      have hassign := asserted_assign r (Sinstr.NonEmptySinStr.built_newHeap (a := a) hN hlen)
        (asserted_newHeap hN hlen)
      simpa only [EStateM.run_bind] using hassign
  | false =>
      cases r with
      | inline hposc hlec hdisc hdata =>
          rw [Sinstr.NonEmptySinStr.isInlined_of_disc hdisc hposc hlec] at hmode
          cases hmode
      | heap p b hx hp hb =>
          have hold := hb.cap_le.trans hb.size_le
          rw [run_setStrUnchecked_heap hx hp hb hN hlen]
          by_cases hbig : t.isizeMax < blockSize t s.utf8ByteSize
          · have hne : ¬blockSize t c.utf8ByteSize = blockSize t s.utf8ByteSize := by omega
            rw [Sinstr.NonEmptySinStr.run_setStrUnchecked_heap hx hp hb hN hlen, if_neg hne,
              if_pos hbig, if_pos hbig]
            exact .caught (by simp [assertions]) ⟨rfl, .refl h⟩
          · rw [if_neg hbig]
            refine .same fun hfault => hbig ?_
            have hlimit := (Sinstr.NonEmptySinStr.setStrUnchecked_fault_iff
              (.heap p b hx hp hb) hpos hlen id).mp hfault
            have hassert := (limitFault_asserts_iff s.utf8ByteSize x.isHeap).mp hlimit
            have hheap : x.isHeap = true := Sinstr.NonEmptySinStr.isHeap_of_ofUsize? hx
            simpa [hheap] using hassert

theorem asserted_setStr (r : Represents h x c) (hlen : s.utf8ByteSize ≤ t.isizeMax) :
    Asserted assertions (fun s => s.1 = x ∧ Calm h s.2)
      ((Sinstr.NonEmptySinStr.setStr a s).run (x, h)) ((setStr a s).run (x, h)) := by
  by_cases h0 : s.utf8ByteSize = 0
  · rw [Sinstr.NonEmptySinStr.run_setStr_empty h0]
    simp only [setStr, h0, EStateM.run_bind, Exec.run_panicUnless, ne_eq, not_true_eq_false,
      if_false]
    exact .error (by simp) (x, h)
  · simp only [setStr, Sinstr.NonEmptySinStr.setStr, EStateM.run_bind, Exec.run_panicUnless,
      ne_eq, h0, not_false_eq_true, if_true]
    exact asserted_setStrUnchecked r (Nat.pos_of_ne_zero h0) hlen

end SetStr

section PushStr

/-- Appending to a heap string takes nothing for granted. -/
theorem fault_pushStr_heap {n : Nat} (hx : ofUsize? t p.val = some x)
    (hs : StoresLen t h (HeapRepr.ofAddr p) b n) (hpos : 0 < s.utf8ByteSize)
    (hlen : s.utf8ByteSize ≤ t.isizeMax) :
    Exec.fault? ((Sinstr.NonEmptySinStr.pushStr a s).run (x, h)) ≠
      some (.unsound .assertUnchecked) := by
  rw [Sinstr.NonEmptySinStr.run_pushStr_heap hx hs hpos hlen]
  split_ifs
  · simp
  · simp
  · cases a.realloc h p.val (grownSize t n s.utf8ByteSize) with
    | none => simp
    | some q => cases hy : ofUsize? t q.val <;> simp [hy]

/-- From the word to a block: the length of the concatenation is asserted. -/
theorem asserted_toHeap (r : Represents h x c)
    (hN : t.nicheMaxInt < c.utf8ByteSize + s.utf8ByteSize) :
    Asserted assertions (fun s => s.1 = x ∧ Calm h s.2)
      ((do let both ← Exec.onSnd (do concat a (← x.asStr) s)
           Sinstr.NonEmptySinStr.assign (← Exec.onSnd (Sinstr.NonEmptySinStr.newHeap a both)) :
        Exec (NonEmptySinStr t × Heap) Unit).run (x, h))
      ((do let both ← Exec.onSnd (do concat a (← x.asStr) s)
           assign (← Exec.onSnd (newHeap a both)) :
        Exec (NonEmptySinStr t × Heap) Unit).run (x, h)) := by
  have hcat : (c ++ s).utf8ByteSize = c.utf8ByteSize + s.utf8ByteSize := String.utf8ByteSize_append
  by_cases hover : c.utf8ByteSize + s.utf8ByteSize ≤ t.isizeMax
  · have hcalm : Calm h (h.log (.scratch (c.utf8ByteSize + s.utf8ByteSize) true)) :=
      .log trivial trivial
    have hrep := r.congr_heap fun q _ => congrFun hcalm.quiet.live q
    have hrun : (Exec.onSnd (do concat a (← x.asStr) s) :
        Exec (NonEmptySinStr t × Heap) String).run (x, h) =
          if a.scratch h (c.utf8ByteSize + s.utf8ByteSize) then
            .ok (c ++ s) (x, h.log (.scratch (c.utf8ByteSize + s.utf8ByteSize) true))
          else .error (.allocError (c.utf8ByteSize + s.utf8ByteSize))
            (x, h.log (.scratch (c.utf8ByteSize + s.utf8ByteSize) false)) := by
      simp only [Exec.run_onSnd, EStateM.run_bind, r.run_asStr, run_concat hover]
      cases a.scratch h (c.utf8ByteSize + s.utf8ByteSize) <;> rfl
    refine .bind_left ?_ fun both u hboth => ?_
    · rw [hrun]
      split_ifs <;> simp
    · rw [hrun] at hboth
      split_ifs at hboth
      cases hboth
      have hassign := asserted_assign hrep
        (Sinstr.NonEmptySinStr.built_newHeap (a := a) (hcat ▸ hN) (by omega))
        (asserted_newHeap (hcat ▸ hN) (by omega))
      exact hassign.mono fun u hu => ⟨hu.1, hcalm.trans hu.2⟩
  · have hrun : (Exec.onSnd (do concat a (← x.asStr) s) :
        Exec (NonEmptySinStr t × Heap) String).run (x, h) =
          .error (.panic "capacity overflow") (x, h) := by
      simp only [Exec.run_onSnd, EStateM.run_bind, r.run_asStr, run_concat_overflow hover]
    refine .bind_left ?_ fun both u hboth => ?_
    · rw [hrun]
      simp
    · rw [hrun] at hboth
      cases hboth

theorem asserted_pushStr (r : Represents h x c) (hlen : s.utf8ByteSize ≤ t.isizeMax) :
    Asserted assertions (fun s => s.1 = x ∧ Calm h s.2)
      ((Sinstr.NonEmptySinStr.pushStr a s).run (x, h)) ((pushStr a s).run (x, h)) := by
  have hM := t.modulus_eq
  have hc := r.len_le
  by_cases h0 : s.utf8ByteSize = 0
  · rw [Sinstr.NonEmptySinStr.run_pushStr_empty r.run_len h0]
    simp only [pushStr, EStateM.run_bind, Exec.run_self, Exec.run_onSnd, r.run_len, if_pos h0]
    exact .ok () (x, h)
  have hpos := Nat.pos_of_ne_zero h0
  have hadd : t.add c.utf8ByteSize s.utf8ByteSize = c.utf8ByteSize + s.utf8ByteSize :=
    Machine.add_eq (by omega)
  have hsum := run_checkedAdd (m := t.toMachine) (σ := NonEmptySinStr t × Heap) (s := (x, h))
    (a := c.utf8ByteSize) (b := s.utf8ByteSize) (by omega)
  cases hmode : x.isInlined with
  | false =>
      cases r with
      | inline hposc hlec hdisc hdata =>
          rw [Sinstr.NonEmptySinStr.isInlined_of_disc hdisc hposc hlec] at hmode
          cases hmode
      | heap p b hx hp hb =>
          have hs := hb.storesLen (r := HeapRepr.ofAddr p) hp
          have hgt := hb.len_gt
          have hlen_run := Sinstr.NonEmptySinStr.run_len_of_heap hx hs.run_len
          have hbig : ¬c.utf8ByteSize + s.utf8ByteSize ≤ t.nicheMaxInt := by omega
          have hsame : (pushStr a s).run (x, h) =
              (Sinstr.NonEmptySinStr.pushStr a s).run (x, h) := by
            simp only [pushStr, Sinstr.NonEmptySinStr.pushStr, EStateM.run_bind, Exec.run_self,
              Exec.run_onSnd, hlen_run, if_neg h0, hsum, hadd, if_neg hbig,
              Sinstr.NonEmptySinStr.isHeap_of_ofUsize? hx, if_true]
            exact Sinstr.NonEmptySinStr.run_getHeapMut_congr hx
              (Checked.HeapRepr.run_pushStr hs hlen)
          rw [hsame]
          exact .same (fault_pushStr_heap hx hs hpos hlen)
  | true =>
      have hheap : x.isHeap = false := Sinstr.NonEmptySinStr.isHeap_of_isInlined hmode
      by_cases hle : c.utf8ByteSize + s.utf8ByteSize ≤ t.nicheMaxInt
      · obtain ⟨x', hrun, _⟩ := Sinstr.NonEmptySinStr.run_pushStr_inline (a := a) r hpos hle
        have hsame : (pushStr a s).run (x, h) =
            (Sinstr.NonEmptySinStr.pushStr a s).run (x, h) := by
          simp only [pushStr, Sinstr.NonEmptySinStr.pushStr, EStateM.run_bind, Exec.run_self,
            Exec.run_onSnd, r.run_len, if_neg h0, hsum, hadd]
          rewrite [if_pos hle, if_pos hle]
          rfl
        rw [hsame, hrun]
        exact .ok () (x', h)
      · simp only [pushStr, Sinstr.NonEmptySinStr.pushStr, EStateM.run_bind, Exec.run_self,
          Exec.run_onSnd, r.run_len, if_neg h0, hsum, hadd, if_neg hle, hheap, Bool.false_eq_true,
          if_false]
        have hbig := Nat.not_le.mp hle
        simpa only [EStateM.run_bind, Exec.run_onSnd, r.run_asStr] using
          asserted_toHeap (a := a) r hbig

end PushStr

/-- Filling a borrowed slice is the same in both builds. -/
theorem asserted_asBytesMut {new : List UInt8} (r : Represents h x c)
    (hlen : new.length = c.utf8ByteSize) :
    Asserted assertions (fun s => s.1 = x ∧ Calm h s.2)
      ((Sinstr.NonEmptySinStr.asBytesMut new).run (x, h))
      ((Sinstr.NonEmptySinStr.asBytesMut new).run (x, h)) := by
  have hbytes : new.length = (strBytes c).length := by rwa [length_strBytes]
  obtain ⟨x', h', hrun, _⟩ := (Sinstr.NonEmptySinStr.represents_iff.mp r).run_asBytesMut hbytes
  rw [hrun]
  exact .ok () (x', h')

theorem asserted_mutate {m : Mutator} (r : Represents h x c) (hm : m.Callable t c) :
    Asserted assertions (fun s => s.1 = x ∧ Calm h s.2)
      ((Sinstr.NonEmptySinStr.mutate a m).run (x, h)) ((mutate a m).run (x, h)) := by
  cases m with
  | setStr s => exact asserted_setStr r hm
  | setStrUnchecked s => exact asserted_setStrUnchecked r hm.1 hm.2
  | pushStr s => exact asserted_pushStr r hm
  | asStrMut s =>
      rw [mutate, Sinstr.NonEmptySinStr.mutate, Sinstr.NonEmptySinStr.run_asStrMut r]
      exact asserted_asBytesMut r (by rwa [length_strBytes])
  | asBytesMut new => exact asserted_asBytesMut r hm.1

/-- The interface of the debug build. -/
def guard (a : Allocator t.toMachine) : Guard (Sinstr.NonEmptySinStr.api a) assertions where
  build := build a
  clone := clone a
  call := mutate a
  drop := drop
  build_asserted hb := asserted_build hb.1 hb.2
  clone_asserted := asserted_clone
  call_asserted := asserted_mutate
  drop_eq := run_drop

end NonEmptySinStr

namespace SinStr

open Sinstr.SinStr (Represents)

variable {a : Allocator t.toMachine} {h : Heap} {x : SinStr t} {c s : String}

theorem asserted_new (hlen : s.utf8ByteSize ≤ t.isizeMax) :
    Asserted assertions (Calm h) ((Sinstr.SinStr.new a s).run h) ((new a s).run h) :=
  .bind_pure _ (NonEmptySinStr.asserted_new hlen)

theorem asserted_newInline (hpos : 0 < s.utf8ByteSize) (hle : s.utf8ByteSize ≤ t.nicheMaxInt) :
    Asserted assertions (Calm h) ((Sinstr.SinStr.newInline t s).run h) ((newInline t s).run h) :=
  .bind_pure _ (NonEmptySinStr.asserted_newInline hpos hle)

theorem asserted_newHeap (hN : t.nicheMaxInt < s.utf8ByteSize)
    (hlen : s.utf8ByteSize ≤ t.isizeMax) :
    Asserted assertions (Calm h) ((Sinstr.SinStr.newHeap a s).run h) ((newHeap a s).run h) :=
  .bind_pure _ (NonEmptySinStr.asserted_newHeap hN hlen)

theorem asserted_build {b : SinStr.Maker} (hb : b.Buildable t) :
    Asserted assertions (Calm h) ((Sinstr.SinStr.build a b).run h) ((build a b).run h) := by
  cases b with
  | of b =>
      cases b with
      | new s => exact asserted_new hb
      | newConst s =>
          have hle : s.utf8ByteSize ≤ t.nicheMaxInt := hb
          simp only [build, Sinstr.SinStr.build, newConst, Sinstr.SinStr.newConst]
          split_ifs with h0
          · exact .ok _ h
          · exact .bind_pure _ (NonEmptySinStr.asserted_newConst (Nat.pos_of_ne_zero h0) hle)
      | literal s =>
          have hle : s.utf8ByteSize ≤ t.nicheMaxInt := hb
          simp only [build, Sinstr.SinStr.build, sinstrLiteral, Sinstr.sinstrLiteral,
            EStateM.run_bind, Exec.run_panicUnless, if_pos hle]
          split_ifs with h0
          · exact .ok _ h
          · exact asserted_newInline (Nat.pos_of_ne_zero h0) hle
      | newInline s => exact asserted_newInline hb.1 hb.2
      | newHeap s => exact asserted_newHeap hb.1 hb.2
      | visitStr s =>
          rw [build, run_unwrap_ok]
          exact (run_unwrap_ok (Sinstr.SinStr.new a s) h).symm ▸ asserted_new hb
  | default => exact .ok _ h
  | «from» s => exact asserted_new hb
  | fromStr s =>
      rw [build, run_unwrap_ok]
      exact (run_unwrap_ok (Sinstr.SinStr.new a s) h).symm ▸ asserted_new hb

theorem run_drop (r : Represents h x c) : (drop x).run h = x.drop.run h := by
  obtain ⟨_ | n⟩ := x
  · rfl
  · exact NonEmptySinStr.run_drop (x := n) r

theorem asserted_clone (r : Represents h x c) :
    Asserted assertions (Calm h) ((x.clone a).run h) ((clone a x).run h) := by
  obtain ⟨_ | n⟩ := x
  · exact .ok _ h
  · exact .bind_pure _ (NonEmptySinStr.asserted_clone (x := n) r)

/-- `*self = m?`. -/
theorem asserted_assign {m m' : Exec Heap (SinStr t)} (r : Represents h x c)
    (hb : (Sinstr.SinStr.resource t).Built h s (m.run h))
    (hm : Asserted assertions (Calm h) (m.run h) (m'.run h)) :
    Asserted assertions (fun s => s.1 = x ∧ Calm h s.2)
      ((do Sinstr.SinStr.assign (← Exec.onSnd m) : Exec (SinStr t × Heap) Unit).run (x, h))
      ((do assign (← Exec.onSnd m') : Exec (SinStr t × Heap) Unit).run (x, h)) :=
  .assign_built (R := Sinstr.SinStr.resource t) run_drop r hb hm

/-- A method of the value inside is asserted as it is there. -/
theorem asserted_onInner {n : NonEmptySinStr t} {m m' : Exec (NonEmptySinStr t × Heap) Unit}
    (hm : Asserted assertions (fun s => s.1 = n ∧ Calm h s.2) (m.run (n, h)) (m'.run (n, h))) :
    Asserted assertions (fun s => s.1 = ⟨some n⟩ ∧ Calm h s.2)
      ((Sinstr.SinStr.onInner n m).run (x, h)) ((Sinstr.SinStr.onInner n m').run (x, h)) := by
  unfold Sinstr.SinStr.onInner
  simp only [EStateM.run] at hm ⊢
  generalize m (n, h) = r at hm ⊢
  generalize m' (n, h) = r' at hm ⊢
  cases hm with
  | same hr =>
      cases r with
      | ok u s => exact .ok () _
      | error e s => exact .error (fun he => hr (congrArg some he)) _
  | @caught text s ht hs =>
      obtain ⟨n', h'⟩ := s
      obtain ⟨rfl, hcalm⟩ := hs
      exact .caught ht ⟨rfl, hcalm⟩

theorem asserted_setStr (r : Represents h x c) (hlen : s.utf8ByteSize ≤ t.isizeMax) :
    Asserted assertions (fun s => s.1 = x ∧ Calm h s.2)
      ((Sinstr.SinStr.setStr a s).run (x, h)) ((setStr a s).run (x, h)) := by
  by_cases h0 : s.utf8ByteSize = 0
  · have hempty : (Sinstr.SinStr.resource t).Built h ""
        ((pure Sinstr.SinStr.EMPTY : Exec Heap (SinStr t)).run h) := Sinstr.SinStr.built_none
    have hsame : Asserted assertions (Calm h)
        ((pure Sinstr.SinStr.EMPTY : Exec Heap (SinStr t)).run h)
        ((pure Sinstr.SinStr.EMPTY : Exec Heap (SinStr t)).run h) := .ok _ h
    have hassign := asserted_assign r hempty hsame
    simpa only [setStr, Sinstr.SinStr.setStr, if_pos h0, EStateM.run_bind, Exec.run_onSnd,
      EStateM.run_pure] using hassign
  · obtain ⟨_ | n⟩ := x
    · have hassign := asserted_assign r (Sinstr.SinStr.built_new (a := a) hlen) (asserted_new hlen)
      simpa only [setStr, Sinstr.SinStr.setStr, if_neg h0, EStateM.run_bind, Exec.run_self]
        using hassign
    · have hinner := asserted_onInner (x := ⟨some n⟩)
        (NonEmptySinStr.asserted_setStr (a := a) (x := n) r hlen)
      simpa only [setStr, Sinstr.SinStr.setStr, if_neg h0, EStateM.run_bind, Exec.run_self]
        using hinner

theorem asserted_setStrUnchecked (r : Represents h x c) (hpos : 0 < s.utf8ByteSize)
    (hlen : s.utf8ByteSize ≤ t.isizeMax) (hempty : c = "" → t.nicheMaxInt < s.utf8ByteSize) :
    Asserted assertions (fun s => s.1 = x ∧ Calm h s.2)
      ((Sinstr.SinStr.setStrUnchecked a s).run (x, h)) ((setStrUnchecked a s).run (x, h)) := by
  simp only [setStrUnchecked, Sinstr.SinStr.setStrUnchecked, EStateM.run_bind, Exec.run_require,
    Exec.run_panicUnless, if_pos hpos.ne', Exec.run_self]
  obtain ⟨_ | n⟩ := x
  · have hN := hempty r
    have hnew : (Sinstr.SinStr.resource t).Built h s ((Sinstr.SinStr.newHeap a s).run h) :=
      Sinstr.SinStr.built_some (Sinstr.NonEmptySinStr.built_newHeap hN hlen)
    have hassign := asserted_assign r hnew (asserted_newHeap hN hlen)
    simpa only [EStateM.run_bind] using hassign
  · exact asserted_onInner (NonEmptySinStr.asserted_setStrUnchecked (x := n) r hpos hlen)

theorem asserted_pushStr (r : Represents h x c) (hlen : s.utf8ByteSize ≤ t.isizeMax) :
    Asserted assertions (fun s => s.1 = x ∧ Calm h s.2)
      ((Sinstr.SinStr.pushStr a s).run (x, h)) ((pushStr a s).run (x, h)) := by
  simp only [pushStr, Sinstr.SinStr.pushStr, EStateM.run_bind, Exec.run_self]
  obtain ⟨_ | n⟩ := x
  · have hassign := asserted_assign r (Sinstr.SinStr.built_new (a := a) hlen) (asserted_new hlen)
    simpa only [EStateM.run_bind] using hassign
  · exact asserted_onInner (NonEmptySinStr.asserted_pushStr (x := n) r hlen)

/-- Filling a borrowed slice is the same in both builds. -/
theorem asserted_asBytesMut {new : List UInt8} (r : Represents h x c)
    (hlen : new.length = c.utf8ByteSize) :
    Asserted assertions (fun s => s.1 = x ∧ Calm h s.2)
      ((Sinstr.SinStr.asBytesMut new).run (x, h)) ((Sinstr.SinStr.asBytesMut new).run (x, h)) := by
  have hbytes : new.length = (strBytes c).length := by rwa [length_strBytes]
  obtain ⟨x', h', hrun, _⟩ := (Sinstr.SinStr.represents_iff.mp r).run_asBytesMut hbytes
  rw [hrun]
  exact .ok () (x', h')

theorem asserted_mutate {m : Mutator} (r : Represents h x c)
    (hm : Sinstr.SinStr.Callable t m c) :
    Asserted assertions (fun s => s.1 = x ∧ Calm h s.2)
      ((Sinstr.SinStr.mutate a m).run (x, h)) ((mutate a m).run (x, h)) := by
  obtain ⟨hm, hempty⟩ := hm
  cases m with
  | setStr s => exact asserted_setStr r hm
  | setStrUnchecked s => exact asserted_setStrUnchecked r hm.1 hm.2 (hempty s rfl)
  | pushStr s => exact asserted_pushStr r hm
  | asStrMut s =>
      rw [mutate, Sinstr.SinStr.mutate, Sinstr.SinStr.run_asStrMut r]
      exact asserted_asBytesMut r (by rwa [length_strBytes])
  | asBytesMut new => exact asserted_asBytesMut r hm.1

/-- The interface of the debug build. -/
def guard (a : Allocator t.toMachine) : Guard (Sinstr.SinStr.api a) assertions where
  build := build a
  clone := clone a
  call := mutate a
  drop := drop
  build_asserted := asserted_build
  clone_asserted := asserted_clone
  call_asserted := asserted_mutate
  drop_eq := run_drop

end SinStr

end Debug

end Sinstr
