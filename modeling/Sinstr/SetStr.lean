import Sinstr.Construct

/-!
# `set_str`

The old value is replaced by a new inline or heap value, or its block is
written again, in place where the recomputed capacity stays the same and after
a reallocation otherwise. `run_setStrUnchecked_heap` states the two branches
exactly.
-/

namespace Sinstr

open Rust

variable {t : Target}

namespace NonEmptySinStr

variable {a : Allocator t.toMachine} {h h' : Heap} {x : NonEmptySinStr t} {c s : String}
  {p q : Addr t.toMachine} {b : Block}

section GetHeapMut

variable {α : Type} {m : Exec (HeapRepr × Heap) α} {v : α} {e : Fault}

/-- A program through the reference that stores an address, the old or a new one. -/
theorem run_getHeapMut (hx : ofUsize? t p.val = some x)
    (hm : m.run (HeapRepr.ofAddr p, h) = .ok v (HeapRepr.ofAddr q, h')) :
    (getHeapMut m).run (x, h) =
      match ofUsize? t q.val with
      | none => .error (.unsound .invalidValue) (x, h')
      | some y => .ok v (y, h') := by
  have hg := run_getHeap (σ := Heap) hx h
  unfold getHeapMut
  simp only [EStateM.run] at hg hm ⊢
  simp only [hg, hm]
  rw [show (HeapRepr.ofAddr q).addr = q.val from rfl]
  cases ofUsize? t q.val <;> rfl

/-- A program through the reference that leaves the address alone. -/
theorem run_getHeapMut_ok (hx : ofUsize? t p.val = some x)
    (hm : m.run (HeapRepr.ofAddr p, h) = .ok v (HeapRepr.ofAddr p, h')) :
    (getHeapMut m).run (x, h) = .ok v (x, h') := by
  rw [run_getHeapMut hx hm, hx]

theorem run_getHeapMut_error (hx : ofUsize? t p.val = some x)
    (hm : m.run (HeapRepr.ofAddr p, h) = .error e (HeapRepr.ofAddr p, h')) :
    (getHeapMut m).run (x, h) = .error e (x, h') := by
  have hg := run_getHeap (σ := Heap) hx h
  have hback : ofUsize? t (HeapRepr.ofAddr p).addr = some x := hx
  unfold getHeapMut
  simp only [EStateM.run] at hg hm ⊢
  simp only [hg, hm, hback]

/-- The reference shows a program the address alone. -/
theorem run_getHeapMut_congr {m' : Exec (HeapRepr × Heap) α} (hx : ofUsize? t p.val = some x)
    (hm : m.run (HeapRepr.ofAddr p, h) = m'.run (HeapRepr.ofAddr p, h)) :
    (getHeapMut m).run (x, h) = (getHeapMut m').run (x, h) := by
  have hg := run_getHeap (σ := Heap) hx h
  unfold getHeapMut
  simp only [EStateM.run] at hg hm ⊢
  simp only [hg, hm]

end GetHeapMut

/-- `*self = new_heap(s)` on an inline value. -/
theorem run_assign_newHeap (hx : x.isInlined = true) :
    (do assign (← Exec.onSnd (newHeap a s)) : Exec (NonEmptySinStr t × Heap) Unit).run (x, h) =
      Exec.replacing x ((newHeap a s).run h) := by
  refine Exec.run_assign_of_quiet_drop _ _ fun h => ?_
  simp [drop, isHeap, hx]

/-- What `set_str` leaves in a block that it reallocates. -/
def resetBytes (t : Target) (old : Buffer) (s : String) : Buffer :=
  filled t (Buffer.resize old (blockSize t s.utf8ByteSize)) s

/-- The branch of `set_str_unchecked` from the word to a block. -/
theorem run_setStrUnchecked_toHeap (hx : x.isInlined = true) (hN : t.nicheMaxInt < s.utf8ByteSize) :
    (setStrUnchecked a s).run (x, h) = Exec.replacing x ((newHeap a s).run h) := by
  have hne : s.utf8ByteSize ≠ 0 := by omega
  have hheap : x.isHeap = false := isHeap_of_isInlined hx
  have hassign := run_assign_newHeap (a := a) (h := h) (s := s) hx
  simpa [setStrUnchecked, Exec.assertUnchecked, hne, hheap, Nat.not_le.mpr hN] using hassign

/-- The heap branches of `set_str_unchecked`. -/
theorem run_setStrUnchecked_heap (hx : ofUsize? t p.val = some x) (hp : h.live p.val = some b)
    (hb : BlockHolds t b c) (hN : t.nicheMaxInt < s.utf8ByteSize)
    (hlen : s.utf8ByteSize ≤ t.isizeMax) :
    (setStrUnchecked a s).run (x, h) =
      if blockSize t c.utf8ByteSize = blockSize t s.utf8ByteSize then
        .ok () (x, h.set p.val (some ⟨b.id, filled t b.bytes s⟩))
      else if t.isizeMax < blockSize t s.utf8ByteSize then
        .error (.unsound .assertUnchecked) (x, h)
      else
        match a.realloc h p.val (blockSize t s.utf8ByteSize) with
        | none => .error (.allocError (blockSize t c.utf8ByteSize)) (x,
            h.log (.reallocFailed b.id (blockSize t c.utf8ByteSize) b.size
              (blockSize t s.utf8ByteSize)))
        | some q =>
            let h' := ((h.set p.val none).set q.val (some ⟨b.id, resetBytes t b.bytes s⟩)).log
              (.realloc b.id (blockSize t c.utf8ByteSize) b.size (blockSize t s.utf8ByteSize))
            match ofUsize? t q.val with
            | none => .error (.unsound .invalidValue) (x, h')
            | some y => .ok () (y, h') := by
  have hpos : 0 < s.utf8ByteSize := by omega
  have hheap : x.isHeap = true := isHeap_of_ofUsize? hx
  have hcap := hb.run_capacity (r := HeapRepr.ofAddr p) hp
  have hnext := nextStep_size_add hlen
  have hmin := le_blockSize t s.utf8ByteSize
  simp only [setStrUnchecked, Exec.assertUnchecked, EStateM.run_bind, Exec.run_require,
    if_pos hpos.ne', Exec.run_self, if_neg (Nat.not_le.mpr hN), hheap, if_true]
  by_cases hsame : blockSize t c.utf8ByteSize = blockSize t s.utf8ByteSize
  · rw [if_pos hsame]
    obtain ⟨h₁, hset, hwrite⟩ := run_len_bytes s.utf8ByteSize t.size (strBytes s) hp le_rfl
      (by rw [length_strBytes]; exact hmin.trans (hsame ▸ hb.cap_le))
    refine run_getHeapMut_ok hx ?_
    simp only [EStateM.run_bind, Exec.run_self, Exec.run_onSnd, hcap, hnext, if_pos hsame,
      HeapRepr.setLen, Exec.run_require, if_pos hpos.ne', HeapRepr.addr_ofAddr, hset, hwrite,
      filled]
  rw [if_neg hsame]
  by_cases hbig : t.isizeMax < blockSize t s.utf8ByteSize
  · rw [if_pos hbig]
    refine run_getHeapMut_error hx ?_
    simp only [EStateM.run_bind, Exec.run_self, Exec.run_onSnd, hcap, hnext, if_neg hsame,
      Exec.run_require, if_neg (Nat.not_le.mpr hbig)]
  rw [if_neg hbig]
  have hold := layout_fits_of_le (align_dvd_blockSize t c.utf8ByteSize)
    (hb.cap_le.trans hb.size_le)
  have hnew := layout_fits_of_le (align_dvd_blockSize t s.utf8ByteSize) (Nat.not_lt.mp hbig)
  have hrealloc := run_realloc (a := a) ⟨blockSize t c.utf8ByteSize, t.align⟩ hp
    (blockSize_pos t s.utf8ByteSize) hnew
  cases ha : a.realloc h p.val (blockSize t s.utf8ByteSize) with
  | none =>
      rw [ha] at hrealloc
      refine run_getHeapMut_error hx ?_
      simp only [EStateM.run_bind, Exec.run_self, Exec.run_onSnd, hcap, hnext, if_neg hsame,
        Exec.run_require, if_pos (Nat.not_lt.mp hbig), run_fromSizeAlignUnchecked hold,
        HeapRepr.addr_ofAddr, hrealloc, Exec.run_throw]
  | some q =>
      rw [ha] at hrealloc
      obtain ⟨h₁, hwrite, hset⟩ := run_bytes_len (t := t) s.utf8ByteSize t.size
        (strBytes s) (p := q)
        (h := ((h.set p.val none).set q.val
          (some ⟨b.id, Buffer.resize b.bytes (blockSize t s.utf8ByteSize)⟩)).log
          (.realloc b.id (blockSize t c.utf8ByteSize) b.size (blockSize t s.utf8ByteSize)))
        (by rw [Heap.log_live, Heap.set_live_self]) le_rfl
        (by rwa [Block.size, Buffer.length_resize, length_strBytes])
      refine run_getHeapMut hx ?_
      simp only [EStateM.run_bind, Exec.run_self, Exec.run_onSnd, hcap, hnext, if_neg hsame,
        Exec.run_require, if_pos (Nat.not_lt.mp hbig), run_fromSizeAlignUnchecked hold,
        HeapRepr.addr_ofAddr, hrealloc, Exec.run_setSelf, hwrite, HeapRepr.setLen, if_pos hpos.ne',
        hset]
      simp only [Heap.log_set, Heap.set_set, resetBytes, filled]

theorem holds_resetBytes {id : Nat} {old : Buffer} (hN : t.nicheMaxInt < s.utf8ByteSize)
    (hmax : blockSize t s.utf8ByteSize ≤ t.isizeMax) :
    BlockHolds t ⟨id, resetBytes t old s⟩ s :=
  BlockHolds.filled hN (by rw [Buffer.length_resize]) (by rwa [Buffer.length_resize])

theorem size_resetBytes (old : Buffer) (s : String) :
    (resetBytes t old s).length = blockSize t s.utf8ByteSize := by
  have hmin := le_blockSize t s.utf8ByteSize
  rw [resetBytes, length_filled (by rwa [Buffer.length_resize]), Buffer.length_resize]

/-- Writing the word of an inline value. -/
theorem outcome_inline {keeps : Prop} {y : NonEmptySinStr t} (hx : x.isInlined = true)
    (hy : y.isInlined = true) (r : Represents h y s) :
    (resource t).Outcome keeps h x c s (.ok () (y, h)) :=
  .of_owned_none r (owned_of_isInlined hx) (owned_of_isInlined hy)

/-- Writing the block of a value, in place. -/
theorem outcome_write {keeps : Prop} {bytes : Buffer} (hx : ofUsize? t p.val = some x)
    (hp : h.live p.val = some b) (hb : BlockHolds t ⟨b.id, bytes⟩ s)
    (hsize : bytes.length = b.size)
    (hcap : blockSize t c.utf8ByteSize = blockSize t s.utf8ByteSize) :
    (resource t).Outcome keeps h x c s
      (.ok () (x, h.set p.val (some ⟨b.id, bytes⟩))) := by
  have hown : (resource t).owned x = some p.val := owned_of_ofUsize? hx
  have hlive := Heap.set_live_self h p.val (some ⟨b.id, bytes⟩)
  refine .done (.heap p _ hx hlive hb) ?_ fun _ hs hc => ⟨?_, hc⟩
  · rw [hown]
    exact Transfer.write hp
  · have hneed : (resource t).need s = bytes.length := by
      rw [hsize, hs p.val b hown hp]
      exact hcap.symm
    rw [hown, hneed]
    exact snug_of_live hlive

/-- Moving the block of a value by a reallocation, which may be refused. -/
theorem outcome_realloc (keeps : Prop) {bytes : Buffer} (hx : ofUsize? t p.val = some x)
    (hp : h.live p.val = some b) (hb : BlockHolds t ⟨b.id, bytes⟩ s)
    (hsize : keeps → bytes.length = blockSize t s.utf8ByteSize) :
    (resource t).Outcome keeps h x c s
      (match a.realloc h p.val bytes.length with
      | none => .error (.allocError (blockSize t c.utf8ByteSize)) (x,
          h.log (.reallocFailed b.id (blockSize t c.utf8ByteSize) b.size bytes.length))
      | some q =>
          let h' := ((h.set p.val none).set q.val (some ⟨b.id, bytes⟩)).log
            (.realloc b.id (blockSize t c.utf8ByteSize) b.size bytes.length)
          match ofUsize? t q.val with
          | none => .error (.unsound .invalidValue) (x, h')
          | some y => .ok () (y, h')) := by
  have hown : (resource t).owned x = some p.val := owned_of_ofUsize? hx
  cases ha : a.realloc h p.val bytes.length with
  | none =>
      refine .fault (MayFault.allocError _ (Heap.refused_log trivial)) fun _ =>
        ⟨rfl, Quiet.log trivial, fun hs hc => ?_⟩
      exact hc.log (hs p.val b hown hp).symm
  | some q =>
      cases hy : ofUsize? t q.val with
      | none =>
          simp only [hy]
          exact .unsound (MayFault.invalidValue (not_complete hy))
      | some y =>
          have hown' : (resource t).owned y = some q.val := owned_of_ofUsize? hy
          have hlive := Heap.set_live_self (h.set p.val none) q.val (some ⟨b.id, bytes⟩)
          simp only [hy]
          refine .done (.heap q _ hy hlive hb) ?_ fun hk hs hc => ⟨?_, ?_⟩
          · rw [hown, hown']
            exact Transfer.realloc hp (a.realloc_fresh ha)
          · have hsnug := snug_of_live hlive
            rw [hown']
            rw [Block.size, hsize hk] at hsnug
            exact hsnug
          · exact Heap.ExactCalls.log hc (hs p.val b hown hp).symm

/-- `set_str_unchecked` on a non-empty string. -/
theorem outcome_setStrUnchecked {keeps : Prop} (r : Represents h x c) (hpos : 0 < s.utf8ByteSize)
    (hlen : s.utf8ByteSize ≤ t.isizeMax) :
    (resource t).Outcome keeps h x c s ((setStrUnchecked a s).run (x, h)) := by
  by_cases hle : s.utf8ByteSize ≤ t.nicheMaxInt
  · have hassign := (built_newInline (h := h) hpos hle).assign keeps r
    obtain ⟨y, hrun, _⟩ := run_newInline (t := t) hpos hle
    simpa [setStrUnchecked, Exec.assertUnchecked, hpos.ne', hle, assign, resource,
      Exec.run_onSnd, hrun] using hassign
  have hN := Nat.not_le.mp hle
  cases r with
  | inline hposc hlec hdisc hdata =>
      have hheap : x.isHeap = false :=
        isHeap_of_isInlined (isInlined_of_disc hdisc hposc hlec)
      have hassign := (built_newHeap (a := a) (h := h) hN hlen).assign keeps
        (Represents.inline hposc hlec hdisc hdata)
      simpa [setStrUnchecked, Exec.assertUnchecked, hpos.ne', hle, assign, resource, hheap]
        using hassign
  | heap p b hx hp hb =>
      rw [run_setStrUnchecked_heap hx hp hb hN hlen]
      split_ifs with hsame hbig
      · have hfit := (le_blockSize t s.utf8ByteSize).trans (hsame ▸ hb.cap_le)
        refine outcome_write hx hp ?_ (length_filled hfit) hsame
        exact BlockHolds.filled hN (hsame ▸ hb.cap_le) hb.size_le
      · exact .unsound (MayFault.assertUnchecked (oversize_of_blockSize hbig))
      · have hsize := size_resetBytes (t := t) b.bytes s
        have hout := outcome_realloc (a := a) (c := c) keeps hx hp
          (holds_resetBytes hN (Nat.not_lt.mp hbig)) (fun _ => hsize)
        rwa [hsize] at hout

/-- `set_str` on a non-empty string. -/
theorem outcome_setStr {keeps : Prop} (r : Represents h x c) (hpos : 0 < s.utf8ByteSize)
    (hlen : s.utf8ByteSize ≤ t.isizeMax) :
    (resource t).Outcome keeps h x c s ((setStr a s).run (x, h)) := by
  simpa [setStr, hpos.ne'] using outcome_setStrUnchecked (a := a) r hpos hlen

/-- `set_str` on the empty string panics before it does anything. -/
theorem run_setStr_empty (hs : s.utf8ByteSize = 0) :
    (setStr a s).run (x, h) =
      .error (.panic "NonEmptySinStr::set_str recieved empty string") (x, h) := by
  simp [setStr, hs]

end NonEmptySinStr

namespace SinStr

variable {a : Allocator t.toMachine} {h : Heap} {x : SinStr t} {c s : String} {keeps : Prop}

/-- A method of the value inside is a method of the option. -/
theorem outcome_onInner (keeps : Prop) {n : NonEmptySinStr t}
    {m : Exec (NonEmptySinStr t × Heap) Unit}
    (ho : (NonEmptySinStr.resource t).Outcome keeps h n c s (m.run (n, h))) :
    (resource t).Outcome keeps h ⟨some n⟩ c s ((onInner n m).run (x, h)) := by
  unfold onInner
  simp only [EStateM.run] at ho ⊢
  generalize m (n, h) = result at ho
  cases ho with
  | done rep transfer exact => exact .done rep transfer exact
  | fault he unwind =>
      refine .fault he fun hu => ?_
      obtain ⟨rfl, hq, hexact⟩ := unwind hu
      exact ⟨rfl, hq, hexact⟩

/-- `set_str`, the empty string included. -/
theorem outcome_setStr (r : Represents h x c) (hlen : s.utf8ByteSize ≤ t.isizeMax) :
    (resource t).Outcome keeps h x c s ((setStr a s).run (x, h)) := by
  by_cases h0 : s.utf8ByteSize = 0
  · obtain rfl := utf8ByteSize_eq_zero.mp h0
    have hempty : (resource t).Built h "" ((pure EMPTY : Exec Heap (SinStr t)).run h) := built_none
    simpa [setStr, assign, resource, Exec.run_onSnd] using hempty.assign keeps r
  · have hrep : (resource t).Rep h x c := r
    obtain ⟨_ | n⟩ := x
    · have hnew := (built_new (a := a) (h := h) hlen).assign keeps hrep
      simpa [setStr, h0, assign, resource] using hnew
    · have hpos := Nat.pos_of_ne_zero h0
      have hset := outcome_onInner keeps (x := ⟨some n⟩)
        (NonEmptySinStr.outcome_setStr (a := a) r hpos hlen)
      simpa [setStr, h0] using hset

end SinStr

end Sinstr
