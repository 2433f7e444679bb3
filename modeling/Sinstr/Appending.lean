import Sinstr.Checked
import Sinstr.Failure

/-!
# The arithmetic of appending

A heap value whose recomputed capacity is a valid size stays one through any
number of pushes, and every size that `push_str` computes on the way is exact:
the one assertion of `grow_capacity` is all that stands between a length near
the limit and an allocation that is too small.
-/

namespace Sinstr

open Rust

variable {t : Target}

namespace NonEmptySinStr

/-- A value in heap mode as the code finds it: the address of a live block, the
length stored in it, and the capacity recomputed from that, which is at most
the size of the block and at most `isize::MAX`. -/
structure HeapValue (h : Heap) (x : NonEmptySinStr t) (p : Addr t.toMachine) (b : Block)
    (n cap : Nat) : Prop where
  word : ofUsize? t p.val = some x
  live : h.live p.val = some b
  len_gt : t.nicheMaxInt < n
  run_len : ((HeapRepr.ofAddr p).len t).run h = .ok n h
  run_capacity : ((HeapRepr.ofAddr p).capacity t).run h = .ok cap h
  cap_le_size : cap ≤ b.size
  cap_le_isizeMax : cap ≤ t.isizeMax

/-- The size `grow_capacity` computes for `u` more bytes than a string of length
`n`, and that it has room for all of them behind the length. -/
structure GrowsTo (t : Target) (n cap u size : Nat) : Prop where
  computed : size = nextStep t (t.add cap u)
  fits : n + u + t.size ≤ size
  aligned : t.align ∣ size
  le_isizeMax : size ≤ t.isizeMax

/-- Blocks are moved only to addresses that `DiscriminantValues` declares. -/
def MovesDeclared (a : Allocator t.toMachine) : Prop :=
  ∀ h p size q, a.realloc h p size = some q → (ofUsize? t q.val).isSome

/-- Where every address is declared, the allocator cannot choose another one. -/
theorem movesDeclared_of_complete (ht : t.Complete) (a : Allocator t.toMachine) :
    MovesDeclared a := by
  intro h p size q _
  cases hq : ofUsize? t q.val with
  | none => exact absurd ht (not_complete hq)
  | some y => rfl

/-- How appending `u` bytes to a heap value of length `n` can end. -/
inductive PushEnds (a : Allocator t.toMachine) (h : Heap) (x : NonEmptySinStr t)
    (p : Addr t.toMachine) (b : Block) (n cap u : Nat) :
    EStateM.Result Fault (NonEmptySinStr t × Heap) Unit → Prop
  /-- At the assertion of `grow_capacity`, before anything has changed. -/
  | assertion (limit : ¬IsValidLen t (nextStep t (t.add cap u))) : PushEnds a h x p b n cap u
      (.error (.panic "assertion failed: Self::is_valid_len(new_capacity)") (x, h))
  /-- In `handle_alloc_error`, after the allocator returned null. -/
  | refused {size : Nat} (grows : GrowsTo t n cap u size)
      (refusal : a.realloc h p.val size = none) : PushEnds a h x p b n cap u
        (.error (.allocError cap) (x, h.log (.reallocFailed b.id cap b.size size)))
  /-- In the block as it is, within the recomputed capacity. -/
  | inPlace {h' : Heap} {b' : Block} {cap' : Nat} (fits : n + u + t.size ≤ cap)
      (same : b'.size = b.size) (calls : h'.calls = h.calls)
      (again : HeapValue h' x p b' (n + u) cap') : PushEnds a h x p b n cap u (.ok () (x, h'))
  /-- In a block of the size that was requested. -/
  | grown {h' : Heap} {y : NonEmptySinStr t} {q : Addr t.toMachine} {b' : Block} {cap' : Nat}
      (grows : GrowsTo t n cap u b'.size)
      (calls : h'.calls = .realloc b.id cap b.size b'.size :: h.calls)
      (again : HeapValue h' y q b' (n + u) cap') : PushEnds a h x p b n cap u (.ok () (y, h'))

variable {a : Allocator t.toMachine} {h : Heap} {x : NonEmptySinStr t} {p : Addr t.toMachine}
  {b : Block} {n cap : Nat} {c s : String}

namespace HeapValue

theorem cap_eq (hv : HeapValue h x p b n cap) : cap = blockSize t n :=
  (HeapRepr.eq_blockSize_of_run_capacity hv.run_len hv.run_capacity).2

theorem storesLen (hv : HeapValue h x p b n cap) : StoresLen t h (HeapRepr.ofAddr p) b n :=
  { live := hv.live
    len_gt := hv.len_gt
    run_len := hv.run_len
    cap_le := hv.cap_eq ▸ hv.cap_le_size
    cap_le_isizeMax := hv.cap_eq ▸ hv.cap_le_isizeMax }

theorem of_storesLen (hx : ofUsize? t p.val = some x)
    (hs : StoresLen t h (HeapRepr.ofAddr p) b n) : HeapValue h x p b n (blockSize t n) :=
  { word := hx
    live := hs.live
    len_gt := hs.len_gt
    run_len := hs.run_len
    run_capacity := hs.run_capacity
    cap_le_size := hs.cap_le
    cap_le_isizeMax := hs.cap_le_isizeMax }

end HeapValue

/-- Every value that stands for a string beyond the inline lengths. -/
theorem Represents.heapValue (r : Represents h x c) (hN : t.nicheMaxInt < c.utf8ByteSize) :
    ∃ p b, HeapValue h x p b c.utf8ByteSize (blockSize t c.utf8ByteSize) := by
  cases r with
  | inline _ hle _ _ => omega
  | heap p b hx hp hb => exact ⟨p, b, .of_storesLen hx (hb.storesLen hp)⟩

/-- Every value in heap mode that a run can produce. -/
theorem exists_heapValue {spec : Nat → Option String} {w : Pool (NonEmptySinStr t)} {i : Nat}
    (hr : Reachable (interface a) (fun _ _ => True) spec w) (hx : w.vals i = some x)
    (hheap : x.isHeap = true) : ∃ p b n cap, HeapValue w.heap x p b n cap := by
  obtain ⟨c, _, r⟩ := hr.invariant.exists_content hx
  have hrep : Represents w.heap x c := r
  obtain ⟨p, b, hv⟩ := hrep.heapValue (hrep.isHeap_iff.mp hheap)
  exact ⟨p, b, _, _, hv⟩

/-- The length word after a push. -/
theorem storesLen_appended {id : Nat} {buf : Buffer} {q : Addr t.toMachine}
    (hl : h.live q.val = some ⟨id, appended t buf n s⟩) (hN : t.nicheMaxInt < n)
    (hcap : blockSize t (n + s.utf8ByteSize) ≤ buf.length)
    (hmax : blockSize t (n + s.utf8ByteSize) ≤ t.isizeMax) :
    StoresLen t h (HeapRepr.ofAddr q) ⟨id, appended t buf n s⟩ (n + s.utf8ByteSize) := by
  have hfit := (le_blockSize t (n + s.utf8ByteSize)).trans hcap
  have hfit' : t.size + n + (strBytes s).length ≤ buf.length := by
    rw [length_strBytes]
    omega
  have hsize : (appended t buf n s).length = buf.length := length_appended hfit
  refine .of_holds hl (by omega) ?_ (by rwa [Block.size, hsize]) hmax
  exact stored_holds_len (Nat.le_add_right _ _) hfit'

theorem growsTo_grownSize {u : Nat} (hu : u ≤ t.isizeMax)
    (hmax : grownSize t n u ≤ t.isizeMax) : GrowsTo t n (blockSize t n) u (grownSize t n u) := by
  have hmin := le_blockSize t n
  have hgrown := le_grownSize t n u
  exact
    { computed := (nextStep_grow (by omega) hu).symm
      fits := by omega
      aligned := align_dvd_grownSize t n u
      le_isizeMax := hmax }

/-- One push. -/
theorem pushStr_ends (hdeclared : MovesDeclared a) (hv : HeapValue h x p b n cap)
    (hlen : s.utf8ByteSize ≤ t.isizeMax) :
    PushEnds a h x p b n cap s.utf8ByteSize ((pushStr a s).run (x, h)) := by
  have hs := hv.storesLen
  have hgt := hv.len_gt
  obtain rfl := hv.cap_eq
  by_cases h0 : s.utf8ByteSize = 0
  · have hlow := le_blockSize t n
    rw [run_pushStr_empty (run_len_of_heap hv.word hv.run_len) h0, h0]
    exact .inPlace (by omega) rfl rfl hv
  rw [run_pushStr_heap hv.word hs (Nat.pos_of_ne_zero h0) hlen]
  split_ifs with hroom hlimit
  · have hclass := blockSize_of_le_spare hroom
    have hcap : blockSize t (n + s.utf8ByteSize) ≤ b.size := by
      rw [hclass]
      exact hv.cap_le_size
    refine .inPlace ?_ ?_ rfl (.of_storesLen hv.word
      (storesLen_appended (Heap.set_live_self _ _ _) hgt hcap ?_))
    · have := le_spare_iff.mp hroom
      omega
    · exact length_appended ((le_blockSize t _).trans hcap)
    · rw [hclass]
      exact hv.cap_le_isizeMax
  · refine .assertion fun hvalid => ?_
    rw [nextStep_grow hv.cap_le_isizeMax hlen] at hvalid
    exact absurd hvalid.1 (Nat.not_lt.mpr hlimit)
  · have hmax := (Nat.not_le.mp hlimit).le
    have hgrows := growsTo_grownSize hlen hmax
    have hsize := size_grownBytes (t := t) b.bytes n s
    cases ha : a.realloc h p.val (grownSize t n s.utf8ByteSize) with
    | none => exact .refused hgrows ha
    | some q =>
        have hnew := blockSize_le_grownSize t n s.utf8ByteSize
        have hblock : GrowsTo t n (blockSize t n) s.utf8ByteSize
            (Block.size ⟨b.id, grownBytes t b.bytes n s⟩) := by rwa [Block.size, hsize]
        rw [← hsize]
        cases hy : ofUsize? t q.val with
        | none =>
            have hsome := hdeclared _ _ _ _ ha
            rw [hy] at hsome
            cases hsome
        | some y =>
            simp only [hy]
            refine .grown hblock rfl (.of_storesLen hy
              (storesLen_appended (Heap.set_live_self _ _ _) hgt ?_ (hnew.trans hmax)))
            rwa [Buffer.length_resize]

/-- `push_str` of one string after the other. -/
def pushAll (a : Allocator t.toMachine) : List String → Exec (NonEmptySinStr t × Heap) Unit
  | [] => pure ()
  | s :: ss => do
      pushStr a s
      pushAll a ss

/-- Every push that returns leaves a heap value of the new length. -/
theorem HeapValue.pushStr {y : NonEmptySinStr t} {h' : Heap} (hdeclared : MovesDeclared a)
    (hv : HeapValue h x p b n cap) (hlen : s.utf8ByteSize ≤ t.isizeMax)
    (hrun : (NonEmptySinStr.pushStr a s).run (x, h) = .ok () (y, h')) :
    ∃ q b' cap', HeapValue h' y q b' (n + s.utf8ByteSize) cap' := by
  have hends := pushStr_ends hdeclared hv hlen
  rw [hrun] at hends
  cases hends with
  | inPlace fits same calls again => exact ⟨p, _, _, again⟩
  | grown grows calls again => exact ⟨_, _, _, again⟩

theorem HeapValue.pushAll {ss : List String} {y : NonEmptySinStr t} {h' : Heap}
    (hdeclared : MovesDeclared a) (hv : HeapValue h x p b n cap)
    (hss : ∀ s ∈ ss, s.utf8ByteSize ≤ t.isizeMax)
    (hrun : (NonEmptySinStr.pushAll a ss).run (x, h) = .ok () (y, h')) :
    ∃ q b' cap', HeapValue h' y q b' (n + (ss.map String.utf8ByteSize).sum) cap' := by
  induction ss generalizing x h p b n cap with
  | nil =>
      cases hrun
      exact ⟨p, b, cap, hv⟩
  | cons s ss ih =>
      rw [NonEmptySinStr.pushAll, EStateM.run_bind] at hrun
      cases hpush : (NonEmptySinStr.pushStr a s).run (x, h) with
      | error e st => rw [hpush] at hrun; cases hrun
      | ok _ st =>
          obtain ⟨x₁, h₁⟩ := st
          rw [hpush] at hrun
          obtain ⟨p₁, b₁, cap₁, hv₁⟩ := hv.pushStr hdeclared (hss s (List.mem_cons_self ..)) hpush
          have hrest := ih hv₁ (fun s hs => hss s (List.mem_cons_of_mem _ hs)) hrun
          rwa [List.map_cons, List.sum_cons, ← Nat.add_assoc]

/-- After any number of pushes on a heap value, one more computes nothing that
wraps, and it ends at the assertion, refused by the allocator, or within the
block it writes to. -/
theorem push_str_arithmetic {h₀ : Heap} {x₀ : NonEmptySinStr t} {p₀ : Addr t.toMachine}
    {b₀ : Block} {n₀ cap₀ : Nat} {ss : List String} (hdeclared : MovesDeclared a)
    (hv : HeapValue h₀ x₀ p₀ b₀ n₀ cap₀) (hss : ∀ s ∈ ss, s.utf8ByteSize ≤ t.isizeMax)
    (hrun : (pushAll a ss).run (x₀, h₀) = .ok () (x, h)) (hlen : s.utf8ByteSize ≤ t.isizeMax) :
    ∃ p b n cap, n = n₀ + (ss.map String.utf8ByteSize).sum ∧ HeapValue h x p b n cap ∧
      (Checked.NonEmptySinStr.pushStr a s).run (x, h) = (pushStr a s).run (x, h) ∧
      PushEnds a h x p b n cap s.utf8ByteSize ((pushStr a s).run (x, h)) := by
  obtain ⟨p, b, cap, hv'⟩ := hv.pushAll hdeclared hss hrun
  have hchecked := Checked.NonEmptySinStr.run_pushStr_heap (a := a) hv'.word hv'.storesLen hlen
  exact ⟨p, b, _, cap, rfl, hv', hchecked, pushStr_ends hdeclared hv' hlen⟩

/-- The nine bytes of `onePageRun` with four pages to move to. -/
theorem pagedRun_reachable :
    Reachable paged (fun _ _ => True) (Op.applyAll paged (fun _ => none) onePageRun)
      (Exec.final ((Op.execAll paged onePageRun).run Pool.empty)) :=
  Reachable.of_returns ⟨⟨⟨rfl, by decide, by decide⟩, trivial⟩, trivial⟩ (by decide +kernel)

/-- Seven bytes fill the spare room, eight more move the block, and three more follow. -/
theorem pagedRun_push_arithmetic :
    let a := PointerWidth.w64.paged .little
    let w := Exec.final ((Op.execAll paged onePageRun).run Pool.empty)
    ∃ x₀ x h, w.vals 0 = some x₀ ∧
      (pushAll a ["abcdefg", "ABCDEFGH"]).run (x₀, w.heap) = .ok () (x, h) ∧
      ∃ p b n cap, n = 24 ∧ HeapValue h x p b n cap ∧
        (Checked.NonEmptySinStr.pushStr a "xyz").run (x, h) = (pushStr a "xyz").run (x, h) ∧
        PushEnds a h x p b n cap "xyz".utf8ByteSize ((pushStr a "xyz").run (x, h)) := by
  intro a w
  obtain ⟨x₀, hx, r⟩ := pagedRun_reachable.invariant.exists_val (i := 0) (c := "123456789") rfl
  obtain ⟨p₀, b₀, hv⟩ := Represents.heapValue (x := x₀) r (by decide)
  have hreturns : (w.vals 0).map (fun x => Exec.returns
      ((pushAll a ["abcdefg", "ABCDEFGH"]).run (x, w.heap))) = some true := by decide +kernel
  rw [hx, Option.map_some, Option.some.injEq] at hreturns
  obtain ⟨⟨x, h⟩, hrun⟩ :
      ∃ st, (pushAll a ["abcdefg", "ABCDEFGH"]).run (x₀, w.heap) = .ok () st :=
    ⟨_, Exec.eq_ok_of_returns hreturns⟩
  obtain ⟨p, b, n, cap, hn, hend⟩ :=
    push_str_arithmetic (s := "xyz") (movesDeclared_of_complete
      (complete_of_ne_w16 (by decide)) _) hv (by decide) hrun (by decide)
  exact ⟨x₀, x, h, hx, hrun, p, b, n, cap, hn.trans (by decide), hend⟩

/-- With a single page the third outcome occurs: the push neither stops at the
assertion nor returns. -/
theorem onePageRun_push_neither :
    let w := Exec.final ((Op.execAll (interface onePage) onePageRun).run Pool.empty)
    ∃ x p b cap, HeapValue w.heap x p b 9 cap ∧
      ¬(Exec.fault? ((pushStr onePage "0123456789").run (x, w.heap)) =
          some (.panic "assertion failed: Self::is_valid_len(new_capacity)") ∨
        Exec.returns ((pushStr onePage "0123456789").run (x, w.heap)) = true) := by
  intro w
  obtain ⟨x, hx, r⟩ := onePageRun_reachable.invariant.exists_val (i := 0) (c := "123456789") rfl
  obtain ⟨p, b, hv⟩ := Represents.heapValue (x := x) r (by decide)
  have hends : (w.vals 0).map (fun x =>
      let result := (pushStr onePage "0123456789").run (x, w.heap)
      (Exec.fault? result, Exec.returns result)) = some (some (.allocError 24), false) := by
    decide +kernel
  rw [hx, Option.map_some, Option.some.injEq, Prod.mk.injEq] at hends
  refine ⟨x, p, b, _, hv, ?_⟩
  rw [hends.1, hends.2]
  simp

end NonEmptySinStr

end Sinstr
