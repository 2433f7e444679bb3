import Sinstr.Failure

/-!
# Capacity classes

`nextStep` maps all lengths of a class to the one size of the class. Whether
`push_str` stays in its block is decided by a number of spare bytes, whether
`set_str_unchecked` does by comparing two sizes, and both questions ask whether
two lengths are in the same class.
-/

namespace Sinstr

open Rust

variable {t : Target}

section NextStep

variable {n m : Nat}

theorem nextStep_isLeast (h : n + (t.align - 1) < t.modulus) :
    IsLeast {m | t.align ∣ m ∧ max n t.nicheMaxInt ≤ m} (nextStep t n) := by
  rw [nextStep_eq_roundUp h]
  exact roundUp_isLeast t.align_pos _

/-- The values of the test `forces_next_step`. -/
example : (List.range 25).map (nextStep (PointerWidth.w64.target .little)) =
    List.replicate 9 8 ++ List.replicate 8 16 ++ List.replicate 8 24 := by decide +kernel

theorem nextStep_mono (hnm : n ≤ m) (h : m + (t.align - 1) < t.modulus) :
    nextStep t n ≤ nextStep t m := by
  rw [nextStep_eq_roundUp h, nextStep_eq_roundUp (by omega)]
  exact roundUp_mono t.align_pos (max_le_max_right _ hnm)

/-- The result is aligned and below the modulus, so there is room for one more step. -/
theorem nextStep_add_lt (h : n + (t.align - 1) < t.modulus) :
    nextStep t n + (t.align - 1) < t.modulus := by
  have ha := t.align_pos
  have hN := t.nicheMaxInt_eq
  have hM := t.modulus_eq
  have hsize := t.four_mul_size_lt
  have hle := t.align_le_size
  have hlt : nextStep t n < max n t.nicheMaxInt + t.align := by
    rw [nextStep_eq_roundUp h]
    exact roundUp_lt_add ha _
  have hdvd : t.align ∣ nextStep t n + t.align :=
    Nat.dvd_add (nextStep_isLeast h).1.1 dvd_rfl
  have htop : nextStep t n + t.align ≤ t.modulus :=
    Nat.le_of_lt_add_of_dvd (by omega) hdvd t.align_dvd_modulus
  omega

theorem nextStep_nextStep (h : n + (t.align - 1) < t.modulus) :
    nextStep t (nextStep t n) = nextStep t n := by
  have hleast := nextStep_isLeast h
  have hN : t.nicheMaxInt ≤ nextStep t n := (le_max_right _ _).trans hleast.1.2
  rw [nextStep_of_le hN (nextStep_add_lt h), roundUp_of_dvd t.align_pos hleast.1.1]

end NextStep

/-- The spare room is what separates a length from the next class. -/
theorem le_spare_iff_nextStep_eq {n k : Nat}
    (h : t.size + n + k + (t.align - 1) < t.modulus) :
    k ≤ spare t n ↔ nextStep t (t.size + n + k) = nextStep t (t.size + n) := by
  rw [Nat.add_assoc, nextStep_size (by omega), nextStep_size (by omega), le_spare_iff_blockSize_eq]

/-- A size that is the one of the new length has room for it. Where the size of
the new length cannot be computed, it comes out as less than any capacity. -/
theorem size_add_le_of_nextStep_eq {n m : Nat} (hpos : 0 < n) (hm : m < t.modulus)
    (heq : blockSize t n = nextStep t (t.add t.size m)) : t.size + m ≤ blockSize t n := by
  have hlow := le_blockSize t n
  have hN := t.nicheMaxInt_lt_size
  have hsize := t.four_mul_size_lt
  have hM := t.modulus_eq
  have hle := t.align_le_size
  by_cases hwrap : t.modulus ≤ t.size + m
  · -- the sum wraps below the size of the length word
    have hadd : t.add t.size m = t.size + m - t.modulus := by
      rw [Machine.add, Nat.mod_eq_sub_mod hwrap, Nat.mod_eq_of_lt (by omega)]
    have hstep : nextStep t (t.add t.size m) ≤ t.size := by
      rw [hadd, nextStep_eq_roundUp (by omega), roundUp_le_iff t.align_pos t.align_dvd_size]
      omega
    omega
  rw [Machine.add_eq (Nat.not_le.mp hwrap)] at heq
  by_cases hover : t.modulus ≤ t.size + m + (t.align - 1)
  · rw [nextStep_eq_zero (Nat.not_le.mp hwrap) hover] at heq
    omega
  · rw [heq, nextStep_size (Nat.not_le.mp hover)]
    exact le_blockSize t m

namespace HeapRepr

/-- The branch of `push_str` within the spare room. -/
def pushInPlace (t : Target) (self : HeapRepr) (curLen : Nat) (s : String) :
    Exec (HeapRepr × Heap) Unit := do
  Exec.onSnd (writeBytes self.addr (t.size + (← Exec.onSnd (self.len t))) (strBytes s))
  Exec.onSnd (writeUsize t.toMachine self.addr (t.add curLen s.utf8ByteSize))

/-- The branch of `push_str` that grows the block. -/
def pushGrowing (a : Allocator t.toMachine) (curLen : Nat) (s : String) :
    Exec (HeapRepr × Heap) Unit := do
  growCapacity a s.utf8ByteSize
  let self ← Exec.self
  Exec.onSnd (writeUsize t.toMachine self.addr (t.add curLen s.utf8ByteSize))
  Exec.onSnd (writeBytes self.addr (t.size + curLen) (strBytes s))

variable {a : Allocator t.toMachine} {h : Heap} {r : HeapRepr} {n : Nat} {s : String}

theorem run_pushStr_branches (hlen : (r.len t).run h = .ok n h) (hpos : 0 < n)
    (hsum : t.size + n + s.utf8ByteSize + (t.align - 1) < t.modulus) :
    (pushStr a s).run (r, h) =
      if nextStep t (t.size + n + s.utf8ByteSize) = nextStep t (t.size + n) then
        (pushInPlace t r n s).run (r, h)
      else (pushGrowing a n s).run (r, h) := by
  have hunused := run_unusedStrCapacity hlen hpos (by omega)
  rw [← spare] at hunused
  simp only [pushStr, EStateM.run_bind, Exec.run_self, Exec.run_onSnd, hlen, hunused, ge_iff_le,
    le_spare_iff_nextStep_eq hsum]
  split <;> simp only [pushInPlace, pushGrowing, EStateM.run_bind, Exec.run_onSnd, hlen]

end HeapRepr

namespace NonEmptySinStr

variable {a : Allocator t.toMachine} {h : Heap} {x : NonEmptySinStr t} {p : Addr t.toMachine}
  {b : Block} {n : Nat} {s : String}

/-- Seen from outside, the in-place branch is the one that returns without a call
of the allocator. -/
theorem pushStr_quiet_iff (hx : ofUsize? t p.val = some x)
    (hs : StoresLen t h (HeapRepr.ofAddr p) b n) (hlen : s.utf8ByteSize ≤ t.isizeMax) :
    (∃ y h', (pushStr a s).run (x, h) = .ok () (y, h') ∧ h'.calls = h.calls) ↔
      nextStep t (t.size + n + s.utf8ByteSize) = nextStep t (t.size + n) := by
  have hM := t.modulus_eq
  have hfit := (blockSize_le_isizeMax_iff t n).mp hs.cap_le_isizeMax
  rw [← le_spare_iff_nextStep_eq (by omega)]
  by_cases h0 : s.utf8ByteSize = 0
  · have hrun := run_pushStr_empty (a := a) (run_len_of_heap hx hs.run_len) h0
    rw [h0]
    exact ⟨fun _ => Nat.zero_le _, fun _ => ⟨x, h, hrun, rfl⟩⟩
  have hrun := run_pushStr_heap (a := a) hx hs (Nat.pos_of_ne_zero h0) hlen
  constructor
  · rintro ⟨y, h', hok, hcalls⟩
    by_contra hroom
    rw [hok, if_neg hroom] at hrun
    split at hrun
    · cases hrun
    · split at hrun
      · cases hrun
      · simp only at hrun
        split at hrun
        · cases hrun
        · cases hrun
          exact List.cons_ne_self _ _ hcalls
  · intro hroom
    rw [if_pos hroom] at hrun
    exact ⟨x, _, hrun, rfl⟩

end NonEmptySinStr

/-- The capacity classes of a target, and what they decide. -/
structure ExactClasses (t : Target) : Prop where
  niche : t.nicheMaxInt = t.align - 1
  /-- The least multiple of the alignment above the length and the clamp. -/
  least : ∀ n, n + (t.align - 1) < t.modulus →
    IsLeast {m | t.align ∣ m ∧ max n t.nicheMaxInt ≤ m} (nextStep t n)
  mono : ∀ n m, n ≤ m → m + (t.align - 1) < t.modulus → nextStep t n ≤ nextStep t m
  idem : ∀ n, n + (t.align - 1) < t.modulus → nextStep t (nextStep t n) = nextStep t n
  /-- The spare bytes are those that stay in the class. -/
  unused : ∀ h (r : HeapRepr) n k, (r.len t).run h = .ok n h → t.nicheMaxInt < n →
    t.size + n + k + (t.align - 1) < t.modulus →
    ∃ u, (r.unusedStrCapacity t).run h = .ok u h ∧
      (k ≤ u ↔ nextStep t (t.size + n + k) = nextStep t (t.size + n))
  /-- `push_str` takes its first branch exactly within the class. -/
  push : ∀ (a : Allocator t.toMachine) h r n s, (r.len t).run h = .ok n h → t.nicheMaxInt < n →
    t.size + n + s.utf8ByteSize + (t.align - 1) < t.modulus →
    (HeapRepr.pushStr a s).run (r, h) =
      if nextStep t (t.size + n + s.utf8ByteSize) = nextStep t (t.size + n) then
        (HeapRepr.pushInPlace t r n s).run (r, h)
      else (HeapRepr.pushGrowing a n s).run (r, h)
  /-- For a block that has its capacity, that is whether the allocator is called. -/
  quiet : ∀ (a : Allocator t.toMachine) h x (p : Addr t.toMachine) b n s,
    NonEmptySinStr.ofUsize? t p.val = some x → StoresLen t h (HeapRepr.ofAddr p) b n →
    s.utf8ByteSize ≤ t.isizeMax →
    ((∃ y h', (NonEmptySinStr.pushStr a s).run (x, h) = .ok () (y, h') ∧ h'.calls = h.calls) ↔
      nextStep t (t.size + n + s.utf8ByteSize) = nextStep t (t.size + n))
  /-- The test of `set_str_unchecked` leaves room for the new length. -/
  set_fits : ∀ h (r : HeapRepr) n cap m, (r.len t).run h = .ok n h → t.nicheMaxInt < n →
    (r.capacity t).run h = .ok cap h → t.nicheMaxInt < m → m < t.modulus →
    cap = nextStep t (t.add t.size m) → t.size + m ≤ cap

theorem capacity_classes_exact (t : Target) : ExactClasses t where
  niche := t.nicheMaxInt_eq
  least _ h := nextStep_isLeast h
  mono _ _ hnm h := nextStep_mono hnm h
  idem _ h := nextStep_nextStep h
  unused h r n k hlen hN hsum :=
    ⟨spare t n, HeapRepr.run_unusedStrCapacity hlen (by omega) (by omega),
      le_spare_iff_nextStep_eq hsum⟩
  push a h r n s hlen hN hsum := HeapRepr.run_pushStr_branches hlen (by omega) hsum
  quiet a h x p b n s hx hs hlen := NonEmptySinStr.pushStr_quiet_iff hx hs hlen
  set_fits h r n cap m hlen hN hcap hNm hm heq := by
    obtain ⟨_, rfl⟩ := HeapRepr.eq_blockSize_of_run_capacity hlen hcap
    exact size_add_le_of_nextStep_eq (by omega) hm heq

/-- Nine bytes leave seven: the class ends at 24 bytes with the length word. -/
theorem nineBytes_unused :
    let w := Exec.final ((Op.execAll (NonEmptySinStr.interface onePage) onePageRun).run Pool.empty)
    ∃ r : HeapRepr, (r.len (PointerWidth.w64.target .little)).run w.heap = .ok 9 w.heap ∧
      (r.unusedStrCapacity (PointerWidth.w64.target .little)).run w.heap = .ok 7 w.heap := by
  intro w
  obtain ⟨x, hx, r⟩ := onePageRun_reachable.invariant.exists_val (i := 0) (c := "123456789") rfl
  have hrep : NonEmptySinStr.Represents w.heap x "123456789" := r
  cases hrep with
  | inline _ hle _ _ => exact absurd hle (by decide)
  | heap p b hw hp hb =>
      have hlen := hb.run_len (r := HeapRepr.ofAddr p) hp
      have hexact := capacity_classes_exact (PointerWidth.w64.target .little)
      obtain ⟨u, hu, hseven⟩ := hexact.unused _ _ _ 7 hlen (by decide) (by decide +kernel)
      obtain ⟨v, hv, height⟩ := hexact.unused _ _ _ 8 hlen (by decide) (by decide +kernel)
      obtain rfl : u = v := by
        rw [hu] at hv
        cases hv
        rfl
      have hlow : 7 ≤ u := hseven.mpr (by decide +kernel)
      have hhigh : ¬8 ≤ u := fun h => absurd (height.mp h) (by decide +kernel)
      obtain rfl : u = 7 := by omega
      exact ⟨_, hlen, hu⟩

end Sinstr
