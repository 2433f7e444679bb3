import Sinstr.Discriminant

/-!
# Capacity classes

No capacity is stored. Each place that needs the size of a block recomputes it
with `nextStep` from a length, so the properties of this one formula decide
whether they agree.
-/

namespace Sinstr

open Rust

variable {t : Target}

/-- `LEN_CAP_STEP`. -/
def lenCapStep (t : Target) : Nat := t.align

/-- `next_step`: clamp at the low end, then clear the low bits of `n + STEP - 1`. -/
def nextStep (t : Target) (len : Nat) : Nat :=
  let n := if t.nicheMaxInt ≤ len then len else t.nicheMaxInt
  t.sub (t.add n (lenCapStep t)) 1 &&& t.not (lenCapStep t - 1)

/-- `HeapRepr::is_valid_len`. -/
def IsValidLen (t : Target) (len : Nat) : Prop := len < t.isizeMax ∧ t.nicheMaxInt < len

instance (len : Nat) : Decidable (IsValidLen t len) := inferInstanceAs (Decidable (_ ∧ _))

section NextStep

variable {n m : Nat}

theorem clamp_eq (t : Target) (n : Nat) :
    (if t.nicheMaxInt ≤ n then n else t.nicheMaxInt) = max n t.nicheMaxInt := by
  split <;> omega

/-- `!(STEP - 1)` clears the low bits. -/
theorem and_mask_eq (hn : n < t.modulus) :
    n &&& t.not (lenCapStep t - 1) = n / t.align * t.align := by
  have hk : t.alignLog ≤ t.bits := by have := t.alignLog_lt_bits; omega
  have hmask : t.not (lenCapStep t - 1) = 2 ^ t.bits - 1 - (2 ^ t.alignLog - 1) := rfl
  rw [hmask, and_complement_eq hk hn, Machine.align]

/-- The result of the sum inside `nextStep` does not wrap. The sum itself may,
by the one that is taken back at once. -/
theorem nextStep_eq_roundUp (h : n + (t.align - 1) < t.modulus) :
    nextStep t n = roundUp t.align (max n t.nicheMaxInt) := by
  have ha := t.align_pos
  have hN := t.nicheMaxInt_eq
  have hM := t.modulus_eq
  have hsize := t.four_mul_size_lt
  have hle := t.align_le_size
  have hsum : max n t.nicheMaxInt + t.align - 1 < t.modulus := by omega
  have hadd := Machine.sub_add_eq (m := t.toMachine) (a := max n t.nicheMaxInt) (b := t.align)
    (by omega) (by omega) hsum
  rw [nextStep, clamp_eq, lenCapStep, hadd]
  exact (and_mask_eq hsum).trans
    (by rw [roundUp, Nat.ceilDiv_eq_add_pred_div, Nat.mul_comm])

/-- A heap length is beyond the clamp. -/
theorem nextStep_of_le (hN : t.nicheMaxInt ≤ n) (h : n + (t.align - 1) < t.modulus) :
    nextStep t n = roundUp t.align n := by
  rw [nextStep_eq_roundUp h, Nat.max_eq_left hN]

/-- Above that the sum comes out below one step, and the mask leaves nothing. -/
theorem nextStep_eq_zero (hn : n < t.modulus) (h : t.modulus ≤ n + (t.align - 1)) :
    nextStep t n = 0 := by
  have hN := t.nicheMaxInt_eq
  have hM := t.modulus_eq
  have hsize := t.four_mul_size_lt
  have hle := t.align_le_size
  have hmax : max n t.nicheMaxInt = n := by omega
  have hadd : t.add n t.align = n + t.align - t.modulus := by
    rw [Machine.add, Nat.mod_eq_sub_mod (by omega), Nat.mod_eq_of_lt (by omega)]
  have hsub : t.sub (t.add n t.align) 1 = n + t.align - t.modulus - 1 := by
    rw [hadd, Machine.sub_eq (by omega) (by omega)]
  rw [nextStep, clamp_eq, hmax, lenCapStep, hsub]
  refine (and_mask_eq (by omega)).trans ?_
  rw [Nat.div_eq_of_lt (by omega), Nat.zero_mul]

end NextStep

/-- The size of the block for a heap string of length `n`: the length word and
the bytes, rounded up. -/
def blockSize (t : Target) (n : Nat) : Nat := roundUp t.align (t.size + n)

theorem le_blockSize (t : Target) (n : Nat) : t.size + n ≤ blockSize t n :=
  le_roundUp t.align_pos _

theorem blockSize_lt (t : Target) (n : Nat) : blockSize t n < t.size + n + t.align :=
  roundUp_lt_add t.align_pos _

theorem align_dvd_blockSize (t : Target) (n : Nat) : t.align ∣ blockSize t n := dvd_roundUp _ _

theorem blockSize_mono (t : Target) {n k : Nat} (h : n ≤ k) : blockSize t n ≤ blockSize t k :=
  roundUp_mono t.align_pos (Nat.add_le_add_left h _)

theorem blockSize_pos (t : Target) (n : Nat) : 0 < blockSize t n := by
  have := le_blockSize t n
  have := t.one_lt_size
  omega

theorem nextStep_size {n : Nat} (h : t.size + n + (t.align - 1) < t.modulus) :
    nextStep t (t.size + n) = blockSize t n := by
  have hN := t.nicheMaxInt_lt_size
  rw [nextStep_of_le (by omega) h, blockSize]

/-- No size that a legal length leads to wraps. -/
theorem size_add_lt_modulus (t : Target) {n : Nat} (h : n ≤ t.isizeMax) :
    t.size + n + t.align < t.modulus := by
  have := t.four_mul_size_lt
  have := t.align_le_size
  have := t.modulus_eq
  omega

theorem nextStep_size_add {n : Nat} (h : n ≤ t.isizeMax) :
    nextStep t (t.add t.size n) = blockSize t n := by
  have hlt := size_add_lt_modulus t h
  rw [Machine.add_eq (by omega), nextStep_size (by omega)]

theorem nextStep_add_size {n : Nat} (h : n ≤ t.isizeMax) :
    nextStep t (t.add n t.size) = blockSize t n := by
  rw [← nextStep_size_add h, Machine.add, Machine.add, Nat.add_comm]

/-- The layout bound applies after rounding: within one step of `isize::MAX`
the sum fits and the block does not. -/
theorem blockSize_le_isizeMax_iff (t : Target) (n : Nat) :
    blockSize t n ≤ t.isizeMax ↔ t.size + n + (t.align - 1) ≤ t.isizeMax := by
  have ha := t.align_pos
  have hdvd : t.align ∣ t.isizeMax + 1 - t.align :=
    Nat.dvd_sub t.align_dvd_isizeMax_succ (dvd_refl _)
  have hlow : blockSize t n ≤ t.isizeMax + 1 - t.align ↔ t.size + n ≤ t.isizeMax + 1 - t.align :=
    roundUp_le_iff ha hdvd
  constructor
  · intro h
    have htop := t.add_align_le (align_dvd_blockSize t n) h
    have := hlow.mp (by omega)
    omega
  · intro h
    have := hlow.mpr (by omega)
    omega

end Sinstr
