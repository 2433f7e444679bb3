import Mathlib.Algebra.Order.Floor.Div
import Mathlib.Algebra.Order.Group.Nat
import Mathlib.Data.Nat.Bitwise
import Mathlib.Order.Bounds.Basic
import Mathlib.Tactic.Ring

/-!
# Machine words and rounding up to an alignment

`usize` values are natural numbers below the modulus, with wrapping addition
and subtraction written out. Rounding up to a multiple is described by the
order alone; clearing the low bits of a word computes it.
-/

namespace Rust

inductive Endian
  | little
  | big
  deriving DecidableEq, Repr

/-- The parts of a compilation target that memory layout depends on. -/
structure Machine where
  /-- `size_of::<usize>()`. -/
  size : Nat
  /-- The trailing zeros of `align_of::<usize>()`. -/
  alignLog : Nat
  endian : Endian
  one_lt_size : 1 < size
  align_dvd_size : 2 ^ alignLog ∣ size

/-- The least multiple of `a` that is at least `n`. -/
def roundUp (a n : Nat) : Nat := a * (n ⌈/⌉ a)

section RoundUp

variable {a n m c : Nat}

theorem dvd_roundUp (a n : Nat) : a ∣ roundUp a n := Dvd.intro _ rfl

theorem le_roundUp (ha : 0 < a) (n : Nat) : n ≤ roundUp a n := le_smul_ceilDiv ha

/-- Rounding up is left adjoint to the inclusion of the multiples. -/
theorem roundUp_le_iff (ha : 0 < a) (hm : a ∣ m) : roundUp a n ≤ m ↔ n ≤ m := by
  obtain ⟨k, rfl⟩ := hm
  rw [roundUp, Nat.mul_le_mul_left_iff ha]
  exact ceilDiv_le_iff_le_mul ha

theorem roundUp_isLeast (ha : 0 < a) (n : Nat) : IsLeast {m | a ∣ m ∧ n ≤ m} (roundUp a n) :=
  ⟨⟨dvd_roundUp a n, le_roundUp ha n⟩, fun _ hm => (roundUp_le_iff ha hm.1).mpr hm.2⟩

theorem roundUp_mono (ha : 0 < a) (h : n ≤ m) : roundUp a n ≤ roundUp a m :=
  (roundUp_le_iff ha (dvd_roundUp a m)).mpr (h.trans (le_roundUp ha m))

theorem roundUp_of_dvd (ha : 0 < a) (h : a ∣ n) : roundUp a n = n :=
  le_antisymm ((roundUp_le_iff ha h).mpr le_rfl) (le_roundUp ha n)

theorem roundUp_lt_add (ha : 0 < a) (n : Nat) : roundUp a n < n + a := by
  have h := Nat.div_mul_le_self (n + a - 1) a
  rw [roundUp, Nat.ceilDiv_eq_add_pred_div, Nat.mul_comm]
  omega

/-- A multiple is the rounded value exactly when it lies within one step above. -/
theorem roundUp_eq_iff (ha : 0 < a) (hm : a ∣ m) : roundUp a n = m ↔ n ≤ m ∧ m < n + a := by
  constructor
  · rintro rfl
    exact ⟨le_roundUp ha n, roundUp_lt_add ha n⟩
  · rintro ⟨hle, hlt⟩
    obtain ⟨j, hj⟩ := dvd_roundUp a n
    obtain ⟨k, rfl⟩ := hm
    have hlow := (roundUp_le_iff ha (Dvd.intro k rfl)).mpr hle
    have hup := le_roundUp ha n
    rw [hj] at hlow hup ⊢
    have hjk : j ≤ k := Nat.le_of_mul_le_mul_left hlow ha
    have hkj : k < j + 1 := by
      apply Nat.lt_of_mul_lt_mul_left (a := a)
      rw [Nat.mul_succ]
      omega
    rw [show j = k by omega]

/-- Whether two counts round to the same multiple is a matter of the remainder
of the larger: a multiple of `a` is reached before the smaller is passed. -/
theorem roundUp_sub_eq_iff {u : Nat} (ha : 0 < a) (hu : u < a) (hun : u ≤ n) :
    roundUp a (n - u) = roundUp a n ↔ n % a = 0 ∨ u < n % a := by
  rw [roundUp_eq_iff ha (dvd_roundUp a n)]
  have hdm := Nat.div_add_mod n a
  have hlt := Nat.mod_lt n ha
  rcases Nat.eq_zero_or_pos (n % a) with h0 | hpos
  · rw [roundUp_of_dvd ha (Nat.dvd_of_mod_eq_zero h0)]
    omega
  · have hup : roundUp a n = a * (n / a) + a := by
      rw [roundUp_eq_iff ha (Nat.dvd_add (Dvd.intro _ rfl) dvd_rfl)]
      omega
    omega

end RoundUp

/-- Clearing the `k` low bits of a word of `w` bits. -/
theorem and_complement_eq {w k n : Nat} (hk : k ≤ w) (hn : n < 2 ^ w) :
    n &&& (2 ^ w - 1 - (2 ^ k - 1)) = n / 2 ^ k * 2 ^ k := by
  have hmask : 2 ^ k - 1 < 2 ^ w := by
    have := Nat.pow_le_pow_right (n := 2) (by omega) hk
    omega
  apply Nat.eq_of_testBit_eq
  intro i
  rw [Nat.sub_sub, Nat.add_comm 1, Nat.testBit_and, Nat.testBit_two_pow_sub_succ hmask,
    Nat.testBit_two_pow_sub_one, Nat.testBit_mul_two_pow, Nat.testBit_div_two_pow]
  by_cases hiw : i < w
  · by_cases hik : k ≤ i
    · simp [hiw, hik, Nat.not_lt.mpr hik]
    · simp [hik, Nat.lt_of_not_le hik]
  · have hbit : n.testBit i = false :=
      Nat.testBit_lt_two_pow (hn.trans_le (Nat.pow_le_pow_right (by omega) (by omega)))
    by_cases hik : k ≤ i <;> simp [hbit, hik]

namespace Machine

variable (m : Machine)

def bits : Nat := 8 * m.size

/-- `usize::MAX + 1`. -/
def modulus : Nat := 2 ^ m.bits

/-- `isize::MAX as usize`. -/
def isizeMax : Nat := 2 ^ (m.bits - 1) - 1

/-- `align_of::<usize>()`. -/
def align : Nat := 2 ^ m.alignLog

/-- Wrapping `+` on `usize`. -/
def add (a b : Nat) : Nat := (a + b) % m.modulus

/-- Wrapping `-` on `usize`. -/
def sub (a b : Nat) : Nat := (a + (m.modulus - b)) % m.modulus

/-- `!` on `usize`. -/
def not (a : Nat) : Nat := m.modulus - 1 - a

theorem align_pos : 0 < m.align := Nat.two_pow_pos _

theorem align_le_size : m.align ≤ m.size :=
  Nat.le_of_dvd (by have := m.one_lt_size; omega) m.align_dvd_size

theorem alignLog_lt_bits : m.alignLog < m.bits - 1 := by
  have h1 : m.alignLog < 2 ^ m.alignLog := Nat.lt_two_pow_self
  have h2 := m.align_le_size
  simp only [align, bits] at h1 h2 ⊢
  omega

theorem modulus_eq : m.modulus = 2 * (m.isizeMax + 1) := by
  have hb := m.alignLog_lt_bits
  have hp := Nat.two_pow_pos (m.bits - 1)
  rw [modulus, isizeMax, Nat.sub_add_cancel hp, ← Nat.pow_succ', Nat.succ_eq_add_one,
    Nat.sub_add_cancel (by omega)]

theorem align_dvd_isizeMax_succ : m.align ∣ m.isizeMax + 1 := by
  rw [isizeMax, Nat.sub_add_cancel (Nat.two_pow_pos _)]
  exact Nat.pow_dvd_pow 2 m.alignLog_lt_bits.le

theorem align_dvd_modulus : m.align ∣ m.modulus := by
  rw [modulus_eq]
  exact Nat.dvd_mul_left_of_dvd m.align_dvd_isizeMax_succ 2

/-- Above an aligned size there is room for one more step below `isize::MAX + 1`. -/
theorem add_align_le {n : Nat} (hn : m.align ∣ n) (hle : n ≤ m.isizeMax) :
    n + m.align ≤ m.isizeMax + 1 :=
  Nat.le_of_lt_add_of_dvd (by omega) (Nat.dvd_add hn dvd_rfl) m.align_dvd_isizeMax_succ

/-- A word is far larger than its own size. -/
theorem four_mul_size_lt : 4 * m.size < m.isizeMax := by
  have hs := m.one_lt_size
  have h1 : m.size < 2 ^ m.size := Nat.lt_two_pow_self
  have h2 : 2 ^ (m.size + 6) ≤ 2 ^ (m.bits - 1) :=
    Nat.pow_le_pow_right (by omega) (by simp only [bits]; omega)
  rw [Nat.pow_add] at h2
  simp only [isizeMax]
  omega

variable {m}

theorem add_eq {a b : Nat} (h : a + b < m.modulus) : m.add a b = a + b := Nat.mod_eq_of_lt h

theorem sub_eq {a b : Nat} (hb : b ≤ a) (ha : a < m.modulus) : m.sub a b = a - b := by
  rw [sub, show a + (m.modulus - b) = (a - b) + m.modulus by omega, Nat.add_mod_right]
  exact Nat.mod_eq_of_lt (by omega)

/-- A sum that is taken back below the modulus at once may wrap in between. -/
theorem sub_add_eq {a b c : Nat} (hc : c ≤ a + b) (hcm : c ≤ m.modulus)
    (h : a + b - c < m.modulus) : m.sub (m.add a b) c = a + b - c := by
  rw [sub, add, Nat.mod_add_mod, show a + b + (m.modulus - c) = a + b - c + m.modulus by omega,
    Nat.add_mod_right]
  exact Nat.mod_eq_of_lt h

end Machine

end Rust
