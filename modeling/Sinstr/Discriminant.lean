import Sinstr.Rust.Usize

/-!
# Discriminant values

Addresses are aligned, so the low bits of a heap address are zero. The least
significant byte of the word therefore has values left over for the lengths
of inline strings, and the crate declares, for each pointer width, the enum of
all bytes that can occur.
-/

namespace Sinstr

open Rust

/-- The pointer widths for which `DiscriminantValues` is defined. -/
inductive PointerWidth
  | w64
  | w32
  | w16
  deriving DecidableEq, Repr

namespace PointerWidth

/-- The values of the variants of `DiscriminantValues`, in the order of their
declaration. -/
def variants : PointerWidth → List UInt8
  | .w64 =>
      [0, 1, 2, 3, 4, 5, 6, 7, 8, 16, 24, 32, 40, 48, 56, 64, 72, 80, 88, 96, 104, 112, 120,
       128, 136, 144, 152, 160, 168, 176, 184, 192, 200, 208, 216, 224, 232, 240, 248]
  | .w32 =>
      [0, 1, 2, 3, 4, 8, 12, 16, 20, 24, 28, 32, 36, 40, 44, 48, 52, 56, 60, 64, 68, 72, 76,
       80, 84, 88, 92, 96, 100, 104, 108, 112, 116, 120, 124, 128, 132, 136, 140, 144, 148,
       152, 156, 160, 164, 168, 172, 176, 180, 184, 188, 192, 196, 200, 204, 208, 212, 216,
       220, 224, 228, 232, 236, 240, 244, 248, 252]
  | .w16 =>
      [0, 1, 2, 10, 12, 14, 16, 18, 20, 22, 24, 26, 28, 30, 32, 34, 36, 38, 40, 42, 44, 46, 48,
       50, 52, 54, 56, 58, 60, 62, 64, 66, 68, 70, 72, 74, 76, 78, 80, 82, 84, 86, 88, 90, 92,
       94, 96, 98, 100, 102, 104, 106, 108, 110, 112, 114, 116, 118, 120, 122, 124, 126, 128,
       130, 132, 134, 136, 138, 140, 142, 144, 146, 148, 150, 152, 154, 156, 158, 160, 162,
       164, 166, 168, 170, 172, 174, 176, 178, 180, 182, 184, 186, 188, 190, 192, 194, 196,
       198, 200, 202, 204, 206, 208, 210, 212, 214, 216, 218, 220, 222, 224, 226, 228, 230,
       232, 234, 236, 238, 240, 242, 244, 246, 248, 250, 252, 254]

end PointerWidth

/-- A target that the compile-time assertions of the crate accept, with the
bytes that its `DiscriminantValues` declares: at least the inline lengths. -/
structure Target extends Machine where
  variants : List UInt8
  one_le_nicheBits : 1 ≤ alignLog
  nicheBits_le_eight : alignLog ≤ 8
  lengths_declared : ∀ n < 2 ^ alignLog, UInt8.ofNat n ∈ variants

namespace Target

variable (t : Target)

/-- `NICHE_BITS`: `align_of::<usize>().trailing_zeros()`. -/
def nicheBits : Nat := t.alignLog

/-- `NICHE_MAX_INT`: `usize::MAX >> (usize::BITS - NICHE_BITS)`. -/
def nicheMaxInt : Nat := (t.modulus - 1) >>> (t.bits - t.nicheBits)

theorem nicheMaxInt_eq : t.nicheMaxInt = t.align - 1 := by
  have hk : t.alignLog ≤ t.bits := by have := t.alignLog_lt_bits; omega
  have hm : t.modulus = t.align * 2 ^ (t.bits - t.alignLog) := by
    rw [Machine.modulus, Machine.align, ← Nat.pow_add, Nat.add_sub_cancel' hk]
  have ha := t.align_pos
  rw [nicheMaxInt, nicheBits, Nat.shiftRight_eq_div_pow, hm, Nat.div_eq_iff (Nat.two_pow_pos _)]
  constructor
  · rw [Nat.sub_mul]
    have : 1 ≤ 2 ^ (t.bits - t.alignLog) := Nat.one_le_two_pow
    omega
  · rw [Nat.sub_mul, Nat.one_mul]
    have h1 : 2 ^ (t.bits - t.alignLog) ≤ t.align * 2 ^ (t.bits - t.alignLog) :=
      Nat.le_mul_of_pos_left _ ha
    omega

theorem align_dvd_256 : t.align ∣ 256 := Nat.pow_dvd_pow 2 t.nicheBits_le_eight

/-- An inline string fits into the word beside its length. -/
theorem nicheMaxInt_lt_size : t.nicheMaxInt < t.size := by
  have := t.align_le_size
  have := t.align_pos
  rw [nicheMaxInt_eq]
  omega

theorem nicheMaxInt_lt_256 : t.nicheMaxInt < 256 := by
  have := Nat.le_of_dvd (by omega) t.align_dvd_256
  rw [nicheMaxInt_eq]
  omega

end Target

/-- A declared width as a target, `usize` aligned to its size. -/
def PointerWidth.target : PointerWidth → Endian → Target
  | .w64, e => {
      size := 8, alignLog := 3, endian := e, variants := variants .w64
      one_lt_size := by decide, align_dvd_size := by decide
      one_le_nicheBits := by decide, nicheBits_le_eight := by decide
      lengths_declared := by decide }
  | .w32, e => {
      size := 4, alignLog := 2, endian := e, variants := variants .w32
      one_lt_size := by decide, align_dvd_size := by decide
      one_le_nicheBits := by decide, nicheBits_le_eight := by decide
      lengths_declared := by decide }
  | .w16, e => {
      size := 2, alignLog := 1, endian := e, variants := variants .w16
      one_lt_size := by decide, align_dvd_size := by decide
      one_le_nicheBits := by decide, nicheBits_le_eight := by decide
      lengths_declared := by decide }

/-- The table is the inline lengths and the multiples of the alignment, except
that 4, 6 and 8 are missing on 16 bits. -/
theorem PointerWidth.variants_eq (wd : PointerWidth) :
    wd.variants = ((List.range 256).filter fun k =>
      k < (wd.target .little).align ∨ (wd.target .little).align ∣ k ∧
        ¬(wd = .w16 ∧ (k = 4 ∨ k = 6 ∨ k = 8))).map UInt8.ofNat := by
  cases wd <;> decide +kernel

theorem PointerWidth.declared_of_lt (wd : PointerWidth) (e : Endian) {k : Nat} (hk : k < 256)
    (hdvd : (wd.target e).align ∣ k) :
    UInt8.ofNat k ∈ (wd.target e).variants ↔ ¬(wd = .w16 ∧ (k = 4 ∨ k = 6 ∨ k = 8)) := by
  -- the byte order has no part in the table
  have htable : (wd.target e).variants = wd.variants := by cases wd <;> rfl
  have halign : (wd.target e).align = (wd.target .little).align := by cases wd <;> rfl
  rw [halign] at hdvd
  rw [htable, wd.variants_eq, List.mem_map]
  constructor
  · rintro ⟨j, hj, heq⟩
    have hjk : j = k := by
      have hj' := List.mem_range.mp (List.mem_of_mem_filter hj)
      have hnat := congrArg UInt8.toNat heq
      simpa [UInt8.toNat_ofNat', Nat.mod_eq_of_lt hj', Nat.mod_eq_of_lt hk] using hnat
    obtain rfl := hjk
    have hcond := of_decide_eq_true (List.mem_filter.mp hj).2
    rcases hcond with hlt | hcond
    · have hzero : j = 0 := Nat.eq_zero_of_dvd_of_lt hdvd hlt
      omega
    · exact hcond.2
  · intro hgap
    refine ⟨k, List.mem_filter.mpr ⟨List.mem_range.mpr hk, ?_⟩, rfl⟩
    exact decide_eq_true (Or.inr ⟨hdvd, hgap⟩)

/-- The low bytes of aligned addresses are declared, except that the 16-bit
table has no variants for 4, 6 and 8. -/
theorem PointerWidth.declared_iff (wd : PointerWidth) (e : Endian) {n : Nat}
    (hn : (wd.target e).align ∣ n) :
    UInt8.ofNat n ∈ (wd.target e).variants ↔
      ¬(wd = .w16 ∧ (n % 256 = 4 ∨ n % 256 = 6 ∨ n % 256 = 8)) := by
  have hdvd : (wd.target e).align ∣ n % 256 :=
    (Nat.dvd_mod_iff (wd.target e).align_dvd_256).mpr hn
  have hbyte : UInt8.ofNat n = UInt8.ofNat (n % 256) := by
    rw [← UInt8.toNat_inj]
    simp
  rw [hbyte]
  exact wd.declared_of_lt e (Nat.mod_lt _ (by omega)) hdvd

/-- `DiscriminantValues`: a byte that is the value of a variant. -/
structure DiscriminantValues (t : Target) where
  value : UInt8
  declared : value ∈ t.variants
  deriving DecidableEq

/-- `transmute::<u8, DiscriminantValues>`, where it is defined. -/
def DiscriminantValues.ofByte? (t : Target) (b : UInt8) : Option (DiscriminantValues t) :=
  if h : b ∈ t.variants then some ⟨b, h⟩ else none

theorem DiscriminantValues.value_of_ofByte? {t : Target} {b : UInt8} {d : DiscriminantValues t}
    (h : ofByte? t b = some d) : d.value = b := by
  unfold ofByte? at h
  split at h
  · rw [← Option.some.inj h]
  · cases h

/-- Every inline length has its variant. -/
theorem DiscriminantValues.ofByte?_length {t : Target} {n : Nat} (h : n ≤ t.nicheMaxInt) :
    ∃ d, ofByte? t (UInt8.ofNat n) = some d ∧ d.value.toNat = n := by
  have hlt : n < t.align := by
    have := t.nicheMaxInt_eq
    have := t.align_pos
    omega
  refine ⟨⟨UInt8.ofNat n, t.lengths_declared n hlt⟩, dif_pos _, ?_⟩
  exact UInt8.toNat_ofNat_of_lt' (h.trans_lt t.nicheMaxInt_lt_256)

end Sinstr
