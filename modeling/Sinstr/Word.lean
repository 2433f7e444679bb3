import Sinstr.NonEmpty

/-!
# The word as an address and as an inline string

The discriminant byte of a heap word is the least significant byte of an
aligned address, so it is zero or too large for an inline length. This holds
in both byte orders.
-/

namespace Sinstr

open Rust

variable {t : Target} {x : NonEmptySinStr t} {n : Nat}

namespace NonEmptySinStr

theorem usizeBytes_little (ht : t.endian = .little) (n : Nat) :
    t.usizeBytes n = UInt8.ofNat n :: leBytes (t.size - 1) (n / 256) := by
  have hs := t.one_lt_size
  rw [Machine.usizeBytes, ht]
  conv_lhs => simp only; rw [show t.size = t.size - 1 + 1 by omega]
  rfl

theorem usizeBytes_big (ht : t.endian = .big) (n : Nat) :
    t.usizeBytes n = (leBytes (t.size - 1) (n / 256)).reverse ++ [UInt8.ofNat n] := by
  have hs := t.one_lt_size
  rw [Machine.usizeBytes, ht]
  conv_lhs => simp only; rw [show t.size = t.size - 1 + 1 by omega]
  rw [leBytes, List.reverse_cons]

/-- In either byte order the discriminant is the least significant byte. -/
theorem ofUsize?_eq (t : Target) (n : Nat) :
    (ofUsize? t n).map (fun x => (x.disc, x.memory)) =
      (DiscriminantValues.ofByte? t (UInt8.ofNat n)).map
        (fun disc => (disc, (t.usizeBytes n).map some)) := by
  unfold ofUsize?
  split <;> rename_i ht
  · simp only [usizeBytes_little ht, List.head_cons, List.tail_cons, Option.map_map]
    cases hd : DiscriminantValues.ofByte? t (UInt8.ofNat n) with
    | none => rfl
    | some disc => simp [memory, ht, DiscriminantValues.value_of_ofByte? hd]
  · simp only [usizeBytes_big ht, List.getLast_concat, List.dropLast_concat, Option.map_map]
    cases hd : DiscriminantValues.ofByte? t (UInt8.ofNat n) with
    | none => rfl
    | some disc => simp [memory, ht, DiscriminantValues.value_of_ofByte? hd]

theorem ofUsize?_isSome_iff : (ofUsize? t n).isSome ↔ UInt8.ofNat n ∈ t.variants := by
  have h := congrArg Option.isSome (ofUsize?_eq t n)
  simp only [Option.isSome_map] at h
  rw [h, DiscriminantValues.ofByte?]
  split <;> simp_all

/-- The fields of a word that was made from a number. -/
theorem fields_of_ofUsize? (h : ofUsize? t n = some x) :
    x.disc.value = UInt8.ofNat n ∧ x.memory = (t.usizeBytes n).map some := by
  have heq := ofUsize?_eq t n
  rw [h] at heq
  cases hd : DiscriminantValues.ofByte? t (UInt8.ofNat n) with
  | none =>
      rw [hd] at heq
      cases heq
  | some disc =>
      rw [hd] at heq
      simp only [Option.map_some, Option.some.injEq, Prod.mk.injEq] at heq
      exact ⟨by rw [heq.1, DiscriminantValues.value_of_ofByte? hd], heq.2⟩

theorem disc_of_ofUsize? (h : ofUsize? t n = some x) : x.disc.value = UInt8.ofNat n :=
  (fields_of_ofUsize? h).1

theorem memory_of_ofUsize? (h : ofUsize? t n = some x) : x.memory = (t.usizeBytes n).map some :=
  (fields_of_ofUsize? h).2

/-- An aligned address never looks like an inline length. -/
theorem isInlined_of_ofUsize? (h : ofUsize? t n = some x) (hn : t.align ∣ n) :
    x.isInlined = false := by
  have hdvd : t.align ∣ n % 256 := (Nat.dvd_mod_iff t.align_dvd_256).mpr hn
  have hN := t.nicheMaxInt_eq
  have hM : 256 ≤ t.modulus := by
    have := Nat.pow_le_pow_right (n := 2) (by omega)
      (show 8 ≤ t.bits by have := t.one_lt_size; simp only [Machine.bits]; omega)
    simpa [Machine.modulus] using this
  have hNlt := t.nicheMaxInt_lt_256
  rw [isInlined, disc_of_ofUsize? h, UInt8.toNat_ofNat', decide_eq_false_iff_not]
  rcases Nat.eq_zero_or_pos (n % 256) with h0 | h0
  · -- the wrapping subtraction gives `usize::MAX`
    rw [show n % 2 ^ 8 = 0 from h0, Machine.sub, Nat.zero_add, Nat.mod_eq_of_lt (by omega)]
    omega
  · have hle := Nat.le_of_dvd h0 hdvd
    rw [Machine.sub_eq (show 1 ≤ n % 2 ^ 8 from h0) (by omega)]
    omega

theorem isHeap_of_isInlined (h : x.isInlined = true) : x.isHeap = false := by
  rw [isHeap, h]
  rfl

theorem isHeap_of_ofUsize? {p : Addr t.toMachine} (h : ofUsize? t p.val = some x) :
    x.isHeap = true := by
  rw [isHeap, isInlined_of_ofUsize? h p.aligned]
  rfl

/-- A discriminant that is an inline length. -/
theorem isInlined_of_disc (hd : x.disc.value.toNat = n) (hpos : 0 < n) (hn : n ≤ t.nicheMaxInt) :
    x.isInlined = true := by
  have hsize := t.four_mul_size_lt
  have hlt := t.nicheMaxInt_lt_size
  have hM := t.modulus_eq
  rw [isInlined, hd, Machine.sub_eq hpos (by omega), decide_eq_true_iff]
  omega

/-- Reading a heap word back gives the address it was made from. -/
theorem run_getHeap {σ : Type} {p : Addr t.toMachine} (h : ofUsize? t p.val = some x) (s : σ) :
    (x.getHeap : Exec σ HeapRepr).run s = .ok (HeapRepr.ofAddr p) s := by
  have hheap : x.isHeap = true := isHeap_of_ofUsize? h
  have hval : t.usizeValue (t.usizeBytes p.val) = p.val :=
    Machine.usizeValue_usizeBytes p.lt_modulus
  simp [getHeap, hheap, memory_of_ofUsize? h, hval, p.ne_zero,
    HeapRepr.ofAddr]

theorem run_getInlined {σ : Type} (h : x.isInlined = true) (hd : x.disc.value ≠ 0) (s : σ) :
    (x.getInlined : Exec σ (InlinedRepr t)).run s =
      .ok ⟨x.disc.value, x.dataOrPartialPtr, hd, x.length_data⟩ s := by
  simp [getInlined, h, hd]

end NonEmptySinStr

end Sinstr
