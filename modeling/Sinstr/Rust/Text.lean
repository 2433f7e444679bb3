import Sinstr.Rust.Heap

/-!
# Strings, their order, and hashing

A `&str` is a `String`: bytes together with the proof that they are UTF-8.
Order and hash go by the bytes.
-/

namespace Rust

/-- `str::as_bytes`. -/
def strBytes (s : String) : List UInt8 := s.toByteArray.data.toList

@[simp] theorem length_strBytes (s : String) : (strBytes s).length = s.utf8ByteSize := by
  simp [strBytes]

@[simp] theorem strBytes_append (s t : String) : strBytes (s ++ t) = strBytes s ++ strBytes t := by
  simp [strBytes]

@[simp] theorem strBytes_inj {s t : String} : strBytes s = strBytes t ↔ s = t := by
  constructor
  · intro h
    exact String.toByteArray_inj.mp (ByteArray.ext (Array.toList_inj.mp h))
  · rintro rfl
    rfl

theorem strBytes_ne_nil {s : String} (h : 0 < s.utf8ByteSize) : strBytes s ≠ [] :=
  List.ne_nil_of_length_pos (by simpa using h)

theorem utf8ByteSize_eq_zero {s : String} : s.utf8ByteSize = 0 ↔ s = "" := by
  rw [← length_strBytes, List.length_eq_zero_iff, ← strBytes_inj]
  rfl

/-- A string of any given length in bytes. -/
def asciiStr : Nat → String
  | 0 => ""
  | n + 1 => (asciiStr n).push 'a'

@[simp] theorem utf8ByteSize_asciiStr (n : Nat) : (asciiStr n).utf8ByteSize = n := by
  induction n with
  | zero => rfl
  | succ n ih =>
      rw [asciiStr, String.utf8ByteSize_push, ih]
      rfl

/-- `str::from_utf8_unchecked`. -/
def fromUtf8Unchecked {σ : Type} (bs : List UInt8) : Exec σ String :=
  if h : (ByteArray.mk bs.toArray).IsValidUTF8 then pure (String.ofByteArray ⟨bs.toArray⟩ h)
  else throw (.unsound .invalidUtf8)

@[simp] theorem run_fromUtf8Unchecked {σ : Type} (s : String) (t : σ) :
    (fromUtf8Unchecked (strBytes s) : Exec σ String).run t = .ok s t := by
  have hb : ByteArray.mk (strBytes s).toArray = s.toByteArray := by simp [strBytes]
  rw [fromUtf8Unchecked, dif_pos (by rw [hb]; exact s.isValidUTF8), EStateM.run_pure]
  congr 1

/-- `s.to_string() + t`: the concatenation in a buffer of its own, which the
caller's expression releases. That the library allocates it for `s` first and
grows it for `t` is not kept apart. `String` refuses to hold more than
`isize::MAX` bytes. -/
def concat {m : Machine} (a : Allocator m) (s t : String) : Exec Heap String := do
  Exec.panicUnless (s.utf8ByteSize + t.utf8ByteSize ≤ m.isizeMax) "capacity overflow"
  if ← scratch a (s.utf8ByteSize + t.utf8ByteSize) then
    return s ++ t
  else
    throw (.allocError (s.utf8ByteSize + t.utf8ByteSize))

theorem run_concat {m : Machine} {a : Allocator m} {s t : String} {h : Heap}
    (hlen : s.utf8ByteSize + t.utf8ByteSize ≤ m.isizeMax) :
    (concat a s t).run h =
      let n := s.utf8ByteSize + t.utf8ByteSize
      let h' := h.log (.scratch n (a.scratch h n))
      if a.scratch h n then .ok (s ++ t) h' else .error (.allocError n) h' := by
  simp only [concat, EStateM.run_bind, Exec.run_panicUnless, if_pos hlen, run_scratch]
  cases a.scratch h _ <;> rfl

theorem run_concat_overflow {m : Machine} {a : Allocator m} {s t : String} {h : Heap}
    (hlen : ¬s.utf8ByteSize + t.utf8ByteSize ≤ m.isizeMax) :
    (concat a s t).run h = .error (.panic "capacity overflow") h := by
  simp [concat, hlen]

/-- `Ord for [u8]`: the first difference decides, then the length. -/
def bytesCmp : List UInt8 → List UInt8 → Ordering
  | [], [] => .eq
  | [], _ :: _ => .lt
  | _ :: _, [] => .gt
  | a :: as, b :: bs => if a < b then .lt else if b < a then .gt else bytesCmp as bs

/-- `Ord for str`. -/
def strCmp (s t : String) : Ordering := bytesCmp (strBytes s) (strBytes t)

theorem bytesCmp_eq_eq_iff (as bs : List UInt8) : bytesCmp as bs = .eq ↔ as = bs := by
  induction as generalizing bs with
  | nil => cases bs <;> simp [bytesCmp]
  | cons a as ih =>
      cases bs with
      | nil => simp [bytesCmp]
      | cons b bs =>
          rcases Std.lt_trichotomy a b with hlt | rfl | hgt
          · simp [bytesCmp, hlt, UInt8.ne_of_lt hlt]
          · simp [bytesCmp, ih]
          · simp [bytesCmp, hgt, UInt8.lt_asymm hgt, (UInt8.ne_of_lt hgt).symm]

theorem bytesCmp_eq_lt_iff (as bs : List UInt8) : bytesCmp as bs = .lt ↔ as < bs := by
  induction as generalizing bs with
  | nil => cases bs <;> simp [bytesCmp]
  | cons a as ih =>
      cases bs with
      | nil => simp [bytesCmp]
      | cons b bs =>
          rw [List.cons_lt_cons_iff]
          rcases Std.lt_trichotomy a b with hlt | rfl | hgt
          · simp [bytesCmp, hlt]
          · simp [bytesCmp, ih]
          · simp [bytesCmp, hgt, UInt8.lt_asymm hgt, (UInt8.ne_of_lt hgt).symm]

theorem bytesCmp_swap (as bs : List UInt8) : (bytesCmp as bs).swap = bytesCmp bs as := by
  induction as generalizing bs with
  | nil => cases bs <;> simp [bytesCmp]
  | cons a as ih =>
      cases bs with
      | nil => simp [bytesCmp]
      | cons b bs =>
          rcases Std.lt_trichotomy a b with hlt | rfl | hgt
          · simp [bytesCmp, hlt, UInt8.lt_asymm hlt]
          · simp [bytesCmp, ih]
          · simp [bytesCmp, hgt, UInt8.lt_asymm hgt]

/-- The comparison is the lexicographic order of lists. -/
theorem bytesCmp_eq_compareOfLessAndEq (as bs : List UInt8) :
    bytesCmp as bs = compareOfLessAndEq as bs := by
  unfold compareOfLessAndEq
  split_ifs with hlt heq
  · exact (bytesCmp_eq_lt_iff as bs).mpr hlt
  · exact (bytesCmp_eq_eq_iff as bs).mpr heq
  · cases hc : bytesCmp as bs with
    | lt => exact absurd ((bytesCmp_eq_lt_iff as bs).mp hc) hlt
    | eq => exact absurd ((bytesCmp_eq_eq_iff as bs).mp hc) heq
    | gt => rfl

theorem strCmp_eq_eq_iff (s t : String) : strCmp s t = .eq ↔ s = t := by
  rw [strCmp, bytesCmp_eq_eq_iff, strBytes_inj]

theorem strCmp_empty_left {s : String} (hs : s ≠ "") : strCmp "" s = .lt := by
  obtain ⟨b, bs, hb⟩ := List.exists_cons_of_ne_nil (strBytes_ne_nil (s := s)
    (Nat.pos_of_ne_zero fun h0 => hs (utf8ByteSize_eq_zero.mp h0)))
  rw [strCmp, hb]
  rfl

theorem strCmp_empty_right {s : String} (hs : s ≠ "") : strCmp s "" = .gt := by
  rw [strCmp, ← bytesCmp_swap, ← strCmp, strCmp_empty_left hs]
  rfl

/-- One call of a method of `Hasher`. -/
inductive HashWrite
  | bytes (bs : List UInt8)
  | u8 (b : UInt8)
  | isize (n : Int)
  deriving DecidableEq, Repr

/-- `Hash for str`: the bytes and a terminator. -/
def strHash (s : String) : List HashWrite := [.bytes (strBytes s), .u8 0xff]

/-- The terminator is not part of any encoding. -/
theorem notMem_utf8EncodeChar (c : Char) : 0xff ∉ String.utf8EncodeChar c := by
  intro hmem
  unfold String.utf8EncodeChar at hmem
  simp only at hmem
  split_ifs at hmem <;>
    simp only [List.mem_cons, List.not_mem_nil, or_false, ← UInt8.toNat_inj, UInt8.toNat_ofNat',
      UInt8.reduceToNat, Nat.reducePow] at hmem <;> omega

theorem strBytes_eq_flatMap (s : String) :
    strBytes s = s.toList.flatMap String.utf8EncodeChar := by
  rw [strBytes, ← String.utf8Encode_toList, List.utf8Encode]
  simp

theorem notMem_strBytes (s : String) : 0xff ∉ strBytes s := by
  rw [strBytes_eq_flatMap]
  intro hmem
  obtain ⟨c, _, hc⟩ := List.mem_flatMap.mp hmem
  exact notMem_utf8EncodeChar c hc

/-- What a write amounts to for a hasher that keeps the default methods of `Hasher`,
which all end in `write`. -/
def HashWrite.stream (m : Machine) : HashWrite → List UInt8
  | .bytes bs => bs
  | .u8 b => [b]
  | .isize n => m.usizeBytes (n % m.modulus).toNat

end Rust
