import Sinstr.Rust.Usize

/-!
# Bytes in memory

The bytes of a `usize` in either byte order, and buffers of `MaybeUninit<u8>`:
a byte that was never written is `none`.
-/

namespace Rust

/-- The `w` low bytes of `n`, least significant first. -/
def leBytes : Nat → Nat → List UInt8
  | 0, _ => []
  | w + 1, n => UInt8.ofNat n :: leBytes w (n / 256)

def leValue : List UInt8 → Nat
  | [] => 0
  | b :: bs => b.toNat + 256 * leValue bs

@[simp] theorem length_leBytes (w n : Nat) : (leBytes w n).length = w := by
  induction w generalizing n with
  | zero => rfl
  | succ w ih => simp [leBytes, ih]

theorem leValue_leBytes {w n : Nat} (h : n < 256 ^ w) : leValue (leBytes w n) = n := by
  induction w generalizing n with
  | zero => simp only [Nat.pow_zero, Nat.lt_one_iff] at h; simp [leBytes, leValue, h]
  | succ w ih =>
      have hdiv : n / 256 < 256 ^ w := by
        rw [Nat.pow_succ] at h
        exact Nat.div_lt_of_lt_mul (by omega)
      simp only [leBytes, leValue, ih hdiv, UInt8.toNat_ofNat']
      omega

namespace Machine

variable (m : Machine)

/-- The bytes of a `usize` in memory order. -/
def usizeBytes (n : Nat) : List UInt8 :=
  match m.endian with
  | .little => leBytes m.size n
  | .big => (leBytes m.size n).reverse

/-- The `usize` that memory bytes stand for. -/
def usizeValue (bs : List UInt8) : Nat :=
  match m.endian with
  | .little => leValue bs
  | .big => leValue bs.reverse

@[simp] theorem length_usizeBytes (n : Nat) : (m.usizeBytes n).length = m.size := by
  unfold usizeBytes
  cases m.endian <;> simp

variable {m}

theorem usizeValue_usizeBytes {n : Nat} (h : n < m.modulus) :
    m.usizeValue (m.usizeBytes n) = n := by
  have h' : n < 256 ^ m.size := by
    rwa [show (256 : Nat) = 2 ^ 8 by rfl, ← Nat.pow_mul]
  unfold usizeValue usizeBytes
  cases m.endian with
  | little => exact leValue_leBytes h'
  | big => simpa using leValue_leBytes h'

end Machine

/-- Memory whose bytes may be uninitialised. -/
abbrev Buffer := List (Option UInt8)

namespace Buffer

variable {buf : Buffer} {off n : Nat} {bs cs : List UInt8}

/-- The bytes of a fully initialised buffer. -/
def initialized : Buffer → Option (List UInt8)
  | [] => some []
  | none :: _ => none
  | some b :: rest => (initialized rest).map (b :: ·)

def slice (buf : Buffer) (off n : Nat) : Buffer := (buf.drop off).take n

/-- Copy `bs` over the bytes from `off` on. -/
def overwrite (buf : Buffer) (off : Nat) (bs : List UInt8) : Buffer :=
  buf.take off ++ bs.map some ++ buf.drop (off + bs.length)

/-- Keep the leading bytes; what is beyond them is uninitialised. -/
def resize (buf : Buffer) (n : Nat) : Buffer :=
  buf.take n ++ List.replicate (n - buf.length) none

/-- From `off` on the buffer holds exactly these initialised bytes. -/
def Holds (buf : Buffer) (off : Nat) (bs : List UInt8) : Prop :=
  ∀ i, i < bs.length → buf[off + i]? = some bs[i]?

@[simp] theorem initialized_map_some (bs : List UInt8) : initialized (bs.map some) = some bs := by
  induction bs with
  | nil => rfl
  | cons b bs ih => simp [initialized, ih]

@[simp] theorem length_overwrite (h : off + bs.length ≤ buf.length) :
    (overwrite buf off bs).length = buf.length := by
  simp [overwrite]
  omega

@[simp] theorem length_resize (buf : Buffer) (n : Nat) : (resize buf n).length = n := by
  simp [resize]
  omega

theorem getElem?_overwrite (h : off + bs.length ≤ buf.length) (i : Nat) :
    (overwrite buf off bs)[i]? =
      if off ≤ i ∧ i < off + bs.length then some bs[i - off]? else buf[i]? := by
  have htake : (buf.take off).length = off := by simp; omega
  rw [overwrite, List.append_assoc, List.getElem?_append, htake]
  by_cases hlo : i < off
  · simp [hlo, List.getElem?_take_of_lt, Nat.not_le.mpr hlo]
  · rw [if_neg hlo, List.getElem?_append, List.length_map]
    by_cases hhi : i - off < bs.length
    · have hin : off ≤ i ∧ i < off + bs.length := by omega
      simp [hhi, hin]
    · have hout : ¬(off ≤ i ∧ i < off + bs.length) := by omega
      rw [if_neg hhi, if_neg hout, List.getElem?_drop]
      congr 1
      omega

theorem holds_append :
    Holds buf off (bs ++ cs) ↔ Holds buf off bs ∧ Holds buf (off + bs.length) cs := by
  constructor
  · intro h
    refine ⟨fun i hi => ?_, fun i hi => ?_⟩
    · rw [h i (by simp; omega), List.getElem?_append_left hi]
    · have := h (bs.length + i) (by simp; omega)
      rwa [List.getElem?_append_right (by omega), Nat.add_sub_cancel_left, ← Nat.add_assoc] at this
  · rintro ⟨hb, hc⟩ i hi
    by_cases hlt : i < bs.length
    · rw [hb i hlt, List.getElem?_append_left hlt]
    · have hic : i - bs.length < cs.length := by simp at hi; omega
      have := hc (i - bs.length) hic
      rw [List.getElem?_append_right (by omega), ← this]
      congr 1
      omega

/-- Reading back a copy. -/
theorem holds_overwrite (h : off + bs.length ≤ buf.length) :
    Holds (overwrite buf off bs) off bs := by
  intro i hi
  rw [getElem?_overwrite h, if_pos (by omega), Nat.add_sub_cancel_left]

/-- A copy leaves the bytes before and after it alone. -/
theorem Holds.overwrite {off' : Nat} (hb : Holds buf off bs)
    (h : off' + cs.length ≤ buf.length)
    (hdisj : off + bs.length ≤ off' ∨ off' + cs.length ≤ off) :
    Holds (overwrite buf off' cs) off bs := by
  intro i hi
  rw [getElem?_overwrite h, if_neg (by omega), hb i hi]

/-- Copies to disjoint places commute. -/
theorem overwrite_comm {off' : Nat} (h : off + bs.length ≤ off')
    (h' : off' + cs.length ≤ buf.length) :
    overwrite (overwrite buf off bs) off' cs = overwrite (overwrite buf off' cs) off bs := by
  apply List.ext_getElem?
  intro i
  have hbs : off + bs.length ≤ buf.length := by omega
  rw [getElem?_overwrite (by rwa [length_overwrite hbs]), getElem?_overwrite hbs,
    getElem?_overwrite (by rwa [length_overwrite h']), getElem?_overwrite h']
  by_cases hi : off ≤ i ∧ i < off + bs.length
  · rw [if_neg (show ¬(off' ≤ i ∧ i < off' + cs.length) by omega), if_pos hi, if_pos hi]
  · rw [if_neg hi, if_neg hi]

theorem Holds.resize (hb : Holds buf off bs) (h : off + bs.length ≤ n) :
    Holds (resize buf n) off bs := by
  intro i hi
  have hget := hb i hi
  have hlen : off + i < buf.length := by
    by_contra hge
    rw [List.getElem?_eq_none (by omega)] at hget
    cases hget
  rw [Buffer.resize, List.getElem?_append_left (by simp; omega),
    List.getElem?_take_of_lt (by omega), hget]

theorem Holds.slice (hb : Holds buf off bs) : slice buf off bs.length = bs.map some := by
  apply List.ext_getElem?
  intro i
  by_cases hi : i < bs.length
  · rw [Buffer.slice, List.getElem?_take_of_lt hi, List.getElem?_drop, hb i hi]
    simp [hi]
  · rw [Buffer.slice, List.getElem?_eq_none (by simp; omega),
      List.getElem?_eq_none (by simp; omega)]

end Buffer

end Rust
