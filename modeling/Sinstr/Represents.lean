import Sinstr.SinStr
import Sinstr.Word

/-!
# What a value stands for

`Stores h x bs` ties together the discriminant byte, the stored length, the
real size of the block, which may exceed the recomputed capacity, and the
bytes, whether or not they are UTF-8. `Represents h x s` is the same for the
bytes of a string, and every read of a value that represents a string is
determined by the string.
-/

namespace Sinstr

open Rust

variable {t : Target}

namespace HeapRepr

variable {h : Heap} {r : HeapRepr} {n : Nat}

/-- The capacity is recomputed from the length, whatever the block's size is. -/
theorem run_capacity (hlen : (r.len t).run h = .ok n h)
    (hsum : t.size + n + (t.align - 1) < t.modulus) :
    (r.capacity t).run h = .ok (blockSize t n) h := by
  have hnext : nextStep t (t.add n t.size) = blockSize t n := by
    rw [Machine.add_eq (by omega), Nat.add_comm, nextStep_size hsum]
  simp only [capacity, EStateM.run_bind, hlen, Exec.run_require, hnext,
    if_pos (show n + t.size < t.modulus by omega), if_pos (blockSize_pos t n).ne', EStateM.run_pure]

/-- A capacity that is a `NonZeroUsize` was computed without wrapping. -/
theorem eq_blockSize_of_run_capacity {h' : Heap} {cap : Nat} (hlen : (r.len t).run h = .ok n h)
    (hcap : (r.capacity t).run h = .ok cap h') :
    t.size + n + (t.align - 1) < t.modulus ∧ cap = blockSize t n := by
  have hsum : t.size + n + (t.align - 1) < t.modulus := by
    simp only [capacity, EStateM.run_bind, hlen, Exec.run_require] at hcap
    by_contra hover
    by_cases hadd : n + t.size < t.modulus
    · have hzero : nextStep t (t.add n t.size) = 0 := by
        rw [Machine.add_eq hadd]
        exact nextStep_eq_zero hadd (by omega)
      simp [hadd, hzero] at hcap
    · simp [hadd] at hcap
  rw [run_capacity hlen hsum] at hcap
  cases hcap
  exact ⟨hsum, rfl⟩

theorem run_strCapacity (hlen : (r.len t).run h = .ok n h) (hpos : 0 < n)
    (hsum : t.size + n + (t.align - 1) < t.modulus) :
    (r.strCapacity t).run h = .ok (blockSize t n - t.size) h := by
  have hlow := le_blockSize t n
  have hhigh := blockSize_lt t n
  have hsub : t.sub (blockSize t n) t.size = blockSize t n - t.size :=
    Machine.sub_eq (by omega) (by omega)
  have hne : blockSize t n - t.size ≠ 0 := by omega
  simp only [strCapacity, EStateM.run_bind, run_capacity hlen hsum, hsub, Exec.run_require,
    if_pos hne, EStateM.run_pure]

theorem run_unusedStrCapacity (hlen : (r.len t).run h = .ok n h) (hpos : 0 < n)
    (hsum : t.size + n + (t.align - 1) < t.modulus) :
    (r.unusedStrCapacity t).run h = .ok (blockSize t n - t.size - n) h := by
  have hlow := le_blockSize t n
  have hhigh := blockSize_lt t n
  have hsub : t.sub (blockSize t n - t.size) n = blockSize t n - t.size - n :=
    Machine.sub_eq (by omega) (by omega)
  simp only [unusedStrCapacity, EStateM.run_bind, run_strCapacity hlen hpos hsum, hlen, hsub,
    EStateM.run_pure]

end HeapRepr

/-- A live block behind the word: its first word is a heap length, and the
capacity recomputed from that is a valid size that the block has. -/
structure StoresLen (t : Target) (h : Heap) (r : HeapRepr) (b : Block) (n : Nat) : Prop where
  live : h.live r.addr = some b
  len_gt : t.nicheMaxInt < n
  run_len : (r.len t).run h = .ok n h
  cap_le : blockSize t n ≤ b.size
  cap_le_isizeMax : blockSize t n ≤ t.isizeMax

namespace StoresLen

variable {h : Heap} {r : HeapRepr} {b : Block} {n : Nat}

/-- A block whose first word holds the length. -/
theorem of_holds (hl : h.live r.addr = some b) (hgt : t.nicheMaxInt < n)
    (hbytes : b.bytes.Holds 0 (t.usizeBytes n)) (hcap : blockSize t n ≤ b.size)
    (hmax : blockSize t n ≤ t.isizeMax) : StoresLen t h r b n := by
  have hlow := le_blockSize t n
  have hlt := size_add_lt_modulus t (show n ≤ t.isizeMax by omega)
  have hread := run_readUsize (m := t.toMachine) hl hbytes (by omega) (by omega)
  refine ⟨hl, hgt, ?_, hcap, hmax⟩
  simp only [HeapRepr.len, EStateM.run_bind, hread, Exec.run_require,
    if_pos (show n ≠ 0 by omega), EStateM.run_pure]

theorem sum_lt_modulus (hs : StoresLen t h r b n) : t.size + n + t.align < t.modulus := by
  have hlow := le_blockSize t n
  have hcap := hs.cap_le_isizeMax
  exact size_add_lt_modulus t (by omega)

theorem run_capacity (hs : StoresLen t h r b n) :
    (r.capacity t).run h = .ok (blockSize t n) h :=
  HeapRepr.run_capacity hs.run_len (by have := hs.sum_lt_modulus; omega)

theorem run_unusedStrCapacity (hs : StoresLen t h r b n) :
    (r.unusedStrCapacity t).run h = .ok (blockSize t n - t.size - n) h :=
  HeapRepr.run_unusedStrCapacity hs.run_len (by have := hs.len_gt; omega)
    (by have := hs.sum_lt_modulus; omega)

end StoresLen

/-- A block that holds bytes with their number in front. -/
structure BlockStores (t : Target) (b : Block) (bs : List UInt8) : Prop where
  len_gt : t.nicheMaxInt < bs.length
  cap_le : blockSize t bs.length ≤ b.size
  size_le : b.size ≤ t.isizeMax
  len_bytes : b.bytes.Holds 0 (t.usizeBytes bs.length)
  bytes : b.bytes.Holds t.size bs

/-- A block that holds the string with its length in front. -/
structure BlockHolds (t : Target) (b : Block) (s : String) : Prop where
  len_gt : t.nicheMaxInt < s.utf8ByteSize
  cap_le : blockSize t s.utf8ByteSize ≤ b.size
  size_le : b.size ≤ t.isizeMax
  len_bytes : b.bytes.Holds 0 (t.usizeBytes s.utf8ByteSize)
  str_bytes : b.bytes.Holds t.size (strBytes s)

namespace BlockStores

variable {b : Block} {bs : List UInt8} {h : Heap} {r : HeapRepr}

theorem fits (hb : BlockStores t b bs) : t.size + bs.length ≤ b.size :=
  (le_blockSize t _).trans hb.cap_le

theorem storesLen (hb : BlockStores t b bs) (hl : h.live r.addr = some b) :
    StoresLen t h r b bs.length :=
  .of_holds hl hb.len_gt hb.len_bytes hb.cap_le (hb.cap_le.trans hb.size_le)

theorem run_asBytes (hb : BlockStores t b bs) (hl : h.live r.addr = some b) :
    (r.asBytes t).run h = .ok bs h := by
  have hread := run_readBytes hl hb.bytes hb.fits
  simp [HeapRepr.asBytes, (hb.storesLen hl).run_len, hread]

end BlockStores

namespace BlockHolds

variable {b : Block} {s : String} {h : Heap} {r : HeapRepr}

theorem iff_stores : BlockHolds t b s ↔ BlockStores t b (strBytes s) := by
  constructor
  · intro hb
    exact
      { len_gt := by rw [length_strBytes]; exact hb.len_gt
        cap_le := by rw [length_strBytes]; exact hb.cap_le
        size_le := hb.size_le
        len_bytes := by rw [length_strBytes]; exact hb.len_bytes
        bytes := hb.str_bytes }
  · intro hb
    exact
      { len_gt := by rw [← length_strBytes]; exact hb.len_gt
        cap_le := by rw [← length_strBytes]; exact hb.cap_le
        size_le := hb.size_le
        len_bytes := by rw [← length_strBytes]; exact hb.len_bytes
        str_bytes := hb.bytes }

theorem fits (hb : BlockHolds t b s) : t.size + s.utf8ByteSize ≤ b.size := by
  rw [← length_strBytes]
  exact (iff_stores.mp hb).fits

theorem len_le (hb : BlockHolds t b s) : s.utf8ByteSize ≤ t.isizeMax := by
  have := hb.fits
  have := hb.size_le
  omega

theorem storesLen (hb : BlockHolds t b s) (hl : h.live r.addr = some b) :
    StoresLen t h r b s.utf8ByteSize := by
  rw [← length_strBytes]
  exact (iff_stores.mp hb).storesLen hl

theorem run_len (hb : BlockHolds t b s) (hl : h.live r.addr = some b) :
    (r.len t).run h = .ok s.utf8ByteSize h :=
  (hb.storesLen hl).run_len

theorem run_asBytes (hb : BlockHolds t b s) (hl : h.live r.addr = some b) :
    (r.asBytes t).run h = .ok (strBytes s) h :=
  (iff_stores.mp hb).run_asBytes hl

theorem run_asStr (hb : BlockHolds t b s) (hl : h.live r.addr = some b) :
    (r.asStr t).run h = .ok s h := by
  simp [HeapRepr.asStr, hb.run_asBytes hl]

theorem run_capacity (hb : BlockHolds t b s) (hl : h.live r.addr = some b) :
    (r.capacity t).run h = .ok (blockSize t s.utf8ByteSize) h :=
  (hb.storesLen hl).run_capacity

end BlockHolds

namespace NonEmptySinStr

/-- The word stores the bytes, whether or not they are UTF-8. -/
inductive Stores (h : Heap) (x : NonEmptySinStr t) (bs : List UInt8) : Prop
  | inline (hpos : 0 < bs.length) (hle : bs.length ≤ t.nicheMaxInt)
      (hdisc : x.disc.value.toNat = bs.length) (hdata : x.dataOrPartialPtr.Holds 0 bs)
  | heap (p : Addr t.toMachine) (b : Block) (hx : ofUsize? t p.val = some x)
      (hp : h.live p.val = some b) (hb : BlockStores t b bs)

/-- The word stands for `s`: in the word itself, or in the block it points to. -/
inductive Represents (h : Heap) (x : NonEmptySinStr t) (s : String) : Prop
  | inline (hpos : 0 < s.utf8ByteSize) (hle : s.utf8ByteSize ≤ t.nicheMaxInt)
      (hdisc : x.disc.value.toNat = s.utf8ByteSize)
      (hdata : x.dataOrPartialPtr.Holds 0 (strBytes s))
  | heap (p : Addr t.toMachine) (b : Block) (hx : ofUsize? t p.val = some x)
      (hp : h.live p.val = some b) (hb : BlockHolds t b s)

variable {h h' : Heap} {x : NonEmptySinStr t} {s : String} {bs : List UInt8}

/-- Standing for a string is storing its bytes. -/
theorem represents_iff : Represents h x s ↔ Stores h x (strBytes s) := by
  constructor
  · intro r
    cases r with
    | inline hpos hle hdisc hdata =>
        exact .inline (by rwa [length_strBytes]) (by rwa [length_strBytes])
          (by rwa [length_strBytes]) hdata
    | heap p b hx hp hb => exact .heap p b hx hp (BlockHolds.iff_stores.mp hb)
  · intro r
    cases r with
    | inline hpos hle hdisc hdata =>
        rw [length_strBytes] at hpos hle hdisc
        exact .inline hpos hle hdisc hdata
    | heap p b hx hp hb => exact .heap p b hx hp (BlockHolds.iff_stores.mpr hb)

theorem run_len_of_heap {p : Addr t.toMachine} {n : Nat} (hx : ofUsize? t p.val = some x)
    (hlen : ((HeapRepr.ofAddr p).len t).run h = .ok n h) : x.len.run h = .ok n h := by
  simp [len, isInlined_of_ofUsize? hx p.aligned, run_getHeap hx, hlen]

/-- The block a word owns. -/
def owned (x : NonEmptySinStr t) : Option Nat :=
  if x.isInlined then none else x.memory.initialized.map t.usizeValue

theorem owned_of_ofUsize? {p : Addr t.toMachine} (hx : ofUsize? t p.val = some x) :
    x.owned = some p.val := by
  simp [owned, isInlined_of_ofUsize? hx p.aligned, memory_of_ofUsize? hx,
    Machine.usizeValue_usizeBytes p.lt_modulus]

theorem owned_of_isInlined (hx : x.isInlined = true) : x.owned = none := by simp [owned, hx]

theorem disc_ne_zero {n : Nat} (hpos : 0 < n) (hdisc : x.disc.value.toNat = n) :
    x.disc.value ≠ 0 := by
  intro h0
  rw [h0] at hdisc
  exact absurd hdisc (by simpa using hpos.ne)

theorem run_inlined_asBytes {σ : Type} {r : InlinedRepr t} {u : σ} (hle : bs.length ≤ t.nicheMaxInt)
    (hlen : r.len.toNat = bs.length) (hdata : r.data.Holds 0 bs) :
    (r.asBytes : Exec σ (List UInt8)).run u = .ok bs u := by
  have hfit : bs.length ≤ r.data.length := by
    have := t.nicheMaxInt_lt_size
    rw [r.length_data]
    omega
  simp [InlinedRepr.asBytes, hlen, hfit, hdata.slice]

namespace Stores

/-- The storage mode is a function of the length. -/
theorem isInlined_eq (r : Stores h x bs) :
    x.isInlined = decide (bs.length ≤ t.nicheMaxInt) := by
  cases r with
  | inline hpos hle hdisc _ => rw [isInlined_of_disc hdisc hpos hle, decide_eq_true hle]
  | heap p b hx _ hb =>
      rw [isInlined_of_ofUsize? hx p.aligned, decide_eq_false (Nat.not_le.mpr hb.len_gt)]

theorem run_len (r : Stores h x bs) : x.len.run h = .ok bs.length h := by
  have hmode := r.isInlined_eq
  cases r with
  | inline _ hle hdisc _ => simp [len, hmode, hle, hdisc]
  | heap p b hx hp hb => exact run_len_of_heap hx (hb.storesLen hp).run_len

theorem run_asBytes (r : Stores h x bs) : x.asBytes.run h = .ok bs h := by
  have hmode := r.isInlined_eq
  cases r with
  | inline hpos hle hdisc hdata =>
      have hin : x.isInlined = true := by simpa [hle] using hmode
      simp [asBytes, hin, run_getInlined hin (disc_ne_zero hpos hdisc),
        run_inlined_asBytes (r := ⟨_, _, disc_ne_zero hpos hdisc, _⟩) hle hdisc hdata]
  | heap p b hx hp hb =>
      simp [asBytes, hmode, Nat.not_le.mpr hb.len_gt, run_getHeap hx,
        hb.run_asBytes (r := HeapRepr.ofAddr p) hp]

/-- `as_str` hands the stored bytes to `from_utf8_unchecked`. -/
theorem run_asStr (r : Stores h x bs) : x.asStr.run h = (fromUtf8Unchecked bs).run h := by
  have hmode := r.isInlined_eq
  cases r with
  | inline hpos hle hdisc hdata =>
      have hin : x.isInlined = true := by simpa [hle] using hmode
      simp [asStr, hin, run_getInlined hin (disc_ne_zero hpos hdisc), InlinedRepr.asStr,
        run_inlined_asBytes (r := ⟨_, _, disc_ne_zero hpos hdisc, _⟩) hle hdisc hdata]
  | heap p b hx hp hb =>
      simp [asStr, hmode, Nat.not_le.mpr hb.len_gt, run_getHeap hx, HeapRepr.asStr,
        hb.run_asBytes (r := HeapRepr.ofAddr p) hp]

/-- The block it owns is live. -/
theorem owned_live (r : Stores h x bs) {p : Nat} (hp : x.owned = some p) :
    (h.live p).isSome := by
  cases r with
  | inline hpos hle hdisc _ =>
      rw [owned_of_isInlined (isInlined_of_disc hdisc hpos hle)] at hp
      cases hp
  | heap q b hx hq _ =>
      rw [owned_of_ofUsize? hx, Option.some.injEq] at hp
      rw [← hp, hq]
      rfl

end Stores

namespace Represents

theorem pos (r : Represents h x s) : 0 < s.utf8ByteSize := by
  cases r with
  | inline hpos _ _ _ => exact hpos
  | heap p b _ _ hb => have := hb.len_gt; omega

theorem ne_empty (r : Represents h x s) : s ≠ "" := by
  rintro rfl
  exact absurd r.pos (Nat.lt_irrefl 0)

theorem len_le (r : Represents h x s) : s.utf8ByteSize ≤ t.isizeMax := by
  cases r with
  | inline _ hle _ _ =>
      have := t.nicheMaxInt_lt_size
      have := t.four_mul_size_lt
      omega
  | heap p b _ _ hb => exact hb.len_le

theorem isInlined_eq (r : Represents h x s) :
    x.isInlined = decide (s.utf8ByteSize ≤ t.nicheMaxInt) := by
  rw [← length_strBytes]
  exact (represents_iff.mp r).isInlined_eq

theorem isHeap_iff (r : Represents h x s) : x.isHeap = true ↔ t.nicheMaxInt < s.utf8ByteSize := by
  rw [isHeap, r.isInlined_eq]
  simp

theorem run_len (r : Represents h x s) : x.len.run h = .ok s.utf8ByteSize h := by
  rw [← length_strBytes]
  exact (represents_iff.mp r).run_len

theorem run_asBytes (r : Represents h x s) : x.asBytes.run h = .ok (strBytes s) h :=
  (represents_iff.mp r).run_asBytes

theorem run_asStr (r : Represents h x s) : x.asStr.run h = .ok s h := by
  rw [(represents_iff.mp r).run_asStr, run_fromUtf8Unchecked]

/-- Only the owned block matters. -/
theorem congr_heap (r : Represents h x s)
    (hlive : ∀ p, x.owned = some p → h'.live p = h.live p) : Represents h' x s := by
  cases r with
  | inline hpos hle hdisc hdata => exact .inline hpos hle hdisc hdata
  | heap p b hx hp hb => exact .heap p b hx (by rw [hlive p.val (owned_of_ofUsize? hx), hp]) hb

theorem owned_live (r : Represents h x s) {p : Nat} (hp : x.owned = some p) :
    (h.live p).isSome :=
  (represents_iff.mp r).owned_live hp

end Represents

end NonEmptySinStr

end Sinstr
