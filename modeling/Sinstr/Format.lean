import Sinstr.Runs

/-!
# The one-word format

A word is the encoding of a heap address or of a short string, never of both,
and decodes to what was encoded, in either byte order and on every declared
width. The exception is the 16-bit table of discriminants, which skips three
of the bytes that an address can end in.
-/

namespace Sinstr

open Rust

variable {t : Target}

/-- When the allocator returns `p`, `new_heap` stores a word with a declared
discriminant that is not taken for an inline string and reads back as `p`. -/
def AddressDecodes (t : Target) (p : Addr t.toMachine) : Prop :=
  ∀ (a : Allocator t.toMachine) (h : Heap) (s : String), t.nicheMaxInt < s.utf8ByteSize →
    blockSize t s.utf8ByteSize ≤ t.isizeMax →
    a.alloc h (blockSize t s.utf8ByteSize) = some p →
    ∃ x h', (NonEmptySinStr.newHeap a s).run h = .ok x h' ∧ x.disc.value ∈ t.variants ∧
      x.isInlined = false ∧
      (x.getHeap : Exec Heap HeapRepr).run h' = .ok (HeapRepr.ofAddr p) h'

/-- A short string is stored inline and reads back, also after appending to it
within the word. -/
def InlineDecodes (t : Target) (s : String) : Prop :=
  0 < s.utf8ByteSize → s.utf8ByteSize ≤ t.nicheMaxInt →
    ∃ x : NonEmptySinStr t, ∀ h : Heap,
      (NonEmptySinStr.newInline t s : Exec Heap (NonEmptySinStr t)).run h = .ok x h ∧
      x.disc.value ∈ t.variants ∧ x.isInlined = true ∧ x.asBytes.run h = .ok (strBytes s) h ∧
      ∀ (a : Allocator t.toMachine) (s' : String),
        s.utf8ByteSize + s'.utf8ByteSize ≤ t.nicheMaxInt →
        ∃ x', (NonEmptySinStr.pushStr a s').run (x, h) = .ok () (x', h) ∧
          x'.disc.value ∈ t.variants ∧ x'.isInlined = true ∧
          x'.asBytes.run h = .ok (strBytes s ++ strBytes s') h

/-- No word that `new_inline` builds for `s` is the word of the address `p`. -/
def Unambiguous (t : Target) (p : Addr t.toMachine) (s : String) : Prop :=
  ∀ (x y : NonEmptySinStr t) (h : Heap),
    (NonEmptySinStr.newInline t s : Exec Heap (NonEmptySinStr t)).run h = .ok x h →
    NonEmptySinStr.ofUsize? t p.val = some y → x.memory ≠ y.memory

namespace NonEmptySinStr

/-- The bytes of a word determine its discriminant. -/
theorem disc_eq_of_memory {x y : NonEmptySinStr t} (h : x.memory = y.memory) :
    x.disc.value = y.disc.value := by
  unfold memory at h
  cases he : t.endian with
  | little =>
      simp only [he, List.cons.injEq, Option.some.injEq] at h
      exact h.1
  | big =>
      simp only [he] at h
      have hlast := congrArg List.getLast? h
      simpa using hlast

end NonEmptySinStr

open NonEmptySinStr in
theorem inlineDecodes (s : String) : InlineDecodes t s := by
  intro hpos hle
  obtain ⟨x, hrun, hrep⟩ := run_newInline (t := t) hpos hle
  refine ⟨x, fun h => ⟨hrun h, x.disc.declared, ?_, (hrep h).run_asBytes, fun a s' hle' => ?_⟩⟩
  · rw [(hrep h).isInlined_eq]
    exact decide_eq_true hle
  · rcases Nat.eq_zero_or_pos s'.utf8ByteSize with h0 | hpos'
    · refine ⟨x, ?_, x.disc.declared, ?_, ?_⟩
      · exact run_pushStr_empty (hrep h).run_len h0
      · rw [(hrep h).isInlined_eq]
        exact decide_eq_true hle
      · rw [utf8ByteSize_eq_zero.mp h0, (hrep h).run_asBytes, ← strBytes_append,
          String.append_empty]
    · obtain ⟨x', hpush, hin, r'⟩ := run_pushStr_inline (a := a) (hrep h) hpos' hle'
      refine ⟨x', hpush, x'.disc.declared, hin, ?_⟩
      rw [r'.run_asBytes, strBytes_append]

open NonEmptySinStr in
theorem unambiguous (p : Addr t.toMachine) (s : String) : Unambiguous t p s := by
  intro x y h hx hy hmem
  have hnot := isInlined_of_ofUsize? hy p.aligned
  have hsame : x.isInlined = y.isInlined := by rw [isInlined, isInlined, disc_eq_of_memory hmem]
  by_cases hs : 0 < s.utf8ByteSize ∧ s.utf8ByteSize ≤ t.nicheMaxInt
  · obtain ⟨x', hrun, hrep⟩ := run_newInline (t := t) hs.1 hs.2
    rw [hrun h, EStateM.Result.ok.injEq] at hx
    obtain rfl := hx.1
    rw [(hrep h).isInlined_eq, hnot, decide_eq_true hs.2] at hsame
    cases hsame
  · simp only [newInline, EStateM.run_bind, Exec.run_require, if_neg hs] at hx
    cases hx

open NonEmptySinStr in
/-- The address decodes exactly when its low byte is declared. -/
theorem addressDecodes_iff (p : Addr t.toMachine) :
    AddressDecodes t p ↔ UInt8.ofNat p.val ∈ t.variants := by
  have hsize := t.four_mul_size_lt
  have hlow := t.nicheMaxInt_lt_size
  have halign := t.align_le_size
  constructor
  · intro hdec
    -- a string that is just too long for the word
    have hs := utf8ByteSize_asciiStr (t.nicheMaxInt + 1)
    generalize asciiStr (t.nicheMaxInt + 1) = s at hs
    have hblock : blockSize t s.utf8ByteSize ≤ t.isizeMax := by
      rw [blockSize_le_isizeMax_iff]
      omega
    have halloc :
        (Allocator.among [p]).alloc Heap.empty (blockSize t s.utf8ByteSize) = some p := rfl
    obtain ⟨x, h', hrun, _⟩ := hdec (.among [p]) Heap.empty s (by omega) hblock halloc
    rw [run_newHeap (by omega) (by omega), if_neg (by omega), if_neg (by omega),
      if_neg (Nat.not_lt.mpr hblock), halloc] at hrun
    cases hx : ofUsize? t p.val with
    | none => simp only [hx] at hrun; cases hrun
    | some y => exact ofUsize?_isSome_iff.mp (by rw [hx]; rfl)
  · intro hmem a h s hN hblock halloc
    obtain ⟨x, hx⟩ := Option.isSome_iff_exists.mp (ofUsize?_isSome_iff.mpr hmem)
    have hroom := le_blockSize t s.utf8ByteSize
    rw [run_newHeap hN (by omega), if_neg (by omega), if_neg (by omega),
      if_neg (Nat.not_lt.mpr hblock), halloc]
    simp only [hx]
    exact ⟨x, _, rfl, x.disc.declared, isInlined_of_ofUsize? hx p.aligned, run_getHeap hx _⟩

/-- On every declared width and in either byte order, the format decodes and is
unambiguous except for the addresses on 16-bit targets whose low byte is 4, 6
or 8. -/
theorem format_decodes_iff (wd : PointerWidth) (e : Endian) (p : Addr (wd.target e).toMachine)
    (s : String) :
    (AddressDecodes (wd.target e) p ∧ InlineDecodes (wd.target e) s ∧
        Unambiguous (wd.target e) p s) ↔
      ¬(wd = .w16 ∧ (p.val % 256 = 4 ∨ p.val % 256 = 6 ∨ p.val % 256 = 8)) := by
  rw [addressDecodes_iff, wd.declared_iff e p.aligned]
  exact ⟨fun h => h.1, fun h => ⟨h, inlineDecodes s, unambiguous p s⟩⟩

/-- A 16-bit address whose low byte the table skips. -/
def skippedAddr : Addr (PointerWidth.w16.target .little).toMachine :=
  ⟨0x2004, by decide, by decide, by decide⟩

theorem skippedAddr_not_decoded :
    ¬AddressDecodes (PointerWidth.w16.target .little) skippedAddr := by
  intro hdec
  have hreturns : Exec.returns ((NonEmptySinStr.newHeap (.among [skippedAddr]) "ab").run
      Heap.empty) = false := by decide +kernel
  obtain ⟨x, h', hrun, _⟩ := hdec (.among [skippedAddr]) Heap.empty "ab" (by decide +kernel)
    (by decide +kernel) rfl
  rw [hrun] at hreturns
  cases hreturns

end Sinstr
