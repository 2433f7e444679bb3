import Sinstr.Checked
import Sinstr.Runs

/-!
# The size limit of construction

Three bounds meet near `isize::MAX`: the strict one of `is_valid_len`, the test
of `new_heap` before rounding, and the bound on a layout after rounding. They
leave a gap, which this module locates exactly for `new` and for `push_str` on
an inline value.
-/

namespace Sinstr

open Rust Exec

variable {t : Target}

/-- The lengths that `new_heap` lets through to an unchecked condition: the
strict bound excludes `isize::MAX` itself, and the rounded size of the last few
others exceeds the bound on layouts. -/
def Gap (t : Target) (n : Nat) : Prop :=
  n = t.isizeMax ∨ t.size + n ≤ t.isizeMax ∧ t.isizeMax < t.size + n + (t.align - 1)

instance (t : Target) (n : Nat) : Decidable (Gap t n) := inferInstanceAs (Decidable (_ ∨ _))

theorem lt_of_gap {n : Nat} (h : Gap t n) : t.nicheMaxInt < n := by
  have := t.four_mul_size_lt
  have := t.nicheMaxInt_lt_size
  have := t.align_le_size
  rcases h with h | ⟨_, h⟩ <;> omega

theorem le_of_gap {n : Nat} (h : Gap t n) : n ≤ t.isizeMax := by
  rcases h with h | ⟨h, _⟩ <;> omega

/-- The size a request for a new block asks for. -/
def requested : Call → Option Nat
  | .alloc _ size => some size
  | .allocFailed size => some size
  | _ => none

/-- A call that makes a heap string of length `n` returns or unwinds, no sum in
it wraps, and every new block it asks for has a valid size. -/
structure ConstructionSafe (t : Target) (n : Nat) (h h' : Heap) (fault : Option Fault) : Prop where
  unwinds : ∀ e, fault = some e → e.Unwinds
  total_size : t.add t.size n = t.size + n
  step : t.add (t.size + n) (lenCapStep t) = t.size + n + lenCapStep t
  layouts : ∀ call ∈ h'.calls, ∀ size, requested call = some size →
    call ∈ h.calls ∨ size = nextStep t (t.add t.size n) ∧ 0 < size ∧ size ≤ t.isizeMax

section Safe

variable {n : Nat} {h h' : Heap} {fault : Option Fault}

/-- Sums of a legal length with the size of a word and one step. -/
theorem ConstructionSafe.of (hn : n ≤ t.nicheMaxInt + t.isizeMax)
    (hunwinds : ∀ e, fault = some e → e.Unwinds)
    (hlayouts : ∀ call ∈ h'.calls, ∀ size, requested call = some size →
      call ∈ h.calls ∨ size = nextStep t (t.add t.size n) ∧ 0 < size ∧ size ≤ t.isizeMax) :
    ConstructionSafe t n h h' fault := by
  have hM := t.modulus_eq
  have hsize := t.four_mul_size_lt
  have hlow := t.nicheMaxInt_lt_size
  have halign := t.align_le_size
  exact
    { unwinds := hunwinds
      total_size := Machine.add_eq (by omega)
      step := Machine.add_eq (by rw [lenCapStep]; omega)
      layouts := hlayouts }

/-- A call that asks for no block. -/
theorem ConstructionSafe.of_calls_eq (hn : n ≤ t.nicheMaxInt + t.isizeMax)
    (hunwinds : ∀ e, fault = some e → e.Unwinds) (hcalls : h'.calls = h.calls) :
    ConstructionSafe t n h h' fault :=
  .of hn hunwinds fun _ hcall _ _ => Or.inl (hcalls ▸ hcall)

/-- A call that asks for the block of a string of length `n`. -/
theorem ConstructionSafe.of_request {call : Call} (hn : n ≤ t.isizeMax)
    (hunwinds : ∀ e, fault = some e → e.Unwinds) (hcalls : h'.calls = call :: h.calls)
    (hcall : requested call = some (blockSize t n)) (hmax : blockSize t n ≤ t.isizeMax) :
    ConstructionSafe t n h h' fault := by
  refine .of (by omega) hunwinds fun d hd size hsize => ?_
  rw [hcalls, List.mem_cons] at hd
  rcases hd with rfl | hd
  · rw [hcall, Option.some.injEq] at hsize
    rw [nextStep_size_add hn, ← hsize]
    exact Or.inr ⟨rfl, blockSize_pos t n, hmax⟩
  · exact Or.inl hd

/-- A temporary buffer is not a block. -/
theorem constructionSafe_scratch_iff {k : Nat} {granted : Bool} :
    ConstructionSafe t n (h.log (.scratch k granted)) h' fault ↔
      ConstructionSafe t n h h' fault := by
  have hmem : ∀ call size, requested call = some size →
      (call ∈ (h.log (.scratch k granted)).calls ↔ call ∈ h.calls) := by
    intro call size hsize
    rw [Heap.log_calls, List.mem_cons, or_iff_right]
    rintro rfl
    cases hsize
  constructor
  · rintro ⟨hunwinds, htotal, hstep, hlayouts⟩
    exact ⟨hunwinds, htotal, hstep, fun call hcall size hsize =>
      (hlayouts call hcall size hsize).imp_left (hmem call size hsize).mp⟩
  · rintro ⟨hunwinds, htotal, hstep, hlayouts⟩
    exact ⟨hunwinds, htotal, hstep, fun call hcall size hsize =>
      (hlayouts call hcall size hsize).imp_left (hmem call size hsize).mpr⟩

end Safe

namespace NonEmptySinStr

variable {a : Allocator t.toMachine} {h : Heap} {x : NonEmptySinStr t} {c s : String}

/-- `new_heap` violates an unchecked condition exactly in the gap. -/
theorem newHeap_safe_iff (ht : t.Complete) (hN : t.nicheMaxInt < s.utf8ByteSize)
    (hlen : s.utf8ByteSize ≤ t.isizeMax) :
    ConstructionSafe t s.utf8ByteSize h (final ((newHeap a s).run h))
        (fault? ((newHeap a s).run h)) ↔ ¬Gap t s.utf8ByteSize := by
  have hround := blockSize_le_isizeMax_iff t s.utf8ByteSize
  rw [run_newHeap hN hlen]
  simp only [Gap]
  split_ifs with hmax htotal hblock
  · exact ⟨fun hs => (hs.unwinds _ rfl).elim, fun hgap => absurd (Or.inl hmax) hgap⟩
  · exact ⟨fun _ => by omega,
      fun _ => .of_calls_eq (by omega) (by simp [Fault.Unwinds]) rfl⟩
  · exact ⟨fun hs => (hs.unwinds _ rfl).elim, fun hgap => absurd (Or.inr (by omega)) hgap⟩
  · refine ⟨fun _ => by omega, fun _ => ?_⟩
    cases a.alloc h (blockSize t s.utf8ByteSize) with
    | none => exact .of_request hlen (by simp [Fault.Unwinds]) rfl rfl (Nat.not_lt.mp hblock)
    | some p =>
        cases hx : ofUsize? t p.val with
        | none => exact absurd ht (not_complete hx)
        | some x =>
            simp only [hx]
            exact .of_request hlen (by simp) rfl rfl (Nat.not_lt.mp hblock)

/-- `new(s)` is safe, whatever the allocator does: it ends as it does with overflow
checks. -/
def NewSafe (t : Target) (s : String) : Prop :=
  ∀ (a : Allocator t.toMachine) (h : Heap),
    (Checked.NonEmptySinStr.new a s).run h = (new a s).run h ∧
    ConstructionSafe t s.utf8ByteSize h (final ((new a s).run h)) (fault? ((new a s).run h))

/-- `push_str(s)` is safe on every inline value that stands for `c`. -/
def PushSafe (t : Target) (c s : String) : Prop :=
  ∀ (a : Allocator t.toMachine) (h : Heap) (x : NonEmptySinStr t), Represents h x c →
    t.add c.utf8ByteSize s.utf8ByteSize = c.utf8ByteSize + s.utf8ByteSize ∧
    (Checked.NonEmptySinStr.pushStr a s).run (x, h) = (pushStr a s).run (x, h) ∧
    ConstructionSafe t (c.utf8ByteSize + s.utf8ByteSize) h (final ((pushStr a s).run (x, h))).2
      (fault? ((pushStr a s).run (x, h)))

theorem newSafe_iff (ht : t.Complete) (hlen : s.utf8ByteSize ≤ t.isizeMax) :
    NewSafe t s ↔ ¬Gap t s.utf8ByteSize := by
  have hchecked : ∀ (a : Allocator t.toMachine) h,
      (Checked.NonEmptySinStr.new a s).run h = (new a s).run h :=
    fun _ _ => Checked.NonEmptySinStr.run_new hlen
  simp only [NewSafe, hchecked, true_and]
  by_cases hle : s.utf8ByteSize ≤ t.nicheMaxInt
  · refine ⟨fun _ hgap => absurd (lt_of_gap hgap) (Nat.not_lt.mpr hle), fun _ a h => ?_⟩
    by_cases h0 : s.utf8ByteSize = 0
    · simp only [new, h0, if_true]
      exact .of_calls_eq (by omega) (by simp) rfl
    · obtain ⟨x, hrun, _⟩ := run_newInline (t := t) (Nat.pos_of_ne_zero h0) hle
      simp only [new, h0, if_false, hle, if_true, EStateM.run_bind, hrun]
      exact .of_calls_eq (by omega) (by simp) rfl
  · have hN := Nat.not_le.mp hle
    have h0 : s.utf8ByteSize ≠ 0 := by omega
    have hnew : ∀ (a : Allocator t.toMachine) h,
        final ((new a s).run h) = final ((newHeap a s).run h) ∧
          fault? ((new a s).run h) = fault? ((newHeap a s).run h) := by
      intro a h
      simp only [new, h0, if_false, hle, EStateM.run_bind]
      cases (newHeap a s).run h <;> exact ⟨rfl, rfl⟩
    simp only [hnew, newHeap_safe_iff ht hN hlen]
    exact ⟨fun hsafe => hsafe (.among []) Heap.empty, fun hgap _ _ => hgap⟩

theorem pushSafe_iff (ht : t.Complete) (hpos : 0 < c.utf8ByteSize)
    (hcle : c.utf8ByteSize ≤ t.nicheMaxInt) (hlen : s.utf8ByteSize ≤ t.isizeMax) :
    PushSafe t c s ↔ ¬Gap t (c.utf8ByteSize + s.utf8ByteSize) := by
  have hM := t.modulus_eq
  have hsize := t.four_mul_size_lt
  have hlow := t.nicheMaxInt_lt_size
  have hcat : (c ++ s).utf8ByteSize = c.utf8ByteSize + s.utf8ByteSize := String.utf8ByteSize_append
  have hadd : t.add c.utf8ByteSize s.utf8ByteSize = c.utf8ByteSize + s.utf8ByteSize :=
    Machine.add_eq (by omega)
  constructor
  · intro hsafe hgap
    have hN := lt_of_gap hgap
    have hmax := le_of_gap hgap
    obtain ⟨x, _, r⟩ := run_newInline (t := t) hpos hcle
    -- an allocator that grants the temporary buffer
    let a : Allocator t.toMachine := .among []
    have hgrant : a.scratch Heap.empty (c.utf8ByteSize + s.utf8ByteSize) = true := rfl
    have hs := (hsafe a Heap.empty x (r Heap.empty)).2.2
    rw [run_pushStr_toHeap (r Heap.empty) hcle hlen hN] at hs
    simp only [if_neg (Nat.not_lt.mpr hmax), hgrant, if_true, final_replacing_snd,
      fault?_replacing] at hs
    rw [← constructionSafe_scratch_iff, ← hcat,
      newHeap_safe_iff ht (by omega) (by omega), hcat] at hs
    exact hs hgap
  · intro hgap a h x r
    refine ⟨hadd, Checked.NonEmptySinStr.run_pushStr r hlen, ?_⟩
    by_cases hle : c.utf8ByteSize + s.utf8ByteSize ≤ t.nicheMaxInt
    · by_cases h0 : s.utf8ByteSize = 0
      · rw [run_pushStr_empty r.run_len h0]
        exact .of_calls_eq (by omega) (by simp) rfl
      · obtain ⟨y, hrun, _⟩ := run_pushStr_inline (a := a) r (Nat.pos_of_ne_zero h0) hle
        rw [hrun]
        exact .of_calls_eq (by omega) (by simp) rfl
    · have hN := Nat.not_le.mp hle
      rw [run_pushStr_toHeap r hcle hlen hN]
      simp only
      split_ifs with hover hgrant
      · exact .of_calls_eq (by omega) (by simp [Fault.Unwinds]) rfl
      · rw [final_replacing_snd, fault?_replacing, ← constructionSafe_scratch_iff, ← hcat,
          newHeap_safe_iff ht (by omega) (by omega), hcat]
        exact hgap
      · rw [← constructionSafe_scratch_iff]
        exact .of_calls_eq (by omega) (by simp [Fault.Unwinds]) rfl

end NonEmptySinStr

/-- On 32- and 64-bit targets, making a string of a legal length from a `&str`,
or by a push onto an inline string, is safe exactly outside the gap. -/
theorem construction_safe_iff (wd : PointerWidth) (hw : wd ≠ .w16) (e : Endian) (s : String)
    (hlen : s.utf8ByteSize ≤ (wd.target e).isizeMax) :
    (NonEmptySinStr.NewSafe (wd.target e) s ↔ ¬Gap (wd.target e) s.utf8ByteSize) ∧
    ∀ c : String, 0 < c.utf8ByteSize → c.utf8ByteSize ≤ (wd.target e).nicheMaxInt →
      (NonEmptySinStr.PushSafe (wd.target e) c s ↔
        ¬Gap (wd.target e) (c.utf8ByteSize + s.utf8ByteSize)) := by
  have ht : (wd.target e).Complete := complete_of_ne_w16 hw
  exact ⟨NonEmptySinStr.newSafe_iff ht hlen, fun c hpos hcle =>
    NonEmptySinStr.pushSafe_iff ht hpos hcle hlen⟩

/-- The longest string before the gap, made at once and by a push. -/
theorem construction_safe_edge :
    NonEmptySinStr.NewSafe (PointerWidth.w64.target .little) (asciiStr (2 ^ 63 - 16)) ∧
    NonEmptySinStr.PushSafe (PointerWidth.w64.target .little) "hello"
      (asciiStr (2 ^ 63 - 21)) := by
  have hmax : (PointerWidth.w64.target .little).isizeMax = 2 ^ 63 - 1 := rfl
  have hnew := (construction_safe_iff .w64 (by decide) .little (asciiStr (2 ^ 63 - 16))
    (by rw [utf8ByteSize_asciiStr, hmax]; decide)).1
  have hpush := (construction_safe_iff .w64 (by decide) .little (asciiStr (2 ^ 63 - 21))
    (by rw [utf8ByteSize_asciiStr, hmax]; decide)).2 "hello" (by decide) (by decide)
  rw [utf8ByteSize_asciiStr] at hnew hpush
  exact ⟨hnew.mpr (by decide +kernel), hpush.mpr (by decide +kernel)⟩

/-- The longest string reaches the false `assert_unchecked` of `new_heap`, and
one of a word less has a layout that is one step too large. -/
theorem longest_not_safe :
    ¬NonEmptySinStr.NewSafe (PointerWidth.w64.target .little) (asciiStr (2 ^ 63 - 1)) ∧
    ¬NonEmptySinStr.NewSafe (PointerWidth.w64.target .little) (asciiStr (2 ^ 63 - 9)) := by
  have ht : (PointerWidth.w64.target .little).Complete := complete_of_ne_w16 (by decide)
  have hmax : (PointerWidth.w64.target .little).isizeMax = 2 ^ 63 - 1 := rfl
  have hunsafe : ∀ s : String, Gap (PointerWidth.w64.target .little) s.utf8ByteSize →
      ¬NonEmptySinStr.NewSafe (PointerWidth.w64.target .little) s := by
    intro s hgap hsafe
    exact (NonEmptySinStr.newSafe_iff ht (le_of_gap hgap)).mp hsafe hgap
  constructor
  · refine hunsafe _ ?_
    rw [utf8ByteSize_asciiStr]
    exact Or.inl hmax.symm
  · refine hunsafe _ ?_
    rw [utf8ByteSize_asciiStr]
    decide +kernel

end Sinstr
