import Sinstr.Runs

/-!
# Constants and literals

`new_const` and the two literal macros build inline values while the program is
compiled. Each panics exactly on the strings that do not belong in the word, and
otherwise gives the word that `new` gives at run time.
-/

namespace Sinstr

open Rust

variable {t : Target}

/-- `sinstr_literal!`. -/
def sinstrLiteral {σ : Type} (t : Target) (s : String) : Exec σ (SinStr t) := do
  Exec.panicUnless (s.utf8ByteSize ≤ t.nicheMaxInt) "string does not fit into inline storage"
  if s.utf8ByteSize = 0 then return SinStr.EMPTY
  else SinStr.newInline t s

/-- `ne_sinstr_literal!`. -/
def neSinstrLiteral {σ : Type} (t : Target) (s : String) : Exec σ (NonEmptySinStr t) := do
  Exec.panicUnless (s.utf8ByteSize ≤ t.nicheMaxInt) "string does not fit into inline storage"
  Exec.panicUnless (s.utf8ByteSize ≠ 0) "string is empty"
  NonEmptySinStr.newInline t s

/-- A builder that needs no heap refuses with a panic, or gives in any state the
value that `runtime` gives in any heap; neither leaves a trace. -/
inductive Constant {V : Type} (build : ∀ σ : Type, Exec σ V) (runtime : Exec Heap V) :
    Option String → Prop
  | refused {message} (hrun : ∀ {σ : Type} (u : σ),
      (build σ).run u = .error (.panic message) u) : Constant build runtime (some message)
  | built (x : V) (hrun : ∀ {σ : Type} (u : σ), (build σ).run u = .ok x u)
      (hnew : ∀ h, runtime.run h = .ok x h) : Constant build runtime none

/-- The message with which a builder refuses a string that does not belong in the
word: an empty one, if it is refused at all, or one that is too long. -/
def refusal (t : Target) (onEmpty : Option String) (onLong : String) (s : String) :
    Option String :=
  if s.utf8ByteSize = 0 then onEmpty
  else if s.utf8ByteSize ≤ t.nicheMaxInt then none
  else some onLong

namespace NonEmptySinStr

variable {a : Allocator t.toMachine} {s : String}

theorem run_newUnwrap_inline (hpos : 0 < s.utf8ByteSize) (hle : s.utf8ByteSize ≤ t.nicheMaxInt)
    (h : Heap) : (newUnwrap a s).run h = (newInline t s).run h := by
  obtain ⟨x, hrun, _⟩ := run_newInline (t := t) hpos hle
  simp only [newUnwrap, new, hpos.ne', if_false, ge_iff_le, hle, if_true, EStateM.run_bind, hrun,
    EStateM.run_pure]

/-- A builder that runs `new_inline` once its checks have passed. -/
theorem constant_of_newInline {build : ∀ σ : Type, Exec σ (NonEmptySinStr t)}
    (hpos : 0 < s.utf8ByteSize) (hle : s.utf8ByteSize ≤ t.nicheMaxInt)
    (hbuild : ∀ {σ : Type} (u : σ), (build σ).run u = (newInline t s).run u) :
    Constant build (newUnwrap a s) none := by
  obtain ⟨x, hrun, _⟩ := run_newInline (t := t) hpos hle
  refine .built x (fun u => ?_) fun h => ?_
  · rw [hbuild, hrun]
  · rw [run_newUnwrap_inline hpos hle, hrun]

theorem newConst_constant (a : Allocator t.toMachine) (s : String) :
    Constant (fun _ => newConst t s) (newUnwrap a s)
      (refusal t (some "Cannot construct empty NonEmptySinStr")
        "Cannot construct string greater than inline capacity at compile time" s) := by
  unfold refusal
  split_ifs with h0 hle
  · exact .refused fun u => by simp [newConst, h0]
  · exact constant_of_newInline (Nat.pos_of_ne_zero h0) hle fun u => by simp [newConst, h0, hle]
  · exact .refused fun u => by simp [newConst, h0, hle]

theorem literal_constant (a : Allocator t.toMachine) (s : String) :
    Constant (fun _ => neSinstrLiteral t s) (newUnwrap a s)
      (refusal t (some "string is empty") "string does not fit into inline storage" s) := by
  unfold refusal
  split_ifs with h0 hle
  · exact .refused fun u => by simp [neSinstrLiteral, h0]
  · exact constant_of_newInline (Nat.pos_of_ne_zero h0) hle fun u => by
      simp [neSinstrLiteral, h0, hle]
  · exact .refused fun u => by simp [neSinstrLiteral, hle]

end NonEmptySinStr

namespace SinStr

variable {a : Allocator t.toMachine} {s : String}

/-- The empty string is built without `new_inline`. -/
theorem constant_of_newInline {build : ∀ σ : Type, Exec σ (SinStr t)}
    (hempty : s.utf8ByteSize = 0 → ∀ {σ : Type} (u : σ), (build σ).run u = .ok EMPTY u)
    (hbuild : 0 < s.utf8ByteSize → ∀ {σ : Type} (u : σ),
      (build σ).run u = (newInline t s).run u)
    (hle : s.utf8ByteSize ≤ t.nicheMaxInt) : Constant build (new a s) none := by
  by_cases h0 : s.utf8ByteSize = 0
  · exact .built EMPTY (hempty h0) fun h => by simp [new, NonEmptySinStr.new, h0, EMPTY]
  · obtain ⟨n, hrun, _⟩ := NonEmptySinStr.run_newInline (t := t) (Nat.pos_of_ne_zero h0) hle
    refine .built ⟨some n⟩ (fun u => ?_) fun h => ?_
    · simp [hbuild (Nat.pos_of_ne_zero h0), newInline, hrun]
    · simp [new, NonEmptySinStr.new, h0, hle, hrun]

theorem newConst_constant (a : Allocator t.toMachine) (s : String) :
    Constant (fun _ => newConst t s) (new a s)
      (refusal t none
        "Cannot construct string greater than inline capacity at compile time" s) := by
  have hfits (hle : s.utf8ByteSize ≤ t.nicheMaxInt) :
      Constant (fun _ => newConst t s) (new a s) none :=
    constant_of_newInline (fun h0 _ u => by simp [newConst, h0, EMPTY])
      (fun hpos _ u => by simp [newConst, NonEmptySinStr.newConst, newInline, hpos.ne', hle]) hle
  unfold refusal
  split_ifs with h0 hle
  · exact hfits (by omega)
  · exact hfits hle
  · exact .refused fun u => by simp [newConst, NonEmptySinStr.newConst, h0, hle]

theorem literal_constant (a : Allocator t.toMachine) (s : String) :
    Constant (fun _ => sinstrLiteral t s) (new a s)
      (refusal t none "string does not fit into inline storage" s) := by
  have hfits (hle : s.utf8ByteSize ≤ t.nicheMaxInt) :
      Constant (fun _ => sinstrLiteral t s) (new a s) none :=
    constant_of_newInline (fun h0 _ u => by simp [sinstrLiteral, h0])
      (fun hpos _ u => by simp [sinstrLiteral, hpos.ne', hle]) hle
  unfold refusal
  split_ifs with h0 hle
  · exact hfits (by omega)
  · exact hfits hle
  · exact .refused fun u => by simp [sinstrLiteral, hle]

end SinStr

/-- Whatever the string, a value made at compile time is the word that `new` makes
at run time, and the compile-time builders refuse exactly the strings that do not
belong in the word, each with its own message. -/
theorem constants_agree (a : Allocator t.toMachine) (s : String) :
    Constant (fun _ => NonEmptySinStr.newConst t s) (NonEmptySinStr.newUnwrap a s)
      (refusal t (some "Cannot construct empty NonEmptySinStr")
        "Cannot construct string greater than inline capacity at compile time" s) ∧
    Constant (fun _ => neSinstrLiteral t s) (NonEmptySinStr.newUnwrap a s)
      (refusal t (some "string is empty") "string does not fit into inline storage" s) ∧
    Constant (fun _ => SinStr.newConst t s) (SinStr.new a s)
      (refusal t none
        "Cannot construct string greater than inline capacity at compile time" s) ∧
    Constant (fun _ => sinstrLiteral t s) (SinStr.new a s)
      (refusal t none "string does not fit into inline storage" s) :=
  ⟨NonEmptySinStr.newConst_constant a s, NonEmptySinStr.literal_constant a s,
    SinStr.newConst_constant a s, SinStr.literal_constant a s⟩

end Sinstr
