import Sinstr.BytesMut
import Sinstr.Constants
import Sinstr.Serde
import Sinstr.Unchecked

/-!
# The whole interface in a pool

Every way to make a value of either type and every way to change one, the unsafe
functions included, each under the contract that it needs. For `set_str_unchecked`
on an empty `SinStr` that is more than the contract it documents.
-/

namespace Sinstr

open Rust

variable {t : Target}

/-- The functions that make a value of either type. -/
inductive Builder
  /-- `new`, for `NonEmptySinStr` with `unwrap`. -/
  | new (s : String)
  | newConst (s : String)
  /-- `sinstr_literal!` and `ne_sinstr_literal!`. -/
  | literal (s : String)
  | newInline (s : String)
  | newHeap (s : String)
  /-- `visit_str` of the visitor that deserializes, with `unwrap`. -/
  | visitStr (s : String)

namespace Builder

/-- The string that the value is made of. -/
def value : Builder → String
  | .new s | .newConst s | .literal s | .newInline s | .newHeap s | .visitStr s => s

/-- The contract of each builder; a constant that does not fit does not compile. -/
def Buildable (t : Target) : Builder → Prop
  | .new s | .visitStr s => s.utf8ByteSize ≤ t.isizeMax
  | .newConst s | .literal s => s.utf8ByteSize ≤ t.nicheMaxInt
  | .newInline s => 0 < s.utf8ByteSize ∧ s.utf8ByteSize ≤ t.nicheMaxInt
  | .newHeap s => t.nicheMaxInt < s.utf8ByteSize ∧ s.utf8ByteSize ≤ t.isizeMax

end Builder

/-- The functions that change a value. -/
inductive Mutator
  | setStr (s : String)
  | setStrUnchecked (s : String)
  | pushStr (s : String)
  /-- The string of `as_str_mut`, overwritten with `s`. -/
  | asStrMut (s : String)
  /-- The slice of `as_bytes_mut`, filled with `new`. -/
  | asBytesMut (new : List UInt8)

namespace Mutator

/-- What the function does to a plain string. -/
def effect : Mutator → String → String
  | .setStr s, _ => s
  | .setStrUnchecked s, _ => s
  | .pushStr s, c => c ++ s
  | .asStrMut s, _ => s
  | .asBytesMut new, c => (fromUtf8? new).getD c

/-- The contracts that do not depend on the type: an argument is a `&str`, an
overwrite keeps the length, and the bytes it leaves are UTF-8. -/
def Callable (t : Target) : Mutator → String → Prop
  | .setStr s, _ => s.utf8ByteSize ≤ t.isizeMax
  | .setStrUnchecked s, _ => 0 < s.utf8ByteSize ∧ s.utf8ByteSize ≤ t.isizeMax
  | .pushStr s, _ => s.utf8ByteSize ≤ t.isizeMax
  | .asStrMut s, c => s.utf8ByteSize = c.utf8ByteSize
  | .asBytesMut new, c => new.length = c.utf8ByteSize ∧ (fromUtf8? new).isSome

/-- Only a push may leave a block of another size than the recomputed one. -/
def Keeps (t : Target) : Mutator → String → Prop
  | .pushStr s, c => PushKeeps t c.utf8ByteSize s.utf8ByteSize
  | _, _ => True

end Mutator

/-- `result.unwrap()`. -/
def unwrap {E V : Type} (m : Exec Heap (Except E V)) : Exec Heap V := do
  match ← m with
  | .ok x => return x
  | .error _ => throw (.panic "called `Result::unwrap()` on an `Err` value")

theorem run_unwrap_ok {E V : Type} (m : Exec Heap V) (h : Heap) :
    (unwrap (do return (.ok (← m) : Except E V))).run h = m.run h := by
  simp only [unwrap, EStateM.run_bind]
  cases m.run h <;> rfl

/-- A constant that is not refused is what the runtime builder gives. -/
theorem Constant.run_eq {V : Type} {build : ∀ σ : Type, Exec σ V} {runtime : Exec Heap V}
    (hc : Constant build runtime none) (h : Heap) : (build Heap).run h = runtime.run h := by
  cases hc with
  | built x hrun hnew => rw [hrun, hnew]

namespace NonEmptySinStr

variable {a : Allocator t.toMachine} {h : Heap} {x : NonEmptySinStr t} {c s : String}

def build (a : Allocator t.toMachine) : Builder → Exec Heap (NonEmptySinStr t)
  | .new s => newUnwrap a s
  | .newConst s => newConst t s
  | .literal s => neSinstrLiteral t s
  | .newInline s => newInline t s
  | .newHeap s => newHeap a s
  | .visitStr s => unwrap ((nonEmptySinStrVisitor ⟨fun _ _ => (), fun _ _ => ()⟩ a).visitStr s)

/-- The visitor of a string that is not empty does what `new` does. -/
theorem run_unwrap_visitStr {E : Type} {errors : DeError E} (hpos : 0 < s.utf8ByteSize) :
    (unwrap ((nonEmptySinStrVisitor errors a).visitStr s)).run h = (newUnwrap a s).run h := by
  simp only [unwrap, EStateM.run_bind, run_visitStr hpos]
  cases (newUnwrap a s).run h <;> rfl

theorem run_newUnwrap_heap (hN : t.nicheMaxInt < s.utf8ByteSize) :
    (newUnwrap a s).run h = (newHeap a s).run h := by
  have hpos : s.utf8ByteSize ≠ 0 := by omega
  simp only [newUnwrap, new, hpos, if_false, ge_iff_le, Nat.not_le.mpr hN, EStateM.run_bind]
  cases (newHeap a s).run h <;> rfl

/-- Every builder makes the value that `new` makes. -/
theorem run_build {b : Builder} (hpos : 0 < b.value.utf8ByteSize) (hb : b.Buildable t) :
    (build a b).run h = (newUnwrap a b.value).run h := by
  have hconst {build : ∀ σ : Type, Exec σ (NonEmptySinStr t)} {empty message s : String}
      (hc : Constant build (newUnwrap a s) (refusal t (some empty) message s))
      (hpos : 0 < s.utf8ByteSize) (hle : s.utf8ByteSize ≤ t.nicheMaxInt) :
      (build Heap).run h = (newUnwrap a s).run h := by
    rw [refusal, if_neg hpos.ne', if_pos hle] at hc
    exact hc.run_eq h
  cases b with
  | new s => rfl
  | newConst s => exact hconst (newConst_constant a s) hpos hb
  | literal s => exact hconst (literal_constant a s) hpos hb
  | newInline s => exact (run_newUnwrap_inline hb.1 hb.2 h).symm
  | newHeap s => exact (run_newUnwrap_heap hb.1).symm
  | visitStr s => exact run_unwrap_visitStr hpos

end NonEmptySinStr

theorem Builder.Buildable.len_le {b : Builder} (hb : b.Buildable t) :
    b.value.utf8ByteSize ≤ t.isizeMax := by
  have hsize := t.nicheMaxInt_lt_size
  have hroom := t.four_mul_size_lt
  cases b with
  | new s | visitStr s => exact hb
  | newConst s | literal s => exact le_trans hb (by omega)
  | newInline s => exact hb.2.trans (by omega)
  | newHeap s => exact hb.2

namespace NonEmptySinStr

variable {a : Allocator t.toMachine} {h : Heap} {x : NonEmptySinStr t} {c s : String}

theorem built_build {b : Builder} (hpos : 0 < b.value.utf8ByteSize) (hb : b.Buildable t) :
    (resource t).Built h b.value ((build a b).run h) := by
  rw [run_build hpos hb]
  exact built_newUnwrap hpos hb.len_le

def mutate (a : Allocator t.toMachine) : Mutator → Exec (NonEmptySinStr t × Heap) Unit
  | .setStr s => setStr a s
  | .setStrUnchecked s => setStrUnchecked a s
  | .pushStr s => pushStr a s
  | .asStrMut s => asStrMut s
  | .asBytesMut new => asBytesMut new

theorem outcome_mutate {m : Mutator} (r : (resource t).Rep h x c) (hcall : m.Callable t c) :
    ((resource t).withFaults (MayFault t)).Outcome (m.Keeps t c) h x c (m.effect c)
      ((mutate a m).run (x, h)) := by
  cases m with
  | setStr s => exact (interface a).called (m := .setStr s) r hcall
  | pushStr s => exact (interface a).called (m := .pushStr s) r hcall
  | asStrMut s => exact (interface a).called (m := .asStrMut s) r hcall
  | setStrUnchecked s => exact (outcome_setStrUnchecked r hcall.1 hcall.2).withFaults .of
  | asBytesMut new =>
      obtain ⟨hlen, hsome⟩ := hcall
      obtain ⟨s, hs⟩ := Option.isSome_iff_exists.mp hsome
      obtain rfl := fromUtf8?_eq_some_iff.mp hs
      rw [length_strBytes] at hlen
      rw [mutate, ← run_asStrMut r, Mutator.effect, hs]
      exact (outcome_asStrMut r hlen).withFaults .of

/-- The whole interface of `NonEmptySinStr`. -/
def api (a : Allocator t.toMachine) : Interface (NonEmptySinStr t) String Builder Mutator where
  toResource := (resource t).withFaults (MayFault t)
  build := build a
  value := Builder.value
  Buildable b := 0 < b.value.utf8ByteSize ∧ b.Buildable t
  clone := clone a
  call := mutate a
  effect := Mutator.effect
  Callable := Mutator.Callable t
  Keeps := Mutator.Keeps t
  built hb := (built_build hb.1 hb.2).withFaults .of
  cloned := (interface a).cloned
  called := outcome_mutate

end NonEmptySinStr

namespace SinStr

variable {a : Allocator t.toMachine} {h : Heap} {x : SinStr t} {c s : String}

/-- `FromStr::from_str`, whose error type has no values. -/
def fromStr (a : Allocator t.toMachine) (s : String) : Exec Heap (Except Empty (SinStr t)) := do
  return .ok (← new a s)

/-- The functions that make a `SinStr`. -/
inductive Maker
  | of (b : Builder)
  /-- `Default::default`, the constant `EMPTY`. -/
  | default
  /-- `From<&str>::from`. -/
  | from (s : String)
  | fromStr (s : String)

def Maker.value : Maker → String
  | .of b => b.value
  | .default => ""
  | .from s | .fromStr s => s

def Maker.Buildable (t : Target) : Maker → Prop
  | .of b => b.Buildable t
  | .default => True
  | .from s | .fromStr s => s.utf8ByteSize ≤ t.isizeMax

def build (a : Allocator t.toMachine) : Maker → Exec Heap (SinStr t)
  | .of (.new s) => new a s
  | .of (.newConst s) => newConst t s
  | .of (.literal s) => sinstrLiteral t s
  | .of (.newInline s) => newInline t s
  | .of (.newHeap s) => newHeap a s
  | .of (.visitStr s) => unwrap (E := Unit) ((sinStrVisitor a).visitStr s)
  | .default => return EMPTY
  | .from s => new a s
  | .fromStr s => unwrap (fromStr a s)

/-- Every builder makes the value that `new` makes. -/
theorem run_build {b : Maker} (hb : b.Buildable t) :
    (build a b).run h = (new a b.value).run h := by
  have hconst {build : ∀ σ : Type, Exec σ (SinStr t)} {message s : String}
      (hc : Constant build (new a s) (refusal t none message s))
      (hle : s.utf8ByteSize ≤ t.nicheMaxInt) : (build Heap).run h = (new a s).run h := by
    rw [refusal, if_pos hle, ite_self] at hc
    exact hc.run_eq h
  cases b with
  | of b =>
      cases b with
      | new s => rfl
      | newConst s => exact hconst (newConst_constant a s) hb
      | literal s => exact hconst (literal_constant a s) hb
      | newInline s =>
          have hne : s.utf8ByteSize ≠ 0 := hb.1.ne'
          have hle : s.utf8ByteSize ≤ t.nicheMaxInt := hb.2
          obtain ⟨n, hrun, _⟩ := NonEmptySinStr.run_newInline (t := t) hb.1 hle
          simp only [build, Maker.value, Builder.value, newInline, new, NonEmptySinStr.new, hne,
            hle, if_true, if_false, EStateM.run_bind, hrun, EStateM.run_pure]
      | newHeap s =>
          have hN : t.nicheMaxInt < s.utf8ByteSize := hb.1
          have hne : s.utf8ByteSize ≠ 0 := by omega
          simp only [build, Maker.value, Builder.value, newHeap, new, NonEmptySinStr.new, hne,
            ge_iff_le, Nat.not_le.mpr hN, if_false, EStateM.run_bind]
          cases (NonEmptySinStr.newHeap a s).run h <;> rfl
      | visitStr s => exact run_unwrap_ok (new a s) h
  | default => rfl
  | «from» s => rfl
  | fromStr s => exact run_unwrap_ok (new a s) h

theorem Maker.Buildable.len_le {b : Maker} (hb : b.Buildable t) :
    b.value.utf8ByteSize ≤ t.isizeMax := by
  cases b with
  | of b => exact Builder.Buildable.len_le hb
  | default => exact Nat.zero_le _
  | «from» s | fromStr s => exact hb

theorem built_build {b : Maker} (hb : b.Buildable t) :
    (resource t).Built h b.value ((build a b).run h) := by
  rw [run_build hb]
  exact built_new hb.len_le

def mutate (a : Allocator t.toMachine) : Mutator → Exec (SinStr t × Heap) Unit
  | .setStr s => setStr a s
  | .setStrUnchecked s => setStrUnchecked a s
  | .pushStr s => pushStr a s
  | .asStrMut s => asStrMut s
  | .asBytesMut new => asBytesMut new

/-- The unchecked setter also needs that an empty value is not given an inline length. -/
def Callable (t : Target) (m : Mutator) (c : String) : Prop :=
  m.Callable t c ∧ ∀ s, m = .setStrUnchecked s → c = "" → t.nicheMaxInt < s.utf8ByteSize

theorem outcome_mutate {m : Mutator} (r : (resource t).Rep h x c) (hcall : Callable t m c) :
    (resource t).Outcome (m.Keeps t c) h x c (m.effect c) ((mutate a m).run (x, h)) := by
  obtain ⟨hcall, hempty⟩ := hcall
  cases m with
  | setStr s => exact outcome_setStr r hcall
  | pushStr s => exact outcome_pushStr r hcall
  | asStrMut s => exact outcome_asStrMut r hcall
  | setStrUnchecked s =>
      have hsome : x = EMPTY → t.nicheMaxInt < s.utf8ByteSize := by
        rintro rfl
        exact hempty s rfl r
      rw [mutate, run_setStrUnchecked hcall.1 hsome]
      exact outcome_setStr r hcall.2
  | asBytesMut new =>
      obtain ⟨hlen, hvalid⟩ := hcall
      obtain ⟨s, hs⟩ := Option.isSome_iff_exists.mp hvalid
      obtain rfl := fromUtf8?_eq_some_iff.mp hs
      rw [length_strBytes] at hlen
      rw [mutate, ← run_asStrMut r, Mutator.effect, hs]
      exact outcome_asStrMut r hlen

/-- The whole interface of `SinStr`. -/
def api (a : Allocator t.toMachine) : Interface (SinStr t) String Maker Mutator where
  toResource := resource t
  build := build a
  value := Maker.value
  Buildable := Maker.Buildable t
  clone := clone a
  call := mutate a
  effect := Mutator.effect
  Callable := Callable t
  Keeps := Mutator.Keeps t
  built := built_build
  cloned := built_clone
  called := outcome_mutate

end SinStr

end Sinstr
