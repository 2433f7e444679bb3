import Sinstr.Runs

/-!
# Serialization

The crate serializes a value as the string it stands for and builds it again from
a visited string. The traits and their default methods belong to `serde`; a data
format is any serializer together with a reader of what it wrote.
-/

namespace Sinstr

open Rust

variable {t : Target}

/-- `serde::de::Unexpected`. Only strings are told apart by their content here. -/
inductive Unexpected
  | str (s : String)
  | other (kind : String)
  deriving DecidableEq, Repr

/-- The constructors of `serde::de::Error`. The expectation is the text that
`Visitor::expecting` writes. -/
structure DeError (E : Type) where
  invalidValue : Unexpected → String → E
  invalidType : Unexpected → String → E

/-- The methods of `serde::de::Visitor` that the crate implements. -/
structure Visitor (E V : Type) where
  expecting : String
  visitStr : String → Exec Heap (Except E V)

/-- What a deserializer found, and which method of its visitor it calls. -/
inductive Input
  | str (s : String)
  | borrowedStr (s : String)
  | string (s : String)
  | char (c : Char)
  | other (found : Unexpected)

/-- The string that reaches `visit_str`. -/
def Input.str? : Input → Option String
  | .str s | .borrowedStr s | .string s => some s
  | .char c => some (String.singleton c)
  | .other _ => none

/-- The visitor's methods: those that are not implemented forward to `visit_str` or
reject the type. -/
def Visitor.visit {E V : Type} (errors : DeError E) (visitor : Visitor E V) :
    Input → Exec Heap (Except E V)
  | .str s | .borrowedStr s | .string s => visitor.visitStr s
  | .char c => visitor.visitStr (String.singleton c)
  | .other found => return .error (errors.invalidType found visitor.expecting)

/-- `Deserializer::deserialize_str`: the deserializer fails, or calls the visitor. -/
def deserializeStr {E V : Type} (errors : DeError E) (input : Except E Input)
    (visitor : Visitor E V) : Exec Heap (Except E V) :=
  match input with
  | .error e => return .error e
  | .ok found => visitor.visit errors found

/-- `NonEmptySinStrVisitor::expecting`. -/
def nonEmptyExpecting : String := "Expected string with at least a 1 byte of data"

/-- `NonEmptySinStrVisitor`. The argument of `ok_or` is made in either case. -/
def nonEmptySinStrVisitor {E : Type} (errors : DeError E) (a : Allocator t.toMachine) :
    Visitor E (NonEmptySinStr t) where
  expecting := nonEmptyExpecting
  visitStr v := do
    let made ← NonEmptySinStr.new a v
    let error := errors.invalidValue (.str v) nonEmptyExpecting
    match made with
    | some x => return .ok x
    | none => return .error error

/-- `SinStrVisitor::expecting`. -/
def sinStrExpecting : String := "Expected string"

/-- `SinStrVisitor`. -/
def sinStrVisitor {E : Type} (a : Allocator t.toMachine) : Visitor E (SinStr t) where
  expecting := sinStrExpecting
  visitStr v := do return .ok (← SinStr.new a v)

/-- `Deserialize for NonEmptySinStr`. -/
def NonEmptySinStr.deserialize {E : Type} (errors : DeError E) (a : Allocator t.toMachine)
    (input : Except E Input) : Exec Heap (Except E (NonEmptySinStr t)) :=
  deserializeStr errors input (nonEmptySinStrVisitor errors a)

/-- `Deserialize for SinStr`. -/
def SinStr.deserialize {E : Type} (errors : DeError E) (a : Allocator t.toMachine)
    (input : Except E Input) : Exec Heap (Except E (SinStr t)) :=
  deserializeStr errors input (sinStrVisitor a)

/-- `Serialize for NonEmptySinStr`, where `serializeStr` is that of the serializer. -/
def NonEmptySinStr.serialize {E O : Type} (serializeStr : String → Except E O)
    (self : NonEmptySinStr t) : Exec Heap (Except E O) := do
  return serializeStr (← self.asStr)

/-- `Serialize for SinStr`. -/
def SinStr.serialize {E O : Type} (serializeStr : String → Except E O) (self : SinStr t) :
    Exec Heap (Except E O) := do
  return serializeStr (← self.asStr)

/-- What the deserializer finds is no longer than a string can be. -/
def Legal (t : Target) {E : Type} (input : Except E Input) : Prop :=
  ∀ found s, input = .ok found → found.str? = some s → s.utf8ByteSize ≤ t.isizeMax

section Deserialize

variable {E V : Type} {errors : DeError E} {R : Resource V String} {h : Heap}
  {a : Allocator t.toMachine} {s : String}

/-- `new` gives nothing for the empty string only. -/
theorem NonEmptySinStr.run_new_ne_none (hpos : 0 < s.utf8ByteSize) (h' : Heap) :
    (new a s).run h ≠ .ok none h' := by
  simp only [new, hpos.ne', if_false, ne_eq]
  split
  · simp only [EStateM.run_bind]
    cases (newInline t s : Exec Heap (NonEmptySinStr t)).run h <;> simp
  · simp only [EStateM.run_bind]
    cases (newHeap a s).run h <;> simp

theorem NonEmptySinStr.run_new_of_pos (hpos : 0 < s.utf8ByteSize) :
    (new a s).run h =
      (do return some (← newUnwrap a s) : Exec Heap (Option (NonEmptySinStr t))).run h := by
  have hsome := run_new_ne_none (a := a) (h := h) hpos
  simp only [newUnwrap, EStateM.run_bind]
  generalize (new a s).run h = result at hsome ⊢
  cases result with
  | error e h' => rfl
  | ok made h' =>
      cases made with
      | some x => rfl
      | none => exact absurd rfl (hsome h')

theorem NonEmptySinStr.run_visitStr (hpos : 0 < s.utf8ByteSize) :
    ((nonEmptySinStrVisitor errors a).visitStr s).run h =
      (do return .ok (← newUnwrap a s) : Exec Heap (Except E (NonEmptySinStr t))).run h := by
  simp only [nonEmptySinStrVisitor, EStateM.run_bind, run_new_of_pos hpos]
  cases (newUnwrap a s).run h <;> rfl

end Deserialize

end Sinstr
