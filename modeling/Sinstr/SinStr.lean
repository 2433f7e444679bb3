import Sinstr.NonEmpty

/-!
# `SinStr`

An optional `NonEmptySinStr`, the empty string being `None`. Equality, order
and hash are derived from those of `Option`.
-/

namespace Sinstr

open Rust

variable {t : Target}

/-- `SinStr(Option<NonEmptySinStr>)`. -/
structure SinStr (t : Target) where
  inner : Option (NonEmptySinStr t)

namespace SinStr

/-- `SinStr::EMPTY`. -/
def EMPTY : SinStr t := ⟨none⟩

/-- Run a program on the `NonEmptySinStr` that a `Some` holds by reference. -/
def onInner {α : Type} (n : NonEmptySinStr t) (m : Exec (NonEmptySinStr t × Heap) α) :
    Exec (SinStr t × Heap) α := fun (_, h) =>
  match m.run (n, h) with
  | .ok x (n, h) => .ok x (⟨some n⟩, h)
  | .error e (n, h) => .error e (⟨some n⟩, h)

/-- `SinStr::new`. -/
def new (a : Allocator t.toMachine) (s : String) : Exec Heap (SinStr t) := do
  return ⟨← NonEmptySinStr.new a s⟩

/-- `SinStr::new_const`. -/
def newConst {σ : Type} (t : Target) (s : String) : Exec σ (SinStr t) := do
  if s.utf8ByteSize = 0 then return ⟨none⟩
  else return ⟨some (← NonEmptySinStr.newConst t s)⟩

/-- `SinStr::new_inline`. -/
def newInline {σ : Type} (t : Target) (s : String) : Exec σ (SinStr t) := do
  return ⟨some (← NonEmptySinStr.newInline t s)⟩

/-- `SinStr::new_heap`. -/
def newHeap (a : Allocator t.toMachine) (s : String) : Exec Heap (SinStr t) := do
  return ⟨some (← NonEmptySinStr.newHeap a s)⟩

/-- `SinStr::len`. -/
def len (self : SinStr t) : Exec Heap Nat :=
  match self.inner with
  | some r => r.len
  | none => return 0

/-- `SinStr::is_empty`. -/
def isEmpty (self : SinStr t) : Bool := self.inner.isNone

/-- `SinStr::as_str`. -/
def asStr (self : SinStr t) : Exec Heap String :=
  match self.inner with
  | some r => r.asStr
  | none => return ""

/-- `SinStr::as_bytes`. -/
def asBytes (self : SinStr t) : Exec Heap (List UInt8) :=
  match self.inner with
  | some r => r.asBytes
  | none => return []

/-- The string of `SinStr::as_str_mut`, overwritten by its borrower with `new`. -/
def asStrMut (new : String) : Exec (SinStr t × Heap) Unit := do
  match (← Exec.self).inner with
  | some r => onInner r (NonEmptySinStr.asStrMut new)
  | none =>
      Exec.panicUnless (new.utf8ByteSize = 0)
        "copy_from_slice: source slice length does not match destination slice length"

/-- `SinStr::is_inlined`. -/
def isInlined (self : SinStr t) : Bool :=
  match self.inner with
  | some r => r.isInlined
  | none => true

/-- `SinStr::is_heap`. -/
def isHeap (self : SinStr t) : Bool := self.inner.any NonEmptySinStr.isHeap

/-- The drop glue of `Option<NonEmptySinStr>`. -/
def drop (self : SinStr t) : Exec Heap Unit :=
  match self.inner with
  | some r => r.drop
  | none => return

/-- `*self = new`. -/
def assign (new : SinStr t) : Exec (SinStr t × Heap) Unit :=
  Exec.assign drop new

/-- The derived `Clone`. -/
def clone (a : Allocator t.toMachine) (self : SinStr t) : Exec Heap (SinStr t) :=
  match self.inner with
  | some r => do return ⟨some (← r.clone a)⟩
  | none => return ⟨none⟩

/-- `SinStr::set_str`. -/
def setStr (a : Allocator t.toMachine) (s : String) : Exec (SinStr t × Heap) Unit := do
  if s.utf8ByteSize = 0 then assign EMPTY
  else
    match (← Exec.self).inner with
    | some nes => onInner nes (NonEmptySinStr.setStr a s)
    | none => assign (← Exec.onSnd (new a s))

/-- `SinStr::set_str_unchecked`. -/
def setStrUnchecked (a : Allocator t.toMachine) (s : String) : Exec (SinStr t × Heap) Unit := do
  Exec.require .callerContract (s.utf8ByteSize ≠ 0)
  match (← Exec.self).inner with
  | some nes => onInner nes (NonEmptySinStr.setStrUnchecked a s)
  | none => assign (← Exec.onSnd (newHeap a s))

/-- `SinStr::push_str`. -/
def pushStr (a : Allocator t.toMachine) (s : String) : Exec (SinStr t × Heap) Unit := do
  match (← Exec.self).inner with
  | some inner => onInner inner (NonEmptySinStr.pushStr a s)
  | none => assign (← Exec.onSnd (new a s))

/-- The derived `Hash`: the discriminant of the `Option`, then the payload. -/
def hash (self : SinStr t) : Exec Heap (List HashWrite) :=
  match self.inner with
  | some r => do return .isize 1 :: (← r.hash)
  | none => return [.isize 0]

/-- The derived `PartialEq`. -/
def eq (self other : SinStr t) : Exec Heap Bool :=
  match self.inner, other.inner with
  | some r, some r' => r.eq r'
  | none, none => return true
  | _, _ => return false

/-- The derived `Ord`: `None` is less than every `Some`. -/
def cmp (self other : SinStr t) : Exec Heap Ordering :=
  match self.inner, other.inner with
  | some r, some r' => r.cmp r'
  | none, none => return .eq
  | none, some _ => return .lt
  | some _, none => return .gt

/-- The derived `PartialOrd`. -/
def partialCmp (self other : SinStr t) : Exec Heap (Option Ordering) :=
  match self.inner, other.inner with
  | some r, some r' => r.partialCmp r'
  | none, none => return some .eq
  | none, some _ => return some .lt
  | some _, none => return some .gt

/-- `Borrow<str>::borrow`. -/
def borrow (self : SinStr t) : Exec Heap String := self.asStr

end SinStr

end Sinstr
