import Sinstr.Api
import Sinstr.Checked

/-!
# The debug build

The functions that make, change and drop values, as they are compiled with debug
assertions and overflow checks. Sums and differences are those of `Checked`, and each
`debug_assert!` panics with the text of its condition. Functions without arithmetic
or assertions are shared with the release build. The checks that the standard
library makes of its own unsafe functions are left out in both.
-/

namespace Sinstr

open Rust

variable {t : Target}

namespace Debug

/-- The panics of the crate's `debug_assert!`s. -/
def assertions : List String :=
  ["assertion failed: !HeapRepr::is_valid_len(len)",
    "assertion failed: HeapRepr::is_valid_len(len)",
    "assertion failed: !s.is_empty()",
    "assertion failed: new_size <= isize::MAX as usize"]

namespace NonEmptySinStr

/-- `new_inline`. -/
def newInline {σ : Type} (t : Target) (s : String) : Exec σ (NonEmptySinStr t) := do
  Exec.panicUnless (¬IsValidLen t s.utf8ByteSize) "assertion failed: !HeapRepr::is_valid_len(len)"
  Sinstr.NonEmptySinStr.newInline t s

/-- `new_heap`. -/
def newHeap (a : Allocator t.toMachine) (s : String) : Exec Heap (NonEmptySinStr t) := do
  Exec.panicUnless (IsValidLen t s.utf8ByteSize) "assertion failed: HeapRepr::is_valid_len(len)"
  Checked.NonEmptySinStr.newHeap a s

/-- `new`. -/
def new (a : Allocator t.toMachine) (s : String) : Exec Heap (Option (NonEmptySinStr t)) := do
  let len := s.utf8ByteSize
  if len = 0 then return none
  else if t.nicheMaxInt ≥ len then return some (← newInline t s)
  else return some (← newHeap a s)

/-- `new_const`. -/
def newConst {σ : Type} (t : Target) (s : String) : Exec σ (NonEmptySinStr t) := do
  Exec.panicUnless (s.utf8ByteSize ≠ 0) "Cannot construct empty NonEmptySinStr"
  Exec.panicUnless (s.utf8ByteSize ≤ t.nicheMaxInt)
    "Cannot construct string greater than inline capacity at compile time"
  newInline t s

/-- `ne_sinstr_literal!`. -/
def neSinstrLiteral {σ : Type} (t : Target) (s : String) : Exec σ (NonEmptySinStr t) := do
  Exec.panicUnless (s.utf8ByteSize ≤ t.nicheMaxInt) "string does not fit into inline storage"
  Exec.panicUnless (s.utf8ByteSize ≠ 0) "string is empty"
  newInline t s

/-- `drop_heap`. -/
def dropHeap (self : NonEmptySinStr t) : Exec Heap Unit := do
  let heap ← self.getHeap
  let layout ← Layout.fromSizeAlignUnchecked t.toMachine
    (← Checked.HeapRepr.capacity t heap) t.align
  dealloc heap.addr layout

/-- `Drop::drop`. -/
def drop (self : NonEmptySinStr t) : Exec Heap Unit := do
  if self.isHeap then dropHeap self

/-- `*self = new`. -/
def assign (new : NonEmptySinStr t) : Exec (NonEmptySinStr t × Heap) Unit :=
  Exec.assign drop new

/-- `Clone::clone`. -/
def clone (a : Allocator t.toMachine) (self : NonEmptySinStr t) :
    Exec Heap (NonEmptySinStr t) := do
  if self.isInlined then return ⟨self.disc, self.dataOrPartialPtr, self.length_data⟩
  else newHeap a (← self.asStr)

/-- `set_str_unchecked`. -/
def setStrUnchecked (a : Allocator t.toMachine) (s : String) :
    Exec (NonEmptySinStr t × Heap) Unit := do
  Exec.panicUnless (s.utf8ByteSize ≠ 0) "assertion failed: !s.is_empty()"
  Exec.assertUnchecked (s.utf8ByteSize ≠ 0)
  let self ← Exec.self
  if s.utf8ByteSize ≤ t.nicheMaxInt then
    assign (← newInline t s)
  else if self.isHeap then
    Sinstr.NonEmptySinStr.getHeapMut do
      let hp ← Exec.self
      let next ← Checked.nextStep t (← checkedAdd t.toMachine t.size s.utf8ByteSize)
      let capacity ← Exec.onSnd (Checked.HeapRepr.capacity t hp)
      if capacity = next then
        Exec.onSnd (hp.setLen t s.utf8ByteSize)
        Exec.onSnd (writeBytes hp.addr t.size (strBytes s))
      else
        let newSize ← Checked.nextStep t (← checkedAdd t.toMachine t.size s.utf8ByteSize)
        Exec.panicUnless (newSize ≤ t.isizeMax) "assertion failed: new_size <= isize::MAX as usize"
        Exec.assertUnchecked (newSize ≤ t.isizeMax)
        let layout ← Layout.fromSizeAlignUnchecked t.toMachine
          (← Exec.onSnd (Checked.HeapRepr.capacity t hp)) t.align
        match ← Exec.onSnd (realloc a hp.addr layout newSize) with
        | none => throw (.allocError layout.size)
        | some p =>
            Exec.setSelf (HeapRepr.ofAddr p)
            Exec.onSnd (writeBytes p.val t.size (strBytes s))
            Exec.onSnd ((HeapRepr.ofAddr p).setLen t s.utf8ByteSize)
  else
    assign (← Exec.onSnd (newHeap a s))

/-- `set_str`. -/
def setStr (a : Allocator t.toMachine) (s : String) : Exec (NonEmptySinStr t × Heap) Unit := do
  Exec.panicUnless (s.utf8ByteSize ≠ 0) "NonEmptySinStr::set_str recieved empty string"
  setStrUnchecked a s

/-- `push_str`. -/
def pushStr (a : Allocator t.toMachine) (s : String) : Exec (NonEmptySinStr t × Heap) Unit := do
  let self ← Exec.self
  let len ← Exec.onSnd self.len
  if s.utf8ByteSize = 0 then return
  let newLen ← checkedAdd t.toMachine len s.utf8ByteSize
  if newLen ≤ t.nicheMaxInt then
    if h : len + (strBytes s).length ≤ self.dataOrPartialPtr.length then
      match DiscriminantValues.ofByte? t (UInt8.ofNat newLen) with
      | none => throw (.unsound .invalidValue)
      | some disc =>
          Exec.setSelf ⟨disc, self.dataOrPartialPtr.overwrite len (strBytes s),
            Checked.NonEmptySinStr.length_overwrite_data self s len h⟩
    else
      throw (.panic "range end index out of range for slice")
  else if self.isHeap then
    Sinstr.NonEmptySinStr.getHeapMut (Checked.HeapRepr.pushStr a s)
  else
    let both ← Exec.onSnd (do concat a (← self.asStr) s)
    assign (← Exec.onSnd (newHeap a both))

/-- `NonEmptySinStr::new(s).unwrap()`. -/
def newUnwrap (a : Allocator t.toMachine) (s : String) : Exec Heap (NonEmptySinStr t) := do
  match ← new a s with
  | some x => return x
  | none => throw (.panic "called `Option::unwrap()` on a `None` value")

/-- `NonEmptySinStrVisitor::visit_str`. -/
def visitStr {E : Type} (errors : DeError E) (a : Allocator t.toMachine) (v : String) :
    Exec Heap (Except E (NonEmptySinStr t)) := do
  let made ← new a v
  let error := errors.invalidValue (.str v) nonEmptyExpecting
  match made with
  | some x => return .ok x
  | none => return .error error

def build (a : Allocator t.toMachine) : Builder → Exec Heap (NonEmptySinStr t)
  | .new s => newUnwrap a s
  | .newConst s => newConst t s
  | .literal s => neSinstrLiteral t s
  | .newInline s => newInline t s
  | .newHeap s => newHeap a s
  | .visitStr s => unwrap (visitStr ⟨fun _ _ => (), fun _ _ => ()⟩ a s)

def mutate (a : Allocator t.toMachine) : Mutator → Exec (NonEmptySinStr t × Heap) Unit
  | .setStr s => setStr a s
  | .setStrUnchecked s => setStrUnchecked a s
  | .pushStr s => pushStr a s
  | .asStrMut s => Sinstr.NonEmptySinStr.asStrMut s
  | .asBytesMut new => Sinstr.NonEmptySinStr.asBytesMut new

end NonEmptySinStr

namespace SinStr

/-- `SinStr::new`. -/
def new (a : Allocator t.toMachine) (s : String) : Exec Heap (SinStr t) := do
  return ⟨← NonEmptySinStr.new a s⟩

/-- `SinStr::new_const`. -/
def newConst {σ : Type} (t : Target) (s : String) : Exec σ (SinStr t) := do
  if s.utf8ByteSize = 0 then return ⟨none⟩
  else return ⟨some (← NonEmptySinStr.newConst t s)⟩

/-- `SinStr::new_inline`. -/
def newInline {σ : Type} (t : Target) (s : String) : Exec σ (SinStr t) := do
  return ⟨some (← NonEmptySinStr.newInline t s)⟩

/-- `SinStr::new_heap`. -/
def newHeap (a : Allocator t.toMachine) (s : String) : Exec Heap (SinStr t) := do
  return ⟨some (← NonEmptySinStr.newHeap a s)⟩

/-- `sinstr_literal!`. -/
def sinstrLiteral {σ : Type} (t : Target) (s : String) : Exec σ (SinStr t) := do
  Exec.panicUnless (s.utf8ByteSize ≤ t.nicheMaxInt) "string does not fit into inline storage"
  if s.utf8ByteSize = 0 then return Sinstr.SinStr.EMPTY
  else newInline t s

/-- The drop glue of `Option<NonEmptySinStr>`. -/
def drop (self : SinStr t) : Exec Heap Unit :=
  match self.inner with
  | some r => NonEmptySinStr.drop r
  | none => return

/-- `*self = new`. -/
def assign (new : SinStr t) : Exec (SinStr t × Heap) Unit :=
  Exec.assign drop new

/-- The derived `Clone`. -/
def clone (a : Allocator t.toMachine) (self : SinStr t) : Exec Heap (SinStr t) :=
  match self.inner with
  | some r => do return ⟨some (← NonEmptySinStr.clone a r)⟩
  | none => return ⟨none⟩

/-- `SinStr::set_str`. -/
def setStr (a : Allocator t.toMachine) (s : String) : Exec (SinStr t × Heap) Unit := do
  if s.utf8ByteSize = 0 then assign Sinstr.SinStr.EMPTY
  else
    match (← Exec.self).inner with
    | some nes => Sinstr.SinStr.onInner nes (NonEmptySinStr.setStr a s)
    | none => assign (← Exec.onSnd (new a s))

/-- `SinStr::set_str_unchecked`. -/
def setStrUnchecked (a : Allocator t.toMachine) (s : String) : Exec (SinStr t × Heap) Unit := do
  Exec.panicUnless (s.utf8ByteSize ≠ 0) "assertion failed: !s.is_empty()"
  match (← Exec.self).inner with
  | some nes => Sinstr.SinStr.onInner nes (NonEmptySinStr.setStrUnchecked a s)
  | none => assign (← Exec.onSnd (newHeap a s))

/-- `SinStr::push_str`. -/
def pushStr (a : Allocator t.toMachine) (s : String) : Exec (SinStr t × Heap) Unit := do
  match (← Exec.self).inner with
  | some inner => Sinstr.SinStr.onInner inner (NonEmptySinStr.pushStr a s)
  | none => assign (← Exec.onSnd (new a s))

/-- `visit_str` and `from_str` wrap what `new` gives. -/
def build (a : Allocator t.toMachine) : SinStr.Maker → Exec Heap (SinStr t)
  | .of (.new s) => new a s
  | .of (.newConst s) => newConst t s
  | .of (.literal s) => sinstrLiteral t s
  | .of (.newInline s) => newInline t s
  | .of (.newHeap s) => newHeap a s
  | .of (.visitStr s) => unwrap (do return (.ok (← new a s) : Except Unit (SinStr t)))
  | .default => return Sinstr.SinStr.EMPTY
  | .from s => new a s
  | .fromStr s => unwrap (do return (.ok (← new a s) : Except Empty (SinStr t)))

def mutate (a : Allocator t.toMachine) : Mutator → Exec (SinStr t × Heap) Unit
  | .setStr s => setStr a s
  | .setStrUnchecked s => setStrUnchecked a s
  | .pushStr s => pushStr a s
  | .asStrMut s => Sinstr.SinStr.asStrMut s
  | .asBytesMut new => Sinstr.SinStr.asBytesMut new

end SinStr

end Debug

end Sinstr
