import Sinstr.Capacity
import Sinstr.Rust.Text

/-!
# The two representations behind the word

`HeapRepr` is the address of a block that holds the length, as a `usize`, and
then the bytes. `InlinedRepr` is the length and the bytes in the word itself.
-/

namespace Sinstr

open Rust

variable {t : Target}

/-- `HeapRepr(NonZeroUsize)`: the address of the block. -/
structure HeapRepr where
  addr : Nat
  ne_zero : addr ≠ 0

/-- What `as_ptr` and `p.addr()` do to an address an allocator returned. -/
def HeapRepr.ofAddr (p : Addr t.toMachine) : HeapRepr := ⟨p.val, p.ne_zero⟩

namespace HeapRepr

@[simp] theorem addr_ofAddr (p : Addr t.toMachine) : (ofAddr p).addr = p.val := rfl

/-- `HeapRepr::len`. The word is read as a `NonZeroUsize`. -/
def len (t : Target) (self : HeapRepr) : Exec Heap Nat := do
  let len ← readUsize t.toMachine self.addr
  Exec.require .invalidValue (len ≠ 0)
  return len

/-- `HeapRepr::set_len`. -/
def setLen (t : Target) (self : HeapRepr) (len : Nat) : Exec Heap Unit := do
  Exec.require .invalidValue (len ≠ 0)
  writeUsize t.toMachine self.addr len

/-- `HeapRepr::as_bytes`. -/
def asBytes (t : Target) (self : HeapRepr) : Exec Heap (List UInt8) := do
  let len ← self.len t
  readBytes self.addr t.size len

/-- `HeapRepr::as_str`. -/
def asStr (t : Target) (self : HeapRepr) : Exec Heap String := do
  fromUtf8Unchecked (← self.asBytes t)

/-- The slice of `HeapRepr::as_bytes_mut`, filled by its borrower with `new`. -/
def asBytesMut (t : Target) (self : HeapRepr) (new : List UInt8) : Exec Heap Unit := do
  let old ← self.asBytes t
  Exec.panicUnless (new.length = old.length)
    "copy_from_slice: source slice length does not match destination slice length"
  writeBytes self.addr t.size new

/-- The string of `HeapRepr::as_str_mut`, overwritten by its borrower with `new`. -/
def asStrMut (t : Target) (self : HeapRepr) (new : String) : Exec Heap Unit := do
  let _ ← self.asStr t
  self.asBytesMut t (strBytes new)

/-- `HeapRepr::capacity`. -/
def capacity (t : Target) (self : HeapRepr) : Exec Heap Nat := do
  let len ← self.len t
  Exec.require .uncheckedAdd (len + t.size < t.modulus)
  let capacity := nextStep t (t.add len t.size)
  Exec.require .invalidValue (capacity ≠ 0)
  return capacity

/-- `HeapRepr::str_capacity`. -/
def strCapacity (t : Target) (self : HeapRepr) : Exec Heap Nat := do
  let strCapacity := t.sub (← self.capacity t) t.size
  Exec.require .invalidValue (strCapacity ≠ 0)
  return strCapacity

/-- `HeapRepr::unused_str_capacity`. -/
def unusedStrCapacity (t : Target) (self : HeapRepr) : Exec Heap Nat := do
  return t.sub (← self.strCapacity t) (← self.len t)

/-- `HeapRepr::grow_capacity`. -/
def growCapacity (a : Allocator t.toMachine) (by_ : Nat) : Exec (HeapRepr × Heap) Unit := do
  let self ← Exec.self
  let capacity ← Exec.onSnd (self.capacity t)
  let layout ← Layout.fromSizeAlignUnchecked t.toMachine capacity t.align
  let newCapacity := nextStep t (t.add capacity by_)
  Exec.panicUnless (IsValidLen t newCapacity) "assertion failed: Self::is_valid_len(new_capacity)"
  match ← Exec.onSnd (realloc a self.addr layout newCapacity) with
  | none => throw (.allocError layout.size)
  | some p => Exec.setSelf (ofAddr p)

/-- `HeapRepr::push_str`. -/
def pushStr (a : Allocator t.toMachine) (s : String) : Exec (HeapRepr × Heap) Unit := do
  let self ← Exec.self
  let curLen ← Exec.onSnd (self.len t)
  if (← Exec.onSnd (self.unusedStrCapacity t)) ≥ s.utf8ByteSize then
    Exec.onSnd (writeBytes self.addr (t.size + (← Exec.onSnd (self.len t))) (strBytes s))
    Exec.onSnd (writeUsize t.toMachine self.addr (t.add curLen s.utf8ByteSize))
  else
    growCapacity a s.utf8ByteSize
    let self ← Exec.self
    Exec.onSnd (writeUsize t.toMachine self.addr (t.add curLen s.utf8ByteSize))
    Exec.onSnd (writeBytes self.addr (t.size + curLen) (strBytes s))

end HeapRepr

/-- `InlinedRepr`: the length, which is not zero, and the rest of the word. -/
structure InlinedRepr (t : Target) where
  len : UInt8
  data : Buffer
  len_ne_zero : len ≠ 0
  length_data : data.length = t.size - 1

namespace InlinedRepr

variable {σ : Type}

/-- `InlinedRepr::as_bytes`. -/
def asBytes (self : InlinedRepr t) : Exec σ (List UInt8) := do
  Exec.require .outOfBounds (self.len.toNat ≤ self.data.length)
  match (self.data.slice 0 self.len.toNat).initialized with
  | none => throw (.unsound .uninit)
  | some bs => return bs

/-- `InlinedRepr::as_str`. -/
def asStr (self : InlinedRepr t) : Exec σ String := do
  fromUtf8Unchecked (← self.asBytes)

/-- The slice of `InlinedRepr::as_bytes_mut`, filled by its borrower with `new`. -/
def asBytesMut (self : InlinedRepr t) (new : List UInt8) : Exec σ (InlinedRepr t) := do
  let old ← self.asBytes
  Exec.panicUnless (new.length = old.length)
    "copy_from_slice: source slice length does not match destination slice length"
  if h : new.length ≤ self.data.length then
    return { self with
      data := self.data.overwrite 0 new
      length_data := by rw [Buffer.length_overwrite (by omega), self.length_data] }
  else
    throw (.unsound .outOfBounds)

/-- The string of `InlinedRepr::as_str_mut`, overwritten by its borrower with `new`. -/
def asStrMut (self : InlinedRepr t) (new : String) : Exec σ (InlinedRepr t) := do
  let _ ← self.asStr (σ := σ)
  self.asBytesMut (strBytes new)

end InlinedRepr

end Sinstr
