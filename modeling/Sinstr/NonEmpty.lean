import Sinstr.HeapRepr

/-!
# `NonEmptySinStr`

One word that is either the address of a block or an inline string. Methods
on `&self` are programs on the heap. Methods on `&mut self` are programs on
the word and the heap together, so that a fault keeps what was written to the
word before it. The program is the release build: `debug_assert!` is left out,
and every one of them repeats a condition that is checked here as undefined
behaviour.
-/

namespace Sinstr

open Rust

variable {t : Target}

/-- `NonEmptySinStr`: the discriminant and the rest of the word, in the order
that `target_endian` gives them. -/
structure NonEmptySinStr (t : Target) where
  disc : DiscriminantValues t
  dataOrPartialPtr : Buffer
  length_data : dataOrPartialPtr.length = t.size - 1

namespace NonEmptySinStr

/-- The bytes of the word in memory order. -/
def memory (self : NonEmptySinStr t) : Buffer :=
  match t.endian with
  | .little => some self.disc.value :: self.dataOrPartialPtr
  | .big => self.dataOrPartialPtr ++ [some self.disc.value]

/-- `transmute::<usize, NonEmptySinStr>`: the bytes of the number, taken apart
as the fields lie in memory. It is undefined without a variant for the
discriminant. -/
def ofUsize? (t : Target) (n : Nat) : Option (NonEmptySinStr t) :=
  have hne : t.usizeBytes n ≠ [] := by
    have := t.one_lt_size
    apply List.ne_nil_of_length_pos
    rw [Machine.length_usizeBytes]
    omega
  match t.endian with
  | .little => (DiscriminantValues.ofByte? t ((t.usizeBytes n).head hne)).map fun disc =>
      ⟨disc, (t.usizeBytes n).tail.map some, by simp⟩
  | .big => (DiscriminantValues.ofByte? t ((t.usizeBytes n).getLast hne)).map fun disc =>
      ⟨disc, (t.usizeBytes n).dropLast.map some, by simp⟩

/-- `is_inlined`: the subtraction wraps at zero. -/
def isInlined (self : NonEmptySinStr t) : Bool :=
  t.sub self.disc.value.toNat 1 < t.nicheMaxInt

/-- `is_heap`. -/
def isHeap (self : NonEmptySinStr t) : Bool := !self.isInlined

/-- `get_heap`: the word read as the `NonZeroUsize` of a `HeapRepr`. -/
def getHeap {σ : Type} (self : NonEmptySinStr t) : Exec σ HeapRepr := do
  Exec.require .callerContract self.isHeap
  match self.memory.initialized with
  | none => throw (.unsound .uninit)
  | some bs =>
      if h : t.usizeValue bs ≠ 0 then return ⟨t.usizeValue bs, h⟩
      else throw (.unsound .invalidValue)

/-- `get_heap_mut`: run a program through the reference, which shares the word.
The word it leaves has to be a `NonEmptySinStr` again. -/
def getHeapMut {α : Type} (m : Exec (HeapRepr × Heap) α) : Exec (NonEmptySinStr t × Heap) α :=
  fun (self, h) =>
    match (self.getHeap : Exec Heap HeapRepr).run h with
    | .error e h => .error e (self, h)
    | .ok hp h =>
        match m.run (hp, h) with
        | .ok x (hp, h) =>
            match ofUsize? t hp.addr with
            | some new => .ok x (new, h)
            | none => .error (.unsound .invalidValue) (self, h)
        | .error e (hp, h) =>
            match ofUsize? t hp.addr with
            | some new => .error e (new, h)
            | none => .error (.unsound .invalidValue) (self, h)

/-- `get_inlined`: the word read as an `InlinedRepr`. -/
def getInlined {σ : Type} (self : NonEmptySinStr t) : Exec σ (InlinedRepr t) := do
  Exec.require .callerContract self.isInlined
  if h : self.disc.value ≠ 0 then
    return ⟨self.disc.value, self.dataOrPartialPtr, h, self.length_data⟩
  else
    throw (.unsound .invalidValue)

/-- `get_inlined_mut`: run a program through the reference, which shares the
word and leaves the length alone. -/
def getInlinedMut {σ : Type} (m : InlinedRepr t → Exec (NonEmptySinStr t × σ) (InlinedRepr t)) :
    Exec (NonEmptySinStr t × σ) Unit := do
  let self ← Exec.self
  let r ← m (← self.getInlined)
  Exec.setSelf { self with dataOrPartialPtr := r.data, length_data := r.length_data }

/-- `len`. -/
def len (self : NonEmptySinStr t) : Exec Heap Nat := do
  if self.isInlined then return self.disc.value.toNat
  else (← self.getHeap).len t

/-- `as_bytes`. -/
def asBytes (self : NonEmptySinStr t) : Exec Heap (List UInt8) := do
  if self.isInlined then (← self.getInlined).asBytes
  else (← self.getHeap).asBytes t

/-- `as_str`. -/
def asStr (self : NonEmptySinStr t) : Exec Heap String := do
  if self.isInlined then (← self.getInlined).asStr
  else (← self.getHeap).asStr t

/-- The string of `as_str_mut`, overwritten by its borrower with `new`. -/
def asStrMut (new : String) : Exec (NonEmptySinStr t × Heap) Unit := do
  if (← Exec.self).isInlined then
    getInlinedMut fun r => r.asStrMut new
  else
    getHeapMut do
      let hp ← Exec.self
      Exec.onSnd (hp.asStrMut t new)

/-- `new_inline`. -/
def newInline {σ : Type} (t : Target) (s : String) : Exec σ (NonEmptySinStr t) := do
  Exec.require .callerContract (0 < s.utf8ByteSize ∧ s.utf8ByteSize ≤ t.nicheMaxInt)
  Exec.assertUnchecked ¬IsValidLen t s.utf8ByteSize
  let buf : Buffer := List.replicate (t.size - 1) none
  if h : 0 + (strBytes s).length ≤ buf.length then
    match DiscriminantValues.ofByte? t (UInt8.ofNat s.utf8ByteSize) with
    | none => throw (.unsound .invalidValue)
    | some disc =>
        return ⟨disc, buf.overwrite 0 (strBytes s),
          by rw [Buffer.length_overwrite h]; exact List.length_replicate⟩
  else
    throw (.unsound .outOfBounds)

/-- `new_heap`. -/
def newHeap (a : Allocator t.toMachine) (s : String) : Exec Heap (NonEmptySinStr t) := do
  let len := s.utf8ByteSize
  Exec.require .callerContract (t.nicheMaxInt < len)
  Exec.assertUnchecked (IsValidLen t len)
  let totalSize := t.add t.size len
  Exec.panicUnless (totalSize ≤ t.isizeMax) "NonEmptySinStr::new_heap should never exceed max size"
  let allocSize := nextStep t totalSize
  let layout ← Layout.fromSizeAlignUnchecked t.toMachine allocSize t.align
  match ← alloc a layout with
  | none => throw (.allocError layout.size)
  | some p =>
      writeUsize t.toMachine p.val len
      writeBytes p.val t.size (strBytes s)
      match ofUsize? t p.val with
      | none => throw (.unsound .invalidValue)
      | some self => return self

/-- `new`. -/
def new (a : Allocator t.toMachine) (s : String) : Exec Heap (Option (NonEmptySinStr t)) := do
  let len := s.utf8ByteSize
  if len = 0 then return none
  else if t.nicheMaxInt ≥ len then return some (← newInline t s)
  else return some (← newHeap a s)

/-- `new_const`. -/
def newConst {σ : Type} (t : Target) (s : String) : Exec σ (NonEmptySinStr t) := do
  Exec.panicUnless (s.utf8ByteSize ≠ 0) "Cannot construct empty NonEmptySinStr"
  Exec.panicUnless (s.utf8ByteSize ≤ t.nicheMaxInt)
    "Cannot construct string greater than inline capacity at compile time"
  newInline t s

/-- `drop_heap`. -/
def dropHeap (self : NonEmptySinStr t) : Exec Heap Unit := do
  let heap ← self.getHeap
  let layout ← Layout.fromSizeAlignUnchecked t.toMachine (← heap.capacity t) t.align
  dealloc heap.addr layout

/-- `Drop::drop`. -/
def drop (self : NonEmptySinStr t) : Exec Heap Unit := do
  if self.isHeap then self.dropHeap

/-- `*self = new`. -/
def assign (new : NonEmptySinStr t) : Exec (NonEmptySinStr t × Heap) Unit :=
  Exec.assign drop new

/-- `Clone::clone`. -/
def clone (a : Allocator t.toMachine) (self : NonEmptySinStr t) :
    Exec Heap (NonEmptySinStr t) := do
  if self.isInlined then return ⟨self.disc, self.dataOrPartialPtr, self.length_data⟩
  else newHeap a (← self.asStr)

/-- `set_str_unchecked`. -/
def setStrUnchecked (a : Allocator t.toMachine) (s : String) :
    Exec (NonEmptySinStr t × Heap) Unit := do
  Exec.require .callerContract (s.utf8ByteSize ≠ 0)
  Exec.assertUnchecked (s.utf8ByteSize ≠ 0)
  let self ← Exec.self
  if s.utf8ByteSize ≤ t.nicheMaxInt then
    assign (← newInline t s)
  else if self.isHeap then
    getHeapMut do
      let hp ← Exec.self
      let next := nextStep t (t.add t.size s.utf8ByteSize)
      let capacity ← Exec.onSnd (hp.capacity t)
      if capacity = next then
        Exec.onSnd (hp.setLen t s.utf8ByteSize)
        Exec.onSnd (writeBytes hp.addr t.size (strBytes s))
      else
        let newSize := nextStep t (t.add t.size s.utf8ByteSize)
        Exec.assertUnchecked (newSize ≤ t.isizeMax)
        let layout ← Layout.fromSizeAlignUnchecked t.toMachine
          (← Exec.onSnd (hp.capacity t)) t.align
        match ← Exec.onSnd (realloc a hp.addr layout newSize) with
        | none => throw (.allocError layout.size)
        | some p =>
            Exec.setSelf (HeapRepr.ofAddr p)
            Exec.onSnd (writeBytes p.val t.size (strBytes s))
            Exec.onSnd ((HeapRepr.ofAddr p).setLen t s.utf8ByteSize)
  else
    assign (← Exec.onSnd (newHeap a s))

/-- `set_str`. -/
def setStr (a : Allocator t.toMachine) (s : String) : Exec (NonEmptySinStr t × Heap) Unit := do
  Exec.panicUnless (s.utf8ByteSize ≠ 0) "NonEmptySinStr::set_str recieved empty string"
  setStrUnchecked a s

/-- `push_str`. -/
def pushStr (a : Allocator t.toMachine) (s : String) : Exec (NonEmptySinStr t × Heap) Unit := do
  let self ← Exec.self
  let len ← Exec.onSnd self.len
  if s.utf8ByteSize = 0 then return
  let newLen := t.add len s.utf8ByteSize
  if newLen ≤ t.nicheMaxInt then
    if h : len + (strBytes s).length ≤ self.dataOrPartialPtr.length then
      match DiscriminantValues.ofByte? t (UInt8.ofNat newLen) with
      | none => throw (.unsound .invalidValue)
      | some disc =>
          Exec.setSelf ⟨disc, self.dataOrPartialPtr.overwrite len (strBytes s),
            by rw [Buffer.length_overwrite h, self.length_data]⟩
    else
      throw (.panic "range end index out of range for slice")
  else if self.isHeap then
    getHeapMut (HeapRepr.pushStr a s)
  else
    let both ← Exec.onSnd (do concat a (← self.asStr) s)
    assign (← Exec.onSnd (newHeap a both))

/-- `Hash::hash`. -/
def hash (self : NonEmptySinStr t) : Exec Heap (List HashWrite) := do
  return strHash (← self.asStr)

/-- `PartialEq::eq`: the storage mode first, then the contents. -/
def eq (self other : NonEmptySinStr t) : Exec Heap Bool := do
  if self.isInlined == other.isInlined then
    return (← self.asStr) == (← other.asStr)
  else
    return false

/-- `Ord::cmp`. -/
def cmp (self other : NonEmptySinStr t) : Exec Heap Ordering := do
  return strCmp (← self.asStr) (← other.asStr)

/-- `PartialOrd::partial_cmp`. -/
def partialCmp (self other : NonEmptySinStr t) : Exec Heap (Option Ordering) := do
  return some (← self.cmp other)

/-- `Borrow<str>::borrow`. -/
def borrow (self : NonEmptySinStr t) : Exec Heap String := self.asStr

end NonEmptySinStr

end Sinstr
