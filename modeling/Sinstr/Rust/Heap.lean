import Sinstr.Rust.Exec
import Sinstr.Rust.Bytes
import Mathlib.Logic.Function.Basic

/-!
# The global allocator and raw memory

The heap is the set of live blocks and the record of allocator calls. A
block is named by its address alone; the size that a caller passes for an
existing block is recorded and otherwise ignored. Which address a call
returns, and whether it fails, is the choice of an arbitrary allocator that
sees the whole past.
-/

namespace Rust

/-- A block of memory: the number of the call that created it and its bytes.
Its size, as last requested, is the number of the bytes. -/
structure Block where
  id : Nat
  bytes : Buffer

abbrev Block.size (b : Block) : Nat := b.bytes.length

/-- One allocator call. For an existing block both the size the caller passed
and the size the block was requested with are recorded. -/
inductive Call
  | alloc (id size : Nat)
  | allocFailed (size : Nat)
  | realloc (id passed actual new : Nat)
  | reallocFailed (id passed actual new : Nat)
  | dealloc (id passed actual : Nat)
  /-- A buffer that the standard library takes and gives back within one expression. -/
  | scratch (size : Nat) (granted : Bool)
  deriving DecidableEq, Repr

/-- The caller named the block by the size it was requested with. -/
def Call.Exact : Call → Prop
  | .realloc _ passed actual _ => passed = actual
  | .reallocFailed _ passed actual _ => passed = actual
  | .dealloc _ passed actual => passed = actual
  | _ => True

instance : DecidablePred Call.Exact
  | .alloc _ _ | .allocFailed _ | .scratch _ _ => isTrue trivial
  | .realloc _ passed actual _ => inferInstanceAs (Decidable (passed = actual))
  | .reallocFailed _ passed actual _ => inferInstanceAs (Decidable (passed = actual))
  | .dealloc _ passed actual => inferInstanceAs (Decidable (passed = actual))

/-- Calls that change no block: refusals, and buffers that are gone again. -/
def Call.Neutral : Call → Prop
  | .allocFailed _ => True
  | .reallocFailed _ _ _ _ => True
  | .scratch _ _ => True
  | _ => False

/-- The allocator did not grant the request. -/
def Call.Refused : Call → Prop
  | .allocFailed _ => True
  | .reallocFailed _ _ _ _ => True
  | .scratch _ granted => granted = false
  | _ => False

structure Heap where
  live : Nat → Option Block
  /-- The most recent call comes first. -/
  calls : List Call

namespace Heap

def empty : Heap := ⟨fun _ => none, []⟩

def set (h : Heap) (p : Nat) (b : Option Block) : Heap :=
  { h with live := Function.update h.live p b }

def log (h : Heap) (c : Call) : Heap := { h with calls := c :: h.calls }

/-- The last call was refused. -/
def Refused (h : Heap) : Prop := ∃ c ∈ h.calls.head?, c.Refused

theorem refused_log {h : Heap} {c : Call} (hc : c.Refused) : (h.log c).Refused := ⟨c, rfl, hc⟩

variable (h : Heap) (p q : Nat) (b b' : Option Block) (c : Call)

@[simp] theorem set_live_self : (h.set p b).live p = b := by simp [set]

@[simp] theorem set_live_of_ne {p q : Nat} (hne : q ≠ p) : (h.set p b).live q = h.live q := by
  simp [set, hne]

@[simp] theorem set_calls : (h.set p b).calls = h.calls := rfl

@[simp] theorem log_live : (h.log c).live = h.live := rfl

@[simp] theorem log_calls : (h.log c).calls = c :: h.calls := rfl

@[simp] theorem set_set : (h.set p b).set p b' = h.set p b' := by simp [set]

@[simp] theorem log_set : (h.log c).set p b = (h.set p b).log c := rfl

end Heap

/-- An address an allocator may return: not null, aligned, and a `usize`. -/
structure Addr (m : Machine) where
  val : Nat
  ne_zero : val ≠ 0
  aligned : m.align ∣ val
  lt_modulus : val < m.modulus

/-- The choices of the global allocator. A returned block overlaps no live
block; reallocation may keep the address. Any call may fail. -/
structure Allocator (m : Machine) where
  alloc : Heap → Nat → Option (Addr m)
  realloc : Heap → Nat → Nat → Option (Addr m)
  scratch : Heap → Nat → Bool
  alloc_fresh : ∀ {h n p}, alloc h n = some p → h.live p.val = none
  realloc_fresh : ∀ {h p n q}, realloc h p n = some q → q.val = p ∨ h.live q.val = none

/-- The allocator that hands out the first free address of a list, moving a
block whenever it is reallocated. -/
def Allocator.among {m : Machine} (ps : List (Addr m)) : Allocator m where
  alloc h _ := ps.find? fun p => (h.live p.val).isNone
  realloc h _ _ := ps.find? fun p => (h.live p.val).isNone
  scratch _ _ := true
  alloc_fresh := fun hp => by simpa using List.find?_some hp
  realloc_fresh := fun hp => Or.inr (by simpa using List.find?_some hp)

/-- `core::alloc::Layout`. -/
structure Layout where
  size : Nat
  align : Nat
  deriving DecidableEq, Repr

section Memory

variable {m : Machine} {σ : Type}

/-- The documented bound on a layout: the size rounded up to the alignment is
at most `isize::MAX`. -/
def Layout.Fits (m : Machine) (size align : Nat) : Prop := roundUp align size ≤ m.isizeMax

instance (size align : Nat) : Decidable (Layout.Fits m size align) :=
  inferInstanceAs (Decidable (_ ≤ _))

/-- `Layout::from_size_align_unchecked`. -/
def Layout.fromSizeAlignUnchecked (m : Machine) (size align : Nat) : Exec σ Layout := do
  Exec.require .layout (Layout.Fits m size align)
  return ⟨size, align⟩

/-- `alloc::alloc`: a block of uninitialised bytes, or null. -/
def alloc (a : Allocator m) (layout : Layout) : Exec Heap (Option (Addr m)) := do
  Exec.require .layout (0 < layout.size)
  let h ← get
  match a.alloc h layout.size with
  | none =>
      set (h.log (.allocFailed layout.size))
      return none
  | some p =>
      let id := h.calls.length
      set ((h.set p.val (some ⟨id, List.replicate layout.size none⟩)).log (.alloc id layout.size))
      return some p

/-- The block at an address. -/
def deref (p : Nat) : Exec Heap Block := do
  match (← get).live p with
  | none => throw (.unsound .deadBlock)
  | some b => return b

/-- `alloc::realloc`: the leading bytes are kept. On failure it returns null
and the old block stays as it is. -/
def realloc (a : Allocator m) (p : Nat) (layout : Layout) (newSize : Nat) :
    Exec Heap (Option (Addr m)) := do
  let b ← deref p
  Exec.require .layout (0 < newSize ∧ Layout.Fits m newSize layout.align)
  let h ← get
  match a.realloc h p newSize with
  | none =>
      set (h.log (.reallocFailed b.id layout.size b.size newSize))
      return none
  | some q =>
      set (((h.set p none).set q.val (some ⟨b.id, b.bytes.resize newSize⟩)).log
        (.realloc b.id layout.size b.size newSize))
      return some q

/-- `alloc::dealloc`. -/
def dealloc (p : Nat) (layout : Layout) : Exec Heap Unit := do
  let b ← deref p
  modify fun h => (h.set p none).log (.dealloc b.id layout.size b.size)

/-- Read initialised bytes inside a live block. -/
def readBytes (p off n : Nat) : Exec Heap (List UInt8) := do
  let b ← deref p
  Exec.require .outOfBounds (off + n ≤ b.size)
  match (b.bytes.slice off n).initialized with
  | none => throw (.unsound .uninit)
  | some bs => return bs

/-- Write bytes inside a live block: `copy_from_nonoverlapping` and `write`. -/
def writeBytes (p off : Nat) (bs : List UInt8) : Exec Heap Unit := do
  let b ← deref p
  Exec.require .outOfBounds (off + bs.length ≤ b.size)
  modify fun h => h.set p (some { b with bytes := b.bytes.overwrite off bs })

/-- `ptr::read::<usize>` at the start of a block. -/
def readUsize (m : Machine) (p : Nat) : Exec Heap Nat := do
  return m.usizeValue (← readBytes p 0 m.size)

/-- `ptr::write::<usize>` at the start of a block. -/
def writeUsize (m : Machine) (p n : Nat) : Exec Heap Unit :=
  writeBytes p 0 (m.usizeBytes n)

/-- Whether the allocator grants a buffer that is released before the
expression that needs it ends. -/
def scratch (a : Allocator m) (n : Nat) : Exec Heap Bool := do
  let h ← get
  let granted := a.scratch h n
  set (h.log (.scratch n granted))
  return granted

variable {a : Allocator m} {h : Heap} {p n off : Nat} {b : Block} {bs : List UInt8}
  {layout : Layout} {s : σ} {size align : Nat}

theorem run_fromSizeAlignUnchecked (hfit : Layout.Fits m size align) :
    (Layout.fromSizeAlignUnchecked m size align : Exec σ Layout).run s = .ok ⟨size, align⟩ s := by
  simp [Layout.fromSizeAlignUnchecked, hfit]

theorem run_fromSizeAlignUnchecked_not (hfit : ¬Layout.Fits m size align) :
    (Layout.fromSizeAlignUnchecked m size align : Exec σ Layout).run s =
      .error (.unsound .layout) s := by
  simp [Layout.fromSizeAlignUnchecked, hfit]

theorem run_alloc (hn : 0 < layout.size) :
    (alloc a layout).run h =
      match a.alloc h layout.size with
      | none => .ok none (h.log (.allocFailed layout.size))
      | some p => .ok (some p) ((h.set p.val (some ⟨h.calls.length,
          List.replicate layout.size none⟩)).log (.alloc h.calls.length layout.size)) := by
  simp only [alloc, EStateM.run_bind, Exec.run_require, if_pos hn, EStateM.run_get]
  cases a.alloc h layout.size <;> rfl

theorem run_deref (hp : h.live p = some b) : (deref p).run h = .ok b h := by
  simp [deref, hp]

theorem run_realloc (layout : Layout) (hp : h.live p = some b) (hn : 0 < n)
    (hfit : Layout.Fits m n layout.align) :
    (realloc a p layout n).run h =
      match a.realloc h p n with
      | none => .ok none (h.log (.reallocFailed b.id layout.size b.size n))
      | some q => .ok (some q) (((h.set p none).set q.val (some ⟨b.id, b.bytes.resize n⟩)).log
          (.realloc b.id layout.size b.size n)) := by
  simp only [realloc, EStateM.run_bind, run_deref hp, Exec.run_require,
    if_pos (And.intro hn hfit), EStateM.run_get]
  cases a.realloc h p n <;> rfl

theorem run_dealloc (hp : h.live p = some b) :
    (dealloc p layout).run h =
      .ok () ((h.set p none).log (.dealloc b.id layout.size b.size)) := by
  simp [dealloc, run_deref hp]

theorem run_readBytes (hp : h.live p = some b) (hb : b.bytes.Holds off bs)
    (hlen : off + bs.length ≤ b.size) : (readBytes p off bs.length).run h = .ok bs h := by
  simp [readBytes, run_deref hp, hlen, hb.slice]

theorem run_writeBytes (hp : h.live p = some b) (hlen : off + bs.length ≤ b.size) :
    (writeBytes p off bs).run h =
      .ok () (h.set p (some { b with bytes := b.bytes.overwrite off bs })) := by
  simp [writeBytes, run_deref hp, hlen]

theorem run_readUsize (hp : h.live p = some b) (hb : b.bytes.Holds 0 (m.usizeBytes n))
    (hlen : m.size ≤ b.size) (hn : n < m.modulus) : (readUsize m p).run h = .ok n h := by
  have hread := run_readBytes hp hb (by simpa using hlen)
  rw [Machine.length_usizeBytes] at hread
  simp [readUsize, hread, Machine.usizeValue_usizeBytes hn]

theorem run_writeUsize (hp : h.live p = some b) (hlen : m.size ≤ b.size) :
    (writeUsize m p n).run h =
      .ok () (h.set p (some { b with bytes := b.bytes.overwrite 0 (m.usizeBytes n) })) :=
  run_writeBytes hp (by simpa using hlen)

theorem run_scratch :
    (scratch a n).run h = .ok (a.scratch h n) (h.log (.scratch n (a.scratch h n))) := rfl

end Memory

end Rust
