import Sinstr.PushStr
import Sinstr.Rust.Pool

/-!
# Runs over pools of strings

Both types of the crate as interfaces: a run builds values with `new`, clones,
moves and drops them, and calls `set_str`, `push_str` and `as_str_mut` on any
of them in any order.
-/

namespace Sinstr

open Rust

variable {t : Target}

/-- The methods that change a value. -/
inductive Method
  | setStr (s : String)
  | pushStr (s : String)
  /-- The string of `as_str_mut`, overwritten with `s`. -/
  | asStrMut (s : String)

namespace Method

/-- What the method does to a plain string. -/
def effect : Method → String → String
  | .setStr s, _ => s
  | .pushStr s, c => c ++ s
  | .asStrMut s, _ => s

/-- An argument is a `&str`; an overwrite has the length of what it overwrites. -/
def Callable (t : Target) : Method → String → Prop
  | .setStr s, _ => s.utf8ByteSize ≤ t.isizeMax
  | .pushStr s, _ => s.utf8ByteSize ≤ t.isizeMax
  | .asStrMut s, c => s.utf8ByteSize = c.utf8ByteSize

instance (m : Method) (c : String) : Decidable (m.Callable t c) :=
  match m with
  | .setStr _ | .pushStr _ => inferInstanceAs (Decidable (_ ≤ _))
  | .asStrMut _ => inferInstanceAs (Decidable (_ = _))

/-- Only a push may leave a block of another size than the recomputed one. -/
def Keeps (t : Target) : Method → String → Prop
  | .pushStr s, c => PushKeeps t c.utf8ByteSize s.utf8ByteSize
  | _, _ => True

end Method

/-- Addresses that are far apart on every declared width. -/
def PointerWidth.page (wd : PointerWidth) (e : Endian) (k : Fin 4) :
    Addr (wd.target e).toMachine where
  val := 4096 * (k + 1)
  ne_zero := by omega
  aligned := Nat.dvd_mul_right_of_dvd (by cases wd <;> cases e <;> decide) _
  lt_modulus := by
    have hk : 4096 * ((k : Nat) + 1) ≤ 16384 := by omega
    exact hk.trans_lt (by cases wd <;> cases e <;> decide)

def PointerWidth.pages (wd : PointerWidth) (e : Endian) : List (Addr (wd.target e).toMachine) :=
  [wd.page e 0, wd.page e 1, wd.page e 2, wd.page e 3]

/-- An allocator with four pages, one for each block. -/
def PointerWidth.paged (wd : PointerWidth) (e : Endian) : Allocator (wd.target e).toMachine :=
  .among (wd.pages e)

namespace SinStr

def call (a : Allocator t.toMachine) : Method → Exec (SinStr t × Heap) Unit
  | .setStr s => setStr a s
  | .pushStr s => pushStr a s
  | .asStrMut s => asStrMut s

/-- `SinStr` in a pool. -/
def interface (a : Allocator t.toMachine) : Interface (SinStr t) String String Method where
  toResource := resource t
  build := new a
  value := id
  Buildable s := s.utf8ByteSize ≤ t.isizeMax
  clone := clone a
  call := call a
  effect := Method.effect
  Callable := Method.Callable t
  Keeps := Method.Keeps t
  built := built_new
  cloned := built_clone
  called := by
    intro h x c m r hcall
    cases m with
    | setStr s => exact outcome_setStr r hcall
    | pushStr s => exact outcome_pushStr r hcall
    | asStrMut s => exact outcome_asStrMut r hcall

instance (a : Allocator t.toMachine) (m : Method) (c : String) :
    Decidable ((interface a).Callable m c) := inferInstanceAs (Decidable (m.Callable t c))

/-- The interface on a little-endian 64-bit target with a concrete allocator. -/
abbrev paged : Interface (SinStr (PointerWidth.w64.target .little)) String String Method :=
  interface (PointerWidth.w64.paged .little)

/-- An inline value and the empty one. -/
def inlineEmptyRun : List (Op String Method) := [.build 0 "abc", .build 1 ""]

theorem inlineEmptyRun_reachable :
    Reachable paged (fun _ _ => True)
      (Op.applyAll paged (fun _ => none) inlineEmptyRun)
      (Exec.final ((Op.execAll paged inlineEmptyRun).run Pool.empty)) :=
  Reachable.of_returns
    ⟨⟨⟨rfl, (by decide : "abc".utf8ByteSize ≤ _)⟩, trivial⟩,
      ⟨⟨rfl, (by decide : "".utf8ByteSize ≤ _)⟩, trivial⟩, trivial⟩
    (by decide +kernel)

end SinStr

namespace NonEmptySinStr

/-- `NonEmptySinStr::new(s).unwrap()`. -/
def newUnwrap (a : Allocator t.toMachine) (s : String) : Exec Heap (NonEmptySinStr t) := do
  match ← new a s with
  | some x => return x
  | none => throw (.panic "called `Option::unwrap()` on a `None` value")

theorem built_newUnwrap {a : Allocator t.toMachine} {h : Heap} {s : String}
    (hpos : 0 < s.utf8ByteSize) (hlen : s.utf8ByteSize ≤ t.isizeMax) :
    (resource t).Built h s ((newUnwrap a s).run h) := by
  by_cases hle : s.utf8ByteSize ≤ t.nicheMaxInt
  · have hb := built_newInline (h := h) hpos hle
    simp only [newUnwrap, new, hpos.ne', hle, if_true, if_false, EStateM.run_bind]
    generalize (newInline t s : Exec Heap (NonEmptySinStr t)).run h = result at hb ⊢
    cases result <;> exact hb
  · have hb := built_newHeap (a := a) (h := h) (Nat.not_le.mp hle) hlen
    simp only [newUnwrap, new, hpos.ne', hle, if_false, EStateM.run_bind]
    generalize (newHeap a s).run h = result at hb ⊢
    cases result <;> exact hb

def call (a : Allocator t.toMachine) : Method → Exec (NonEmptySinStr t × Heap) Unit
  | .setStr s => setStr a s
  | .pushStr s => pushStr a s
  | .asStrMut s => asStrMut s

/-- `set_str` may also panic because its argument is empty. -/
inductive MayFault (t : Target) (s : String) (e : Fault) (h : Heap) : Prop
  | of (he : Sinstr.MayFault t s e h)
  | empty (hs : s = "") (he : e = .panic "NonEmptySinStr::set_str recieved empty string")

/-- `NonEmptySinStr` in a pool. -/
def interface (a : Allocator t.toMachine) : Interface (NonEmptySinStr t) String String Method where
  toResource := (resource t).withFaults (MayFault t)
  build := newUnwrap a
  value := id
  Buildable s := 0 < s.utf8ByteSize ∧ s.utf8ByteSize ≤ t.isizeMax
  clone := clone a
  call := call a
  effect := Method.effect
  Callable := Method.Callable t
  Keeps := Method.Keeps t
  built hb := (built_newUnwrap hb.1 hb.2).withFaults .of
  cloned r := (built_clone r).withFaults .of
  called := by
    intro h x c m r hcall
    cases m with
    | setStr s =>
        by_cases h0 : s.utf8ByteSize = 0
        · rw [call, run_setStr_empty h0]
          exact .fault (MayFault.empty (utf8ByteSize_eq_zero.mp h0) rfl) fun _ =>
            ⟨rfl, Quiet.refl h, fun _ hc => hc⟩
        · exact (outcome_setStr r (Nat.pos_of_ne_zero h0) hcall).withFaults .of
    | pushStr s => exact (outcome_pushStr r hcall).withFaults .of
    | asStrMut s => exact (outcome_asStrMut r hcall).withFaults .of

instance (a : Allocator t.toMachine) (m : Method) (c : String) :
    Decidable ((interface a).Callable m c) := inferInstanceAs (Decidable (m.Callable t c))

/-- The interface on a little-endian 64-bit target with a concrete allocator. -/
abbrev paged : Interface (NonEmptySinStr (PointerWidth.w64.target .little)) String String Method :=
  interface (PointerWidth.w64.paged .little)

end NonEmptySinStr

end Sinstr
