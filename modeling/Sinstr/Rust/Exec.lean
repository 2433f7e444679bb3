import Mathlib.Logic.Relation

/-!
# Runs that end in a value or a fault

A call either returns or stops in a fault, and in both cases it leaves a
state behind: a panic unwinds with whatever was written before it. The monad
is `EStateM`, whose errors keep the state.
-/

namespace Rust

/-- The conditions that unsafe code promises and nobody checks. -/
inductive Unsound
  /-- A false condition reached `hint::assert_unchecked`. -/
  | assertUnchecked
  /-- `unchecked_add` overflowed. -/
  | uncheckedAdd
  /-- The precondition of `Layout::from_size_align_unchecked`, `alloc` or `realloc` failed. -/
  | layout
  /-- The `# Safety` section of an unsafe function was not met by its caller. -/
  | callerContract
  /-- `str::from_utf8_unchecked` received bytes that are not UTF-8. -/
  | invalidUtf8
  /-- A niche value was built where its type excludes it. -/
  | invalidValue
  /-- Access to, or release of, memory that is not a live block. -/
  | deadBlock
  /-- Access beyond the end of a block or buffer. -/
  | outOfBounds
  /-- Read of a byte that was never written. -/
  | uninit
  deriving DecidableEq, Repr

/-- How a call can end when it does not return. -/
inductive Fault
  | panic (message : String)
  /-- `handle_alloc_error` for a layout of this size. -/
  | allocError (size : Nat)
  | unsound (cause : Unsound)
  deriving DecidableEq, Repr

/-- A panic or an allocation failure: the program unwinds and may go on. -/
def Fault.Unwinds : Fault → Prop
  | .panic _ => True
  | .allocError _ => True
  | .unsound _ => False

abbrev Exec (σ α : Type) := EStateM Fault σ α

namespace Exec

variable {σ τ α β : Type}

/-- Stop with undefined behaviour unless the condition holds. -/
def require (cause : Unsound) (cond : Prop) [Decidable cond] : Exec σ Unit :=
  if cond then pure () else throw (.unsound cause)

/-- `hint::assert_unchecked`. -/
def assertUnchecked (cond : Prop) [Decidable cond] : Exec σ Unit :=
  require .assertUnchecked cond

/-- `if !cond { panic!(message) }`. -/
def panicUnless (cond : Prop) [Decidable cond] (message : String) : Exec σ Unit :=
  if cond then pure () else throw (.panic message)

/-- Code that reads or changes only the second component of the state. -/
def onSnd (m : Exec τ α) : Exec (σ × τ) α := fun (x, h) =>
  match m.run h with
  | .ok a h' => .ok a (x, h')
  | .error e h' => .error e (x, h')

/-- The first component of the state: what `&self` and `&mut self` point to. -/
def self : Exec (σ × τ) σ := fun (x, h) => .ok x (x, h)

/-- Overwrite the first component of the state, dropping nothing. -/
def setSelf (x : σ) : Exec (σ × τ) Unit := fun (_, h) => .ok () (x, h)

/-- `*self = new`: the old value is dropped, then the new one stored. -/
def assign (drop : σ → Exec τ Unit) (new : σ) : Exec (σ × τ) Unit := do
  let old ← self
  onSnd (drop old)
  setSelf new

/-- The state that a call leaves behind, however it ends. -/
def final : EStateM.Result Fault σ α → σ
  | .ok _ s => s
  | .error _ s => s

/-- The fault that a call ends in, if it does not return. -/
def fault? : EStateM.Result Fault σ α → Option Fault
  | .ok _ _ => none
  | .error e _ => some e

@[simp] theorem fault?_ok (a : α) (s : σ) : fault? (.ok a s) = none := rfl

@[simp] theorem fault?_error (e : Fault) (s : σ) :
    fault? (.error e s : EStateM.Result Fault σ α) = some e := rfl

def returns : EStateM.Result Fault σ α → Bool
  | .ok _ _ => true
  | .error _ _ => false

/-- The result of `*self = new()` where dropping the old value leaves no trace. -/
def replacing (old : σ) : EStateM.Result Fault τ σ → EStateM.Result Fault (σ × τ) Unit
  | .ok x h => .ok () (x, h)
  | .error e h => .error e (old, h)

@[simp] theorem fault?_replacing (old : σ) (r : EStateM.Result Fault τ σ) :
    fault? (replacing old r) = fault? r := by
  cases r <;> rfl

@[simp] theorem final_replacing_snd (old : σ) (r : EStateM.Result Fault τ σ) :
    (final (replacing old r)).2 = final r := by
  cases r <;> rfl

theorem eq_ok_of_returns {r : EStateM.Result Fault σ Unit} (h : returns r = true) :
    r = .ok () (final r) := by
  cases r with
  | ok u s => rfl
  | error e s => cases h

theorem eq_error_of_fault? {r : EStateM.Result Fault σ α} {e : Fault} (h : fault? r = some e) :
    r = .error e (final r) := by
  cases r with
  | ok a s => cases h
  | error e' s =>
      cases h
      rfl

@[simp] theorem run_throw (e : Fault) (s : σ) :
    EStateM.run (throw e : Exec σ α) s = .error e s := rfl

@[simp] theorem run_map (f : α → β) (m : Exec σ α) (s : σ) :
    EStateM.run (f <$> m) s =
      match m.run s with
      | .ok a s' => .ok (f a) s'
      | .error e s' => .error e s' := by
  change EStateM.map f m s = _
  unfold EStateM.map EStateM.run
  cases m s <;> rfl

/-- Two programs that begin alike end alike if they go on alike. -/
theorem run_bind_congr {m : Exec σ α} {f g : α → Exec σ β} {s : σ}
    (hfg : ∀ a s', m.run s = .ok a s' → (f a).run s' = (g a).run s') :
    (m >>= f).run s = (m >>= g).run s := by
  rw [EStateM.run_bind, EStateM.run_bind]
  cases hm : m.run s with
  | ok a s' => exact hfg a s' hm
  | error e s' => rfl

@[simp] theorem run_self (x : σ) (h : τ) :
    EStateM.run (self : Exec (σ × τ) σ) (x, h) = .ok x (x, h) := rfl

@[simp] theorem run_setSelf (x y : σ) (h : τ) :
    EStateM.run (setSelf x : Exec (σ × τ) Unit) (y, h) = .ok () (x, h) := rfl

theorem run_onSnd (m : Exec τ α) (x : σ) (h : τ) :
    EStateM.run (onSnd m : Exec (σ × τ) α) (x, h) =
      match m.run h with
      | .ok a h' => .ok a (x, h')
      | .error e h' => .error e (x, h') := rfl

theorem run_assign_of_quiet_drop (drop : σ → Exec τ Unit) (new : Exec τ σ) {x : σ} {h : τ}
    (hdrop : ∀ h, (drop x).run h = .ok () h) :
    EStateM.run (do assign drop (← onSnd new)) (x, h) = replacing x (new.run h) := by
  simp only [EStateM.run_bind, run_onSnd]
  cases new.run h with
  | ok y h' => simp [assign, run_onSnd, hdrop, replacing]
  | error e h' => rfl

variable {cause : Unsound} {cond : Prop} [Decidable cond] {message : String} {s : σ}

@[simp] theorem run_require :
    (require cause cond : Exec σ Unit).run s =
      if cond then .ok () s else .error (.unsound cause) s := by
  unfold require
  split <;> rfl

@[simp] theorem run_panicUnless :
    (panicUnless cond message : Exec σ Unit).run s =
      if cond then .ok () s else .error (.panic message) s := by
  unfold panicUnless
  split <;> rfl

end Exec

end Rust
