import Sinstr.Runs

/-!
# Refinement to a plain string

A `SinStr` that is edited in any order stands, after every edit, for the string
that the same edits give on a plain `String`, and every read shows that string.
-/

namespace Sinstr

open Rust

variable {t : Target}

namespace SinStr

/-- What can be seen of a value. -/
structure Observes (h : Heap) (x : SinStr t) (s : String) : Prop where
  asBytes : x.asBytes.run h = .ok (strBytes s) h
  asStr : x.asStr.run h = .ok s h
  len : x.len.run h = .ok s.utf8ByteSize h
  isEmpty : x.isEmpty = decide (s = "")
  isInlined : x.isInlined = decide (s.utf8ByteSize ≤ t.nicheMaxInt)
  isHeap : x.isHeap = decide (t.nicheMaxInt < s.utf8ByteSize)

theorem Represents.observes {h : Heap} {x : SinStr t} {s : String} (r : Represents h x s) :
    Observes h x s := by
  obtain ⟨_ | n⟩ := x
  · obtain rfl : s = "" := r
    exact ⟨rfl, rfl, rfl, rfl, rfl, rfl⟩
  · have hn : n.Represents h s := r
    exact
      { asBytes := hn.run_asBytes
        asStr := hn.run_asStr
        len := hn.run_len
        isEmpty := (decide_eq_false hn.ne_empty).symm
        isInlined := hn.isInlined_eq
        isHeap := by
          rw [Bool.eq_iff_iff, decide_eq_true_iff]
          exact hn.isHeap_iff }

end SinStr

/-- The edits of a variable `x`. -/
inductive Edit
  /-- `x = SinStr::new(s)`. -/
  | new (s : String)
  | setStr (s : String)
  | pushStr (s : String)
  /-- `x = x.clone()`. -/
  | clone
  /-- The string of `as_str_mut`, overwritten with `s`. -/
  | asStrMut (s : String)

namespace Edit

def exec (a : Allocator t.toMachine) : Edit → Exec (SinStr t × Heap) Unit
  | .new s => do SinStr.assign (← Exec.onSnd (SinStr.new a s))
  | .setStr s => SinStr.setStr a s
  | .pushStr s => SinStr.pushStr a s
  | .clone => do
      let x ← Exec.self
      SinStr.assign (← Exec.onSnd (x.clone a))
  | .asStrMut s => SinStr.asStrMut s

/-- The edit of a plain string. -/
def apply : Edit → String → String
  | .new s, _ => s
  | .setStr s, _ => s
  | .pushStr s, c => c ++ s
  | .clone, c => c
  | .asStrMut s, _ => s

/-- The content stays three words below the limit, and an overwrite keeps the
length. -/
def Within (t : Target) (e : Edit) (c : String) : Prop :=
  (e.apply c).utf8ByteSize + 3 * t.size ≤ t.isizeMax ∧
    ∀ s, e = .asStrMut s → s.utf8ByteSize = c.utf8ByteSize

def execAll (a : Allocator t.toMachine) : List Edit → Exec (SinStr t × Heap) Unit
  | [] => return
  | e :: es => do
      e.exec a
      execAll a es

def applyAll : String → List Edit → String
  | c, [] => c
  | c, e :: es => applyAll (e.apply c) es

def WithinAll (t : Target) : String → List Edit → Prop
  | _, [] => True
  | c, e :: es => e.Within t c ∧ WithinAll t (e.apply c) es

/-- The variable stands for the string, or the allocator refused the last request. -/
inductive Refines (s : String) : EStateM.Result Fault (SinStr t × Heap) Unit → Prop
  | done {x h} (rep : SinStr.Represents h x s) : Refines s (.ok () (x, h))
  | refused {n x h} (hr : h.Refused) : Refines s (.error (.allocError n) (x, h))

variable {a : Allocator t.toMachine} {h : Heap} {x : SinStr t} {c : String} {e : Edit}

theorem exec_outcome (r : SinStr.Represents h x c) (hin : e.Within t c) :
    ∃ keeps, (SinStr.resource t).Outcome keeps h x c (e.apply c) ((e.exec a).run (x, h)) := by
  obtain ⟨hlen, hsame⟩ := hin
  cases e with
  | new s =>
      have hfit : s.utf8ByteSize + 3 * t.size ≤ t.isizeMax := hlen
      have hnew := (SinStr.built_new (a := a) (h := h) (s := s) (by omega)).assign
        True r
      refine ⟨True, ?_⟩
      simpa [exec, apply, SinStr.assign, SinStr.resource] using hnew
  | setStr s =>
      have hfit : s.utf8ByteSize + 3 * t.size ≤ t.isizeMax := hlen
      exact ⟨True, SinStr.outcome_setStr r (by omega)⟩
  | pushStr s =>
      have hfit : (c ++ s).utf8ByteSize + 3 * t.size ≤ t.isizeMax := hlen
      rw [String.utf8ByteSize_append] at hfit
      exact ⟨_, SinStr.outcome_pushStr r (by omega)⟩
  | clone =>
      have hclone := (SinStr.built_clone (a := a) r).assign True r
      refine ⟨True, ?_⟩
      simpa [exec, apply, SinStr.assign, SinStr.resource] using hclone
  | asStrMut s => exact ⟨True, SinStr.outcome_asStrMut r (hsame s rfl)⟩

/-- One edit refines the edit of the plain string. -/
theorem exec_refines (ht : t.Complete) (r : SinStr.Represents h x c) (hin : e.Within t c) :
    Refines (e.apply c) ((e.exec a).run (x, h)) := by
  obtain ⟨keeps, hout⟩ := exec_outcome (a := a) r hin
  have hsize : ¬Oversize t (e.apply c).utf8ByteSize := Nat.not_lt.mpr hin.1
  generalize (e.exec a).run (x, h) = result at hout ⊢
  cases hout with
  | done rep _ _ => exact .done rep
  | fault he _ =>
      cases he with
      | allocError _ hr => exact .refused hr
      | panic _ hover => exact absurd hover hsize
      | assertUnchecked hover => exact absurd hover hsize
      | layout hover => exact absurd hover hsize
      | invalidValue hc => exact absurd ht hc

/-- A sequence of edits refines the same edits of the plain string. -/
theorem execAll_refines (ht : t.Complete) (es : List Edit) (r : SinStr.Represents h x c)
    (hin : WithinAll t c es) : Refines (applyAll c es) ((execAll a es).run (x, h)) := by
  induction es generalizing x h c with
  | nil => exact .done r
  | cons e es ih =>
      obtain ⟨he, hes⟩ := hin
      have hstep := exec_refines (a := a) ht r he
      simp only [execAll, EStateM.run_bind]
      generalize (e.exec a).run (x, h) = result at hstep ⊢
      cases hstep with
      | done rep => exact ih rep hes
      | refused hr => exact .refused hr

end Edit

/-- On a 64-bit target, whatever edits a variable goes through, every read of it
shows the string that the edits give on a plain string. There is no panic and
no undefined behaviour; a run stops only where the allocator refuses. -/
theorem edits_refine_string (e : Endian) (a : Allocator (PointerWidth.w64.target e).toMachine)
    (h : Heap) (es : List Edit) (hin : Edit.WithinAll (PointerWidth.w64.target e) "" es) :
    (∃ x h', (Edit.execAll a es).run (SinStr.EMPTY, h) = .ok () (x, h') ∧
        x.Observes h' (Edit.applyAll "" es)) ∨
      ∃ n x h', (Edit.execAll a es).run (SinStr.EMPTY, h) = .error (.allocError n) (x, h') ∧
        h'.Refused := by
  have hcomplete : (PointerWidth.w64.target e).Complete := complete_of_ne_w16 (by decide)
  have hrun := Edit.execAll_refines (a := a) (h := h) (x := SinStr.EMPTY) (c := "") hcomplete es
    rfl hin
  generalize (Edit.execAll a es).run (SinStr.EMPTY, h) = result at hrun ⊢
  cases hrun with
  | @done x h' rep => exact Or.inl ⟨x, h', rfl, rep.observes⟩
  | @refused n x h' hr => exact Or.inr ⟨n, x, h', rfl, hr⟩

/-- Inline, to the heap, with growth, cloned, overwritten, and back. -/
def sampleEdits : List Edit :=
  [.new "abc", .pushStr "defghij", .pushStr "0123456789", .clone, .asStrMut "ABCDEFGHIJ0123456789",
    .setStr "", .pushStr "xyz"]

theorem sampleEdits_refine :
    ∃ x h', (Edit.execAll (PointerWidth.w64.paged .little) sampleEdits).run
        (SinStr.EMPTY, Heap.empty) = .ok () (x, h') ∧ x.Observes h' "xyz" := by
  have hin : Edit.WithinAll (PointerWidth.w64.target .little) "" sampleEdits := by
    refine ⟨⟨by decide, nofun⟩, ⟨by decide, nofun⟩, ⟨by decide, nofun⟩, ⟨by decide, nofun⟩,
      ⟨by decide, ?_⟩, ⟨by decide, nofun⟩, ⟨by decide, nofun⟩, trivial⟩
    intro s hs
    cases hs
    decide +kernel
  have hreturns : Exec.returns ((Edit.execAll (PointerWidth.w64.paged .little) sampleEdits).run
      (SinStr.EMPTY, Heap.empty)) = true := by decide +kernel
  rcases edits_refine_string .little (PointerWidth.w64.paged .little) Heap.empty sampleEdits hin
    with hrun | ⟨n, x, h', hrun, _⟩
  · exact hrun
  · rw [hrun] at hreturns
    cases hreturns

end Sinstr
