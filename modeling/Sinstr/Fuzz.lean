import Sinstr.DebugRuns
import Sinstr.Growth
import Sinstr.Interleavings
import Sinstr.Rust.Rebuild
import Sinstr.Rust.Scope

/-!
# The fuzz target

`fuzz_targets/sinstr.rs` sets one value to each string of its input and then pushes all
of them onto it. Whatever the input, as long as the string that it builds is not too
long for a layout and every address is declared, neither build of the crate can do worse
than run out of memory, and no block is lost, if the allocator goes by the address of a
block and not by the size that it is told.
-/

namespace Sinstr

open Rust

variable {t : Target}

/-- The value of a place is set to the strings one after another. -/
def setAll {B : Type} (i : Nat) (us : List String) : List (Op B Mutator) :=
  us.map fun u => .call i (.setStr u)

/-- `fuzz_target!`: the value is a variable of the closure. -/
def fuzzTarget (data : List String) : List (Op SinStr.Maker Mutator) :=
  .build 0 .default :: (setAll 0 data ++ pushAll 0 data)

/-- The string that the target builds. -/
def fuzzString (data : List String) : String :=
  data.foldl (· ++ ·) (data.getLast?.getD "")

section Strings

theorem le_foldl_append (us : List String) (c : String) :
    c.utf8ByteSize ≤ (us.foldl (· ++ ·) c).utf8ByteSize := by
  induction us generalizing c with
  | nil => exact Nat.le_refl _
  | cons u us ih =>
      have hcat : (c ++ u).utf8ByteSize = c.utf8ByteSize + u.utf8ByteSize :=
        String.utf8ByteSize_append
      have hrest := ih (c ++ u)
      rw [List.foldl_cons]
      omega

theorem mem_le_foldl_append {us : List String} {s : String} (c : String) (hs : s ∈ us) :
    s.utf8ByteSize ≤ (us.foldl (· ++ ·) c).utf8ByteSize := by
  induction us generalizing c with
  | nil => cases hs
  | cons u us ih =>
      rw [List.foldl_cons]
      rcases List.mem_cons.mp hs with rfl | hs
      · have hcat : (c ++ s).utf8ByteSize = c.utf8ByteSize + s.utf8ByteSize :=
          String.utf8ByteSize_append
        have hrest := le_foldl_append us (c ++ s)
        omega
      · exact ih (c ++ u) hs

end Strings

section Loops

variable {V B : Type} {I : Interface V String B Mutator} {i : Nat} {us : List String}
  {spec : Nat → Option String} {c d : String} {m : Mutator}

theorem apply_call (hc : spec i = some c) (hd : I.effect m c = d) :
    (Op.call i m : Op B Mutator).apply I spec i = some d := by
  simp [Op.apply, hc, hd]

theorem content_call (hc : spec i = some c) (hd : I.effect m c = d) :
    (Op.call i m : Op B Mutator).content I spec = some d := by
  simp [Op.content, hc, hd]

theorem applyAll_setAll (heffect : ∀ u c, I.effect (.setStr u) c = u) (hc : spec i = some c) :
    Op.applyAll I spec (setAll i us) i = some (us.getLast?.getD c) := by
  induction us generalizing spec c with
  | nil => exact hc
  | cons u us ih =>
      have hrest := ih (apply_call hc (heffect u c))
      rw [List.getLast?_cons]
      exact hrest

theorem applyAll_pushAll (heffect : ∀ u c, I.effect (.pushStr u) c = c ++ u)
    (hc : spec i = some c) :
    Op.applyAll I spec (pushAll i us) i = some (us.foldl (· ++ ·) c) := by
  induction us generalizing spec c with
  | nil => exact hc
  | cons u us ih => exact ih (apply_call hc (heffect u c))

/-- The loop that sets stores the strings of the list. -/
theorem contents_setAll (heffect : ∀ u c, I.effect (.setStr u) c = u) (hc : spec i = some c) :
    Op.contents I spec (setAll i us) = us := by
  induction us generalizing spec c with
  | nil => rfl
  | cons u us ih =>
      have hall : Op.contents I spec (setAll i (u :: us)) =
          ((Op.call i (.setStr u) : Op B Mutator).content I spec).toList ++ Op.contents I
            ((Op.call i (.setStr u) : Op B Mutator).apply I spec) (setAll i us) := rfl
      rw [hall, content_call hc (heffect u c), ih (apply_call hc (heffect u c))]
      rfl

/-- The loop that pushes stores nothing longer than what it ends with. -/
theorem contents_pushAll_le (heffect : ∀ u c, I.effect (.pushStr u) c = c ++ u)
    (hc : spec i = some c) (hd : d ∈ Op.contents I spec (pushAll i us)) :
    d.utf8ByteSize ≤ (us.foldl (· ++ ·) c).utf8ByteSize := by
  induction us generalizing spec c with
  | nil => cases hd
  | cons u us ih =>
      rcases List.mem_append.mp hd with hhead | hrest
      · rw [content_call hc (heffect u c)] at hhead
        obtain rfl : d = c ++ u := List.mem_singleton.mp hhead
        exact le_foldl_append _ _
      · exact ih (apply_call hc (heffect u c)) hrest

theorem legalRun_setAll (hcallable : ∀ u ∈ us, ∀ c, I.Callable (.setStr u) c)
    (hc : spec i = some c) : Op.LegalRun I (fun _ _ => True) spec (setAll i us) := by
  induction us generalizing spec c with
  | nil => trivial
  | cons u us ih =>
      refine ⟨⟨⟨c, hc, hcallable u List.mem_cons_self c⟩, trivial⟩, ?_⟩
      exact ih (fun v hv => hcallable v (List.mem_cons_of_mem u hv)) (apply_call hc rfl)

end Loops

section Target

variable {V : Type} {I : Interface V String SinStr.Maker Mutator} {data : List String}

/-- The target is a program of its one variable. -/
theorem touched_fuzzTarget : ∀ op ∈ fuzzTarget data, ∀ k ∈ op.touched, k ∈ [0] := by
  intro op hop k hk
  have hplace : op.touched = [0] := by
    simp only [fuzzTarget, setAll, pushAll, List.mem_cons, List.mem_append, List.mem_map] at hop
    rcases hop with rfl | ⟨u, -, rfl⟩ | ⟨u, -, rfl⟩ <;> rfl
  rwa [hplace] at hk

/-- What the contracts ask of the target's calls. -/
structure FuzzCalls (I : Interface V String SinStr.Maker Mutator) (data : List String) : Prop where
  default : I.Buildable .default ∧ I.value .default = ""
  set : ∀ u c, I.effect (.setStr u) c = u
  push : ∀ u c, I.effect (.pushStr u) c = c ++ u
  callable : ∀ u ∈ data, ∀ c, I.Callable (.setStr u) c ∧ I.Callable (.pushStr u) c

theorem FuzzCalls.start (hcalls : FuzzCalls I data) :
    (Op.build 0 .default : Op SinStr.Maker Mutator).apply I (fun _ => none) 0 = some "" := by
  simp [Op.apply, hcalls.default.2]

theorem FuzzCalls.legalRun (hcalls : FuzzCalls I data) :
    Op.LegalRun I (fun _ _ => True) (fun _ => none) (fuzzTarget data) := by
  refine ⟨⟨⟨rfl, hcalls.default.1⟩, trivial⟩, Op.legalRun_append.mpr ⟨?_, ?_⟩⟩
  · exact legalRun_setAll (fun u hu c => (hcalls.callable u hu c).1) hcalls.start
  · exact legalRun_pushAll (fun u hu c => (hcalls.callable u hu c).2)
      (applyAll_setAll hcalls.set hcalls.start)

theorem FuzzCalls.applyAll (hcalls : FuzzCalls I data) :
    Op.applyAll I (fun _ => none) (fuzzTarget data) 0 = some (fuzzString data) := by
  have happend : Op.applyAll I (fun _ => none) (fuzzTarget data) =
      Op.applyAll I (Op.applyAll I ((Op.build 0 .default : Op SinStr.Maker Mutator).apply I
        fun _ => none) (setAll 0 data)) (pushAll 0 data) := Op.applyAll_append _ _ _
  rw [happend]
  exact applyAll_pushAll hcalls.push (applyAll_setAll hcalls.set hcalls.start)

/-- When the loops return, the variable shows the string that they built. -/
theorem FuzzCalls.shown (views : Views I.toResource t) (hcalls : FuzzCalls I data) {w : Pool V}
    (hrun : (Op.execAll I (fuzzTarget data)).run Pool.empty = .ok () w) :
    ∃ x, w.vals 0 = some x ∧ (views.asStr x).run w.heap = .ok (fuzzString data) w.heap := by
  have hinv := (Reachable.execAll .refl hcalls.legalRun hrun).invariant
  obtain ⟨x, hx, r⟩ := hinv.exists_val hcalls.applyAll
  exact ⟨x, hx, views.run_asStr r⟩

/-- Nothing that is stored on the way is longer than the string at the end. -/
theorem FuzzCalls.contents_le (hcalls : FuzzCalls I data) {s : String}
    (hs : s ∈ Op.contents I (fun _ => none) (fuzzTarget data)) :
    s.utf8ByteSize ≤ (fuzzString data).utf8ByteSize := by
  rcases List.mem_append.mp hs with hdefault | hloops
  · have hvalue : (Op.build 0 .default : Op SinStr.Maker Mutator).content I (fun _ => none) =
      some "" := congrArg some hcalls.default.2
    rw [hvalue] at hdefault
    obtain rfl : s = "" := List.mem_singleton.mp hdefault
    exact Nat.zero_le _
  · rw [Op.contents_append] at hloops
    rcases List.mem_append.mp hloops with hset | hpush
    · rw [contents_setAll hcalls.set hcalls.start] at hset
      exact mem_le_foldl_append _ hset
    · exact contents_pushAll_le hcalls.push (applyAll_setAll hcalls.set hcalls.start) hpush

end Target

/-- The only end that is not a return is a refusal: in the pool `w₀` in which the program
stopped, the last call of the allocator was refused. -/
inductive CleanEnd {V B M C : Type} (I : Interface V C B M) (ops : List (Op B M)) :
    EStateM.Result Fault (Pool V) Unit → Prop
  | returned {w} (hclean : Clean w) : CleanEnd I ops (.ok () w)
  | refused {n w₀ w} (hstop : (Op.execAll I ops).run Pool.empty = .error (.allocError n) w₀)
      (hrefused : w₀.heap.Refused) (hclean : Clean w) : CleanEnd I ops (.error (.allocError n) w)

theorem cleanEnd_of_scoped {V B M C : Type} {I : Interface V C B M} {ops : List (Op B M)}
    {r : EStateM.Result Fault (Pool V) Unit} (hr : Scoped I ops r)
    (hrefused : ∀ c ∈ Op.contents I (fun _ => none) ops, ∀ e h, I.Faults c e h →
      (∃ n, e = .allocError n) ∧ h.Refused) : CleanEnd I ops r := by
  cases hr with
  | returned hclean => exact .returned hclean
  | unwound _ hstop he hclean =>
      obtain ⟨c, hc, hfault⟩ := he
      obtain ⟨⟨n, rfl⟩, hlast⟩ := hrefused c hc _ _ hfault
      exact .refused hstop hlast hclean
  | undefined he =>
      obtain ⟨c, hc, hfault⟩ := he
      obtain ⟨⟨n, hn⟩, _⟩ := hrefused c hc _ _ hfault
      cases hn

theorem fuzzCalls (a : Allocator t.toMachine) {data : List String}
    (hfits : ¬Oversize t (fuzzString data).utf8ByteSize) : FuzzCalls (SinStr.api a) data where
  default := ⟨trivial, rfl⟩
  set _ _ := rfl
  push _ _ := rfl
  callable := by
    intro u hu c
    have hle : u.utf8ByteSize ≤ t.isizeMax := by
      have hmem := mem_le_foldl_append (data.getLast?.getD "") hu
      rw [Oversize, fuzzString] at hfits
      omega
    refine ⟨⟨hle, fun s hs => ?_⟩, hle, fun s hs => ?_⟩
    · cases hs
    · cases hs

/-- The calls are the same in the debug build. -/
theorem FuzzCalls.guard {V : Type} {I : Interface V String SinStr.Maker Mutator}
    {data texts : List String} (hcalls : FuzzCalls I data) (G : Guard I texts) :
    FuzzCalls G.interface data :=
  ⟨hcalls.default, hcalls.set, hcalls.push, hcalls.callable⟩

/-- For every input that is not too long the target returns or is refused memory, in the
release build and in the debug build, all blocks have then been freed, each once, and
where the loops return the value shows the string. -/
theorem fuzz_target_clean (a : Allocator t.toMachine) (hc : t.Complete) (data : List String)
    (hfits : ¬Oversize t (fuzzString data).utf8ByteSize) :
    CleanEnd (SinStr.api a) (fuzzTarget data)
      ((scope (SinStr.api a) [0] (fuzzTarget data)).run Pool.empty) ∧
    CleanEnd (Debug.SinStr.guard a).interface (fuzzTarget data)
      ((scope (Debug.SinStr.guard a).interface [0] (fuzzTarget data)).run Pool.empty) ∧
    (∀ w, (Op.execAll (SinStr.api a) (fuzzTarget data)).run Pool.empty = .ok () w →
      ∃ x, w.vals 0 = some x ∧
        ((SinStr.views t).asStr x).run w.heap = .ok (fuzzString data) w.heap) ∧
    ∀ w, (Op.execAll (Debug.SinStr.guard a).interface (fuzzTarget data)).run Pool.empty =
      .ok () w → ∃ x, w.vals 0 = some x ∧
        ((SinStr.views t).asStr x).run w.heap = .ok (fuzzString data) w.heap := by
  have hcalls := fuzzCalls a hfits
  have hcalls' := hcalls.guard (Debug.SinStr.guard a)
  have hfit {s : String} (hle : s.utf8ByteSize ≤ (fuzzString data).utf8ByteSize) :
      ¬Oversize t s.utf8ByteSize := by
    rw [Oversize] at hfits ⊢
    omega
  refine ⟨?_, ?_, fun w hrun => ?_, fun w hrun => ?_⟩
  · refine cleanEnd_of_scoped (scoped_run hcalls.legalRun touched_fuzzTarget) ?_
    intro s hs e h he
    exact MayFault.refused he hc (hfit (hcalls.contents_le hs))
  · refine cleanEnd_of_scoped (scoped_run hcalls'.legalRun touched_fuzzTarget) ?_
    intro s hs e h he
    have hs' := hfit (hcalls'.contents_le hs)
    cases he with
    | same he _ => exact MayFault.refused he hc hs'
    | caught he _ =>
        cases he with
        | assertUnchecked hover => exact absurd hover hs'
  · exact hcalls.shown (SinStr.views t) hrun
  · exact hcalls'.shown ((SinStr.views t).ofRep id) hrun

/-- Three strings, the last of which ends up in front. No push grows too far, and every
call names its block by the real size. -/
theorem fuzz_target_clean_three :
    CleanEnd (SinStr.api (PointerWidth.w64.paged .little)) (fuzzTarget ["abc", "", "12345678"])
      ((scope (SinStr.api (PointerWidth.w64.paged .little)) [0]
        (fuzzTarget ["abc", "", "12345678"])).run Pool.empty) ∧
    (Exec.final ((scope (SinStr.api (PointerWidth.w64.paged .little)) [0]
      (fuzzTarget ["abc", "", "12345678"])).run Pool.empty)).heap.ExactCalls ∧
    fuzzString ["abc", "", "12345678"] = "12345678abc12345678" :=
  ⟨(fuzz_target_clean (PointerWidth.w64.paged .little) (complete_of_ne_w16 (by decide))
    ["abc", "", "12345678"] (by rw [Oversize]; decide)).1, by decide +kernel, by decide⟩

end Sinstr
