import Sinstr.Guarantees
import Sinstr.Rust.Code

/-!
# What a hasher sees

`Hash` asks that unequal values write streams neither of which begins the other, so
that values hashed in a row cannot run into each other. Strings end in a byte that is
never part of UTF-8, and `SinStr` puts the discriminant of the `Option` in front.
-/

namespace Sinstr

open Rust

variable {t : Target}

namespace Views

variable {V : Type} {R : Resource V String} {h : Heap} {x y : V} {xs ys : List V}
  {ss ss' : List String}

/-- `Hash::hash_slice`: one value after the other. -/
def hashSlice (views : Views R t) : List V → Exec Heap (List HashWrite)
  | [] => return []
  | x :: xs => do
      let first ← views.hash x
      return first ++ (← views.hashSlice xs)

/-- The bytes that reach the hasher for a content. -/
def hashBytes (views : Views R t) (s : String) : List UInt8 :=
  (views.writes s).flatMap (HashWrite.stream t.toMachine)

theorem run_hashSlice (views : Views R t) (hrep : List.Forall₂ (R.Rep h) xs ss) :
    (views.hashSlice xs).run h = .ok (ss.flatMap views.writes) h := by
  induction hrep with
  | nil => rfl
  | cons r _ ih =>
      simp only [hashSlice, EStateM.run_bind, views.run_hash r, ih, EStateM.run_pure,
        List.flatMap_cons]

theorem flatMap_stream (views : Views R t) (ss : List String) :
    (ss.flatMap views.writes).flatMap (HashWrite.stream t.toMachine) =
      ss.flatMap views.hashBytes := by
  rw [List.flatMap_assoc]
  rfl

theorem forall₂_eq_iff (views : Views R t) (hrep : List.Forall₂ (R.Rep h) xs ss)
    (hrep' : List.Forall₂ (R.Rep h) ys ss') :
    List.Forall₂ (fun x y => (views.eq x y).run h = .ok true h) xs ys ↔ ss = ss' := by
  induction hrep generalizing ys ss' with
  | nil =>
      cases hrep' with
      | nil => simp
      | cons _ _ => simp
  | cons r _ ih =>
      cases hrep' with
      | nil => simp
      | cons r' hrest =>
          rw [List.forall₂_cons, ih hrest, views.run_eq r r', List.cons.injEq]
          simp

/-- The streams of the values in a pool. -/
structure HashesApart (views : Views R t) (w : Pool V) : Prop where
  single : ∀ {i j x y}, w.vals i = some x → w.vals j = some y → ∃ ws ws',
    (views.hash x).run w.heap = .ok ws w.heap ∧ (views.hash y).run w.heap = .ok ws' w.heap ∧
    (ws.flatMap (HashWrite.stream t.toMachine) <+: ws'.flatMap (HashWrite.stream t.toMachine) ↔
      (views.eq x y).run w.heap = .ok true w.heap)
  slice : ∀ {xs ys}, (∀ x ∈ xs, ∃ i, w.vals i = some x) → (∀ y ∈ ys, ∃ i, w.vals i = some y) →
    ∃ ws ws', (views.hashSlice xs).run w.heap = .ok ws w.heap ∧
    (views.hashSlice ys).run w.heap = .ok ws' w.heap ∧
    (ws.flatMap (HashWrite.stream t.toMachine) = ws'.flatMap (HashWrite.stream t.toMachine) ↔
      List.Forall₂ (fun x y => (views.eq x y).run w.heap = .ok true w.heap) xs ys)

theorem exists_contents {B M : Type} {I : Interface V String B M} {spec : Nat → Option String}
    {w : Pool V} (hinv : Invariant I spec w) (hxs : ∀ x ∈ xs, ∃ i, w.vals i = some x) :
    ∃ ss, List.Forall₂ (I.Rep w.heap) xs ss := by
  induction xs with
  | nil => exact ⟨[], .nil⟩
  | cons x xs ih =>
      obtain ⟨i, hx⟩ := hxs x List.mem_cons_self
      obtain ⟨s, _, r⟩ := hinv.exists_content hx
      obtain ⟨ss, hss⟩ := ih fun y hy => hxs y (List.mem_cons_of_mem x hy)
      exact ⟨s :: ss, .cons r hss⟩

theorem hashesApart_of_code {B M : Type} {I : Interface V String B M}
    (views : Views I.toResource t) {spec : Nat → Option String} {w : Pool V}
    (hcode : PrefixCode views.hashBytes) (hne : ∀ s, views.hashBytes s ≠ [])
    (hinv : Invariant I spec w) : views.HashesApart w where
  single := by
    intro i j x y hx hy
    obtain ⟨s, _, r⟩ := hinv.exists_content hx
    obtain ⟨s', _, r'⟩ := hinv.exists_content hy
    refine ⟨_, _, views.run_hash r, views.run_hash r', ?_⟩
    rw [views.run_eq r r']
    constructor
    · intro hpre
      rw [decide_eq_true (hcode s s' hpre)]
    · intro heq
      rw [EStateM.Result.ok.injEq] at heq
      rw [of_decide_eq_true heq.1]
  slice := by
    intro xs ys hxs hys
    obtain ⟨ss, hss⟩ := exists_contents hinv hxs
    obtain ⟨ss', hss'⟩ := exists_contents hinv hys
    refine ⟨_, _, views.run_hashSlice hss, views.run_hashSlice hss', ?_⟩
    rw [views.flatMap_stream, views.flatMap_stream, hcode.flatMap_inj hne,
      views.forall₂_eq_iff hss hss']

end Views

/-- The stream of a `str`: its bytes and a terminator that is not UTF-8. -/
theorem strHash_code : PrefixCode fun s => strBytes s ++ [0xff] :=
  PrefixCode.terminated (fun _ _ => strBytes_inj.mp) notMem_strBytes

namespace NonEmptySinStr

variable {F : String → Fault → Heap → Prop}

theorem hashBytes_eq (s : String) : (views (t := t) F).hashBytes s = strBytes s ++ [0xff] := by
  simp [Views.hashBytes, views, strHash, HashWrite.stream]

theorem hashBytes_code : PrefixCode (views (t := t) F).hashBytes := by
  rw [funext hashBytes_eq]
  exact strHash_code

theorem hashBytes_ne_nil (s : String) : (views (t := t) F).hashBytes s ≠ [] := by
  rw [hashBytes_eq]
  exact List.append_ne_nil_of_right_ne_nil _ (List.cons_ne_nil _ _)

end NonEmptySinStr

namespace SinStr

/-- The discriminant of the `Option`, as a number. -/
def hashTag (t : Target) (s : String) : List UInt8 := t.usizeBytes (if s = "" then 0 else 1)

theorem hashTag_inj {s s' : String} (htag : hashTag t s = hashTag t s') :
    s = "" ↔ s' = "" := by
  have hone : 1 < t.modulus := by
    have := t.four_mul_size_lt
    have := t.modulus_eq
    omega
  have hlt : ∀ s : String, (if s = "" then 0 else 1) < t.modulus := by
    intro s
    split_ifs <;> omega
  have hvalue := congrArg t.usizeValue htag
  rw [hashTag, hashTag, Machine.usizeValue_usizeBytes (hlt s),
    Machine.usizeValue_usizeBytes (hlt s')] at hvalue
  by_cases hs : s = "" <;> by_cases hs' : s' = "" <;> simp [hs, hs'] at hvalue ⊢

theorem hashBytes_eq (s : String) :
    (views t).hashBytes s = hashTag t s ++ if s = "" then [] else strBytes s ++ [0xff] := by
  have hone : (1 : Int) % t.modulus = 1 := by
    have := t.four_mul_size_lt
    have := t.modulus_eq
    exact Int.emod_eq_of_lt (by omega) (by omega)
  by_cases hs : s = ""
  · simp [Views.hashBytes, views, hashWrites, HashWrite.stream, hashTag, hs]
  · simp [Views.hashBytes, views, hashWrites, strHash, HashWrite.stream, hashTag, hs, hone]

theorem hashBytes_code : PrefixCode (views t).hashBytes := by
  rw [funext hashBytes_eq]
  refine PrefixCode.tagged (fun s s' => by simp [hashTag]) fun s s' htag hpre => ?_
  by_cases hs : s = ""
  · exact hs.trans ((hashTag_inj htag).mp hs).symm
  · have hs' : s' ≠ "" := fun h => hs ((hashTag_inj htag).mpr h)
    rw [if_neg hs, if_neg hs'] at hpre
    exact strHash_code s s' hpre

theorem hashBytes_ne_nil (s : String) : (views t).hashBytes s ≠ [] := by
  have hlen : (hashTag t s).length = t.size := by simp [hashTag]
  have hpos := t.one_lt_size
  rw [hashBytes_eq]
  exact List.append_ne_nil_of_left_ne_nil (List.ne_nil_of_length_pos (by omega)) _

end SinStr

/-- In every reachable pool two values hash apart unless they are equal, neither stream
beginning the other, and rows of values hash alike only if they are equal one by one. -/
theorem hashes_apart (a : Allocator t.toMachine) :
    (∀ spec w, Reachable (NonEmptySinStr.api a) (fun _ _ => True) spec w →
      (NonEmptySinStr.views (NonEmptySinStr.MayFault t)).HashesApart w) ∧
    (∀ spec w, Reachable (SinStr.api a) (fun _ _ => True) spec w →
      (SinStr.views t).HashesApart w) :=
  ⟨fun _ _ hr => Views.hashesApart_of_code _ NonEmptySinStr.hashBytes_code
      NonEmptySinStr.hashBytes_ne_nil hr.invariant,
    fun _ _ hr => Views.hashesApart_of_code _ SinStr.hashBytes_code SinStr.hashBytes_ne_nil
      hr.invariant⟩

theorem SinStr.mixedRun_hashes :
    (views (PointerWidth.w64.target .little)).HashesApart (Exec.final ((Op.execAll
      (api (PointerWidth.w64.paged .little)) mixedRun).run Pool.empty)) :=
  (hashes_apart (PointerWidth.w64.paged .little)).2 _ _ mixedRun_reachable

end Sinstr
