import Sinstr.Growth
import Sinstr.Rust.Books

/-!
# The books of the allocator

An allocator may keep count of its memory by the sizes it is told. After a push that
grew one step too far these sizes are short once: the books of a run exceed the
recomputed sizes by exactly one step for each such push, and a run without them is
exact.
-/

namespace Sinstr

open Rust

variable {t : Target}

instance (t : Target) (n u : Nat) : Decidable (PushKeeps t n u) :=
  inferInstanceAs (Decidable (_ ∨ _))

/-- Counts the calls of `push_str` that grow the block one step too far. -/
def Mutator.overgrows (t : Target) : Mutator → String → Int
  | .pushStr s, c => if PushKeeps t c.utf8ByteSize s.utf8ByteSize then 0 else 1
  | _, _ => 0

theorem Mutator.overgrows_nonneg (m : Mutator) (c : String) : 0 ≤ m.overgrows t c := by
  cases m with
  | pushStr s =>
      rw [overgrows]
      split_ifs <;> omega
  | setStr s => exact le_rfl
  | setStrUnchecked s => exact le_rfl
  | asStrMut s => exact le_rfl
  | asBytesMut new => exact le_rfl

theorem Mutator.overgrows_eq_zero_iff (m : Mutator) (c : String) :
    m.overgrows t c = 0 ↔ m.Keeps t c := by
  cases m with
  | pushStr s => simp [overgrows, Keeps]
  | setStr s => simp [overgrows, Keeps]
  | setStrUnchecked s => simp [overgrows, Keeps]
  | asStrMut s => simp [overgrows, Keeps]
  | asBytesMut new => simp [overgrows, Keeps]

/-- Counts the blocks that are one step larger than recomputed. -/
def oversize (t : Target) (n : Nat) (block : Option Nat) : Int :=
  if block = some (blockSize t n + t.align) then 1 else 0

@[simp] theorem oversize_none (n : Nat) : oversize t n none = 0 := rfl

@[simp] theorem oversize_exact (n : Nat) : oversize t n (some (blockSize t n)) = 0 := by
  have hpos := t.align_pos
  rw [oversize, if_neg]
  rintro heq
  have hsize := Option.some.inj heq
  omega

@[simp] theorem oversize_grown (n : Nat) :
    oversize t n (some (blockSize t n + t.align)) = 1 :=
  if_pos rfl

theorem oversize_nonneg (n : Nat) (block : Option Nat) : 0 ≤ oversize t n block := by
  rw [oversize]
  split_ifs <;> omega

theorem oversize_congr {n m : Nat} {block : Option Nat} (heq : blockSize t n = blockSize t m) :
    oversize t n block = oversize t m block := by
  rw [oversize, oversize, heq]

/-- A settled block is the footprint of its content, and one step if it is too large. -/
theorem Settled.size_eq {n : Nat} {block : Option Nat} (hs : Settled t n block) :
    (block.getD 0 : Int) = footprint t n + t.align * oversize t n block := by
  cases hs with
  | inline hle => simp [footprint_of_le hle]
  | exact hN => simp [footprint_of_lt hN]
  | grown hN => simp [footprint_of_lt hN]

theorem Settled.oversize_eq_zero_iff {n : Nat} {block : Option Nat} (hs : Settled t n block) :
    oversize t n block = 0 ↔ ∀ size, block = some size → size = blockSize t n := by
  have hpos := t.align_pos
  cases hs with
  | inline _ => simp
  | exact _ => simp
  | grown _ => simp [hpos.ne']

section Prices

variable {n m u size : Nat} {block : Option Nat}

/-- A request about a settled block is misnamed if the block is too large. -/
theorem Settled.misnamed_dealloc (hs : Settled t n (some size)) :
    (Request.dealloc (blockSize t n) size).misnamed = oversize t n (some size) := by
  have hpos := t.align_pos
  cases hs with
  | exact _ => simp
  | grown _ => rw [Request.misnamed_dealloc_of_ne (by omega), oversize_grown]

theorem newCharge_held (n : Nat) :
    Request.total Request.held (newCharge t n).requests = ((newCharge t n).block.getD 0 : Int) := by
  by_cases hle : n ≤ t.nicheMaxInt
  · simp [newCharge_of_le hle]
  · simp [newCharge_of_lt (Nat.not_le.mp hle), Request.held]

theorem newCharge_misnamed (n : Nat) :
    Request.total Request.misnamed (newCharge t n).requests +
      oversize t n (newCharge t n).block = 0 := by
  by_cases hle : n ≤ t.nicheMaxInt
  · simp [newCharge_of_le hle]
  · simp [newCharge_of_lt (Nat.not_le.mp hle)]

theorem dropRequests_held (n : Nat) (block : Option Nat) :
    Request.total Request.held (dropRequests t n block) + (block.getD 0 : Int) = 0 := by
  cases block with
  | none => rfl
  | some size => simp [dropRequests, Request.held]

theorem dropRequests_misnamed (hs : Settled t n block) :
    Request.total Request.misnamed (dropRequests t n block) = oversize t n block := by
  cases block with
  | none => rfl
  | some size => simp [dropRequests, hs.misnamed_dealloc]

theorem setCharge_held (n m : Nat) (block : Option Nat) :
    Request.total Request.held (setCharge t n m block).requests + (block.getD 0 : Int) =
      ((setCharge t n m block).block.getD 0 : Int) := by
  by_cases hle : m ≤ t.nicheMaxInt
  · rw [setCharge_of_le hle]
    exact dropRequests_held n block
  · cases block with
    | none =>
        rw [setCharge_none, newCharge_held]
        simp
    | some size =>
        rw [setCharge_some (Nat.not_le.mp hle)]
        split_ifs with hsame
        · simp
        · simp [Request.held]

theorem setCharge_misnamed (hs : Settled t n block) :
    Request.total Request.misnamed (setCharge t n m block).requests +
      oversize t m (setCharge t n m block).block = oversize t n block := by
  by_cases hle : m ≤ t.nicheMaxInt
  · rw [setCharge_of_le hle]
    simp [dropRequests_misnamed hs]
  · cases block with
    | none =>
        rw [setCharge_none, newCharge_misnamed]
        rfl
    | some size =>
        rw [setCharge_some (Nat.not_le.mp hle)]
        split_ifs with hsame
        · simp [oversize_congr hsame]
        · simp [hs.misnamed_dealloc]

theorem pushCharge_held (n u : Nat) (block : Option Nat) :
    Request.total Request.held (pushCharge t n u block).requests + (block.getD 0 : Int) =
      ((pushCharge t n u block).block.getD 0 : Int) := by
  cases block with
  | none =>
      rw [pushCharge, newCharge_held]
      simp
  | some size =>
      rw [pushCharge]
      split_ifs with hroom
      · simp
      · simp [Request.held]

/-- The block that a push leaves is too large exactly outside `PushKeeps`. -/
theorem oversize_grownSize (hN : t.nicheMaxInt < n) (hroom : ¬u ≤ spare t n) :
    oversize t (n + u) (some (grownSize t n u)) = if PushKeeps t n u then 0 else 1 := by
  have hkeeps : PushKeeps t n u ↔ grownSize t n u = blockSize t (n + u) := by
    rw [grownSize_eq_iff, PushKeeps]
    constructor
    · rintro (hle | hfits | hrem)
      · omega
      · exact absurd hfits hroom
      · exact hrem
    · intro hrem
      exact Or.inr (Or.inr hrem)
  have hpos := t.align_pos
  rcases grownSize_cases t n u with heq | heq
  · rw [if_pos (hkeeps.mpr heq), heq, oversize_exact]
  · rw [if_neg (by rw [hkeeps]; omega), heq, oversize_grown]

theorem pushCharge_misnamed (hs : Settled t n block) :
    Request.total Request.misnamed (pushCharge t n u block).requests +
        oversize t (n + u) (pushCharge t n u block).block =
      oversize t n block + if PushKeeps t n u then 0 else 1 := by
  cases block with
  | none =>
      have hle : n ≤ t.nicheMaxInt := by
        cases hs with
        | inline hle => exact hle
      have hkeeps : PushKeeps t n u := Or.inl hle
      rw [pushCharge, newCharge_misnamed, if_pos hkeeps]
      rfl
  | some size =>
      rw [pushCharge]
      split_ifs with hroom hkeeps hkeeps
      · simp [oversize_congr (blockSize_of_le_spare hroom)]
      · exact absurd (Or.inr (Or.inl hroom)) hkeeps
      · simp [hs.misnamed_dealloc, oversize_grownSize hs.nicheMaxInt_lt hroom, hkeeps]
      · simp [hs.misnamed_dealloc, oversize_grownSize hs.nicheMaxInt_lt hroom, hkeeps]

/-- The books are wrong by the step that a name is short. -/
theorem SoundRequest.booked_eq {r : Request} (hr : SoundRequest t r) :
    r.booked = r.held + t.align * r.misnamed := by
  have hpos := t.align_pos
  cases r with
  | alloc size => simp [Request.booked, Request.held]
  | realloc passed actual new =>
      obtain ⟨rfl | rfl, -⟩ := hr
      · simp [Request.booked, Request.held]
      · rw [Request.misnamed_realloc, Request.misnamed_dealloc_of_ne (by omega)]
        simp only [Request.booked, Request.held]
        omega
  | dealloc passed actual =>
      obtain ⟨rfl | rfl, -⟩ := hr
      · simp [Request.booked, Request.held]
      · rw [Request.misnamed_dealloc_of_ne (by omega)]
        simp only [Request.booked, Request.held]
        omega

end Prices

/-- The tariff of a type that charges what this crate charges. -/
structure Priced {V B : Type} (t : Target) {I : Interface V String B Mutator} (T : Tariff I) :
    Prop where
  make : ∀ c, T.make c = newCharge t c.utf8ByteSize
  change : ∀ m c block, T.change m c block = m.charge t c block
  release : ∀ c block, T.release c block = dropRequests t c.utf8ByteSize block
  effect : ∀ m c, I.effect m c = m.effect c
  callable : ∀ m c, I.Callable m c → m.Callable t c
  keeps : ∀ m c, I.Keeps m c ↔ m.Keeps t c

theorem NonEmptySinStr.priced (a : Allocator t.toMachine) : Priced t (tariff a) :=
  ⟨fun _ => rfl, fun _ _ _ => rfl, fun _ _ => rfl, fun _ _ => rfl, fun _ _ h => h,
    fun _ _ => Iff.rfl⟩

theorem SinStr.priced (a : Allocator t.toMachine) : Priced t (tariff a) :=
  ⟨fun _ => rfl, fun _ _ _ => rfl, fun _ _ => rfl, fun _ _ => rfl, fun _ _ h => h.1,
    fun _ _ => Iff.rfl⟩

/-- The books of a pool and of the steps that led to it, for places `s`. -/
structure Balanced {V B : Type} (t : Target) (I : Interface V String B Mutator)
    (ops : List (Op B Mutator)) (w : Pool V) (s : Finset Nat) : Prop where
  /-- The memory in use is that of the blocks of the values. -/
  inUse : Request.total Request.held w.heap.requests =
    (w.account I.owned).worth (fun _ block => block.getD 0) (Op.applyAll I (fun _ => none) ops) s
  /-- By the sizes that the allocator is told, it is the memory that the contents
  need, and one step for each push that grew too far. -/
  booked : Request.total Request.booked w.heap.requests =
    (w.account I.owned).worth (fun c _ => footprint t c.utf8ByteSize)
      (Op.applyAll I (fun _ => none) ops) s +
        t.align * Op.excessAll I (Mutator.overgrows t) (fun _ => none) ops
  /-- Each of these pushes has led to one misnamed request, or to a block that is
  still too large. -/
  drift : Op.excessAll I (Mutator.overgrows t) (fun _ => none) ops =
    Request.total Request.misnamed w.heap.requests +
      (w.account I.owned).worth (fun c => oversize t c.utf8ByteSize)
        (Op.applyAll I (fun _ => none) ops) s
  /-- All sizes are right exactly if there was no such push. -/
  exact : ((∀ r ∈ w.heap.requests, r.Exact) ∧
      ∀ i c size, Op.applyAll I (fun _ => none) ops i = some c →
        (w.account I.owned).blocks i = some size → size = blockSize t c.utf8ByteSize) ↔
    Op.LegalRun I (fun spec op => op.Keeps I spec) (fun _ => none) ops

section Balanced

variable {V B : Type} {I : Interface V String B Mutator} {T : Tariff I} {c : String}
  {block : Option Nat} {P : String → Option Nat → Prop}

theorem Priced.held (hT : Priced t T) :
    T.Backed Request.held (fun _ block => (block.getD 0 : Int)) (fun _ _ => 0) P where
  make c := by
    rw [hT.make]
    exact newCharge_held _
  change {m c block} _ _ := by
    rw [hT.change, Int.add_zero]
    cases m with
    | setStr s => exact setCharge_held _ _ _
    | setStrUnchecked s => exact setCharge_held _ _ _
    | pushStr s => exact pushCharge_held _ _ _
    | asStrMut s => simp [Mutator.charge]
    | asBytesMut new => simp [Mutator.charge]
  release _ := by
    rw [hT.release]
    exact dropRequests_held _ _

theorem Priced.misnamed (hT : Priced t T) :
    T.Backed Request.misnamed (fun c block => -oversize t c.utf8ByteSize block)
      (Mutator.overgrows t) (fun c => Settled t c.utf8ByteSize) where
  make c := by
    have hmake := newCharge_misnamed (t := t) c.utf8ByteSize
    rw [hT.make]
    omega
  change {m c block} hs hm := by
    rw [hT.change, hT.effect]
    have hlen := (Mutator.charge_sound (hT.callable m c hm) hs).1
    cases m with
    | setStr s =>
        have hset := setCharge_misnamed (m := s.utf8ByteSize) hs
        simp only [Mutator.charge, Mutator.effect, Mutator.overgrows]
        omega
    | setStrUnchecked s =>
        have hset := setCharge_misnamed (m := s.utf8ByteSize) hs
        simp only [Mutator.charge, Mutator.effect, Mutator.overgrows]
        omega
    | pushStr s =>
        have hpush := pushCharge_misnamed (u := s.utf8ByteSize) hs
        have hcat : (c ++ s).utf8ByteSize = c.utf8ByteSize + s.utf8ByteSize :=
          String.utf8ByteSize_append
        simp only [Mutator.charge, Mutator.effect, Mutator.overgrows, hcat]
        omega
    | asStrMut s =>
        have hsame : s.utf8ByteSize = c.utf8ByteSize := hT.callable _ c hm
        simp [Mutator.charge, Mutator.effect, Mutator.overgrows, hsame]
    | asBytesMut new =>
        obtain ⟨hlen, hvalid⟩ := hT.callable _ c hm
        obtain ⟨s, hsome⟩ := Option.isSome_iff_exists.mp hvalid
        obtain rfl := fromUtf8?_eq_some_iff.mp hsome
        rw [length_strBytes] at hlen
        simp [Mutator.charge, Mutator.effect, Mutator.overgrows, hsome, hlen]
  release hs := by
    rw [hT.release, dropRequests_misnamed hs]
    omega

/-- No settled block is too large exactly if all of them have the recomputed size. -/
theorem worth_oversize_eq_zero_iff {acc : Account} {R : Request → Prop}
    {spec : Nat → Option String} {s : Finset Nat}
    (hacc : acc.Sound (fun c => Settled t c.utf8ByteSize) R spec) (hs : ∀ i ∉ s, spec i = none) :
    acc.worth (fun c => oversize t c.utf8ByteSize) spec s = 0 ↔
      ∀ i c size, spec i = some c → acc.blocks i = some size →
        size = blockSize t c.utf8ByteSize := by
  rw [Account.worth_eq_zero_iff (fun _ _ => oversize_nonneg _ _) hs]
  constructor
  · intro hzero i c size hc
    exact (hacc.blocks hc).oversize_eq_zero_iff.mp (hzero i c hc) size
  · intro hexact i c hc
    exact (hacc.blocks hc).oversize_eq_zero_iff.mpr fun size => hexact i c size hc

theorem balanced_of_returns {w : Pool V} {s : Finset Nat} {ops : List (Op B Mutator)}
    (hT : Priced t T)
    (hsound : ∀ {spec acc}, Ledgered T (fun _ _ => True) spec acc →
      acc.Sound (fun c => Settled t c.utf8ByteSize) (SoundRequest t) spec)
    (hlegal : Op.LegalRun I (fun _ _ => True) (fun _ => none) ops)
    (hrun : (Op.execAll I ops).run Pool.empty = .ok () w)
    (hs : ∀ i ∉ s, Op.applyAll I (fun _ => none) ops i = none) : Balanced t I ops w s := by
  have hr : Reachable I (fun _ _ => True) (Op.applyAll I (fun _ => none) ops) w := by
    have hfinal := Reachable.of_returns hlegal (by rw [hrun]; rfl)
    rwa [hrun] at hfinal
  have hacc := hsound (hr.account T)
  have hheld := total_of_returns (hT.held (P := fun _ _ => True)) (fun _ _ _ _ => trivial)
    hlegal hrun hs
  rw [Op.excessAll_zero, Int.add_zero] at hheld
  have hmisnamed := total_of_returns hT.misnamed (fun hled _ _ hc => (hsound hled).blocks hc)
    hlegal hrun hs
  rw [Account.worth_neg] at hmisnamed
  have hblocks : (w.account I.owned).worth (fun _ block => block.getD 0)
      (Op.applyAll I (fun _ => none) ops) s =
        (w.account I.owned).worth (fun c _ => footprint t c.utf8ByteSize)
          (Op.applyAll I (fun _ => none) ops) s +
            t.align * (w.account I.owned).worth (fun c => oversize t c.utf8ByteSize)
              (Op.applyAll I (fun _ => none) ops) s := by
    rw [← Account.worth_add_mul]
    exact Account.worth_congr fun i c hc => (hacc.blocks hc).size_eq
  have htotal : Request.total Request.booked w.heap.requests =
      Request.total Request.held w.heap.requests +
        t.align * Request.total Request.misnamed w.heap.requests :=
    Request.total_booked fun r hr => (hacc.requests r hr).booked_eq
  have hdrift : Op.excessAll I (Mutator.overgrows t) (fun _ => none) ops =
      Request.total Request.misnamed w.heap.requests +
        (w.account I.owned).worth (fun c => oversize t c.utf8ByteSize)
          (Op.applyAll I (fun _ => none) ops) s := by
    omega
  refine ⟨hheld, ?_, hdrift, ?_⟩
  · rw [htotal, hheld, hblocks, hdrift, Int.mul_add]
    omega
  · have hmis := Request.total_misnamed_nonneg w.heap.requests
    have hover : 0 ≤ (w.account I.owned).worth (fun c => oversize t c.utf8ByteSize)
        (Op.applyAll I (fun _ => none) ops) s :=
      Account.worth_nonneg fun _ _ => oversize_nonneg _ _
    have hsizes := worth_oversize_eq_zero_iff hacc hs
    rw [← Op.excessAll_eq_zero_iff (fun m c => m.overgrows_nonneg c)
      (fun m c => (m.overgrows_eq_zero_iff c).trans (hT.keeps m c).symm) hlegal, hdrift,
      ← Request.total_misnamed_eq_zero_iff, ← hsizes]
    omega

end Balanced

/-- In every run that returns, the books of an allocator that trusts the sizes it is
told exceed what the contents need by one step for each push that grew too far, and
each such push shows up once, as a misnamed request or as a block that is still too
large. Without them all sizes are right, and with one of them they are not. -/
theorem books_balance (a : Allocator t.toMachine) (s : Finset Nat) :
    (∀ ops w, Op.LegalRun (NonEmptySinStr.api a) (fun _ _ => True) (fun _ => none) ops →
      (Op.execAll (NonEmptySinStr.api a) ops).run Pool.empty = .ok () w →
      (∀ i ∉ s, Op.applyAll (NonEmptySinStr.api a) (fun _ => none) ops i = none) →
      Balanced t (NonEmptySinStr.api a) ops w s) ∧
    (∀ ops w, Op.LegalRun (SinStr.api a) (fun _ _ => True) (fun _ => none) ops →
      (Op.execAll (SinStr.api a) ops).run Pool.empty = .ok () w →
      (∀ i ∉ s, Op.applyAll (SinStr.api a) (fun _ => none) ops i = none) →
      Balanced t (SinStr.api a) ops w s) := by
  constructor
  · intro ops w hlegal hrun hs
    exact balanced_of_returns (NonEmptySinStr.priced a) NonEmptySinStr.ledgered_sound hlegal hrun hs
  · intro ops w hlegal hrun hs
    exact balanced_of_returns (SinStr.priced a) SinStr.ledgered_sound hlegal hrun hs

/-- Everything is dropped. -/
theorem chargedRun_dropped (i : Nat) :
    Op.applyAll (NonEmptySinStr.api (PointerWidth.w64.paged .little)) (fun _ => none) chargedRun i =
      none := by
  rcases i with _ | _ | i
  · rfl
  · rfl
  · rfl

/-- The block of 40 bytes that is released as one of 32 leaves eight bytes in the
books of an allocator that has everything back. -/
theorem chargedRun_balanced :
    Balanced (PointerWidth.w64.target .little)
      (NonEmptySinStr.api (PointerWidth.w64.paged .little)) chargedRun
      (Exec.final ((Op.execAll (NonEmptySinStr.api (PointerWidth.w64.paged .little))
        chargedRun).run Pool.empty)) ∅ ∧
    Request.total Request.booked (Exec.final ((Op.execAll
      (NonEmptySinStr.api (PointerWidth.w64.paged .little)) chargedRun).run
        Pool.empty)).heap.requests = 8 :=
  ⟨(books_balance (PointerWidth.w64.paged .little) ∅).1 chargedRun _ chargedRun_legal
    (Exec.eq_ok_of_returns (by decide +kernel)) fun i _ => chargedRun_dropped i,
    by decide +kernel⟩

end Sinstr
