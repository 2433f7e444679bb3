import Sinstr.Charges

/-!
# How blocks grow

After `push_str` a block may be larger than the size that is recomputed from the
length. It is never larger by more than one step, however often the value is changed
afterwards, and a value that only grows is reallocated about once per step.
-/

namespace Sinstr

open Rust

variable {t : Target}

/-- What a content of `n` bytes may have: no block in the word, and otherwise one of
the recomputed size or one step larger. -/
inductive Settled (t : Target) (n : Nat) : Option Nat → Prop
  | inline (hle : n ≤ t.nicheMaxInt) : Settled t n none
  | exact (hN : t.nicheMaxInt < n) : Settled t n (some (blockSize t n))
  | grown (hN : t.nicheMaxInt < n) : Settled t n (some (blockSize t n + t.align))

/-- All sizes are rounded, and a block is named by its size or by one step less. -/
def SoundRequest (t : Target) : Request → Prop
  | .alloc size => t.align ∣ size ∧ t.size < size
  | .realloc passed actual new => (actual = passed ∨ actual = passed + t.align) ∧
      t.align ∣ passed ∧ t.align ∣ new ∧ t.size < new
  | .dealloc passed actual => (actual = passed ∨ actual = passed + t.align) ∧ t.align ∣ passed

/-- Growing rounds up at most one step too far. -/
theorem grownSize_cases (t : Target) (n u : Nat) :
    grownSize t n u = blockSize t (n + u) ∨ grownSize t n u = blockSize t (n + u) + t.align := by
  have hlow := blockSize_le_grownSize t n u
  have hhigh := grownSize_lt t n u
  have hold := blockSize_lt t n
  have hnew := le_blockSize t (n + u)
  have hdvd := align_dvd_blockSize t (n + u)
  have hle : grownSize t n u ≤ blockSize t (n + u) + t.align := by
    refine Nat.le_of_lt_add_of_dvd ?_ (align_dvd_grownSize t n u) (Nat.dvd_add hdvd dvd_rfl)
    omega
  by_cases heq : grownSize t n u = blockSize t (n + u)
  · exact Or.inl heq
  · have hgap : blockSize t (n + u) + t.align ≤ grownSize t n u := by
      refine Nat.le_of_lt_add_of_dvd ?_ (Nat.dvd_add hdvd dvd_rfl) (align_dvd_grownSize t n u)
      omega
    exact Or.inr (Nat.le_antisymm hle hgap)

theorem size_lt_blockSize {n : Nat} (hN : t.nicheMaxInt < n) : t.size < blockSize t n := by
  have hlow := le_blockSize t n
  omega

theorem Settled.of_blockSize_eq {n m size : Nat} (hs : Settled t n (some size))
    (hN : t.nicheMaxInt < m) (heq : blockSize t n = blockSize t m) : Settled t m (some size) := by
  cases hs with
  | exact _ => rw [heq]; exact .exact hN
  | grown _ => rw [heq]; exact .grown hN

theorem Settled.size_cases {n size : Nat} (hs : Settled t n (some size)) :
    size = blockSize t n ∨ size = blockSize t n + t.align := by
  cases hs with
  | exact _ => exact Or.inl rfl
  | grown _ => exact Or.inr rfl

theorem Settled.nicheMaxInt_lt {n size : Nat} (hs : Settled t n (some size)) :
    t.nicheMaxInt < n := by
  cases hs with
  | exact hN => exact hN
  | grown hN => exact hN

section Prices

variable {n m u : Nat} {block : Option Nat}

theorem newCharge_sound (n : Nat) :
    Settled t n (newCharge t n).block ∧ ∀ r ∈ (newCharge t n).requests, SoundRequest t r := by
  by_cases hle : n ≤ t.nicheMaxInt
  · rw [newCharge_of_le hle]
    exact ⟨.inline hle, by simp⟩
  · have hN := Nat.not_le.mp hle
    rw [newCharge_of_lt hN]
    refine ⟨.exact hN, ?_⟩
    simpa using ⟨align_dvd_blockSize t n, size_lt_blockSize hN⟩

theorem dropRequests_sound (hs : Settled t n block) :
    ∀ r ∈ dropRequests t n block, SoundRequest t r := by
  cases block with
  | none => simp [dropRequests]
  | some size => simpa [dropRequests] using ⟨hs.size_cases, align_dvd_blockSize t n⟩

theorem setCharge_sound (hs : Settled t n block) :
    Settled t m (setCharge t n m block).block ∧
      ∀ r ∈ (setCharge t n m block).requests, SoundRequest t r := by
  by_cases hle : m ≤ t.nicheMaxInt
  · rw [setCharge_of_le hle]
    exact ⟨.inline hle, dropRequests_sound hs⟩
  · have hN := Nat.not_le.mp hle
    cases block with
    | none =>
        rw [setCharge_none]
        exact newCharge_sound m
    | some size =>
        rw [setCharge_some hN]
        split_ifs with hsame
        · exact ⟨hs.of_blockSize_eq hN hsame, by simp⟩
        · refine ⟨.exact hN, ?_⟩
          simpa using ⟨hs.size_cases, align_dvd_blockSize t n, align_dvd_blockSize t m,
            size_lt_blockSize hN⟩

theorem pushCharge_sound (hs : Settled t n block) :
    Settled t (n + u) (pushCharge t n u block).block ∧
      ∀ r ∈ (pushCharge t n u block).requests, SoundRequest t r := by
  cases block with
  | none => exact newCharge_sound (n + u)
  | some size =>
      have hN := hs.nicheMaxInt_lt
      have hN' : t.nicheMaxInt < n + u := by omega
      rw [pushCharge]
      split_ifs with hroom
      · exact ⟨hs.of_blockSize_eq hN' (blockSize_of_le_spare hroom).symm, by simp⟩
      · refine ⟨?_, ?_⟩
        · rcases grownSize_cases t n u with heq | heq
          · rw [heq]
            exact .exact hN'
          · rw [heq]
            exact .grown hN'
        · have hlow := blockSize_le_grownSize t n u
          have hsize := size_lt_blockSize hN'
          simpa using ⟨hs.size_cases, align_dvd_blockSize t n, align_dvd_grownSize t n u,
            hsize.trans_le hlow⟩

/-- An overwrite keeps the length, so it keeps the class. -/
theorem Mutator.charge_sound {m : Mutator} {c : String} (hm : m.Callable t c)
    (hs : Settled t c.utf8ByteSize block) :
    Settled t (m.effect c).utf8ByteSize (m.charge t c block).block ∧
      ∀ r ∈ (m.charge t c block).requests, SoundRequest t r := by
  cases m with
  | setStr s => exact setCharge_sound hs
  | setStrUnchecked s => exact setCharge_sound hs
  | pushStr s =>
      have hcat : (c ++ s).utf8ByteSize = c.utf8ByteSize + s.utf8ByteSize :=
        String.utf8ByteSize_append
      rw [Mutator.effect, hcat]
      exact pushCharge_sound hs
  | asStrMut s =>
      have hlen : s.utf8ByteSize = c.utf8ByteSize := hm
      rw [Mutator.effect, hlen]
      exact ⟨hs, by simp [Mutator.charge]⟩
  | asBytesMut new =>
      obtain ⟨hlen, hvalid⟩ := hm
      obtain ⟨s, hsome⟩ := Option.isSome_iff_exists.mp hvalid
      obtain rfl := fromUtf8?_eq_some_iff.mp hsome
      rw [length_strBytes] at hlen
      rw [Mutator.effect, hsome, Option.getD_some, hlen]
      exact ⟨hs, by simp [Mutator.charge]⟩

end Prices

/-- Every block of a pool and every granted request that led to it. -/
structure WithinStep {V : Type} (t : Target) (owned : V → Option Nat)
    (spec : Nat → Option String) (w : Pool V) : Prop where
  blocks : ∀ {i x s}, w.vals i = some x → spec i = some s →
    Settled t s.utf8ByteSize (w.heap.sizeOf (owned x))
  /-- The memory of a value is less than its length and the length word, and two steps. -/
  overhead : ∀ {i x s size}, w.vals i = some x → spec i = some s →
    w.heap.sizeOf (owned x) = some size → size < t.size + s.utf8ByteSize + 2 * t.align
  requests : ∀ r ∈ w.heap.requests, SoundRequest t r

theorem withinStep_of_sound {V : Type} {owned : V → Option Nat} {spec : Nat → Option String}
    {w : Pool V}
    (hs : (w.account owned).Sound (fun s => Settled t s.utf8ByteSize) (SoundRequest t) spec) :
    WithinStep t owned spec w := by
  have hblocks : ∀ {i x s}, w.vals i = some x → spec i = some s →
      Settled t s.utf8ByteSize (w.heap.sizeOf (owned x)) := by
    intro i x s hx hc
    have hblock : (w.account owned).blocks i = w.heap.sizeOf (owned x) := by
      simp [Pool.account, Pool.own, hx]
    have hsettled := hs.blocks hc
    rwa [hblock] at hsettled
  refine ⟨hblocks, fun {i x s size} hx hc hsize => ?_, hs.requests⟩
  have hsettled := hblocks hx hc
  rw [hsize] at hsettled
  have hlt := blockSize_lt t s.utf8ByteSize
  rcases hsettled.size_cases with heq | heq <;> omega

section Sound

variable {a : Allocator t.toMachine} {spec : Nat → Option String}

theorem NonEmptySinStr.ledgered_sound {acc : Account}
    (hled : Ledgered (tariff a) (fun _ _ => True) spec acc) :
    acc.Sound (fun s => Settled t s.utf8ByteSize) (SoundRequest t) spec :=
  hled.sound (fun _ => newCharge_sound _) (fun hs hm => Mutator.charge_sound hm hs)
    dropRequests_sound

theorem NonEmptySinStr.account_sound {w : Pool (NonEmptySinStr t)}
    (hr : Reachable (api a) (fun _ _ => True) spec w) :
    (w.account owned).Sound (fun s => Settled t s.utf8ByteSize) (SoundRequest t) spec :=
  ledgered_sound (hr.account (tariff a))

theorem SinStr.ledgered_sound {acc : Account}
    (hled : Ledgered (tariff a) (fun _ _ => True) spec acc) :
    acc.Sound (fun s => Settled t s.utf8ByteSize) (SoundRequest t) spec :=
  hled.sound (fun _ => newCharge_sound _)
    (fun {m c _} hs (hm : Callable t m c) => Mutator.charge_sound hm.1 hs) dropRequests_sound

theorem SinStr.account_sound {w : Pool (SinStr t)}
    (hr : Reachable (api a) (fun _ _ => True) spec w) :
    (w.account owned).Sound (fun s => Settled t s.utf8ByteSize) (SoundRequest t) spec :=
  ledgered_sound (hr.account (tariff a))

end Sound

/-- In every reachable pool a block has the recomputed size or one step more, and in
every request that was made on the way a block was named by its size or one step
less: the slip of growing does not add up, whatever is done afterwards. -/
theorem drift_bounded (a : Allocator t.toMachine) :
    (∀ spec w, Reachable (NonEmptySinStr.api a) (fun _ _ => True) spec w →
      WithinStep t NonEmptySinStr.owned spec w) ∧
    (∀ spec w, Reachable (SinStr.api a) (fun _ _ => True) spec w →
      WithinStep t SinStr.owned spec w) :=
  ⟨fun _ _ hr => withinStep_of_sound (NonEmptySinStr.account_sound hr),
    fun _ _ hr => withinStep_of_sound (SinStr.account_sound hr)⟩

/-- The bound is reached: the block of 40 bytes is one step larger than recomputed. -/
theorem chargedRun_within :
    WithinStep (PointerWidth.w64.target .little) NonEmptySinStr.owned
      (Op.applyAll (NonEmptySinStr.api (PointerWidth.w64.paged .little)) (fun _ => none) chargedRun)
      (Exec.final ((Op.execAll (NonEmptySinStr.api (PointerWidth.w64.paged .little))
        chargedRun).run Pool.empty)) ∧
    Request.dealloc 32 40 ∈ (Exec.final ((Op.execAll
      (NonEmptySinStr.api (PointerWidth.w64.paged .little)) chargedRun).run
        Pool.empty)).heap.requests :=
  ⟨(drift_bounded (PointerWidth.w64.paged .little)).1 _ _
    (.of_returns chargedRun_legal (by decide +kernel)), by decide +kernel⟩

/-- The memory for a string of `n` bytes whose block has the recomputed size. -/
def footprint (t : Target) (n : Nat) : Nat := if n ≤ t.nicheMaxInt then 0 else blockSize t n

theorem footprint_of_le {n : Nat} (hle : n ≤ t.nicheMaxInt) : footprint t n = 0 := if_pos hle

theorem footprint_of_lt {n : Nat} (hN : t.nicheMaxInt < n) : footprint t n = blockSize t n :=
  if_neg (Nat.not_le.mpr hN)

section Pushes

variable {n u size : Nat} {block : Option Nat}

theorem blockSize_add_align_le (hroom : ¬u ≤ spare t n) :
    blockSize t n + t.align ≤ blockSize t (n + u) := by
  have hmono := blockSize_mono t (Nat.le_add_right n u)
  have hne : blockSize t (n + u) ≠ blockSize t n := fun heq =>
    hroom (le_spare_iff_blockSize_eq.mpr heq)
  refine Nat.le_of_lt_add_of_dvd ?_ (Nat.dvd_add (align_dvd_blockSize t n) dvd_rfl)
    (align_dvd_blockSize t (n + u))
  omega

theorem blockSize_le_add_align (hu : u ≤ t.align) :
    blockSize t (n + u) ≤ blockSize t n + t.align := by
  have hlow := le_blockSize t n
  refine (roundUp_le_iff t.align_pos (Nat.dvd_add (align_dvd_blockSize t n) dvd_rfl)).mpr ?_
  omega

/-- A push that asks for memory moves to a higher class. -/
theorem pushCharge_count (hs : Settled t n block) :
    (pushCharge t n u block).requests.length * t.align + footprint t n ≤ footprint t (n + u) := by
  cases block with
  | none =>
      have hle : n ≤ t.nicheMaxInt := by
        cases hs with
        | inline hle => exact hle
      rw [footprint_of_le hle, pushCharge]
      by_cases hsum : n + u ≤ t.nicheMaxInt
      · rw [newCharge_of_le hsum]
        simp
      · have hlow := le_blockSize t (n + u)
        have hsize := t.align_le_size
        rw [newCharge_of_lt (Nat.not_le.mp hsum), footprint_of_lt (Nat.not_le.mp hsum)]
        simp
        omega
  | some size =>
      have hN := hs.nicheMaxInt_lt
      rw [footprint_of_lt hN, footprint_of_lt (by omega), pushCharge]
      split_ifs with hroom
      · simpa using blockSize_mono t (Nat.le_add_right n u)
      · have hgap := blockSize_add_align_le hroom
        simp
        omega

/-- A piece of at most one step moves to the next class, if it does not fit. -/
theorem pushCharge_count_eq (hs : Settled t n (some size)) (hu : u ≤ t.align) :
    (pushCharge t n u (some size)).requests.length * t.align + footprint t n =
      footprint t (n + u) := by
  have hN := hs.nicheMaxInt_lt
  rw [footprint_of_lt hN, footprint_of_lt (by omega), pushCharge]
  split_ifs with hroom
  · simpa using (blockSize_of_le_spare hroom).symm
  · have hgap := blockSize_add_align_le hroom
    have hclose := blockSize_le_add_align (n := n) hu
    simp
    omega

end Pushes

/-- The pieces are appended to the value of a place, one call each. -/
def pushAll {B : Type} (i : Nat) (us : List String) : List (Op B Mutator) :=
  us.map fun u => .call i (.pushStr u)

/-- The requests of a row of pushes that turns `c` into `d`. -/
structure Stepwise (t : Target) (c d : String) (us : List String) (news : List Request) :
    Prop where
  le : news.length * t.align + footprint t c.utf8ByteSize ≤ footprint t d.utf8ByteSize
  eq : t.nicheMaxInt < c.utf8ByteSize → (∀ u ∈ us, u.utf8ByteSize ≤ t.align) →
    news.length * t.align + footprint t c.utf8ByteSize = footprint t d.utf8ByteSize

section PushAll

variable {V B : Type} {I : Interface V String B Mutator} {i : Nat} {us : List String}
  {spec : Nat → Option String} {c : String} {w w' : Pool V}

theorem legalRun_pushAll (hcallable : ∀ u ∈ us, ∀ c, I.Callable (.pushStr u) c)
    (hc : spec i = some c) : Op.LegalRun I (fun _ _ => True) spec (pushAll i us) := by
  induction us generalizing spec c with
  | nil => trivial
  | cons u us ih =>
      refine ⟨⟨⟨c, hc, hcallable u List.mem_cons_self c⟩, trivial⟩, ?_⟩
      refine ih (c := I.effect (.pushStr u) c)
        (fun v hv => hcallable v (List.mem_cons_of_mem u hv)) ?_
      simp [Op.apply, hc]

variable (T : Tariff I) (heffect : ∀ u c, I.effect (.pushStr u) c = c ++ u)
  (hchange : ∀ u c block, T.change (.pushStr u) c block =
    pushCharge t c.utf8ByteSize u.utf8ByteSize block)

include heffect hchange

/-- A row of pushes in the account. -/
theorem chargeAll_pushAll {acc : Account} (hc : spec i = some c)
    (hs : Settled t c.utf8ByteSize (acc.blocks i)) :
    ∃ news, (Op.chargeAll T spec acc (pushAll i us)).requests = news ++ acc.requests ∧
      Stepwise t c (us.foldl (· ++ ·) c) us news := by
  induction us generalizing spec acc c with
  | nil => exact ⟨[], rfl, by simp, fun _ _ => by simp⟩
  | cons u us ih =>
      have hcat : (c ++ u).utf8ByteSize = c.utf8ByteSize + u.utf8ByteSize :=
        String.utf8ByteSize_append
      have happly : (Op.call i (.pushStr u) : Op B Mutator).apply I spec i = some (c ++ u) := by
        simp [Op.apply, hc, heffect]
      have hcharge : (Op.call i (.pushStr u) : Op B Mutator).charge T spec acc =
          acc.enter i (pushCharge t c.utf8ByteSize u.utf8ByteSize (acc.blocks i)) := by
        simp only [Op.charge, hc, hchange]
      have hsettled := (pushCharge_sound (u := u.utf8ByteSize) hs).1
      have hnext : Settled t (c ++ u).utf8ByteSize ((acc.enter i
          (pushCharge t c.utf8ByteSize u.utf8ByteSize (acc.blocks i))).blocks i) := by
        rwa [Account.enter_blocks_self, hcat]
      obtain ⟨news, hnews, hstep⟩ := ih happly hnext
      have hall : Op.chargeAll T spec acc (pushAll i (u :: us)) = Op.chargeAll T
          ((Op.call i (.pushStr u) : Op B Mutator).apply I spec)
          ((Op.call i (.pushStr u) : Op B Mutator).charge T spec acc) (pushAll i us) := rfl
      refine ⟨news ++ (pushCharge t c.utf8ByteSize u.utf8ByteSize (acc.blocks i)).requests,
        ?_, ?_, ?_⟩
      · rw [hall, hcharge, hnews, Account.enter_requests, List.append_assoc]
      · have hfirst := pushCharge_count (u := u.utf8ByteSize) hs
        have hrest := hstep.le
        rw [hcat] at hrest
        rw [List.length_append, Nat.add_mul, List.foldl_cons]
        omega
      · intro hN hsmall
        have hrest := hstep.eq (by omega) fun v hv => hsmall v (List.mem_cons_of_mem u hv)
        have hu := hsmall u List.mem_cons_self
        rw [hcat] at hrest
        rw [List.length_append, Nat.add_mul, List.foldl_cons]
        cases hblock : acc.blocks i with
        | none =>
            rw [hblock] at hs
            cases hs with
            | inline hle => omega
        | some size =>
            rw [hblock] at hs
            have hfirst := pushCharge_count_eq hs hu
            omega

theorem stepwise_of_returns (hcallable : ∀ u ∈ us, ∀ c, I.Callable (.pushStr u) c)
    (hr : Reachable I (fun _ _ => True) spec w)
    (hs : ∀ {i c}, spec i = some c → Settled t c.utf8ByteSize ((w.account I.owned).blocks i))
    (hc : spec i = some c) (hrun : (Op.execAll I (pushAll i us)).run w = .ok () w') :
    ∃ news, w'.heap.requests = news ++ w.heap.requests ∧
      Stepwise t c (us.foldl (· ++ ·) c) us news := by
  have haccount := account_execAll T hr.invariant (legalRun_pushAll hcallable hc) hrun
  obtain ⟨news, hnews, hstep⟩ := chargeAll_pushAll T heffect hchange hc (hs hc)
  refine ⟨news, ?_, hstep⟩
  rw [← haccount] at hnews
  exact hnews

end PushAll

/-- Appending piece by piece asks for the block at most once per step by which it
grows, and in heap mode with pieces of at most one step exactly as often: growth is
linear, no room is kept for later pushes. -/
theorem push_requests_linear (a : Allocator t.toMachine) (i : Nat) (us : List String)
    (hus : ∀ u ∈ us, u.utf8ByteSize ≤ t.isizeMax) :
    (∀ spec w w' c, Reachable (NonEmptySinStr.api a) (fun _ _ => True) spec w → spec i = some c →
      (Op.execAll (NonEmptySinStr.api a) (pushAll i us)).run w = .ok () w' →
      ∃ news, w'.heap.requests = news ++ w.heap.requests ∧
        Stepwise t c (us.foldl (· ++ ·) c) us news) ∧
    (∀ spec w w' c, Reachable (SinStr.api a) (fun _ _ => True) spec w → spec i = some c →
      (Op.execAll (SinStr.api a) (pushAll i us)).run w = .ok () w' →
      ∃ news, w'.heap.requests = news ++ w.heap.requests ∧
        Stepwise t c (us.foldl (· ++ ·) c) us news) := by
  constructor
  · intro spec w w' c hr hc hrun
    exact stepwise_of_returns (NonEmptySinStr.tariff a) (fun _ _ => rfl) (fun _ _ _ => rfl)
      (fun u hu _ => hus u hu) hr (NonEmptySinStr.account_sound hr).blocks hc hrun
  · intro spec w w' c hr hc hrun
    refine stepwise_of_returns (SinStr.tariff a) (fun _ _ => rfl) (fun _ _ _ => rfl)
      (fun u hu _ => ⟨hus u hu, ?_⟩) hr (SinStr.account_sound hr).blocks hc hrun
    rintro s hs
    cases hs

def nineBytes : List (Op Builder Mutator) := [.build 0 (.new "123456789")]

theorem nineBytes_reachable :
    Reachable (NonEmptySinStr.api (PointerWidth.w64.paged .little)) (fun _ _ => True)
      (Op.applyAll (NonEmptySinStr.api (PointerWidth.w64.paged .little)) (fun _ => none) nineBytes)
      (Exec.final ((Op.execAll (NonEmptySinStr.api (PointerWidth.w64.paged .little))
        nineBytes).run Pool.empty)) :=
  .of_returns ⟨⟨⟨rfl, by decide, (by decide : "123456789".utf8ByteSize ≤ _)⟩, trivial⟩, trivial⟩
    (by decide +kernel)

/-- Three pieces of up to eight bytes: the block grows from 24 to 40 bytes in two steps. -/
theorem nineBytes_steps :
    let w := Exec.final ((Op.execAll (NonEmptySinStr.api (PointerWidth.w64.paged .little))
      nineBytes).run Pool.empty)
    let w' := Exec.final ((Op.execAll (NonEmptySinStr.api (PointerWidth.w64.paged .little))
      (pushAll 0 ["12345678", "abcd", "ABCDEFGH"])).run w)
    ∃ news, w'.heap.requests = news ++ w.heap.requests ∧ news.length = 2 := by
  intro w w'
  have hrun := Exec.eq_ok_of_returns (r := (Op.execAll (NonEmptySinStr.api
    (PointerWidth.w64.paged .little)) (pushAll 0 ["12345678", "abcd", "ABCDEFGH"])).run w)
    (by decide +kernel)
  obtain ⟨news, hnews, hstep⟩ := (push_requests_linear (PointerWidth.w64.paged .little) 0
    ["12345678", "abcd", "ABCDEFGH"] (by decide)).1 _ w w' "123456789" nineBytes_reachable rfl hrun
  have hcount := hstep.eq (by decide) (by decide)
  have hstart : footprint (PointerWidth.w64.target .little) "123456789".utf8ByteSize = 24 := by
    decide +kernel
  have hend : footprint (PointerWidth.w64.target .little)
      (["12345678", "abcd", "ABCDEFGH"].foldl (· ++ ·) "123456789").utf8ByteSize = 40 := by
    decide +kernel
  have hstep : (PointerWidth.w64.target .little).align = 8 := rfl
  rw [hstart, hend, hstep] at hcount
  exact ⟨news, hnews, by omega⟩

end Sinstr
