import Sinstr.Api
import Sinstr.Rust.Account

/-!
# What every operation asks of the allocator

The requests that an operation makes for the block of its value, and the size of the
block that it leaves, follow from the lengths of the strings and the size of the block
that it finds. Added up over a run they are the account of its pool, wherever the
allocator puts the blocks. The temporary `String` in `push_str` is no part of it.
-/

namespace Sinstr

open Rust

variable {t : Target}

/-- `new` asks for nothing as long as the string fits the word. -/
def newCharge (t : Target) (n : Nat) : Charge :=
  if n ≤ t.nicheMaxInt then ⟨[], none⟩
  else ⟨[.alloc (blockSize t n)], some (blockSize t n)⟩

/-- `Drop` names the block by the recomputed size. -/
def dropRequests (t : Target) (n : Nat) (block : Option Nat) : List Request :=
  block.toList.map (.dealloc (blockSize t n))

/-- `set_str`, from the length `n` to the length `m`. -/
def setCharge (t : Target) (n m : Nat) (block : Option Nat) : Charge :=
  if m ≤ t.nicheMaxInt then ⟨dropRequests t n block, none⟩
  else
    match block with
    | none => newCharge t m
    | some size =>
        if blockSize t n = blockSize t m then ⟨[], some size⟩
        else ⟨[.realloc (blockSize t n) size (blockSize t m)], some (blockSize t m)⟩

/-- `push_str` of `u` bytes onto `n`. -/
def pushCharge (t : Target) (n u : Nat) : Option Nat → Charge
  | none => newCharge t (n + u)
  | some size =>
      if u ≤ spare t n then ⟨[], some size⟩
      else ⟨[.realloc (blockSize t n) size (grownSize t n u)], some (grownSize t n u)⟩

def Mutator.charge (t : Target) : Mutator → String → Option Nat → Charge
  | .setStr s, c, block => setCharge t c.utf8ByteSize s.utf8ByteSize block
  | .setStrUnchecked s, c, block => setCharge t c.utf8ByteSize s.utf8ByteSize block
  | .pushStr s, c, block => pushCharge t c.utf8ByteSize s.utf8ByteSize block
  | .asStrMut _, _, block => ⟨[], block⟩
  | .asBytesMut _, _, block => ⟨[], block⟩

theorem newCharge_of_le {n : Nat} (hle : n ≤ t.nicheMaxInt) : newCharge t n = ⟨[], none⟩ :=
  if_pos hle

theorem newCharge_of_lt {n : Nat} (hN : t.nicheMaxInt < n) :
    newCharge t n = ⟨[.alloc (blockSize t n)], some (blockSize t n)⟩ :=
  if_neg (Nat.not_le.mpr hN)

theorem setCharge_of_le {n m : Nat} {block : Option Nat} (hle : m ≤ t.nicheMaxInt) :
    setCharge t n m block = ⟨dropRequests t n block, none⟩ :=
  if_pos hle

theorem setCharge_none {n m : Nat} : setCharge t n m none = newCharge t m := by
  by_cases hle : m ≤ t.nicheMaxInt
  · rw [setCharge_of_le hle, newCharge_of_le hle]
    rfl
  · rw [setCharge, if_neg hle]

theorem setCharge_some {n m size : Nat} (hN : t.nicheMaxInt < m) :
    setCharge t n m (some size) =
      if blockSize t n = blockSize t m then ⟨[], some size⟩
      else ⟨[.realloc (blockSize t n) size (blockSize t m)], some (blockSize t m)⟩ :=
  if_neg (Nat.not_le.mpr hN)

/-- The bytes of a block are written without a request. -/
theorem Rewritten.charged {h h' : Heap} {o : Option Nat} (hw : Rewritten h h' o)
    (hlive : ∀ p, o = some p → (h.live p).isSome) : Charged ⟨[], h.sizeOf o⟩ h h' o where
  requests := by
    rw [Heap.requests, hw.calls]
    rfl
  block := by
    cases o with
    | none => rfl
    | some p =>
        obtain ⟨b, hp⟩ := Option.isSome_iff_exists.mp (hlive p rfl)
        obtain ⟨b', hp', hsize⟩ := hw.size rfl hp
        rw [Heap.sizeOf_some hp, Heap.sizeOf_some hp', hsize]

namespace NonEmptySinStr

variable {a : Allocator t.toMachine} {h h' : Heap} {x : NonEmptySinStr t} {c s : String}
  {p : Addr t.toMachine} {b : Block}

theorem sizeOf_inline (hin : x.isInlined = true) : h.sizeOf x.owned = none := by
  rw [owned_of_isInlined hin]
  rfl

theorem sizeOf_heap (hx : ofUsize? t p.val = some x) (hp : h.live p.val = some b) :
    h.sizeOf x.owned = some b.size := by
  rw [owned_of_ofUsize? hx, Heap.sizeOf_some hp]

theorem billed_newInline (hpos : 0 < s.utf8ByteSize) (hle : s.utf8ByteSize ≤ t.nicheMaxInt) :
    Billed owned ⟨[], none⟩ h ((newInline t s).run h) := by
  obtain ⟨x, hrun, hrep⟩ := run_newInline hpos hle
  rw [hrun]
  exact .free (owned_of_isInlined (by simpa [hle] using (hrep h).isInlined_eq))

theorem billed_newHeap (hN : t.nicheMaxInt < s.utf8ByteSize) (hlen : s.utf8ByteSize ≤ t.isizeMax) :
    Billed owned (newCharge t s.utf8ByteSize) h ((newHeap a s).run h) := by
  rw [run_newHeap hN hlen, newCharge_of_lt hN]
  split_ifs with hmax htotal hblock
  · exact .unsound
  · exact .fault fun _ => rfl
  · exact .unsound
  · cases ha : a.alloc h (blockSize t s.utf8ByteSize) with
    | none => exact .fault fun _ => by simp [Call.request]
    | some p =>
        cases hx : ofUsize? t p.val with
        | none =>
            simp only [hx]
            exact .unsound
        | some x =>
            simp only [hx]
            refine .done ⟨by simp [Call.request], ?_⟩
            rw [owned_of_ofUsize? hx, Heap.sizeOf_log, Heap.sizeOf_set_self, Block.size,
              size_newBytes]

theorem billed_newUnwrap (hpos : 0 < s.utf8ByteSize) (hlen : s.utf8ByteSize ≤ t.isizeMax) :
    Billed owned (newCharge t s.utf8ByteSize) h ((newUnwrap a s).run h) := by
  by_cases hle : s.utf8ByteSize ≤ t.nicheMaxInt
  · rw [run_newUnwrap_inline hpos hle, newCharge_of_le hle]
    exact billed_newInline hpos hle
  · rw [run_newUnwrap_heap (Nat.not_le.mp hle)]
    exact billed_newHeap (Nat.not_le.mp hle) hlen

theorem billed_clone (r : Represents h x s) :
    Billed owned (newCharge t s.utf8ByteSize) h ((x.clone a).run h) := by
  have hlen := r.len_le
  have hmode := r.isInlined_eq
  by_cases hle : s.utf8ByteSize ≤ t.nicheMaxInt
  · rw [decide_eq_true hle] at hmode
    simp only [clone, hmode, if_true, EStateM.run_pure, newCharge_of_le hle]
    exact .free (owned_of_isInlined hmode)
  · rw [decide_eq_false hle] at hmode
    simp only [clone, hmode, EStateM.run_bind, r.run_asStr, Bool.false_eq_true, if_false]
    exact billed_newHeap (Nat.not_le.mp hle) hlen

theorem requests_drop (r : Represents h x s) (hrun : x.drop.run h = .ok () h') :
    h'.requests = dropRequests t s.utf8ByteSize (h.sizeOf x.owned) ++ h.requests := by
  rw [run_drop r, EStateM.Result.ok.injEq] at hrun
  obtain ⟨-, rfl⟩ := hrun
  cases r with
  | inline hpos hle hdisc hdata =>
      have hin := isInlined_of_disc hdisc hpos hle
      rw [sizeOf_inline hin, owned_of_isInlined hin]
      rfl
  | heap p b hx hp hb =>
      rw [sizeOf_heap hx hp, owned_of_ofUsize? hx]
      simp [hp, dropRequests, Call.request]

/-- The old block is released after the new value has been built. -/
theorem billed_assign {m : Exec Heap (NonEmptySinStr t)} {charge : Charge} (r : Represents h x c)
    (hbuilt : (resource t).Built h s (m.run h)) (hbill : Billed owned charge h (m.run h)) :
    Billed owned
      ⟨dropRequests t c.utf8ByteSize (h.sizeOf x.owned) ++ charge.requests, charge.block⟩ h
      (Exec.leaving ((do assign (← Exec.onSnd m)).run (x, h))) :=
  Billed.assign (R := resource t) r hbuilt hbill fun h₁ h₂ r₁ hsize hrun => by
    have hrel := requests_drop r₁ hrun
    rwa [show h₁.sizeOf x.owned = h.sizeOf x.owned from hsize] at hrel

theorem billed_setStrUnchecked (r : Represents h x c) (hpos : 0 < s.utf8ByteSize)
    (hlen : s.utf8ByteSize ≤ t.isizeMax) :
    Billed owned (setCharge t c.utf8ByteSize s.utf8ByteSize (h.sizeOf x.owned)) h
      (Exec.leaving ((setStrUnchecked a s).run (x, h))) := by
  by_cases hle : s.utf8ByteSize ≤ t.nicheMaxInt
  · have hassign := billed_assign r (built_newInline (h := h) hpos hle)
      (billed_newInline hpos hle)
    rw [List.append_nil] at hassign
    rw [setCharge_of_le hle]
    obtain ⟨y, hrun, _⟩ := run_newInline (t := t) hpos hle
    simpa [setStrUnchecked, Exec.assertUnchecked, hpos.ne', hle, Exec.run_onSnd, hrun] using hassign
  have hN := Nat.not_le.mp hle
  cases r with
  | inline hposc hlec hdisc hdata =>
      have hin := isInlined_of_disc hdisc hposc hlec
      rw [run_setStrUnchecked_toHeap hin hN, Exec.leaving_replacing, sizeOf_inline hin,
        setCharge_none]
      exact billed_newHeap hN hlen
  | heap p b hx hp hb =>
      rw [run_setStrUnchecked_heap hx hp hb hN hlen, sizeOf_heap hx hp, setCharge_some hN]
      split_ifs with hsame hbig
      · have hfit := (le_blockSize t s.utf8ByteSize).trans (hsame ▸ hb.cap_le)
        refine .done ⟨rfl, ?_⟩
        rw [owned_of_ofUsize? hx, Heap.sizeOf_set_self, Block.size, length_filled hfit]
      · exact .unsound
      · cases ha : a.realloc h p.val (blockSize t s.utf8ByteSize) with
        | none => exact .fault fun _ => by simp [Call.request]
        | some q =>
            cases hy : ofUsize? t q.val with
            | none =>
                simp only [hy]
                exact .unsound
            | some y =>
                simp only [hy]
                refine .done ⟨by simp [Call.request], ?_⟩
                rw [owned_of_ofUsize? hy, Heap.sizeOf_log, Heap.sizeOf_set_self, Block.size,
                  size_resetBytes]

theorem billed_setStr (r : Represents h x c) (hlen : s.utf8ByteSize ≤ t.isizeMax) :
    Billed owned (setCharge t c.utf8ByteSize s.utf8ByteSize (h.sizeOf x.owned)) h
      (Exec.leaving ((setStr a s).run (x, h))) := by
  by_cases h0 : s.utf8ByteSize = 0
  · rw [run_setStr_empty h0]
    exact .fault fun _ => rfl
  · have hpos := Nat.pos_of_ne_zero h0
    simpa [setStr, h0] using billed_setStrUnchecked (a := a) r hpos hlen

theorem billed_pushStr_toHeap (r : Represents h x c) (hcle : c.utf8ByteSize ≤ t.nicheMaxInt)
    (hlen : s.utf8ByteSize ≤ t.isizeMax) (hN : t.nicheMaxInt < c.utf8ByteSize + s.utf8ByteSize) :
    Billed owned (newCharge t (c.utf8ByteSize + s.utf8ByteSize)) h
      (Exec.leaving ((pushStr a s).run (x, h))) := by
  have hcat : (c ++ s).utf8ByteSize = c.utf8ByteSize + s.utf8ByteSize := String.utf8ByteSize_append
  have hscratch (granted : Bool) :
      (h.log (.scratch (c.utf8ByteSize + s.utf8ByteSize) granted)).requests = h.requests := rfl
  rw [run_pushStr_toHeap r hcle hlen hN]
  simp only
  split_ifs with hover hgrant
  · exact .fault fun _ => rfl
  · have hnew := billed_newHeap (a := a) (s := c ++ s)
      (h := h.log (.scratch (c.utf8ByteSize + s.utf8ByteSize)
        (a.scratch h (c.utf8ByteSize + s.utf8ByteSize)))) (by omega) (by omega)
    rw [Exec.leaving_replacing]
    rw [hcat] at hnew
    exact hnew.of_requests_eq (hscratch _)
  · exact .fault fun _ => hscratch _

theorem billed_pushStr (r : Represents h x c) (hlen : s.utf8ByteSize ≤ t.isizeMax) :
    Billed owned (pushCharge t c.utf8ByteSize s.utf8ByteSize (h.sizeOf x.owned)) h
      (Exec.leaving ((pushStr a s).run (x, h))) := by
  have hmode := r.isInlined_eq
  by_cases hcle : c.utf8ByteSize ≤ t.nicheMaxInt
  · have hin : x.isInlined = true := by rw [hmode, decide_eq_true hcle]
    rw [sizeOf_inline hin, pushCharge]
    by_cases h0 : s.utf8ByteSize = 0
    · rw [run_pushStr_empty r.run_len h0, h0, Nat.add_zero, newCharge_of_le hcle]
      exact .free (owned_of_isInlined hin)
    · by_cases hle : c.utf8ByteSize + s.utf8ByteSize ≤ t.nicheMaxInt
      · obtain ⟨x', hrun, hin', _⟩ :=
          run_pushStr_inline (a := a) r (Nat.pos_of_ne_zero h0) hle
        rw [hrun, newCharge_of_le hle]
        exact .free (owned_of_isInlined hin')
      · exact billed_pushStr_toHeap r hcle hlen (Nat.not_le.mp hle)
  · cases r with
    | inline _ hle _ _ => exact absurd hle hcle
    | heap p b hx hp hb =>
        rw [sizeOf_heap hx hp, pushCharge]
        by_cases h0 : s.utf8ByteSize = 0
        · rw [run_pushStr_empty (run_len_of_heap hx (hb.run_len hp)) h0, h0,
            if_pos (Nat.zero_le _)]
          exact .done ⟨rfl, sizeOf_heap hx hp⟩
        rw [run_pushStr_heap hx (hb.storesLen hp) (Nat.pos_of_ne_zero h0) hlen]
        split_ifs with hroom hlimit
        · have hfit := (le_spare_iff.mp hroom).trans hb.cap_le
          refine .done ⟨rfl, ?_⟩
          rw [owned_of_ofUsize? hx, Heap.sizeOf_set_self, Block.size, length_appended hfit]
        · exact .fault fun _ => rfl
        · cases ha : a.realloc h p.val (grownSize t c.utf8ByteSize s.utf8ByteSize) with
          | none => exact .fault fun _ => by simp [Call.request]
          | some q =>
              cases hy : ofUsize? t q.val with
              | none =>
                  simp only [hy]
                  exact .unsound
              | some y =>
                  simp only [hy]
                  refine .done ⟨by simp [Call.request], ?_⟩
                  rw [owned_of_ofUsize? hy, Heap.sizeOf_log, Heap.sizeOf_set_self, Block.size,
                    size_grownBytes]

theorem billed_asBytesMut {new : List UInt8} (r : Represents h x c)
    (hlen : new.length = c.utf8ByteSize) :
    Billed owned ⟨[], h.sizeOf x.owned⟩ h (Exec.leaving ((asBytesMut new).run (x, h))) := by
  have hbytes : new.length = (strBytes c).length := by rwa [length_strBytes]
  obtain ⟨x', h', hrun, _, hown, hw⟩ := (represents_iff.mp r).run_asBytesMut hbytes
  rw [hrun]
  refine .done ?_
  rw [hown]
  exact hw.charged fun p hp => r.owned_live hp

theorem billed_mutate {m : Mutator} (r : Represents h x c) (hm : m.Callable t c) :
    Billed owned (m.charge t c (h.sizeOf x.owned)) h
      (Exec.leaving ((mutate a m).run (x, h))) := by
  cases m with
  | setStr s => exact billed_setStr r hm
  | setStrUnchecked s => exact billed_setStrUnchecked r hm.1 hm.2
  | pushStr s => exact billed_pushStr r hm
  | asStrMut s =>
      rw [mutate, run_asStrMut r]
      exact billed_asBytesMut r (by rwa [length_strBytes])
  | asBytesMut new => exact billed_asBytesMut r hm.1

theorem billed_build {b : Builder} (hb : 0 < b.value.utf8ByteSize ∧ b.Buildable t) :
    Billed owned (newCharge t b.value.utf8ByteSize) h ((build a b).run h) := by
  rw [run_build hb.1 hb.2]
  exact billed_newUnwrap hb.1 hb.2.len_le

/-- The prices of `NonEmptySinStr`. -/
def tariff (a : Allocator t.toMachine) : Tariff (api a) where
  make c := newCharge t c.utf8ByteSize
  change := Mutator.charge t
  release c := dropRequests t c.utf8ByteSize
  built := billed_build
  cloned := billed_clone
  called := billed_mutate
  dropped := requests_drop

end NonEmptySinStr

namespace SinStr

variable {a : Allocator t.toMachine} {h h' : Heap} {x : SinStr t} {n : NonEmptySinStr t}
  {c s : String} {charge : Charge}

/-- A built `NonEmptySinStr` is a built `SinStr`, at the same price. -/
theorem billed_some {m : Exec Heap (NonEmptySinStr t)}
    (hb : Billed NonEmptySinStr.owned charge h (m.run h)) :
    Billed owned charge h ((do return ⟨some (← m)⟩ : Exec Heap (SinStr t)).run h) := by
  simp only [EStateM.run_bind]
  generalize m.run h = r at hb
  cases hb with
  | done hc => exact .done ⟨hc.requests, hc.block⟩
  | fault hu => exact .fault hu

theorem billed_new (hlen : s.utf8ByteSize ≤ t.isizeMax) :
    Billed owned (newCharge t s.utf8ByteSize) h ((new a s).run h) := by
  by_cases h0 : s.utf8ByteSize = 0
  · rw [newCharge_of_le (by omega)]
    have hempty : Billed owned ⟨[], none⟩ h (.ok (⟨none⟩ : SinStr t) h) := .free rfl
    simpa [new, NonEmptySinStr.new, h0] using hempty
  · have hpos := Nat.pos_of_ne_zero h0
    by_cases hle : s.utf8ByteSize ≤ t.nicheMaxInt
    · have hb := billed_some (NonEmptySinStr.billed_newInline (h := h) hpos hle)
      rw [newCharge_of_le hle]
      simpa [new, NonEmptySinStr.new, h0, hle] using hb
    · have hb := billed_some
        (NonEmptySinStr.billed_newHeap (a := a) (h := h) (Nat.not_le.mp hle) hlen)
      simpa [new, NonEmptySinStr.new, h0, hle] using hb

theorem billed_build {b : Maker} (hb : b.Buildable t) :
    Billed owned (newCharge t b.value.utf8ByteSize) h ((build a b).run h) := by
  rw [run_build hb]
  exact billed_new hb.len_le

theorem billed_clone (r : Represents h x s) :
    Billed owned (newCharge t s.utf8ByteSize) h ((x.clone a).run h) := by
  obtain ⟨_ | n⟩ := x
  · obtain rfl : s = "" := r
    have hempty : newCharge t "".utf8ByteSize = ⟨[], none⟩ := newCharge_of_le (Nat.zero_le _)
    rw [hempty]
    exact .free rfl
  · exact billed_some (NonEmptySinStr.billed_clone r)

theorem requests_drop (r : Represents h x s) (hrun : x.drop.run h = .ok () h') :
    h'.requests = dropRequests t s.utf8ByteSize (h.sizeOf x.owned) ++ h.requests := by
  obtain ⟨_ | n⟩ := x
  · cases hrun
    rfl
  · exact NonEmptySinStr.requests_drop r hrun

/-- A method of the value inside is a method of the option, at the same price. -/
theorem billed_onInner {m : Exec (NonEmptySinStr t × Heap) Unit}
    (hb : Billed NonEmptySinStr.owned charge h (Exec.leaving (m.run (n, h)))) :
    Billed owned charge h (Exec.leaving ((onInner n m).run (x, h))) := by
  unfold onInner
  simp only [EStateM.run] at hb ⊢
  cases hm : m (n, h) with
  | ok u s =>
      rw [hm] at hb
      cases hb with
      | done hc => exact .done ⟨hc.requests, hc.block⟩
  | error e s =>
      rw [hm] at hb
      cases hb with
      | fault hu => exact .fault hu

theorem billed_setStr (r : Represents h x c) (hlen : s.utf8ByteSize ≤ t.isizeMax) :
    Billed owned (setCharge t c.utf8ByteSize s.utf8ByteSize (h.sizeOf x.owned)) h
      (Exec.leaving ((setStr a s).run (x, h))) := by
  by_cases h0 : s.utf8ByteSize = 0
  · have hempty : Billed owned ⟨[], none⟩ h ((pure EMPTY : Exec Heap (SinStr t)).run h) := .free rfl
    have hbuilt : (resource t).Built h "" ((pure EMPTY : Exec Heap (SinStr t)).run h) := built_none
    have hrelease (h₁ h₂ : Heap) (r₁ : Represents h₁ x c) (hsize : h₁.sizeOf x.owned =
        h.sizeOf x.owned) (hrun : x.drop.run h₁ = .ok () h₂) : h₂.requests =
          dropRequests t c.utf8ByteSize (h.sizeOf x.owned) ++ h₁.requests := by
      rw [requests_drop r₁ hrun, hsize]
    have hassign := Billed.assign (R := resource t) r hbuilt hempty hrelease
    rw [List.append_nil] at hassign
    rw [setCharge_of_le (by omega)]
    simpa [setStr, h0, assign, resource, Exec.run_onSnd] using hassign
  · have hpos := Nat.pos_of_ne_zero h0
    obtain ⟨_ | n⟩ := x
    · have hrun := run_setStr_EMPTY (a := a) (h := h) hpos
      have hfree : h.sizeOf (⟨none⟩ : SinStr t).owned = none := rfl
      rw [EMPTY] at hrun
      rw [hrun, Exec.leaving_replacing, hfree, setCharge_none]
      exact billed_new hlen
    · rw [run_setStr_some hpos]
      exact billed_onInner (NonEmptySinStr.billed_setStr (a := a) r hlen)

theorem billed_pushStr (r : Represents h x c) (hlen : s.utf8ByteSize ≤ t.isizeMax) :
    Billed owned (pushCharge t c.utf8ByteSize s.utf8ByteSize (h.sizeOf x.owned)) h
      (Exec.leaving ((pushStr a s).run (x, h))) := by
  obtain ⟨_ | n⟩ := x
  · obtain rfl : c = "" := r
    have hrun := Exec.run_assign_of_quiet_drop drop (new a s) (x := (⟨none⟩ : SinStr t)) (h := h)
      fun _ => rfl
    have hcharge : pushCharge t "".utf8ByteSize s.utf8ByteSize
        (h.sizeOf (⟨none⟩ : SinStr t).owned) = newCharge t s.utf8ByteSize :=
      congrArg (newCharge t) (Nat.zero_add _)
    have hpush : (pushStr a s).run (⟨none⟩, h) =
        (do Exec.assign drop (← Exec.onSnd (new a s))).run (⟨none⟩, h) := rfl
    rw [hpush, hrun, Exec.leaving_replacing, hcharge]
    exact billed_new hlen
  · have hpush : (pushStr a s).run (⟨some n⟩, h) =
        (onInner n (NonEmptySinStr.pushStr a s)).run (⟨some n⟩, h) := rfl
    rw [hpush]
    exact billed_onInner (NonEmptySinStr.billed_pushStr (a := a) r hlen)

theorem billed_asBytesMut {new : List UInt8} (r : Represents h x c)
    (hlen : new.length = c.utf8ByteSize) :
    Billed owned ⟨[], h.sizeOf x.owned⟩ h (Exec.leaving ((asBytesMut new).run (x, h))) := by
  have hbytes : new.length = (strBytes c).length := by rwa [length_strBytes]
  obtain ⟨x', h', hrun, _, hown, hw⟩ := (represents_iff.mp r).run_asBytesMut hbytes
  rw [hrun]
  refine .done ?_
  rw [hown]
  exact hw.charged fun p hp => (resource t).rep_live r p hp

theorem billed_mutate {m : Mutator} (r : Represents h x c) (hm : Callable t m c) :
    Billed owned (m.charge t c (h.sizeOf x.owned)) h
      (Exec.leaving ((mutate a m).run (x, h))) := by
  obtain ⟨hm, hempty⟩ := hm
  cases m with
  | setStr s => exact billed_setStr r hm
  | setStrUnchecked s =>
      have hsome : x = EMPTY → t.nicheMaxInt < s.utf8ByteSize := by
        rintro rfl
        exact hempty s rfl r
      rw [mutate, run_setStrUnchecked hm.1 hsome]
      exact billed_setStr r hm.2
  | pushStr s => exact billed_pushStr r hm
  | asStrMut s =>
      rw [mutate, run_asStrMut r]
      exact billed_asBytesMut r (by rwa [length_strBytes])
  | asBytesMut new => exact billed_asBytesMut r hm.1

/-- The prices of `SinStr`. -/
def tariff (a : Allocator t.toMachine) : Tariff (api a) where
  make c := newCharge t c.utf8ByteSize
  change := Mutator.charge t
  release c := dropRequests t c.utf8ByteSize
  built := billed_build
  cloned := billed_clone
  called := billed_mutate
  dropped := requests_drop

end SinStr

/-- The account of a run that returns is the one that its contents predict, whatever
the allocator: another one gives other addresses and the same account. -/
theorem account_exact (a a' : Allocator t.toMachine) :
    (∀ ops w, Op.LegalRun (NonEmptySinStr.api a) (fun _ _ => True) (fun _ => none) ops →
      (Op.execAll (NonEmptySinStr.api a) ops).run Pool.empty = .ok () w →
      w.account NonEmptySinStr.owned =
        Op.chargeAll (NonEmptySinStr.tariff a) (fun _ => none) Account.empty ops ∧
      ∀ w', (Op.execAll (NonEmptySinStr.api a') ops).run Pool.empty = .ok () w' →
        w'.account NonEmptySinStr.owned = w.account NonEmptySinStr.owned) ∧
    (∀ ops w, Op.LegalRun (SinStr.api a) (fun _ _ => True) (fun _ => none) ops →
      (Op.execAll (SinStr.api a) ops).run Pool.empty = .ok () w →
      w.account SinStr.owned =
        Op.chargeAll (SinStr.tariff a) (fun _ => none) Account.empty ops ∧
      ∀ w', (Op.execAll (SinStr.api a') ops).run Pool.empty = .ok () w' →
        w'.account SinStr.owned = w.account SinStr.owned) := by
  have hne : (NonEmptySinStr.tariff a).Alike (NonEmptySinStr.tariff a') :=
    ⟨⟨rfl, rfl, rfl, rfl⟩, rfl, rfl, rfl⟩
  have hs : (SinStr.tariff a).Alike (SinStr.tariff a') := ⟨⟨rfl, rfl, rfl, rfl⟩, rfl, rfl, rfl⟩
  constructor
  · intro ops w hlegal hrun
    exact ⟨account_of_returns (NonEmptySinStr.tariff a) hlegal hrun,
      fun w' hrun' => account_alike hne hlegal hrun hrun'⟩
  · intro ops w hlegal hrun
    exact ⟨account_of_returns (SinStr.tariff a) hlegal hrun,
      fun w' hrun' => account_alike hs hlegal hrun hrun'⟩

/-- A block that is grown too far, kept, cloned, moved and dropped. -/
def chargedRun : List (Op Builder Mutator) :=
  [.build 0 (.new "123456789"), .call 0 (.pushStr "123456789012345"),
    .call 0 (.setStr "12345678901234567"), .clone 1 0, .call 1 (.setStrUnchecked "abc"),
    .assign 0 1, .drop 0]

theorem chargedRun_legal :
    Op.LegalRun (NonEmptySinStr.api (PointerWidth.w64.paged .little)) (fun _ _ => True)
      (fun _ => none) chargedRun :=
  ⟨⟨⟨rfl, by decide, (by decide : "123456789".utf8ByteSize ≤ _)⟩, trivial⟩,
    ⟨⟨_, rfl, (by decide : "123456789012345".utf8ByteSize ≤ _)⟩, trivial⟩,
    ⟨⟨_, rfl, (by decide : "12345678901234567".utf8ByteSize ≤ _)⟩, trivial⟩,
    ⟨⟨rfl, rfl⟩, trivial⟩, ⟨⟨_, rfl, by decide, by decide⟩, trivial⟩,
    ⟨⟨by decide, rfl, rfl⟩, trivial⟩, ⟨rfl, trivial⟩, trivial⟩

/-- The block of 40 bytes is released as one of 32; the clone has 32. -/
theorem chargedRun_account :
    (Exec.final ((Op.execAll (NonEmptySinStr.api (PointerWidth.w64.paged .little)) chargedRun).run
      Pool.empty)).heap.requests =
        [.dealloc 32 40, .dealloc 32 32, .alloc 32, .realloc 24 24 40, .alloc 24] := by
  have hrun := Exec.eq_ok_of_returns (r := (Op.execAll (NonEmptySinStr.api
    (PointerWidth.w64.paged .little)) chargedRun).run Pool.empty) (by decide +kernel)
  have haccount := (account_exact (PointerWidth.w64.paged .little)
    (PointerWidth.w64.paged .little)).1 chargedRun _ chargedRun_legal hrun
  exact (congrArg Account.requests haccount.1).trans (by decide +kernel)

end Sinstr
