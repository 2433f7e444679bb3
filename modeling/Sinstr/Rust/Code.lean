import Mathlib.Data.List.Basic
import Mathlib.InformationTheory.Coding.UniquelyDecodable

/-!
# Prefix codes

An encoder none of whose words begins another one. Words in a row then tell where
each of them ends, and the code stays one under a tag in front.
-/

namespace Rust

/-- Only equal values have words of which one begins the other. -/
def PrefixCode {C α : Type} (code : C → List α) : Prop :=
  ∀ c d, code c <+: code d → c = d

namespace PrefixCode

variable {C α : Type} {code : C → List α} {c d : C} {cs ds : List C}

theorem injective (hp : PrefixCode code) : Function.Injective code := by
  intro c d h
  exact hp c d (h ▸ List.prefix_rfl)

/-- The first word in a row determines its value and the rest. -/
theorem append_inj (hp : PrefixCode code) {r r' : List α} (h : code c ++ r = code d ++ r') :
    c = d ∧ r = r' := by
  have hleft : code c <+: code d ++ r' := h ▸ List.prefix_append (code c) r
  have hright : code d <+: code d ++ r' := List.prefix_append (code d) r'
  obtain rfl : c = d := by
    rcases List.prefix_or_prefix_of_prefix hleft hright with hpre | hpre
    · exact hp c d hpre
    · exact (hp d c hpre).symm
  exact ⟨rfl, List.append_cancel_left h⟩

/-- Words in a row, none of them empty, can be taken apart in one way only. -/
theorem uniquelyDecodable (hp : PrefixCode code) (hne : ∀ c, code c ≠ []) :
    InformationTheory.UniquelyDecodable (Set.range code) := by
  intro L
  induction L with
  | nil =>
      intro L' _ hL' hflat
      cases L' with
      | nil => rfl
      | cons w L' =>
          obtain ⟨d, rfl⟩ := hL' w List.mem_cons_self
          exact absurd hflat.symm (by simp [hne d])
  | cons w L ih =>
      intro L' hL hL' hflat
      obtain ⟨c, rfl⟩ := hL w List.mem_cons_self
      cases L' with
      | nil => exact absurd hflat (by simp [hne c])
      | cons w' L' =>
          obtain ⟨d, rfl⟩ := hL' w' List.mem_cons_self
          rw [List.flatten_cons, List.flatten_cons] at hflat
          obtain ⟨rfl, hrest⟩ := hp.append_inj hflat
          rw [ih L' (fun v hv => hL v (List.mem_cons_of_mem _ hv))
            (fun v hv => hL' v (List.mem_cons_of_mem _ hv)) hrest]

theorem flatMap_inj (hp : PrefixCode code) (hne : ∀ c, code c ≠ []) :
    cs.flatMap code = ds.flatMap code ↔ cs = ds := by
  constructor
  · intro h
    rw [List.flatMap_def, List.flatMap_def] at h
    have hmap := hp.uniquelyDecodable hne (cs.map code) (ds.map code) (by simp) (by simp) h
    exact hp.injective.list_map hmap
  · rintro rfl
    rfl

/-- A terminator that occurs in no word makes a code. -/
theorem terminated {stop : α} (hinj : Function.Injective code) (hstop : ∀ c, stop ∉ code c) :
    PrefixCode fun c => code c ++ [stop] := by
  rintro c d ⟨r, hr⟩
  have hsplit : code d ++ stop :: [] = code c ++ stop :: r := by
    rw [← List.singleton_append (l := r), ← List.append_assoc]
    exact hr.symm
  have hparts := (List.append_cons_inj_of_notMem (hstop d) List.not_mem_nil).mp hsplit
  exact (hinj hparts.1).symm

/-- A tag of a fixed length in front leaves the rest to be told apart. -/
theorem tagged {tag : C → List α} (hlen : ∀ c d, (tag c).length = (tag d).length)
    (hp : ∀ c d, tag c = tag d → code c <+: code d → c = d) :
    PrefixCode fun c => tag c ++ code c := by
  rintro c d ⟨r, hr⟩
  rw [List.append_assoc] at hr
  obtain ⟨htag, hcode⟩ := List.append_inj hr (hlen c d)
  exact hp c d htag ⟨r, hcode⟩

end PrefixCode

end Rust
