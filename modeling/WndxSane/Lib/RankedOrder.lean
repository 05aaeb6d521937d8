import Mathlib.Order.Lattice
import Mathlib.Tactic.Common

/-!
# Orders by rank, equality by contents

Things that are ordered by a rank alone, and equal when their contents are.  Some have no contents; these
are not even equal to themselves, but they have a rank.  Equal contents have equal ranks, while things of
one rank may differ in their contents.

* `SortingLaws`: what sorting and searching rely on when they are given the comparison operators.
* **`sortingLaws_of_rank`**: operators that compare ranks and contents keep these laws.
-/

namespace RankedOrder

variable {α ρ γ : Type*}

/-- The laws of comparison operators; `valid` is where a thing equals itself. -/
structure SortingLaws (lt gt le ge eq : α → α → Prop) (valid : α → Prop) : Prop where
  irrefl : ∀ a, ¬ lt a a
  asymm : ∀ a b, lt a b → ¬ lt b a
  trans : ∀ a b c, lt a b → lt b c → lt a c
  incomp_trans : ∀ a b c, ¬ lt a b ∧ ¬ lt b a → ¬ lt b c ∧ ¬ lt c b → ¬ lt a c ∧ ¬ lt c a
  gt_iff : ∀ a b, gt a b ↔ lt b a
  ge_iff : ∀ a b, ge a b ↔ le b a
  le_trans : ∀ a b c, le a b → le b c → le a c
  ge_trans : ∀ a b c, ge a b → ge b c → ge a c
  le_antisymm_iff : ∀ a b, le a b ∧ le b a ↔ eq a b
  eq_symm : ∀ a b, eq a b → eq b a
  eq_trans : ∀ a b c, eq a b → eq b c → eq a c
  eq_self_iff : ∀ a, eq a a ↔ valid a
  at_most_one : ∀ a b, ¬ (lt a b ∧ eq a b) ∧ ¬ (lt a b ∧ gt a b) ∧ ¬ (eq a b ∧ gt a b)

/-- Both have contents, and the same. -/
def Same (contents : α → Option γ) (a b : α) : Prop := contents a ≠ none ∧ contents a = contents b

variable {contents : α → Option γ} {a b c : α}

theorem Same.symm (h : Same contents a b) : Same contents b a := ⟨h.2 ▸ h.1, h.2.symm⟩

theorem Same.trans (h : Same contents a b) (h' : Same contents b c) : Same contents a c :=
  ⟨h.1, h.2.trans h'.2⟩

variable [LinearOrder ρ] {rank : α → ρ}

/-- Lower in rank or of the same contents. -/
def LowerOrSame (rank : α → ρ) (contents : α → Option γ) (a b : α) : Prop :=
  rank a < rank b ∨ Same contents a b

section

variable (hrank : ∀ a b, Same contents a b → rank a = rank b)

include hrank

theorem LowerOrSame.trans (h : LowerOrSame rank contents a b) (h' : LowerOrSame rank contents b c) :
    LowerOrSame rank contents a c := by
  rcases h with hab | hab
  · rcases h' with hbc | hbc
    · exact Or.inl (lt_trans hab hbc)
    · exact Or.inl (hrank b c hbc ▸ hab)
  · rcases h' with hbc | hbc
    · exact Or.inl (hrank a b hab ▸ hbc)
    · exact Or.inr (hab.trans hbc)

theorem lowerOrSame_antisymm_iff :
    LowerOrSame rank contents a b ∧ LowerOrSame rank contents b a ↔ Same contents a b := by
  constructor
  · rintro ⟨hab | hab, hba⟩
    · rcases hba with hba | hba
      · exact absurd hba (lt_asymm hab)
      · exact absurd (hrank b a hba) (ne_of_gt hab)
    · exact hab
  · exact fun h => ⟨Or.inr h, Or.inr h.symm⟩

/-- **Comparison by rank and contents.** -/
theorem sortingLaws_of_rank {lt gt le ge eq : α → α → Prop} {valid : α → Prop}
    (hlt : ∀ a b, lt a b ↔ rank a < rank b) (hgt : ∀ a b, gt a b ↔ rank b < rank a)
    (heq : ∀ a b, eq a b ↔ Same contents a b) (hle : ∀ a b, le a b ↔ lt a b ∨ eq a b)
    (hge : ∀ a b, ge a b ↔ gt a b ∨ eq a b) (hvalid : ∀ a, valid a ↔ contents a ≠ none) :
    SortingLaws lt gt le ge eq valid := by
  have hle' : ∀ a b, le a b ↔ LowerOrSame rank contents a b := by
    intro a b
    rw [hle, hlt, heq]
    exact Iff.rfl
  have hge' : ∀ a b, ge a b ↔ LowerOrSame rank contents b a := by
    intro a b
    rw [hge, hgt, heq]
    exact or_congr_right ⟨Same.symm, Same.symm⟩
  exact
    { irrefl := fun a => by
        rw [hlt]
        exact lt_irrefl _
      asymm := fun a b => by
        rw [hlt, hlt]
        exact lt_asymm
      trans := fun a b c => by
        rw [hlt, hlt, hlt]
        exact lt_trans
      incomp_trans := fun a b c => by
        simp only [hlt, not_lt]
        exact fun hab hbc => ⟨le_trans hbc.1 hab.1, le_trans hab.2 hbc.2⟩
      gt_iff := fun a b => by rw [hgt, hlt]
      ge_iff := fun a b => by rw [hge', hle']
      le_trans := fun a b c => by
        rw [hle', hle', hle']
        exact LowerOrSame.trans hrank
      ge_trans := fun a b c => by
        rw [hge', hge', hge']
        exact fun hab hbc => LowerOrSame.trans hrank hbc hab
      le_antisymm_iff := fun a b => by
        rw [hle', hle', heq]
        exact lowerOrSame_antisymm_iff hrank
      eq_symm := fun a b => by
        rw [heq, heq]
        exact Same.symm
      eq_trans := fun a b c => by
        rw [heq, heq, heq]
        exact Same.trans
      eq_self_iff := fun a => by
        rw [heq, hvalid]
        exact and_iff_left rfl
      at_most_one := fun a b => by
        rw [hlt, hgt, heq]
        refine ⟨fun h => ?_, fun h => lt_asymm h.1 h.2, fun h => ?_⟩
        · exact absurd (hrank a b h.2) (ne_of_lt h.1)
        · exact absurd (hrank a b h.1) (ne_of_gt h.2) }

end

end RankedOrder
