import Mathlib.Data.List.Nodup
import Mathlib.Logic.Function.Basic
import Mathlib.Logic.Relation
import Mathlib.Tactic.Common

/-!
# Owners, blocks and traces of allocations

A trace lists, the latest first, the blocks a program allocates, uses and deletes; `holds` says which
block each owner holds.  `Unique` is the discipline of unique ownership, `TraceSafe` what it is for: no
block is deleted twice or used after it was deleted.  `NoLost` is the absence of leaks.

* `OwnerStep`, `Moves`: what one owner may do: take a fresh block, delete or use the block it holds.
* **`Owned.moves`**: whatever owners do, unique ownership stays.
* **`NoLost.moves`**: nothing is lost by owners that take blocks only when they hold none.
* `Owned.lost_of_take`, `Lost.moves`: a block that is held and taken over is lost for good.
-/

namespace Ownership

variable {ι β : Type*}

inductive Event (β : Type*)
  | new (b : β)
  | use (b : β)
  | delete (b : β)
  deriving DecidableEq

/-- The blocks a trace allocates. -/
def allocated : List (Event β) → List β
  | [] => []
  | .new b :: tr => b :: allocated tr
  | .use _ :: tr => allocated tr
  | .delete _ :: tr => allocated tr

/-- The blocks a trace deletes, with repetitions. -/
def deleted : List (Event β) → List β
  | [] => []
  | .new _ :: tr => deleted tr
  | .use _ :: tr => deleted tr
  | .delete b :: tr => b :: deleted tr

/-- No block is used after it was deleted. -/
def NoUseAfterDelete : List (Event β) → Prop
  | [] => True
  | .new _ :: tr => NoUseAfterDelete tr
  | .use b :: tr => b ∉ deleted tr ∧ NoUseAfterDelete tr
  | .delete _ :: tr => NoUseAfterDelete tr

/-- Nothing is deleted twice, nothing used after it was deleted. -/
structure TraceSafe (tr : List (Event β)) : Prop where
  nodup : (deleted tr).Nodup
  uses : NoUseAfterDelete tr

/-- **Unique ownership**: no two owners hold one block, and none holds a deleted one. -/
structure Unique (holds : ι → Option β) (tr : List (Event β)) : Prop where
  injective : ∀ i j b, holds i = some b → holds j = some b → i = j
  notDeleted : ∀ i b, holds i = some b → b ∉ deleted tr

/-- The inductive form of unique ownership. -/
structure Owned (holds : ι → Option β) (tr : List (Event β)) : Prop
    extends Unique holds tr, TraceSafe tr where
  isAllocated : ∀ i b, holds i = some b → b ∈ allocated tr
  deletedAllocated : ∀ b ∈ deleted tr, b ∈ allocated tr

/-- Every block allocated and not deleted is held by some owner. -/
def NoLost (holds : ι → Option β) (tr : List (Event β)) : Prop :=
  ∀ b ∈ allocated tr, b ∉ deleted tr → ∃ i, holds i = some b

/-- A block that is allocated, not deleted and held by no owner. -/
def Lost (holds : ι → Option β) (tr : List (Event β)) (b : β) : Prop :=
  b ∈ allocated tr ∧ b ∉ deleted tr ∧ ∀ i, holds i ≠ some b

variable {holds : ι → Option β} {tr : List (Event β)}

theorem owned_nil : Owned (fun _ : ι => (none : Option β)) [] where
  injective _ _ _ hi _ := absurd hi (by simp)
  notDeleted _ _ hi := absurd hi (by simp)
  nodup := List.nodup_nil
  uses := trivial
  isAllocated _ _ hi := absurd hi (by simp)
  deletedAllocated b hb := absurd hb (by simp [deleted])

theorem noLost_nil : NoLost holds [] := by
  intro b hb
  simp [allocated] at hb

/-- Without owners, every allocated block has been deleted. -/
theorem NoLost.all_deleted (h : NoLost holds tr) (hnone : ∀ i, holds i = none) :
    ∀ b ∈ allocated tr, b ∈ deleted tr := by
  intro b hb
  by_contra hd
  obtain ⟨i, hi⟩ := h b hb hd
  rw [hnone i] at hi
  exact absurd hi (by simp)

theorem Lost.not_noLost {b : β} (h : Lost holds tr b) : ¬ NoLost holds tr := by
  intro hn
  obtain ⟨i, hi⟩ := hn b h.1 h.2.1
  exact h.2.2 i hi

/-- Two owners of one block. -/
theorem not_unique_of_share {i j : ι} {b : β} (hne : i ≠ j) (hi : holds i = some b)
    (hj : holds j = some b) : ¬ Unique holds tr :=
  fun h => hne (h.injective i j b hi hj)

variable [DecidableEq ι]

/-- **Allocating.**  An owner takes a fresh block, dropping what it held. -/
theorem Owned.take (h : Owned holds tr) (i : ι) {b : β} (hb : b ∉ allocated tr) :
    Owned (Function.update holds i (some b)) (.new b :: tr) := by
  have hother : ∀ j c, j ≠ i → Function.update holds i (some b) j = some c →
      holds j = some c ∧ c ≠ b := by
    intro j c hji hj
    rw [Function.update_of_ne hji] at hj
    refine ⟨hj, fun he => hb ?_⟩
    rw [← he]
    exact h.isAllocated j c hj
  have hself : ∀ c, Function.update holds i (some b) i = some c → c = b := by
    intro c hc
    rw [Function.update_self] at hc
    exact (Option.some.inj hc).symm
  refine ⟨⟨?_, ?_⟩, ⟨h.nodup, h.uses⟩, ?_, fun c hc => List.mem_cons_of_mem b (h.deletedAllocated c hc)⟩
  · intro j k c hj hk
    by_cases hji : j = i
    · by_cases hki : k = i
      · rw [hji, hki]
      · subst hji
        exact absurd (hself c hj) (hother k c hki hk).2
    · by_cases hki : k = i
      · subst hki
        exact absurd (hself c hk) (hother j c hji hj).2
      · exact h.injective j k c (hother j c hji hj).1 (hother k c hki hk).1
  · intro j c hj
    by_cases hji : j = i
    · subst hji
      rw [hself c hj]
      exact fun hd => hb (h.deletedAllocated b hd)
    · exact h.notDeleted j c (hother j c hji hj).1
  · intro j c hj
    by_cases hji : j = i
    · subst hji
      rw [hself c hj]
      exact List.mem_cons_self
    · exact List.mem_cons_of_mem b (h.isAllocated j c (hother j c hji hj).1)

/-- **Deleting.**  An owner deletes the block it holds. -/
theorem Owned.free (h : Owned holds tr) {i : ι} {b : β} (hi : holds i = some b) :
    Owned (Function.update holds i none) (.delete b :: tr) := by
  have hother : ∀ j c, Function.update holds i none j = some c → holds j = some c ∧ c ≠ b := by
    intro j c hj
    by_cases hji : j = i
    · rw [hji, Function.update_self] at hj
      exact absurd hj (by simp)
    · rw [Function.update_of_ne hji] at hj
      exact ⟨hj, fun he => hji (h.injective j i b (he ▸ hj) hi)⟩
  exact
    { injective := fun j k c hj hk => h.injective j k c (hother j c hj).1 (hother k c hk).1
      notDeleted := fun j c hj hc =>
        (List.mem_cons.mp hc).elim (hother j c hj).2 (h.notDeleted j c (hother j c hj).1)
      nodup := List.nodup_cons.mpr ⟨h.notDeleted i b hi, h.nodup⟩
      uses := h.uses
      isAllocated := fun j c hj => h.isAllocated j c (hother j c hj).1
      deletedAllocated := fun c hc =>
        (List.mem_cons.mp hc).elim (fun he => he ▸ h.isAllocated i b hi) (h.deletedAllocated c) }

omit [DecidableEq ι] in
/-- **Using.**  An owner uses the block it holds. -/
theorem Owned.touch (h : Owned holds tr) {i : ι} {b : β} (hi : holds i = some b) :
    Owned holds (.use b :: tr) where
  injective := h.injective
  notDeleted := h.notDeleted
  nodup := h.nodup
  uses := ⟨h.notDeleted i b hi, h.uses⟩
  isAllocated := h.isAllocated
  deletedAllocated := h.deletedAllocated

/-! ### Leaks -/

theorem NoLost.free (h : NoLost holds tr) {i : ι} {b : β} (hi : holds i = some b) :
    NoLost (Function.update holds i none) (.delete b :: tr) := by
  intro c hc hd
  obtain ⟨hcb, hd⟩ := not_or.mp fun he => hd (List.mem_cons.mpr he)
  obtain ⟨j, hj⟩ := h c hc hd
  have hji : j ≠ i := fun he => by rw [he, hi] at hj; exact hcb (Option.some.inj hj).symm
  exact ⟨j, by rw [Function.update_of_ne hji, hj]⟩

omit [DecidableEq ι] in
theorem NoLost.touch (h : NoLost holds tr) (b : β) : NoLost holds (.use b :: tr) := h

theorem NoLost.take (h : NoLost holds tr) {i : ι} (b : β) (hi : holds i = none) :
    NoLost (Function.update holds i (some b)) (.new b :: tr) := by
  intro c hc hd
  rcases List.mem_cons.mp hc with rfl | hc
  · exact ⟨i, Function.update_self ..⟩
  · obtain ⟨j, hj⟩ := h c hc hd
    have hji : j ≠ i := fun he => by rw [he, hi] at hj; exact absurd hj (by simp)
    exact ⟨j, by rw [Function.update_of_ne hji, hj]⟩

/-- **The leak.**  An owner that allocates over a block it holds loses that block. -/
theorem Owned.lost_of_take (h : Owned holds tr) {i : ι} {b c : β} (hb : b ∉ allocated tr)
    (hi : holds i = some c) : Lost (Function.update holds i (some b)) (.new b :: tr) c := by
  have hc : c ∈ allocated tr := h.isAllocated i c hi
  refine ⟨List.mem_cons_of_mem b hc, h.notDeleted i c hi, fun j hj => ?_⟩
  by_cases hji : j = i
  · rw [hji, Function.update_self] at hj
    exact hb (Option.some.inj hj ▸ hc)
  · rw [Function.update_of_ne hji] at hj
    exact hji (h.injective j i c hj hi)

theorem Lost.take {b c : β} (h : Lost holds tr c) (i : ι) (hb : b ∉ allocated tr) :
    Lost (Function.update holds i (some b)) (.new b :: tr) c := by
  refine ⟨List.mem_cons_of_mem b h.1, h.2.1, fun j hj => ?_⟩
  by_cases hji : j = i
  · rw [hji, Function.update_self] at hj
    exact hb (Option.some.inj hj ▸ h.1)
  · rw [Function.update_of_ne hji] at hj
    exact h.2.2 j hj

theorem Lost.free {i : ι} {b c : β} (h : Lost holds tr c) (hi : holds i = some b) :
    Lost (Function.update holds i none) (.delete b :: tr) c := by
  refine ⟨h.1, fun hmem => ?_, fun j hj => ?_⟩
  · exact (List.mem_cons.mp hmem).elim (fun he => h.2.2 i (he ▸ hi)) h.2.1
  · by_cases hji : j = i
    · rw [hji, Function.update_self] at hj
      exact absurd hj (by simp)
    · rw [Function.update_of_ne hji] at hj
      exact h.2.2 j hj

omit [DecidableEq ι] in
theorem Lost.touch {c : β} (h : Lost holds tr c) (b : β) : Lost holds (.use b :: tr) c := h

/-! ### What one owner does -/

/-- One move of the owner `i`.  A careful owner takes a block only when it holds none. -/
inductive OwnerStep (i : ι) (careful : Prop) :
    (ι → Option β) × List (Event β) → (ι → Option β) × List (Event β) → Prop
  | take {holds tr b} (hfresh : b ∉ allocated tr) (hcareful : careful → holds i = none) :
      OwnerStep i careful (holds, tr) (Function.update holds i (some b), .new b :: tr)
  | free {holds tr b} (hi : holds i = some b) :
      OwnerStep i careful (holds, tr) (Function.update holds i none, .delete b :: tr)
  | touch {holds tr b} (hi : holds i = some b) :
      OwnerStep i careful (holds, tr) (holds, .use b :: tr)

/-- Any number of moves of one owner. -/
abbrev Moves (i : ι) (careful : Prop) :
    (ι → Option β) × List (Event β) → (ι → Option β) × List (Event β) → Prop :=
  Relation.ReflTransGen (OwnerStep i careful)

variable {i : ι} {careful : Prop} {s t : (ι → Option β) × List (Event β)}

/-- **Unique ownership** survives what owners do. -/
theorem Owned.moves (h : Owned s.1 s.2) (hm : Moves i careful s t) : Owned t.1 t.2 := by
  induction hm with
  | refl => exact h
  | tail _ hstep ih =>
    cases hstep with
    | take hfresh _ => exact ih.take i hfresh
    | free hi => exact ih.free hi
    | touch hi => exact ih.touch hi

/-- **No leaks** by careful owners. -/
theorem NoLost.moves (h : NoLost s.1 s.2) (hcareful : careful) (hm : Moves i careful s t) :
    NoLost t.1 t.2 := by
  induction hm with
  | refl => exact h
  | tail _ hstep ih =>
    cases hstep with
    | take _ hnone => exact ih.take _ (hnone hcareful)
    | free hi => exact ih.free hi
    | touch _ => exact ih.touch _

/-- A lost block stays lost. -/
theorem Lost.moves {b : β} (h : Lost s.1 s.2 b) (hm : Moves i careful s t) : Lost t.1 t.2 b := by
  induction hm with
  | refl => exact h
  | tail _ hstep ih =>
    cases hstep with
    | take hfresh _ => exact ih.take i hfresh
    | free hi => exact ih.free hi
    | touch _ => exact ih.touch _

end Ownership
