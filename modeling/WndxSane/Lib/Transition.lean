import Mathlib.Order.Basic
import Mathlib.Tactic.Common

/-!
# Runs of partial step functions

A system is a partial step function `σ → α → Option σ`; a run is a list of actions.  `Throughout`
says that a property holds in the start state and in every state the run passes through, `Guarded`
that every step taken meets a condition on the state before it and on the action.

* `run_invariant` carries an invariant along a run, `run_iff_exists` what its actions add up.
* **`throughout_iff_guarded`** turns "guarded steps preserve, unguarded steps break" into an
  equivalence about whole runs.
* **`guarded_or_broken`** is the form for damage that shows only at the end of a run: once a step
  misses the guard, the run stays in an absorbing set of broken states.
* `run_simulates` is forward simulation along guarded steps.
* `run_map` erases a part of the states, `run_filter` the actions that change nothing.
-/

namespace Transition

variable {σ τ α : Type*}

/-- Take the actions one after another; `none` when one of them is not enabled. -/
def run (step : σ → α → Option σ) : σ → List α → Option σ
  | s, [] => some s
  | s, a :: as => (step s a).bind fun t => run step t as

/-- `P` holds in every state the run passes through, the first and the last included. -/
def Throughout (step : σ → α → Option σ) (P : σ → Prop) : σ → List α → Prop
  | s, [] => P s
  | s, a :: as => P s ∧ ∀ t, step s a = some t → Throughout step P t as

/-- Every step the run takes meets `G` in the state before it. -/
def Guarded (step : σ → α → Option σ) (G : σ → α → Prop) : σ → List α → Prop
  | _, [] => True
  | s, a :: as => ∀ t, step s a = some t → G s a ∧ Guarded step G t as

variable {step : σ → α → Option σ}

theorem run_cons (s : σ) (a : α) (as : List α) :
    run step s (a :: as) = (step s a).bind fun t => run step t as := rfl

/-- A run of a nonempty list splits at its first step. -/
theorem run_cons_some {s u : σ} {a : α} {as : List α} (h : run step s (a :: as) = some u) :
    ∃ t, step s a = some t ∧ run step t as = some u := by
  rw [run_cons] at h
  exact Option.bind_eq_some_iff.mp h

/-- `Throughout` speaks of the states reached by the prefixes of the run. -/
theorem throughout_iff_reached {P : σ → Prop} (s : σ) (as : List α) :
    Throughout step P s as ↔ ∀ pre, pre <+: as → ∀ t, run step s pre = some t → P t := by
  induction as generalizing s with
  | nil =>
    constructor
    · intro h pre hpre t ht
      rw [List.prefix_nil.mp hpre] at ht
      cases ht
      exact h
    · intro h
      exact h [] List.prefix_rfl s rfl
  | cons a as ih =>
    constructor
    · rintro ⟨hs, hrest⟩ pre hpre t ht
      cases pre with
      | nil => cases ht; exact hs
      | cons b bs =>
        obtain ⟨rfl, hbs⟩ := List.cons_prefix_cons.mp hpre
        obtain ⟨u, hu, hrun⟩ := run_cons_some ht
        exact (ih u).mp (hrest u hu) bs hbs t hrun
    · intro h
      refine ⟨h [] (List.nil_prefix) s rfl, fun u hu => (ih u).mpr fun pre hpre t ht => ?_⟩
      refine h (a :: pre) (List.cons_prefix_cons.mpr ⟨rfl, hpre⟩) t ?_
      rw [run_cons, hu]
      exact ht

/-- A property that holds throughout a run holds at its end. -/
theorem Throughout.last {P : σ → Prop} {s t : σ} {as : List α}
    (h : Throughout step P s as) (hrun : run step s as = some t) : P t :=
  (throughout_iff_reached s as).mp h as List.prefix_rfl t hrun

/-- Where every action is enabled, every run ends in a state. -/
theorem exists_run (htotal : ∀ s a, ∃ t, step s a = some t) (s : σ) (as : List α) :
    ∃ t, run step s as = some t := by
  induction as generalizing s with
  | nil => exact ⟨s, rfl⟩
  | cons a as ih =>
    obtain ⟨t, ht⟩ := htotal s a
    rw [run_cons, ht]
    exact ih t

theorem Guarded.cons {G : σ → α → Prop} {s t : σ} {a : α} {as : List α} (h : step s a = some t)
    (hG : G s a) (has : Guarded step G t as) : Guarded step G s (a :: as) := by
  intro u hu
  rw [h] at hu
  cases hu
  exact ⟨hG, has⟩

instance decidableGuarded (step : σ → α → Option σ) (G : σ → α → Prop) [∀ s a, Decidable (G s a)] :
    ∀ s as, Decidable (Guarded step G s as)
  | _, [] => isTrue trivial
  | s, a :: as =>
    match h : step s a with
    | none => isTrue fun t ht => absurd (h.symm.trans ht) (Option.some_ne_none t).symm
    | some t =>
      have := decidableGuarded step G t as
      decidable_of_iff (G s a ∧ Guarded step G t as)
        ⟨fun hG => .cons h hG.1 hG.2, fun hG => hG t h⟩

/-- The front of a guarded run is guarded. -/
theorem Guarded.of_append {G : σ → α → Prop} {s : σ} {as bs : List α}
    (h : Guarded step G s (as ++ bs)) : Guarded step G s as := by
  induction as generalizing s with
  | nil => trivial
  | cons a as ih => exact fun t ht => ⟨(h t ht).1, ih (h t ht).2⟩

/-- **Run lemma.**  What every step preserves, every run preserves. -/
theorem run_invariant {I : σ → Prop} (hstep : ∀ s a t, I s → step s a = some t → I t)
    {s t : σ} {as : List α} (hs : I s) (hrun : run step s as = some t) : I t := by
  induction as generalizing s with
  | nil => cases hrun; exact hs
  | cons a as ih =>
    obtain ⟨u, hu, hrest⟩ := run_cons_some hrun
    exact ih (hstep s a u hs hu) hrest

/-- What a step leaves and may add, a run leaves and adds with one of its actions. -/
theorem run_iff_exists {P : σ → Prop} {A : α → Prop}
    (hstep : ∀ s a t, step s a = some t → (P t ↔ P s ∨ A a)) {s t : σ} {as : List α}
    (hrun : run step s as = some t) : P t ↔ P s ∨ ∃ a ∈ as, A a := by
  induction as generalizing s with
  | nil =>
    cases hrun
    exact (or_iff_left fun ⟨_, h, _⟩ => List.not_mem_nil h).symm
  | cons a as ih =>
    obtain ⟨u, hu, hrest⟩ := run_cons_some hrun
    rw [ih hrest, hstep s a u hu, or_assoc]
    simp only [List.mem_cons, exists_eq_or_imp]

/-- Every action of a finished run has been taken. -/
theorem exists_step_of_mem {s t : σ} {a : α} {as : List α} (hrun : run step s as = some t)
    (h : a ∈ as) : ∃ u v, step u a = some v := by
  induction as generalizing s with
  | nil => exact absurd h List.not_mem_nil
  | cons b bs ih =>
    obtain ⟨u, hu, hrest⟩ := run_cons_some hrun
    rcases List.mem_cons.mp h with rfl | hb
    · exact ⟨s, u, hu⟩
    · exact ih hrest hb

/-- What guarded steps preserve, a guarded run preserves. -/
theorem Guarded.invariant {I : σ → Prop} {G : σ → α → Prop}
    (hkeep : ∀ s a t, I s → step s a = some t → G s a → I t) {s t : σ} {as : List α} (hs : I s)
    (hG : Guarded step G s as) (hrun : run step s as = some t) : I t := by
  induction as generalizing s with
  | nil => cases hrun; exact hs
  | cons a as ih =>
    obtain ⟨u, hu, hrest⟩ := run_cons_some hrun
    exact ih (hkeep s a u hs hu (hG u hu).1) (hG u hu).2 hrest

/-- **Guarded runs.**  `I` is inductive along guarded steps and gives `P`; an unguarded step taken
from `I` lands outside `P`.  Then a run keeps `P` throughout exactly when all its steps, which are
of the `allowed` kind, are guarded. -/
theorem throughout_iff_guarded {I P : σ → Prop} {G : σ → α → Prop} {allowed : α → Prop}
    (hP : ∀ s, I s → P s)
    (hkeep : ∀ s a t, allowed a → I s → step s a = some t → G s a → I t)
    (hbreak : ∀ s a t, allowed a → I s → step s a = some t → ¬ G s a → ¬ P t)
    {s : σ} {as : List α} (hall : ∀ a ∈ as, allowed a) (hs : I s) :
    Throughout step P s as ↔ Guarded step G s as := by
  induction as generalizing s with
  | nil => exact ⟨fun _ => trivial, fun _ => hP s hs⟩
  | cons a as ih =>
    have ha : allowed a := hall a List.mem_cons_self
    have hrest : ∀ b ∈ as, allowed b := fun b hb => hall b (List.mem_cons_of_mem a hb)
    constructor
    · rintro ⟨-, h⟩ t ht
      have hG : G s a := by
        by_contra hG
        refine hbreak s a t ha hs ht hG ?_
        cases as with
        | nil => exact h t ht
        | cons b bs => exact (h t ht).1
      exact ⟨hG, (ih hrest (hkeep s a t ha hs ht hG)).mp (h t ht)⟩
    · intro h
      refine ⟨hP s hs, fun t ht => ?_⟩
      obtain ⟨hG, hg⟩ := h t ht
      exact (ih hrest (hkeep s a t ha hs ht hG)).mpr hg

/-- **Guarded or broken.**  Along a finished run, either all steps were guarded and `I` holds at the
end, or one was not and the run ended in the absorbing set `B`. -/
theorem guarded_or_broken {I B : σ → Prop} {G : σ → α → Prop}
    (hkeep : ∀ s a t, I s → step s a = some t → G s a → I t)
    (hbreak : ∀ s a t, I s → step s a = some t → ¬ G s a → B t)
    (habsorb : ∀ s a t, B s → step s a = some t → B t)
    {s t : σ} {as : List α} (hs : I s) (hrun : run step s as = some t) :
    (Guarded step G s as ∧ I t) ∨ (¬ Guarded step G s as ∧ B t) := by
  induction as generalizing s with
  | nil => cases hrun; exact Or.inl ⟨trivial, hs⟩
  | cons a as ih =>
    obtain ⟨u, hu, hrest⟩ := run_cons_some hrun
    by_cases hG : G s a
    · rcases ih (hkeep s a u hs hu hG) hrest with ⟨hg, hI⟩ | ⟨hng, hB⟩
      · refine Or.inl ⟨fun v hv => ?_, hI⟩
        rw [hu] at hv
        cases hv
        exact ⟨hG, hg⟩
      · exact Or.inr ⟨fun h => hng (h u hu).2, hB⟩
    · exact Or.inr ⟨fun h => hG (h u hu).1, run_invariant habsorb (hbreak s a u hs hu hG) hrest⟩

/-- **Forward simulation.**  Along a guarded run of `step`, the system `step'` follows and stays
related. -/
theorem run_simulates {step' : τ → α → Option τ} {R : σ → τ → Prop} {G : σ → α → Prop}
    (hsim : ∀ s u a t, R s u → step s a = some t → G s a → ∃ v, step' u a = some v ∧ R t v)
    {s t : σ} {u : τ} {as : List α} (hR : R s u) (hG : Guarded step G s as)
    (hrun : run step s as = some t) : ∃ v, run step' u as = some v ∧ R t v := by
  induction as generalizing s u with
  | nil => cases hrun; exact ⟨u, rfl, hR⟩
  | cons a as ih =>
    obtain ⟨s₁, hs₁, hrest⟩ := run_cons_some hrun
    obtain ⟨hGa, hGs⟩ := hG s₁ hs₁
    obtain ⟨u₁, hu₁, hR₁⟩ := hsim s u a s₁ hR hs₁ hGa
    obtain ⟨v, hv, hRv⟩ := ih hR₁ hGs hrest
    refine ⟨v, ?_, hRv⟩
    rw [run_cons, hu₁]
    exact hv

/-- A step of a system is one of another, a part of the states and of the actions apart; then a run is. -/
theorem run_map {β : Type*} {step' : τ → β → Option τ} {f : σ → τ} {g : α → β}
    (hstep : ∀ s a, (step s a).map f = step' (f s) (g a)) (s : σ) (as : List α) :
    (run step s as).map f = run step' (f s) (as.map g) := by
  induction as generalizing s with
  | nil => rfl
  | cons a as ih =>
    rw [List.map_cons, run_cons, run_cons, ← hstep]
    cases step s a with
    | none => rfl
    | some t => exact ih t

/-- What changes no state can be left out of a run. -/
theorem run_filter {c : α → Bool} (hskip : ∀ s a, c a = false → step s a = some s) (s : σ)
    (as : List α) : run step s (as.filter c) = run step s as := by
  induction as generalizing s with
  | nil => rfl
  | cons a as ih =>
    rw [run_cons]
    cases hc : c a with
    | false =>
      rw [List.filter_cons_of_neg (by rw [hc]; exact Bool.false_ne_true), hskip s a hc]
      exact ih s
    | true =>
      rw [List.filter_cons_of_pos hc, run_cons]
      cases step s a with
      | none => rfl
      | some t => exact ih t

end Transition
