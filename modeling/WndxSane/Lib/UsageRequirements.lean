import Mathlib.Logic.Relation
import Mathlib.Tactic.Common

/-!
# Usage requirements

A target links others, and requires things of itself and of what links it.  A link or a requirement has a
scope: whether it is for building the target, for what links the target, or for both.

* `needs_iff`: the last link on the way to what is needed.
* `needs_iff_linkedWith`: what is needed, and what is linked.
* **`linkedWith_of_closed`**, **`needs_of_closed`**: what is linked, and what is needed, is among any targets
  that hold the direct links and that links handed on do not lead out of.
-/

namespace Usage

/-- The scopes of links and of requirements. -/
inductive Scope
  | PRIVATE
  | INTERFACE
  | PUBLIC
  deriving DecidableEq

/-- For building the target itself. -/
def Scope.builds : Scope → Bool
  | .INTERFACE => false
  | _ => true

/-- For what links the target. -/
def Scope.passes : Scope → Bool
  | .PRIVATE => false
  | _ => true

/-- What targets link and require. -/
structure LinkGraph (N R : Type*) where
  links : N → Scope → N → Prop
  reqs : N → Scope → R → Prop

namespace LinkGraph

variable {N R : Type*} (g : LinkGraph N R)

/-- The target itself is built with `v`. -/
def Builds (t v : N) : Prop := ∃ s : Scope, s.builds = true ∧ g.links t s v

/-- What links the target links `v` as well. -/
def Passes (t v : N) : Prop := ∃ s : Scope, s.passes = true ∧ g.links t s v

/-- A target needs what it is built with, and what is passed on from there. -/
def Needs (t v : N) : Prop := ∃ u, g.Builds t u ∧ Relation.ReflTransGen g.Passes u v

/-- For linking, a static library hands on what it is built with as well. -/
def Hands (static : N → Prop) (t v : N) : Prop := ∃ s : Scope, (s.passes = true ∨ static t) ∧ g.links t s v

/-- A target is linked with what it is built with, and what is handed on from there. -/
def LinkedWith (static : N → Prop) (t v : N) : Prop :=
  ∃ u, g.Builds t u ∧ Relation.ReflTransGen (g.Hands static) u v

/-- `v` gives `t` a requirement: its own to itself, what it passes on to those that need it. -/
def Gives (v t : N) (r : R) : Prop :=
  (v = t ∧ ∃ s : Scope, s.builds = true ∧ g.reqs v s r) ∨
    (g.Needs t v ∧ ∃ s : Scope, s.passes = true ∧ g.reqs v s r)

variable {g} {t u v : N} {static : N → Prop}

theorem Builds.needs (h : g.Builds t v) : g.Needs t v := ⟨v, h, .refl⟩

theorem Needs.tail (h : g.Needs t u) (hp : g.Passes u v) : g.Needs t v := by
  obtain ⟨w, hb, hpath⟩ := h
  exact ⟨w, hb, hpath.tail hp⟩

/-- The last link on the way to what is needed. -/
theorem needs_iff : g.Needs t v ↔ g.Builds t v ∨ ∃ u, g.Needs t u ∧ g.Passes u v := by
  constructor
  · intro h
    obtain ⟨w, hb, hpath⟩ := h
    rcases hpath.cases_tail with heq | ⟨u, hu, hp⟩
    · rw [heq]
      exact Or.inl hb
    · exact Or.inr ⟨u, ⟨w, hb, hu⟩, hp⟩
  · intro h
    rcases h with hb | ⟨u, hu, hp⟩
    · exact hb.needs
    · exact hu.tail hp

theorem LinkedWith.tail (h : g.LinkedWith static t u) (hp : g.Hands static u v) : g.LinkedWith static t v := by
  obtain ⟨w, hb, hpath⟩ := h
  exact ⟨w, hb, hpath.tail hp⟩

/-- What is needed is linked. -/
theorem Needs.linkedWith (h : g.Needs t v) (static : N → Prop) : g.LinkedWith static t v := by
  have hpasses : ∀ u v, g.Passes u v → g.Hands static u v := fun u v ⟨s, hs, hl⟩ => ⟨s, Or.inl hs, hl⟩
  obtain ⟨w, hb, hpath⟩ := h
  exact ⟨w, hb, Relation.ReflTransGen.mono hpasses w v hpath⟩

/-- What is needed is what is linked where no library is static. -/
theorem needs_iff_linkedWith : g.Needs t v ↔ g.LinkedWith (fun _ => False) t v := by
  have hhands : ∀ u v, g.Hands (fun _ => False) u v → g.Passes u v :=
    fun u v ⟨s, hs, hl⟩ => ⟨s, hs.resolve_right id, hl⟩
  refine ⟨fun h => h.linkedWith _, fun h => ?_⟩
  obtain ⟨w, hb, hpath⟩ := h
  exact ⟨w, hb, Relation.ReflTransGen.mono hhands w v hpath⟩

/-- **What is linked** is among any targets that hold the direct links, and that links handed on do not lead
out of. -/
theorem linkedWith_of_closed {S : N → Prop} (hfirst : ∀ v, g.Builds t v → S v)
    (hstep : ∀ u v, S u → g.Hands static u v → S v) (h : g.LinkedWith static t v) : S v := by
  obtain ⟨w, hb, hpath⟩ := h
  induction hpath with
  | refl => exact hfirst w hb
  | tail _ hp ih => exact hstep _ _ ih hp

/-- **What is needed** is among any targets that hold the direct links, and that links passed on do not lead
out of. -/
theorem needs_of_closed {S : N → Prop} (hfirst : ∀ v, g.Builds t v → S v)
    (hstep : ∀ u v, S u → g.Passes u v → S v) (h : g.Needs t v) : S v := by
  refine linkedWith_of_closed hfirst ?_ (needs_iff_linkedWith.mp h)
  intro u v hu ⟨s, hs, hl⟩
  exact hstep u v hu ⟨s, hs.resolve_right id, hl⟩

end LinkGraph

end Usage
