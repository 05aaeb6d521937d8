import Mathlib.Data.List.Chain
import Mathlib.Tactic.Common

/-!
# Records in a text

A text is records written one after another, each a head and a body of whole lines.  A body is sealed when no
line of it, its first rest of a line apart, begins with a head: then the next head is where the next record
begins.

* `cut_unique`: a sealed body before the next record.
* **`flatMap_inj`**: a text is that of one list of records with sealed bodies.
* `lastLine_unique`: whole lines before a last one.
-/

namespace Records

variable {α : Type*} {nl : α} {IsHead : List α → Prop}

/-- Whole lines: the text ends with a line end. -/
def Whole (nl : α) (b : List α) : Prop := ∃ p, b = p ++ [nl]

/-- Whole lines, none of which, after the first, begins with a head. -/
structure Sealed (nl : α) (IsHead : List α → Prop) (b : List α) : Prop where
  whole : Whole nl b
  inner : ∀ p s, b = p ++ nl :: s → ∀ h, IsHead h → ¬ h <+: s

/-- Where every head begins with `br`, whole lines in which no `br` follows a line end are sealed. -/
theorem sealed_of_isChain {br : α} {b : List α} (hhead : ∀ h, IsHead h → h.head? = some br)
    (hwhole : Whole nl b) (hb : b.IsChain fun x y => x = nl → y ≠ br) : Sealed nl IsHead b := by
  refine ⟨hwhole, ?_⟩
  rintro p s rfl h hh ⟨t, rfl⟩
  obtain ⟨h, rfl⟩ := List.head?_eq_some_iff.mp (hhead h hh)
  rw [List.isChain_append] at hb
  exact (List.isChain_cons_cons.mp hb.2.1).1 rfl rfl

/-- A text that is over or goes on with a head. -/
def AtHead (IsHead : List α → Prop) (r : List α) : Prop := r = [] ∨ ∃ h, IsHead h ∧ h <+: r

/-- Where one body is longer than another, it would have a head inside. -/
theorem surplus_eq_nil (hnl : ∀ h, IsHead h → nl ∉ h) {b t r r' : List α} (hb : Whole nl b)
    (hbt : Sealed nl IsHead (b ++ t)) (hr : AtHead IsHead r) (h : r = t ++ r') : t = [] := by
  obtain ⟨p, rfl⟩ := hb
  rcases hr with rfl | ⟨head, hhead, hpre⟩
  · exact (List.append_eq_nil_iff.mp h.symm).1
  by_contra ht
  rw [h] at hpre
  rcases List.prefix_or_prefix_of_prefix hpre (List.prefix_append t r') with hin | ⟨u, hu⟩
  · exact hbt.inner p t (by rw [List.append_assoc]; rfl) head hhead hin
  · -- the head goes on after `t`, and so takes in the end of a line
    obtain ⟨q, hq⟩ := hbt.whole
    have hlast : nl ∈ t := by
      have hlast' : (p ++ [nl] ++ t).getLast? = some nl := by rw [hq]; simp
      rw [List.getLast?_append_of_ne_nil _ ht] at hlast'
      exact List.mem_of_getLast? hlast'
    exact hnl head hhead (hu ▸ List.mem_append_left u hlast)

/-- One more line that does not begin with a head. -/
theorem Sealed.append_line (hnl : ∀ h, IsHead h → nl ∉ h) {b l : List α} (hb : Sealed nl IsHead b)
    (hl : nl ∉ l) (hline : ∀ h, IsHead h → ¬ h <+: l ++ [nl]) : Sealed nl IsHead (b ++ (l ++ [nl])) := by
  obtain ⟨q, hq⟩ := hb.whole
  refine ⟨⟨b ++ l, (List.append_assoc ..).symm⟩, fun p s hps h hh hpre => ?_⟩
  rcases List.append_eq_append_iff.mp hps with ⟨t, -, ht⟩ | ⟨t, ht, hs⟩
  · -- the line end is the last of the new line
    rcases List.eq_nil_or_concat s with rfl | ⟨s, x, rfl⟩
    · rw [List.prefix_nil.mp hpre] at hh
      exact hline [] hh List.nil_prefix
    · have hcut : l ++ [nl] = (t ++ nl :: s) ++ [x] := by simpa using ht
      exact hl ((List.append_inj' hcut rfl).1 ▸ by simp)
  · cases t with
    | nil =>
      cases l with
      | nil =>
        obtain rfl : s = [] := (List.cons.inj hs).2
        rw [List.prefix_nil.mp hpre] at hh
        exact hline [] hh List.nil_prefix
      | cons c l => exact hl ((List.cons.inj hs).1 ▸ List.mem_cons_self)
    | cons c t =>
      obtain ⟨rfl, rfl⟩ := List.cons.inj hs
      rcases List.prefix_or_prefix_of_prefix hpre (List.prefix_append t _) with hin | ⟨u, hu⟩
      · exact hb.inner p t ht h hh hin
      · rcases List.eq_nil_or_concat t with rfl | ⟨t, x, rfl⟩
        · exact hline h hh hpre
        · have hcut : q ++ [nl] = (p ++ nl :: t) ++ [x] := by
            rw [← hq, ht]
            simp
          have hx : [nl] = [x] := (List.append_inj' hcut rfl).2
          exact hnl h hh (hu ▸ by simp [(List.cons.inj hx).1])

/-- A body is cut off where the next record begins. -/
theorem cut_unique (hnl : ∀ h, IsHead h → nl ∉ h) {b b' r r' : List α} (hb : Sealed nl IsHead b)
    (hb' : Sealed nl IsHead b') (hr : AtHead IsHead r) (hr' : AtHead IsHead r')
    (h : b ++ r = b' ++ r') : b = b' ∧ r = r' := by
  rcases List.append_eq_append_iff.mp h with ⟨t, rfl, ht⟩ | ⟨t, rfl, ht⟩
  · have hnil := surplus_eq_nil hnl hb.whole hb' hr ht
    subst hnil
    exact ⟨(List.append_nil b).symm, ht⟩
  · have hnil := surplus_eq_nil hnl hb'.whole hb hr' ht
    subst hnil
    exact ⟨List.append_nil b', ht.symm⟩

variable {ρ : Type*} {head body : ρ → List α}

/-- The text of some records is over or goes on with the head of one. -/
theorem atHead_flatMap {rs : List ρ} (hhead : ∀ r ∈ rs, IsHead (head r)) :
    AtHead IsHead (rs.flatMap fun r => head r ++ body r) := by
  cases rs with
  | nil => exact Or.inl rfl
  | cons r rs =>
    refine Or.inr ⟨head r, hhead r List.mem_cons_self, ?_⟩
    rw [List.flatMap_cons, List.append_assoc]
    exact List.prefix_append ..

/-- **One list of records.**  Two lists of records with sealed bodies, and heads none of which begins another,
that have the same text have the same heads and bodies. -/
theorem flatMap_inj (hnl : ∀ h, IsHead h → nl ∉ h) (hpre : ∀ h h', IsHead h → IsHead h' → h <+: h' → h = h')
    {rs rs' : List ρ} (hrs : ∀ r ∈ rs, IsHead (head r) ∧ Sealed nl IsHead (body r))
    (hrs' : ∀ r ∈ rs', IsHead (head r) ∧ Sealed nl IsHead (body r))
    (h : (rs.flatMap fun r => head r ++ body r) = rs'.flatMap fun r => head r ++ body r) :
    (rs.map fun r => (head r, body r)) = rs'.map fun r => (head r, body r) := by
  induction rs generalizing rs' with
  | nil =>
    cases rs' with
    | nil => rfl
    | cons r' rs' =>
      obtain ⟨p, hp⟩ := (hrs' r' List.mem_cons_self).2.whole
      rw [List.flatMap_nil, List.flatMap_cons, hp] at h
      simp at h
  | cons r rs ih =>
    obtain ⟨hhead, hbody⟩ := hrs r List.mem_cons_self
    have hrest := fun x hx => hrs x (List.mem_cons_of_mem r hx)
    cases rs' with
    | nil =>
      obtain ⟨p, hp⟩ := hbody.whole
      rw [List.flatMap_nil, List.flatMap_cons, hp] at h
      simp at h
    | cons r' rs' =>
      obtain ⟨hhead', hbody'⟩ := hrs' r' List.mem_cons_self
      have hrest' := fun x hx => hrs' x (List.mem_cons_of_mem r' hx)
      rw [List.flatMap_cons, List.flatMap_cons, List.append_assoc, List.append_assoc] at h
      -- one of the two heads begins the other
      have heq : head r = head r' := by
        rcases List.prefix_or_prefix_of_prefix (List.prefix_append (head r) _)
          (h ▸ List.prefix_append (head r') _) with hp | hp
        · exact hpre _ _ hhead hhead' hp
        · exact (hpre _ _ hhead' hhead hp).symm
      rw [heq, List.append_cancel_left_eq] at h
      obtain ⟨hb, htail⟩ := cut_unique hnl hbody hbody'
        (atHead_flatMap fun x hx => (hrest x hx).1) (atHead_flatMap fun x hx => (hrest' x hx).1) h
      rw [List.map_cons, List.map_cons, heq, hb, ih hrest hrest' htail]

/-- Where one view of a record determines another, it does so for lists of records. -/
theorem map_eq_map_of {β γ : Type*} {f : ρ → β} {g : ρ → γ} {rs rs' : List ρ}
    (hfg : ∀ r ∈ rs, ∀ r' ∈ rs', f r = f r' → g r = g r') (h : rs.map f = rs'.map f) :
    rs.map g = rs'.map g := by
  induction rs generalizing rs' with
  | nil =>
    rw [List.map_nil] at h
    rw [List.map_eq_nil_iff.mp h.symm]
  | cons r rs ih =>
    obtain ⟨r', rs'', rfl, hr, hrest⟩ := List.map_eq_cons_iff.mp h.symm
    rw [List.map_cons, List.map_cons, hfg r List.mem_cons_self r' List.mem_cons_self hr.symm,
      ih (fun x hx y hy => hfg x (List.mem_cons_of_mem r hx) y (List.mem_cons_of_mem r' hy)) hrest.symm]

/-- A body that ends with one more line: the lines before it and the line itself. -/
theorem lastLine_unique {b b' l l' : List α} (hb : Whole nl b) (hb' : Whole nl b') (hl : nl ∉ l)
    (hl' : nl ∉ l') (h : b ++ (l ++ [nl]) = b' ++ (l' ++ [nl])) : b = b' ∧ l = l' := by
  obtain ⟨p, rfl⟩ := hb
  obtain ⟨p', rfl⟩ := hb'
  have hlines : p ++ nl :: l = p' ++ nl :: l' := by
    have h' : (p ++ nl :: l) ++ [nl] = (p' ++ nl :: l') ++ [nl] := by simpa using h
    exact List.append_cancel_right h'
  rcases List.append_eq_append_iff.mp hlines with ⟨t, rfl, ht⟩ | ⟨t, rfl, ht⟩
  · cases t with
    | nil => exact ⟨by rw [List.append_nil], (List.cons.inj ht).2⟩
    | cons c t => exact absurd (by rw [(List.cons.inj ht).2]; simp) hl
  · cases t with
    | nil => exact ⟨by rw [List.append_nil], (List.cons.inj ht).2.symm⟩
    | cons c t => exact absurd (by rw [(List.cons.inj ht).2]; simp) hl'

end Records
