import WndxSane.Lib.PathGrammar

/-!
# Lexical normal forms

`normal p` is the lexically normal form of a pathname, as data: whether it is absolute, its names with
`.` dropped and every `..` cancelled against the name before it (a `..` at the root is dropped, one
with nothing to cancel is kept), and whether a separator ends it.  The normal form of a path with
nothing left is the path `.`, which `Normal.elements` writes out.

* **`foldl_pushName_of_contained`**: names that never climb above their start reduce the same way on
  top of any stack.
* `normal_append_of_contained` computes the normal form of `operator/` from it.
* `Normal.relativeTo`: the way from a directory to what is below it.
* **`normal_append_component_iff`**: where one more component leads.
-/

namespace LexicalNormal

open PathGrammar PathAlphabet

variable {α : Type*} [DecidableEq α] [PathAlphabet α]

/-- The name `..`. -/
def dotdot : List α := [dot, dot]

/-- A name that is neither `.` nor `..`, is not empty and has no separator. -/
def Plain (n : List α) : Prop := n ≠ [] ∧ sep ∉ n ∧ n ≠ [dot] ∧ n ≠ dotdot

instance (n : List α) : Decidable (Plain n) := inferInstanceAs (Decidable (_ ∧ _ ∧ _ ∧ _))

/-- One name on the stack of names kept so far, the innermost first. -/
def pushName (abs : Bool) (st : List (List α)) (n : List α) : List (List α) :=
  if n = [dot] then st
  else if n = dotdot then
    match st with
    | [] => if abs then [] else [n]
    | top :: rest => if top = dotdot then n :: st else rest
  else n :: st

/-- A lexically normal form. -/
@[ext] structure Normal (α : Type*) where
  abs : Bool
  names : List (List α)
  slash : Bool
  deriving DecidableEq

/-- A separator stays at the end of a normal form when the path ends in a separator, in `.` or in
`..`, unless nothing or a `..` is left in front of it. -/
def endsAsDir (p : List α) (st : List (List α)) : Bool :=
  decide (filename p = [] ∨ filename p = [dot] ∨ filename p = dotdot) &&
    decide (st ≠ []) && decide (st.head? ≠ some dotdot)

/-- The lexically normal form of a pathname. -/
def normal (p : List α) : Normal α :=
  let st := (names p).foldl (pushName (isAbsolute p)) []
  ⟨isAbsolute p, st.reverse, endsAsDir p st⟩

/-- The elements of a normal form, as those of a path. -/
def Normal.elements (x : Normal α) : List (List α) :=
  if x.abs = false ∧ x.names = [] then [[dot]]
  else (if x.abs then [[sep]] else []) ++ x.names ++ (if x.slash then [[]] else [])

/-- `x` is one plain name below `y`. -/
def DirectChild (y x : Normal α) : Prop :=
  x.abs = y.abs ∧ ∃ n, Plain n ∧ x.names = y.names ++ [n]

/-- Both name one place; only a final separator may differ. -/
def SamePlace (y x : Normal α) : Prop := x.abs = y.abs ∧ x.names = y.names

/-! ### Stacks of names -/

omit [DecidableEq α] in
@[simp] theorem dotdot_ne_dot : (dotdot : List α) ≠ [dot] := by simp [dotdot]

theorem pushName_dotdot_nil (abs : Bool) :
    pushName abs ([] : List (List α)) dotdot = if abs then [] else [dotdot] := by
  simp [pushName]

theorem pushName_dotdot_cons (abs : Bool) (top : List α) (rest : List (List α)) :
    pushName abs (top :: rest) dotdot =
      if top = dotdot then dotdot :: top :: rest else rest := by
  simp [pushName]

/-- What is left of the names of a path is `..` or plain. -/
theorem eq_dotdot_or_plain_of_mem_normal {p n : List α} (h : n ∈ (normal p).names) :
    n = dotdot ∨ Plain n := by
  have key : ∀ (abs : Bool) (ns st : List (List α)), (∀ m ∈ ns, m ≠ [] ∧ sep ∉ m) →
      (∀ m ∈ st, m = dotdot ∨ Plain m) →
      ∀ m ∈ ns.foldl (pushName abs) st, m = dotdot ∨ Plain m := by
    intro abs ns
    induction ns with
    | nil => exact fun st _ hst => hst
    | cons c ns ih =>
      intro st hns hst
      refine ih _ (fun m hm => hns m (List.mem_cons_of_mem c hm)) fun m hm => ?_
      obtain ⟨hne, hsep⟩ := hns c List.mem_cons_self
      unfold pushName at hm
      split at hm
      · exact hst m hm
      · rename_i hdot
        split at hm
        · rename_i hdd
          split at hm
          · split at hm
            · exact absurd hm List.not_mem_nil
            · exact Or.inl ((List.mem_singleton.mp hm).trans hdd)
          · split at hm
            · exact (List.mem_cons.mp hm).elim (fun he => Or.inl (he.trans hdd)) (hst m)
            · exact hst m (List.mem_cons_of_mem _ hm)
        · rename_i hdd
          exact (List.mem_cons.mp hm).elim (fun he => Or.inr (he ▸ ⟨hne, hsep, hdot, hdd⟩)) (hst m)
  refine key (isAbsolute p) (names p) [] (fun m hm => mem_names hm) ?_ n ?_
  · intro m hm
    exact absurd hm List.not_mem_nil
  · simpa [normal] using h

theorem pushName_plain {n : List α} (h : Plain n) (abs : Bool) (st : List (List α)) :
    pushName abs st n = n :: st := by
  unfold pushName
  rw [if_neg h.2.2.1, if_neg h.2.2.2]

/-- A `..` once left on a relative stack stays there. -/
theorem dotdot_mem_foldl {ns st : List (List α)} (h : dotdot ∈ st) :
    dotdot ∈ ns.foldl (pushName false) st := by
  induction ns generalizing st with
  | nil => exact h
  | cons n ns ih =>
    rw [List.foldl_cons]
    apply ih
    unfold pushName
    split
    · exact h
    · split
      · rename_i hn
        cases st with
        | nil => exact absurd h (by simp)
        | cons top rest =>
          by_cases ht : top = dotdot
          · simp only [ht, if_true]
            exact List.mem_cons_of_mem n List.mem_cons_self
          · simp only [ht, if_false]
            exact (List.mem_cons.mp h).resolve_left (Ne.symm ht)
      · exact List.mem_cons_of_mem n h

/-- **Contained names.**  Names that leave no `..` when reduced from the empty stack never climb above
their start, so they reduce alike on top of every stack, of an absolute path or of a relative one. -/
theorem foldl_pushName_of_contained (abs : Bool) (ns st st₀ : List (List α))
    (h : dotdot ∉ ns.foldl (pushName false) st) :
    ns.foldl (pushName abs) (st ++ st₀) = ns.foldl (pushName false) st ++ st₀ := by
  induction ns generalizing st with
  | nil => rfl
  | cons n ns ih =>
    rw [List.foldl_cons] at h ⊢
    rw [List.foldl_cons, ← ih _ h]
    congr 1
    by_cases hdot : n = [dot]
    · simp only [pushName, if_pos hdot]
    · by_cases hdd : n = dotdot
      · cases st with
        | nil =>
          -- a `..` on the empty relative stack is kept for good
          refine absurd (dotdot_mem_foldl ?_) h
          simp [pushName, hdd]
        | cons top rest =>
          rw [hdd, List.cons_append, pushName_dotdot_cons, pushName_dotdot_cons]
          by_cases ht : top = dotdot
          · refine absurd (dotdot_mem_foldl ?_) h
            simp [pushName, hdd, ht]
          · rw [if_neg ht, if_neg ht]
      · simp [pushName, hdot, hdd]

/-! ### Appending -/

theorem names_append_of_relative {d s : List α} (hs : isAbsolute s = false) :
    names (append d s) = names d ++ names s := by
  rw [append, if_neg (by simp [hs])]
  by_cases hf : filename d = []
  · rw [if_pos hf]
    rcases (filename_eq_nil_iff d).mp hf with rfl | hend
    · simp
    · obtain ⟨q, rfl⟩ : ∃ q, d = q ++ [sep] := by
        rcases List.eq_nil_or_concat d with rfl | ⟨q, c, rfl⟩
        · simp [endsInSep] at hend
        · refine ⟨q, ?_⟩
          have hc : c = sep := by simpa [endsInSep] using hend
          rw [hc, List.concat_eq_append]
      exact names_stem_append (Or.inr ⟨q, rfl⟩)
  · rw [if_neg hf, names_append_sep]

theorem isAbsolute_append_of_relative (d : List α) {s : List α} (hs : isAbsolute s = false) :
    isAbsolute (append d s) = isAbsolute d := by
  by_cases hd : d = []
  · rw [hd, append, if_neg (by simp [hs]), if_pos (by rfl)]
    exact hs
  · rw [append, if_neg (by simp [hs])]
    split
    · exact isAbsolute_append hd s
    · exact isAbsolute_append hd _

/-- The normal form of a contained relative path appended to a directory: the directory's names, then
its own. -/
theorem normal_append_of_contained (d : List α) {s : List α} (hs : isAbsolute s = false)
    (hcont : dotdot ∉ (normal s).names) :
    (normal (append d s)).abs = (normal d).abs ∧
      (normal (append d s)).names = (normal d).names ++ (normal s).names := by
  refine ⟨isAbsolute_append_of_relative d hs, ?_⟩
  simp only [normal, hs, List.mem_reverse] at hcont ⊢
  rw [isAbsolute_append_of_relative d hs, names_append_of_relative hs, List.foldl_append]
  have h := foldl_pushName_of_contained (isAbsolute d) (names s) []
    ((names d).foldl (pushName (isAbsolute d)) []) hcont
  rw [List.nil_append] at h
  rw [h, List.reverse_append]

/-- Plain names appended one after another. -/
theorem normal_foldl_append (d : List α) {ns : List (List α)} (hns : ∀ n ∈ ns, Plain n) :
    (normal (ns.foldl append d)).abs = (normal d).abs ∧
      (normal (ns.foldl append d)).names = (normal d).names ++ ns := by
  induction ns generalizing d with
  | nil => exact ⟨rfl, (List.append_nil _).symm⟩
  | cons n ns ih =>
    obtain ⟨hne, hsep, hdot, hdd⟩ := hns n List.mem_cons_self
    have habs : isAbsolute n = false := isAbsolute_eq_false_of_sep_free hsep
    have hnormal : (normal n).names = [n] := by
      simp [normal, names_of_sep_free hsep, hne, pushName, hdot, hdd]
    obtain ⟨h₁, h₂⟩ := normal_append_of_contained d habs (by
      rw [hnormal, List.mem_singleton]
      exact Ne.symm hdd)
    obtain ⟨ih₁, ih₂⟩ := ih (append d n) fun m hm => hns m (List.mem_cons_of_mem n hm)
    refine ⟨ih₁.trans h₁, ih₂.trans ?_⟩
    rw [h₂, hnormal, List.append_assoc]
    rfl

/-! ### Below a directory -/

/-- The names of `x` after those of `y`, if `x` is `y` or below it. -/
def Normal.relativeTo (x y : Normal α) : Option (List (List α)) :=
  if x.abs = y.abs ∧ y.names <+: x.names then some (x.names.drop y.names.length) else none

omit [PathAlphabet α] in
theorem relativeTo_eq_some_iff {x y : Normal α} {r : List (List α)} :
    x.relativeTo y = some r ↔ x.abs = y.abs ∧ x.names = y.names ++ r := by
  unfold Normal.relativeTo
  constructor
  · intro h
    split at h
    · rename_i hpre
      cases h
      obtain ⟨t, ht⟩ := hpre.2
      refine ⟨hpre.1, ?_⟩
      rw [← ht, List.drop_left]
    · exact absurd h (by simp)
  · rintro ⟨habs, hnames⟩
    rw [if_pos ⟨habs, hnames ▸ List.prefix_append _ _⟩, hnames, List.drop_left]

/-- No `..` is left in an absolute path. -/
theorem dotdot_not_mem_normal {p : List α} (h : isAbsolute p = true) : dotdot ∉ (normal p).names := by
  have key : ∀ (ns st : List (List α)), dotdot ∉ st → dotdot ∉ ns.foldl (pushName true) st := by
    intro ns
    induction ns with
    | nil => exact fun st hst => hst
    | cons n ns ih =>
      intro st hst
      rw [List.foldl_cons]
      apply ih
      unfold pushName
      split
      · exact hst
      · split
        · cases st with
          | nil => simp
          | cons top rest =>
            have htop : top ≠ dotdot := fun ht => hst (by rw [ht]; exact List.mem_cons_self)
            simp only [htop, if_false]
            exact fun hrest => hst (List.mem_cons_of_mem top hrest)
        · rename_i hn
          intro hmem
          exact (List.mem_cons.mp hmem).elim (fun he => hn he.symm) hst
  simpa [normal, h] using key (names p) [] List.not_mem_nil

/-- **One component.**  A component appended to a directory leads to plain names below it only when these
are the component alone: an empty component and `.` lead nowhere new, `..` leads out. -/
theorem normal_append_component_iff (d : List α) {c : List α} (hc : sep ∉ c) {r : List (List α)}
    (hr : r ≠ []) (hplain : ∀ n ∈ r, Plain n) :
    (normal (append d c)).names = (normal d).names ++ r ↔ r = [c] := by
  have habs : isAbsolute c = false := isAbsolute_eq_false_of_sep_free hc
  have hnames : (normal (append d c)).names =
      ((names c).foldl (pushName (isAbsolute d)) (normal d).names.reverse).reverse := by
    simp only [normal, isAbsolute_append_of_relative d habs, names_append_of_relative habs,
      List.foldl_append, List.reverse_reverse]
  have hsame : (normal d).names ≠ (normal d).names ++ r := by
    intro h
    exact hr (List.append_right_eq_self.mp h.symm)
  by_cases hnil : c = []
  · rw [hnames, hnil, names_nil, List.foldl_nil, List.reverse_reverse]
    refine ⟨fun h => absurd h hsame, fun h => ?_⟩
    exact absurd rfl (hplain [] (by rw [h]; exact List.mem_cons_self)).1
  rw [hnames, names_of_sep_free hc, if_neg hnil, List.foldl_cons, List.foldl_nil]
  by_cases hdot : c = [dot]
  · unfold pushName
    rw [if_pos hdot, List.reverse_reverse]
    refine ⟨fun h => absurd h hsame, fun h => ?_⟩
    exact absurd hdot (hplain c (by rw [h]; exact List.mem_cons_self)).2.2.1
  by_cases hdd : c = dotdot
  · refine ⟨fun h => ?_, fun h => ?_⟩
    · subst hdd
      rcases hst : (normal d).names.reverse with - | ⟨top, rest⟩
      · rw [hst, List.reverse_eq_nil_iff.mp hst, List.nil_append, pushName_dotdot_nil] at h
        by_cases habsd : isAbsolute d = true
        · rw [if_pos habsd] at h
          exact absurd h.symm hr
        · rw [if_neg habsd] at h
          exact h.symm
      · have hd : (normal d).names = rest.reverse ++ [top] := by
          rw [← List.reverse_reverse (normal d).names, hst, List.reverse_cons]
        rw [hst, pushName_dotdot_cons, hd] at h
        by_cases htop : top = dotdot
        · rw [if_pos htop, List.reverse_cons, List.reverse_cons, List.append_cancel_left_eq] at h
          exact h.symm
        · rw [if_neg htop] at h
          have hlen := congrArg List.length h
          simp only [List.length_append, List.length_cons] at hlen
          omega
    · exact absurd hdd (hplain c (by rw [h]; exact List.mem_cons_self)).2.2.2
  · have hpush : pushName (isAbsolute d) (normal d).names.reverse c = c :: (normal d).names.reverse :=
      pushName_plain ⟨hnil, hc, hdot, hdd⟩ _ _
    rw [hpush, List.reverse_cons, List.reverse_reverse, List.append_cancel_left_eq, eq_comm]

end LexicalNormal
