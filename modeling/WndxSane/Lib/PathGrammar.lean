import Mathlib.Data.List.DropRight
import Mathlib.Tactic.Common

/-!
# The POSIX path grammar

Generic pathnames without root names, over any alphabet with a separator and a dot.  A pathname is a
string; its *elements* are the root directory (if it starts with a separator), its file names, and one
final empty element when a separator follows the last name.  `filename`, `parentPath`, `append`
(`operator/`) and `concat` (`operator+=`) are the string operations of `std::filesystem::path`; two
pathnames are the same path when their elements agree.

* `names_append_sep`, `names_of_sep_free` reduce every fact about names to cutting at a separator.
* **`elements_append_parentPath_filename`**: appending the file name to the parent path gives back the
  path, for every shape of path.
* `names_eq_parentPath_append`: what taking the parent path does to the names.
-/

namespace PathGrammar

/-- An alphabet for pathnames. -/
class PathAlphabet (α : Type*) where
  sep : α
  dot : α
  dot_ne_sep : dot ≠ sep

open PathAlphabet

variable {α : Type*} [DecidableEq α] [PathAlphabet α]

/-- The path starts at the root directory. -/
def isAbsolute (p : List α) : Bool := decide (p.head? = some sep)

def endsInSep (p : List α) : Bool := decide (p.getLast? = some sep)

/-- The file names of a path: the nonempty pieces between separators. -/
def names (p : List α) : List (List α) := (p.splitOn sep).filter (· ≠ [])

/-- The elements a path is iterated by and compared by. -/
def elements (p : List α) : List (List α) :=
  (if isAbsolute p then [[sep]] else []) ++ names p ++
    (if names p ≠ [] ∧ endsInSep p then [[]] else [])

/-- The last element, unless it is the root directory; empty when a separator ends the path. -/
def filename (p : List α) : List α := p.rtakeWhile (· ≠ sep)

/-- What is left of a path once its last name is cut off: separators go too, unless only the root
directory would remain. -/
def trimRoot (q : List α) : List α := if names q = [] then q else q.rdropWhile (· = sep)

/-- The longest prefix with one element less; the path itself when it has no relative part. -/
def parentPath (p : List α) : List α :=
  if names p = [] then p else trimRoot (p.rdropWhile (· ≠ sep))

/-- `operator/`: an absolute right side replaces the left, otherwise a separator is put between them
when the left side has a file name. -/
def append (p q : List α) : List α :=
  if isAbsolute q then q else if filename p = [] then p ++ q else p ++ sep :: q

/-- `operator+=`: plain concatenation of the strings. -/
def concat (p q : List α) : List α := p ++ q

/-! ### Cutting a string at separators -/

@[simp] theorem names_nil : names ([] : List α) = [] := by
  simp [names, List.splitOn_nil]

theorem names_append_sep (p q : List α) : names (p ++ sep :: q) = names p ++ names q := by
  simp only [names, List.splitOn_append_cons_self, List.filter_append]

theorem names_of_sep_free {f : List α} (h : sep ∉ f) :
    names f = if f = [] then [] else [f] := by
  rw [names, List.splitOn_eq_singleton h]
  by_cases hf : f = [] <;> simp [hf]

theorem names_concat_sep (p : List α) : names (p ++ [sep]) = names p := by
  rw [names_append_sep, names_nil, List.append_nil]

theorem names_append_replicate_sep (p : List α) (k : ℕ) :
    names (p ++ List.replicate k sep) = names p := by
  induction k with
  | zero => simp
  | succ k ih => rw [List.replicate_succ', ← List.append_assoc, names_concat_sep, ih]

/-- Names never contain the separator and are never empty. -/
theorem mem_names {p n : List α} (h : n ∈ names p) : n ≠ [] ∧ sep ∉ n := by
  have hne : n ≠ [] := by simpa using (List.mem_filter.mp h).2
  refine ⟨hne, ?_⟩
  have hmem : n ∈ p.splitOn sep := (List.mem_filter.mp h).1
  clear h
  induction p generalizing n with
  | nil => simp [List.splitOn_nil] at hmem; exact absurd hmem hne
  | cons c p ih =>
    rw [List.splitOn_cons_eq_if_modifyHead] at hmem
    split at hmem
    · rcases List.mem_cons.mp hmem with rfl | hmem
      · exact absurd rfl hne
      · exact ih hne hmem
    · rename_i hc
      obtain ⟨m, ms, hms⟩ := List.exists_cons_of_ne_nil (List.splitOn_ne_nil sep p)
      rw [hms, List.modifyHead_cons] at hmem
      have hc' : c ≠ sep := by simpa using hc
      rcases List.mem_cons.mp hmem with rfl | hmem
      · by_cases hm : m = []
        · subst hm; simpa using Ne.symm hc'
        · have := ih hm (by rw [hms]; exact List.mem_cons_self)
          simp only [List.mem_cons, not_or]
          exact ⟨Ne.symm hc', this⟩
      · exact ih hne (by rw [hms]; exact List.mem_cons_of_mem m hmem)

/-! ### File name and stem -/

/-- The file name is free of separators. -/
theorem sep_not_mem_filename (p : List α) : (sep : α) ∉ filename p := by
  intro h
  have := List.mem_rtakeWhile_imp h
  simp at this

/-- A path is what precedes its file name, followed by the file name. -/
theorem stem_append_filename (p : List α) : p.rdropWhile (· ≠ sep) ++ filename p = p :=
  List.rdropWhile_append_rtakeWhile

/-- What precedes the file name is empty or ends in a separator. -/
theorem stem_eq_nil_or_concat (p : List α) :
    p.rdropWhile (· ≠ sep) = [] ∨ ∃ q, p.rdropWhile (· ≠ sep) = q ++ [sep] := by
  rcases List.eq_nil_or_concat (p.rdropWhile (· ≠ sep)) with h | ⟨q, c, h⟩
  · exact Or.inl h
  · refine Or.inr ⟨q, ?_⟩
    have hne : p.rdropWhile (· ≠ sep) ≠ [] := by rw [h]; simp
    have hlast := List.rdropWhile_last_not (fun x : α => decide (x ≠ sep)) p hne
    simp only [h, List.concat_eq_append, List.getLast_append_singleton] at hlast
    have hc : c = sep := by simpa using hlast
    rw [h, hc, List.concat_eq_append]

theorem filename_eq_nil_iff (p : List α) : filename p = [] ↔ p = [] ∨ endsInSep p := by
  rcases List.eq_nil_or_concat p with rfl | ⟨q, c, rfl⟩
  · simp [filename]
  · by_cases hc : c = sep <;> simp [filename, endsInSep, hc]

theorem stem_concat_sep (p : List α) : (p ++ [sep]).rdropWhile (· ≠ sep) = p ++ [sep] :=
  List.rdropWhile_concat_neg _ _ _ (by simp)

theorem filename_concat_sep (p : List α) : filename (p ++ [sep]) = [] :=
  (filename_eq_nil_iff _).mpr (Or.inr (by simp [endsInSep]))

theorem names_stem_append {q f : List α} (hq : q = [] ∨ ∃ r, q = r ++ [sep]) :
    names (q ++ f) = names q ++ names f := by
  rcases hq with rfl | ⟨r, rfl⟩
  · simp
  · rw [names_concat_sep, List.append_assoc, List.singleton_append, names_append_sep]

/-- The names of a path are those before its file name, then the file name if there is one. -/
theorem names_eq_stem (p : List α) :
    names p = names (p.rdropWhile (· ≠ sep)) ++ if filename p = [] then [] else [filename p] := by
  conv_lhs => rw [← stem_append_filename p]
  rw [names_stem_append (stem_eq_nil_or_concat p), names_of_sep_free (sep_not_mem_filename p)]

theorem filename_eq_nil_of_names {p : List α} (h : names p = []) : filename p = [] := by
  by_contra hf
  rw [names_eq_stem, if_neg hf] at h
  exact absurd h (by simp)

/-! ### Runs of separators at the end -/

theorem rdropSep_concat_sep (p : List α) :
    (p ++ [sep]).rdropWhile (· = sep) = p.rdropWhile (· = sep) :=
  List.rdropWhile_concat_pos _ _ _ (by simp)

/-- Cutting the separators off the end leaves the path up to a run of separators. -/
theorem rdropSep_append (p : List α) :
    ∃ k, p.rdropWhile (· = sep) ++ List.replicate k sep = p := by
  induction p using List.reverseRecOn with
  | nil => exact ⟨0, by simp⟩
  | append_singleton p c ih =>
    by_cases hc : c = sep
    · obtain ⟨k, hk⟩ := ih
      refine ⟨k + 1, ?_⟩
      rw [List.rdropWhile_concat_pos _ _ _ (by simpa using hc), List.replicate_succ',
        ← List.append_assoc, hk, hc]
    · refine ⟨0, ?_⟩
      rw [List.rdropWhile_concat_neg _ _ _ (by simpa using hc)]
      simp

theorem names_rdropSep (p : List α) : names (p.rdropWhile (· = sep)) = names p := by
  obtain ⟨k, hk⟩ := rdropSep_append p
  conv_rhs => rw [← hk, names_append_replicate_sep]

theorem endsInSep_rdropSep (p : List α) : endsInSep (p.rdropWhile (· = sep)) = false := by
  induction p using List.reverseRecOn with
  | nil => simp [endsInSep]
  | append_singleton p c ih =>
    by_cases hc : c = sep
    · rw [List.rdropWhile_concat_pos _ _ _ (by simpa using hc)]
      exact ih
    · rw [List.rdropWhile_concat_neg _ _ _ (by simpa using hc)]
      simp [endsInSep, hc]

/-- A path without names is a run of separators. -/
theorem eq_replicate_of_names {p : List α} (h : names p = []) : ∃ k, p = List.replicate k sep := by
  obtain ⟨k, hk⟩ := rdropSep_append p
  have hfile := filename_eq_nil_of_names ((names_rdropSep p).trans h)
  rw [filename_eq_nil_iff, endsInSep_rdropSep] at hfile
  have hnil := hfile.resolve_right Bool.false_ne_true
  exact ⟨k, by rw [← hk, hnil, List.nil_append]⟩

/-- A path without names, but not empty, is the root directory. -/
theorem isAbsolute_of_names {p : List α} (h : names p = []) (hp : p ≠ []) : isAbsolute p = true := by
  obtain ⟨k, rfl⟩ := eq_replicate_of_names h
  cases k with
  | zero => exact absurd rfl hp
  | succ k => simp [isAbsolute, List.replicate_succ]

theorem isAbsolute_append {p : List α} (h : p ≠ []) (q : List α) :
    isAbsolute (p ++ q) = isAbsolute p := by
  cases p with
  | nil => exact absurd rfl h
  | cons c p => rfl

theorem isAbsolute_eq_false_of_sep_free {f : List α} (h : sep ∉ f) : isAbsolute f = false := by
  cases f with
  | nil => rfl
  | cons c f =>
    have hc : c ≠ sep := fun hc => h (by rw [hc]; exact List.mem_cons_self)
    simp [isAbsolute, hc]

theorem endsInSep_append {f : List α} (h : f ≠ []) (q : List α) :
    endsInSep (q ++ f) = endsInSep f := by
  obtain ⟨g, c, rfl⟩ := (List.eq_nil_or_concat f).resolve_left h
  simp [endsInSep, ← List.append_assoc]

/-! ### Parent path and file name put together -/

/-- The two ways a path ends: nothing but the root directory before the file name, or a nonempty
parent, a run of separators and the file name. -/
theorem parentPath_shape {p : List α} (h : names p ≠ []) :
    (names (p.rdropWhile (· ≠ sep)) = [] ∧ parentPath p ++ filename p = p ∧
        filename (parentPath p) = [] ∧ filename p ≠ []) ∨
      (names (parentPath p) ≠ [] ∧ endsInSep (parentPath p) = false ∧
        ∃ k, parentPath p ++ sep :: (List.replicate k sep ++ filename p) = p) := by
  by_cases hq : names (p.rdropWhile (· ≠ sep)) = []
  · left
    have hpar : parentPath p = p.rdropWhile (· ≠ sep) := by
      rw [parentPath, if_neg h, trimRoot, if_pos hq]
    have hf : filename p ≠ [] := by
      intro hf
      rw [names_eq_stem, hq, if_pos hf] at h
      exact h rfl
    refine ⟨hq, ?_, ?_, hf⟩
    · rw [hpar]
      exact stem_append_filename p
    · rw [hpar]
      exact filename_eq_nil_of_names hq
  · right
    have hpar : parentPath p = (p.rdropWhile (· ≠ sep)).rdropWhile (· = sep) := by
      rw [parentPath, if_neg h, trimRoot, if_neg hq]
    obtain ⟨k, hk⟩ := rdropSep_append (p.rdropWhile (· ≠ sep))
    refine ⟨?_, ?_, ?_⟩
    · rw [hpar, names_rdropSep]
      exact hq
    · rw [hpar]
      exact endsInSep_rdropSep _
    · -- the stem ends in a separator, so at least one was cut off
      cases k with
      | zero =>
        rw [List.replicate_zero, List.append_nil] at hk
        have hend := endsInSep_rdropSep (p.rdropWhile (· ≠ sep))
        rw [hk] at hend
        rcases stem_eq_nil_or_concat p with hnil | ⟨q, hq'⟩
        · rw [hnil] at hq
          exact absurd names_nil hq
        · rw [hq'] at hend
          simp [endsInSep] at hend
      | succ k =>
        refine ⟨k, ?_⟩
        rw [hpar]
        conv_rhs => rw [← stem_append_filename p, ← hk]
        rw [List.replicate_succ]
        simp

/-- **Decomposition.**  A path is its parent path with its file name appended, element by element:
trailing separators, root directories, repeated separators and empty paths included. -/
theorem elements_append_parentPath_filename (p : List α) :
    elements (append (parentPath p) (filename p)) = elements p := by
  have habs : isAbsolute (filename p) = false :=
    isAbsolute_eq_false_of_sep_free (sep_not_mem_filename p)
  by_cases h : names p = []
  · have hf := filename_eq_nil_of_names h
    have hpar : parentPath p = p := by rw [parentPath, if_pos h]
    rw [append, habs, hpar, hf]
    simp
  · rcases parentPath_shape h with ⟨-, hp, hfp, -⟩ | ⟨hn, hend, k, hp⟩
    · rw [append, habs, hfp]
      simp [hp]
    · have hfne : filename (parentPath p) ≠ [] := by
        rw [Ne, filename_eq_nil_iff, hend]
        rintro (hnil | hfalse)
        · rw [hnil] at hn
          exact hn names_nil
        · exact Bool.noConfusion hfalse
      have hpne : parentPath p ≠ [] := fun hnil => by rw [hnil] at hn; exact hn names_nil
      have happ : append (parentPath p) (filename p) = parentPath p ++ sep :: filename p := by
        rw [append, habs, if_neg (by simp), if_neg hfne]
      have hnames : names (parentPath p ++ sep :: filename p) = names p := by
        conv_rhs => rw [← hp]
        rw [names_append_sep, names_append_sep]
        congr 1
        cases k with
        | zero => simp
        | succ k =>
          rw [List.replicate_succ', List.append_assoc, List.singleton_append, names_append_sep]
          have := names_append_replicate_sep ([] : List α) k
          rw [List.nil_append, names_nil] at this
          rw [this, List.nil_append]
      have hisabs : isAbsolute (parentPath p ++ sep :: filename p) = isAbsolute p := by
        conv_rhs => rw [← hp]
        rw [isAbsolute_append hpne, isAbsolute_append hpne]
      have hends : endsInSep (parentPath p ++ sep :: filename p) = endsInSep p := by
        by_cases hf : filename p = []
        · have hpe : endsInSep p = true := by
            rcases (filename_eq_nil_iff p).mp hf with hnil | he
            · rw [hnil] at h
              exact absurd names_nil h
            · exact he
          rw [hf, hpe]
          simp [endsInSep]
        · conv_rhs => rw [← stem_append_filename p]
          rw [endsInSep_append hf,
            show parentPath p ++ sep :: filename p = (parentPath p ++ [sep]) ++ filename p by simp,
            endsInSep_append hf]
      rw [happ]
      simp only [elements, hnames, hisabs, hends]

/-- For a path that ends in a name, the parent path has all names but that one, and itself ends in no
separator unless it is the root directory. -/
theorem names_eq_parentPath_append {p : List α} (hf : filename p ≠ []) :
    names p = names (parentPath p) ++ [filename p] ∧
      (names (parentPath p) = [] ∨ endsInSep (parentPath p) = false) := by
  have hn : names p ≠ [] := fun h => hf (filename_eq_nil_of_names h)
  have hstem := names_eq_stem p
  rw [if_neg hf] at hstem
  by_cases hq : names (p.rdropWhile (· ≠ sep)) = []
  · have hpar : parentPath p = p.rdropWhile (· ≠ sep) := by
      rw [parentPath, if_neg hn, trimRoot, if_pos hq]
    rw [hpar]
    exact ⟨hstem, Or.inl hq⟩
  · have hpar : parentPath p = (p.rdropWhile (· ≠ sep)).rdropWhile (· = sep) := by
      rw [parentPath, if_neg hn, trimRoot, if_neg hq]
    rw [hpar, names_rdropSep]
    exact ⟨hstem, Or.inr (endsInSep_rdropSep _)⟩

end PathGrammar
