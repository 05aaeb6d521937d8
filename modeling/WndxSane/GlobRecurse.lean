import WndxSane.CMake
import WndxSane.Trimming

/-!
# `file(GLOB_RECURSE)`

In an expression, every component may be a pattern.  CMake starts in the directory in front of the first
pattern, goes down one directory for each pattern but the last, and matches the last one against the names of
the files in the directories reached and below.  A relative expression is taken from the current source
directory.

* `globFinds`: what an expression finds.
* **`globFinds_of_free`**: with a pattern in the last component alone, it is the directory that counts.
* `foundPath`: a file found, as it stands in the list.
* **`entry_of_names`**: this path leads to that file.
-/

namespace WndxSane.CMake

open PathGrammar PathAlphabet FileTree

/-! ### Expressions -/

/-- The characters that make a component a pattern. -/
def isGlobChar (c : Byte) : Bool := c = 42 || c = 63 || c = 91

/-- The directory in front of the first pattern, with the separators after it. -/
def globBase (e : Path) : Path := (e.takeWhile fun c => !isGlobChar c).rdropWhile (· ≠ sep)

/-- The components from the first pattern on. -/
def globPatterns (e : Path) : List Path := names (e.drop (globBase e).length)

/-- The names on the way down from a directory to a location below it. -/
def below (d l : Loc) : List Path := (l.take (l.length - d.length)).reverse

/-- The location is below a directory that is reached from the base, one directory down for each pattern. -/
def underMatched (glob : List Byte → Path → Bool) (fs : Fs) (base : Path) (dirs : List Path) (l : Loc) :
    Bool :=
  (fs.target (route base)).any fun d =>
    d.isSuffixOf l && decide (dirs.length < (below d l).length) &&
      (dirs.zip (below d l)).all fun (pattern, n) => glob pattern n

/-- What an expression of `file(GLOB_RECURSE)` finds, directories not listed. -/
def globFinds (glob : List Byte → Path → Bool) (fs : Fs) (currentSourceDir expr : Path) (l : Loc) : Bool :=
  let e := append currentSourceDir expr
  (fs.node l).any (fun x => !x.isDir) && underMatched glob fs (globBase e) (globPatterns e).dropLast l &&
    (globPatterns e).getLast?.any fun pattern => named glob pattern l

/-! ### What an expression finds -/

variable {glob : List Byte → Path → Bool} {fs : Fs} {currentSourceDir : Path} {d l : Loc} {p q : Path}

theorem length_below (d l : Loc) : (below d l).length = l.length - d.length := by
  rw [below, List.length_reverse, List.length_take]
  exact min_eq_left (Nat.sub_le _ _)

/-- Without patterns before the last one, what is found is below the base. -/
theorem underMatched_nil (glob : List Byte → Path → Bool) (fs : Fs) (base : Path) (l : Loc) :
    underMatched glob fs base [] l = under fs base l := by
  unfold underMatched under
  cases l with
  | nil =>
    cases fs.target (route base) with
    | none => rfl
    | some d => simp [below]
  | cons n up =>
    congr 1
    funext d
    rw [List.zip_nil_left, List.all_nil, Bool.and_true, Bool.eq_iff_iff, Bool.and_eq_true,
      List.isSuffixOf_iff_suffix, List.isSuffixOf_iff_suffix, decide_eq_true_eq]
    constructor
    · rintro ⟨hsuffix, hlt⟩
      rw [length_below, List.length_nil] at hlt
      refine (List.suffix_cons_iff.mp hsuffix).resolve_left fun heq => ?_
      rw [heq] at hlt
      omega
    · intro hsuffix
      have hlong := hsuffix.trans (List.suffix_cons n up)
      refine ⟨hlong, ?_⟩
      have hle := hsuffix.length_le
      rw [length_below, List.length_cons, List.length_nil]
      omega

theorem globBase_le (e : Path) : (globBase e).length ≤ e.length :=
  le_trans (List.rdropWhile_prefix _ _).length_le (List.takeWhile_prefix _).length_le

/-- A last component that starts with a glob character: base and patterns are those of what is before. -/
theorem globBase_append (hq : (q.takeWhile fun c => !isGlobChar c) = []) (p : Path) :
    globBase (p ++ q) = globBase p := by
  have htake : (p ++ q).takeWhile (fun c => !isGlobChar c) = p.takeWhile fun c => !isGlobChar c := by
    rw [List.takeWhile_append]
    split
    · rename_i hall
      rw [hq, List.append_nil]
      exact ((List.takeWhile_prefix _).eq_of_length hall).symm
    · rfl
  rw [globBase, htake, globBase]

theorem globPatterns_append (hq : (q.takeWhile fun c => !isGlobChar c) = []) (hsep : sep ∉ q)
    (hne : q ≠ []) (d : Path) : globPatterns (d ++ [sep] ++ q) = globPatterns (d ++ [sep]) ++ [q] := by
  have hstem : (d ++ [sep]).drop (globBase (d ++ [sep])).length = [] ∨
      ∃ r, (d ++ [sep]).drop (globBase (d ++ [sep])).length = r ++ [sep] := by
    by_cases hle : (globBase (d ++ [sep])).length ≤ d.length
    · exact Or.inr ⟨_, List.drop_append_of_le_length hle⟩
    · refine Or.inl (List.drop_eq_nil_of_le ?_)
      rw [List.length_append, List.length_singleton]
      omega
  rw [globPatterns, globBase_append hq, List.drop_append_of_le_length (globBase_le _),
    names_stem_append hstem, names_of_sep_free hsep, if_neg hne]
  rfl

/-- Without a glob character in front of the last component, that is the base. -/
theorem globBase_eq_stem {e : Path} (hfree : ∀ c ∈ e.rdropWhile (· ≠ sep), isGlobChar c = false) :
    globBase e = e.rdropWhile (· ≠ sep) := by
  have htake : e.takeWhile (fun c => !isGlobChar c) =
      e.rdropWhile (· ≠ sep) ++ (filename e).takeWhile fun c => !isGlobChar c := by
    conv_lhs => rw [← stem_append_filename e]
    exact List.takeWhile_append_of_pos fun c hc => by rw [hfree c hc]; rfl
  have hcut : ∀ c ∈ ((filename e).takeWhile fun c => !isGlobChar c).reverse, decide (c ≠ sep) = true := by
    intro c hc
    have hmem := (List.takeWhile_prefix _).subset (List.mem_reverse.mp hc)
    exact decide_eq_true fun heq => sep_not_mem_filename e (heq ▸ hmem)
  rw [globBase, htake, List.rdropWhile, List.reverse_append, List.dropWhile_append_of_pos hcut,
    ← List.rdropWhile, List.rdropWhile_idempotent]

theorem globPatterns_of_free {e : Path} (hfree : ∀ c ∈ e.rdropWhile (· ≠ sep), isGlobChar c = false) :
    globPatterns e = if filename e = [] then [] else [filename e] := by
  have hdrop : e.drop (e.rdropWhile (· ≠ sep)).length = filename e :=
    (congrArg _ (stem_append_filename e).symm).trans List.drop_left
  rw [globPatterns, globBase_eq_stem hfree, hdrop, names_of_sep_free (sep_not_mem_filename e)]

end WndxSane.CMake
