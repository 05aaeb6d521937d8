import WndxSane.GlobRecurse

/-!
# Which headers are collected

Without a list of headers, `wndx_sane_create_targets` has CMake find them: `PHD` followed by `/*.h` is an
expression of `file(GLOB_RECURSE)`, put together as a string, while the directory that was checked before is
put together by `cmake_path(APPEND)`.

The list is taken as the files that are found; how CMake writes their names into one value does not come into it.

* `inHeadersList_iff`: the headers found are those in the directories that `PHD`, as an expression, stands for.
* **`headers_inside_iff`**: when they are the headers below the directory that was checked.
-/

namespace WndxSane.CMake

open PathGrammar PathAlphabet FileTree

/-! ### Headers -/

/-- The last components of the expressions. -/
def headerPatterns : List Path := [bytes "*.h", bytes "*.hh", bytes "*.hpp"]

/-- `WNDX_SANE_HEADERS_LIST`, without `HFILES`: the files that one of the expressions finds. -/
def inHeadersList (glob : List Byte → Path → Bool) (fs : Fs) (currentSourceDir : Path) (phd : OneValue)
    (l : Loc) : Bool :=
  [phd.value ++ bytes "/*.h", phd.value ++ bytes "/*.hh", phd.value ++ bytes "/*.hpp"].any fun e =>
    globFinds glob fs currentSourceDir e l

/-- A header: a file with a name that matches. -/
def isHeader (glob : List Byte → Path → Bool) (fs : Fs) (l : Loc) : Bool :=
  (fs.node l).any (fun x => !x.isDir) && headerPatterns.any fun pattern => named glob pattern l

/-- The headers collected are those below the directory that was checked. -/
def HeadersInside (glob : List Byte → Path → Bool) (fs : Fs) (currentSourceDir : Path) (phd : OneValue) :
    Prop :=
  ∀ l, inHeadersList glob fs currentSourceDir phd l = true ↔
    isHeader glob fs l = true ∧ under fs (phdWPrefix currentSourceDir phd.value) l = true

/-! ### What an expression finds -/

variable {glob : List Byte → Path → Bool} {fs : Fs} {currentSourceDir : Path} {phd : OneValue}
  {d l : Loc} {p q : Path}

/-- The location is in a directory that a path stands for as part of an expression, or below. -/
def inMatched (glob : List Byte → Path → Bool) (fs : Fs) (d : Path) (l : Loc) : Bool :=
  underMatched glob fs (globBase (d ++ [sep])) (globPatterns (d ++ [sep])) l

/-- What is found by a pattern for names after a directory. -/
theorem globFinds_eq {d expr : Path} (hexpr : append currentSourceDir expr = d ++ [sep] ++ q)
    (hq : (q.takeWhile fun c => !isGlobChar c) = []) (hsep : sep ∉ q) (hne : q ≠ []) :
    globFinds glob fs currentSourceDir expr l =
      ((fs.node l).any (fun x => !x.isDir) && inMatched glob fs d l && named glob q l) := by
  rw [globFinds, hexpr, globBase_append hq, globPatterns_append hq hsep hne, List.dropLast_concat,
    List.getLast?_concat, Option.any_some, inMatched]

/-! ### What is in the list -/

/-- The directory that the expressions name. -/
def exprDir (currentSourceDir phd : Path) : Path :=
  if phd = [] then [] else phdWPrefix currentSourceDir phd

/-- An expression, as CMake takes it: from the root directory where `PHD` is empty. -/
theorem append_expr (currentSourceDir phd q : Path) :
    append currentSourceDir (phd ++ sep :: q) = exprDir currentSourceDir phd ++ [sep] ++ q := by
  by_cases hphd : phd = []
  · have habs : isAbsolute (sep :: q) = true := by simp [isAbsolute]
    rw [exprDir, if_pos hphd, hphd, List.nil_append, List.nil_append, append, if_pos habs]
    rfl
  · have habs : isAbsolute (phd ++ sep :: q) = isAbsolute phd := isAbsolute_append hphd _
    rw [exprDir, if_neg hphd, phdWPrefix_eq, append, append, habs]
    split_ifs <;> simp

/-- **The headers found** are those in the directories that `PHD`, as an expression, stands for. -/
theorem inHeadersList_iff :
    inHeadersList glob fs currentSourceDir phd l = true ↔
      isHeader glob fs l = true ∧ inMatched glob fs (exprDir currentSourceDir phd.value) l = true := by
  have hone : ∀ q ∈ headerPatterns, globFinds glob fs currentSourceDir (phd.value ++ sep :: q) l =
      ((fs.node l).any (fun x => !x.isDir) &&
        inMatched glob fs (exprDir currentSourceDir phd.value) l && named glob q l) := by
    have hplain : ∀ q ∈ headerPatterns, (q.takeWhile fun c => !isGlobChar c) = [] ∧ sep ∉ q ∧ q ≠ [] := by
      decide
    intro q hq
    obtain ⟨htake, hsep, hne⟩ := hplain q hq
    exact globFinds_eq (append_expr currentSourceDir phd.value q) htake hsep hne
  have hexprs : [phd.value ++ bytes "/*.h", phd.value ++ bytes "/*.hh", phd.value ++ bytes "/*.hpp"] =
      headerPatterns.map fun q => phd.value ++ sep :: q := rfl
  rw [inHeadersList, hexprs, List.any_map, isHeader]
  simp only [List.any_eq_true, Function.comp_apply, Bool.and_eq_true]
  constructor
  · rintro ⟨q, hq, hfound⟩
    rw [hone q hq] at hfound
    simp only [Bool.and_eq_true] at hfound
    exact ⟨⟨hfound.1.1, q, hq, hfound.2⟩, hfound.1.2⟩
  · rintro ⟨⟨hfile, q, hq, hname⟩, hdir⟩
    refine ⟨q, hq, ?_⟩
    rw [hone q hq, hfile, hdir, hname]
    rfl

/-! ### The directory that was checked -/

/-- A path without glob characters stands for the directory it leads to. -/
theorem inMatched_of_free (h : ∀ c ∈ p, isGlobChar c = false) :
    inMatched glob fs p l = under fs (p ++ [sep]) l := by
  have hfree : ∀ c ∈ (p ++ [sep]).rdropWhile (· ≠ sep), isGlobChar c = false := by
    intro c hc
    rw [stem_concat_sep] at hc
    rcases List.mem_append.mp hc with hc | hc
    · exact h c hc
    · rw [List.mem_singleton.mp hc]
      decide
  rw [inMatched, globPatterns_of_free hfree, globBase_eq_stem hfree, if_pos (filename_concat_sep p),
    stem_concat_sep, underMatched_nil]

/-- An empty `PHD` stands for the root directory. -/
theorem inMatched_nil (h : isHeader glob fs l = true) : inMatched glob fs [] l = true := by
  have hroot : fs.target (route ([] ++ [sep])) = some [] := by
    have hroute : route ([] ++ [sep]) = ⟨true, []⟩ :=
      route_of_names ((names_concat_sep []).trans names_nil) (by simp)
    have hstop : fs.resolve ⟨true, []⟩ = some ([], []) :=
      (Tree.resolve_eq_some_iff ..).mpr ⟨fun h => Bool.noConfusion h.1, .stop⟩
    rw [hroute, Tree.target, hstop]
    rfl
  rw [inMatched_of_free (by simp)]
  cases l with
  | nil =>
    -- the root directory is no header
    rw [isHeader, Bool.and_eq_true] at h
    have hdir := fs.isDir_root
    unfold Tree.isDir at hdir
    cases hn : fs.node [] with
    | none =>
      rw [hn] at hdir
      exact Bool.noConfusion hdir
    | some x =>
      rw [hn, Option.any_some] at hdir
      rw [hn, Option.any_some, hdir] at h
      exact Bool.noConfusion h.1
  | cons n up =>
    rw [under, hroot]
    simp

theorem headersInside_iff_matched :
    HeadersInside glob fs currentSourceDir phd ↔ ∀ l, isHeader glob fs l = true →
      inMatched glob fs (exprDir currentSourceDir phd.value) l =
        under fs (phdWPrefix currentSourceDir phd.value) l := by
  unfold HeadersInside
  simp only [inHeadersList_iff]
  refine forall_congr' fun l => ?_
  rw [and_congr_right_iff]
  exact imp_congr_right fun _ => Bool.eq_iff_iff.symm

/-- **Headers inside.**  Let `PHD` pass the checks.  The headers collected are those below the directory that
was checked if and only if two things hold.  If `PHD` is empty, there is no header anywhere outside of the
source directory.  If it is not, and the path has glob characters, the directories that the path stands for as
an expression have the headers that the directory of that very name has. -/
theorem headers_inside_iff (hchecks : phdChecks fs currentSourceDir phd.value = true) :
    HeadersInside glob fs currentSourceDir phd ↔
      (phd.value = [] → ∀ l, isHeader glob fs l = true →
          under fs (phdWPrefix currentSourceDir phd.value) l = true) ∧
        (phd.value ≠ [] → (∃ c ∈ phdWPrefix currentSourceDir phd.value, isGlobChar c = true) →
          ∀ l, isHeader glob fs l = true →
            inMatched glob fs (phdWPrefix currentSourceDir phd.value) l =
              under fs (phdWPrefix currentSourceDir phd.value) l) := by
  rw [headersInside_iff_matched]
  by_cases hnil : phd.value = []
  · have hroot : ∀ l, isHeader glob fs l = true →
        inMatched glob fs (exprDir currentSourceDir phd.value) l = true := by
      intro l hl
      rw [exprDir, if_pos hnil, inMatched_nil hl]
    constructor
    · exact fun h => ⟨fun _ l hl => (h l hl).symm.trans (hroot l hl), fun hne => absurd hnil hne⟩
    · exact fun h l hl => (hroot l hl).trans (h.1 hnil l hl).symm
  · have hexpr : exprDir currentSourceDir phd.value = phdWPrefix currentSourceDir phd.value := by
      rw [exprDir, if_neg hnil]
    rw [hexpr]
    constructor
    · exact fun h => ⟨fun h' => absurd h' hnil, fun _ _ => h⟩
    · intro h l hl
      by_cases hglob : ∃ c ∈ phdWPrefix currentSourceDir phd.value, isGlobChar c = true
      · exact h.2 hnil hglob l hl
      · have hfree : ∀ c ∈ phdWPrefix currentSourceDir phd.value, isGlobChar c = false :=
          fun c hc => Bool.eq_false_iff.mpr fun hc' => hglob ⟨c, hc, hc'⟩
        have hdir := (Bool.and_eq_true_iff.mp hchecks).2
        rw [inMatched_of_free hfree]
        unfold under
        rw [target_concat_sep hdir]

/-- The source tree, and a header of the system. -/
def systemTree : Fs :=
  ((((((Tree.root 0o755 40).putDir [bytes "s"] 0o755).putDir [bytes "include", bytes "s"] 0o755).putFile
    [bytes "rc.hpp", bytes "include", bytes "s"] []).putDir [bytes "usr"] 0o755).putFile
    [bytes "stdio.h", bytes "usr"] [])

/-- The `PHD` `include`. -/
theorem headers_inside_of_include :
    HeadersInside wildcard systemTree (bytes "/s") ⟨bytes "include", false⟩ := by
  have hchecks : phdChecks systemTree (bytes "/s") (bytes "include") = true := by decide
  exact (headers_inside_iff hchecks).mpr ⟨fun h => absurd h (by decide), fun _ h => absurd h (by decide)⟩

/-- Without a `PHD`, the header of the system is collected. -/
theorem headers_of_system_collected :
    ¬ ∀ (glob : List Byte → Path → Bool) (fs : Fs) (currentSourceDir : Path) (phd : OneValue),
      phdChecks fs currentSourceDir phd.value = true → HeadersInside glob fs currentSourceDir phd := by
  intro h
  have hinside := (h wildcard systemTree (bytes "/s") ⟨[], true⟩ (by decide)
    [bytes "stdio.h", bytes "usr"]).mp (by decide)
  exact absurd hinside.2 (by decide)

end WndxSane.CMake
