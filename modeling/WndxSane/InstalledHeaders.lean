import WndxSane.CMake

/-!
# Where the installed headers are found

`wndx_sane_create_targets` fixes the include directory of the build tree, `wndx_sane_install` copies the
public header directory `PHD` to the include directory of the installed package, under its last component.

The patterns of the headers are passed to the rule as one argument, the whole list as a single glob.

* `InstallDirectory`: the rule `install(DIRECTORY)`, the files it copies and where to.
* **`include_path_eq_iff`**: a header is included by the same path from both if and only if `PHD` is
  directly below the include directory and ends in its own name.
* **`installs_patterns_iff`**: for which lists of patterns and trees the files that match are those copied.
-/

namespace WndxSane.CMake

open PathGrammar PathAlphabet LexicalNormal FileTree

/-! ### The install rule -/

/-- `install(DIRECTORY dir DESTINATION destination FILES_MATCHING PATTERN pattern)`. -/
structure InstallDirectory where
  directory : Path
  destination : Path
  pattern : List Byte

/-- The file `sub` below the directory is copied: there is something there but a directory, and its name
matches the pattern.  A relative directory is taken from the current source directory. -/
def InstallDirectory.copies (rule : InstallDirectory) (glob : List Byte → Path → Bool) (fs : Fs)
    (currentSourceDir : Path) (sub : List Path) : Bool :=
  sub.all (fun n => decide (Plain n)) && sub.getLast?.any (glob rule.pattern) &&
    (fs.target (route (append currentSourceDir rule.directory))).any fun l =>
      (fs.node (sub.reverse ++ l)).any fun x => !x.isDir

/-- Where it is copied to: the last component of the directory goes along, unless a separator ends it. -/
def InstallDirectory.copyOf (rule : InstallDirectory) (sub : List Path) : Path :=
  sub.foldl append (append rule.destination (filename rule.directory))

/-- `arg_PHD` of `wndx_sane_install`, the default filled in. -/
def installPhd (projectName : Path) (phd : OneValue) : Path :=
  if isFalseConstant phd.value || phd.missing then
    append (append phd.value (bytes "include")) projectName
  else phd.value

/-- `arg_PATTERNS` of `wndx_sane_install`, the default filled in. -/
def installPatterns (patterns : List (List Byte)) : List (List Byte) :=
  if isFalseConstant (quoted patterns) then [bytes "*.hpp", bytes "*.h", bytes "*.hh"] else patterns

/-- The rule for the headers in `wndx_sane_install`. -/
def installHeaders (projectName installIncludedir : Path) (phd : OneValue)
    (patterns : List (List Byte)) : InstallDirectory where
  directory := installPhd projectName phd
  destination := installIncludedir
  pattern := quoted (installPatterns patterns)

/-! ### Include paths -/

/-- The header at `PHD/sub`. -/
def headerAt (currentSourceDir phd : Path) (sub : List Path) : Path :=
  sub.foldl append (phdWPrefix currentSourceDir phd)

/-- A `PHD` that passes the checks of both functions and is at `rel` below the include directory. -/
structure Accepted (fs : Fs) (currentSourceDir projectName : Path) (phd : OneValue)
    (rel : List Path) : Prop where
  full : isAbsolute currentSourceDir = true
  createTargets : phdChecks fs currentSourceDir phd.value = true
  install : phdChecks fs currentSourceDir (installPhd projectName phd) = true
  below : (normal (phdWPrefix currentSourceDir (installPhd projectName phd))).relativeTo
    (curIncDir currentSourceDir) = some rel
  deeper : rel ≠ []

variable {fs : Fs} {currentSourceDir projectName installIncludedir : Path} {phd : OneValue}
  {rel sub : List Path} {patterns : List (List Byte)} {glob : List Byte → Path → Bool}

theorem isAbsolute_phdWPrefix (h : isAbsolute currentSourceDir = true) (p : Path) :
    isAbsolute (phdWPrefix currentSourceDir p) = true := by
  rw [phdWPrefix_eq]
  cases hp : isAbsolute p with
  | true => rw [append, if_pos hp, hp]
  | false => rw [isAbsolute_append_of_relative _ hp, h]

/-- What is left below the include directory has neither `.` nor `..`. -/
theorem Accepted.plain (h : Accepted fs currentSourceDir projectName phd rel) :
    ∀ n ∈ rel, Plain n := by
  intro n hn
  have hmem : n ∈ (normal (phdWPrefix currentSourceDir (installPhd projectName phd))).names := by
    rw [((relativeTo_eq_some_iff ..).mp h.below).2]
    exact List.mem_append_right _ hn
  refine (eq_dotdot_or_plain_of_mem_normal hmem).resolve_left fun hdd => ?_
  exact dotdot_not_mem_normal (isAbsolute_phdWPrefix h.full _) (hdd ▸ hmem)

theorem plain_of_copies {rule : InstallDirectory}
    (h : rule.copies glob fs currentSourceDir sub = true) : ∀ n ∈ sub, Plain n := by
  simp only [InstallDirectory.copies, Bool.and_eq_true, List.all_eq_true, decide_eq_true_eq] at h
  exact h.1.1

/-- The path to include a header by in the build tree. -/
theorem headerAt_relativeTo (h : Accepted fs currentSourceDir projectName phd rel)
    (hsub : ∀ n ∈ sub, Plain n) :
    (normal (headerAt currentSourceDir (installPhd projectName phd) sub)).relativeTo
      (curIncDir currentSourceDir) = some (rel ++ sub) := by
  obtain ⟨habs, hnames⟩ := (relativeTo_eq_some_iff ..).mp h.below
  obtain ⟨habs', hnames'⟩ :=
    normal_foldl_append (phdWPrefix currentSourceDir (installPhd projectName phd)) hsub
  refine (relativeTo_eq_some_iff ..).mpr ⟨habs'.trans habs, ?_⟩
  rw [headerAt, hnames', hnames, List.append_assoc]

/-- The path to include a header by in the installed package. -/
theorem copyOf_relativeTo_iff (rule : InstallDirectory) (hsub : ∀ n ∈ sub, Plain n) :
    (normal (rule.copyOf sub)).relativeTo (normal rule.destination) = some (rel ++ sub) ↔
      (normal (append rule.destination (filename rule.directory))).names =
        (normal rule.destination).names ++ rel := by
  obtain ⟨habs, hnames⟩ :=
    normal_foldl_append (append rule.destination (filename rule.directory)) hsub
  have hrelative := isAbsolute_eq_false_of_sep_free (sep_not_mem_filename rule.directory)
  have habs' : (normal (rule.copyOf sub)).abs = (normal rule.destination).abs :=
    habs.trans (isAbsolute_append_of_relative rule.destination hrelative)
  rw [relativeTo_eq_some_iff, InstallDirectory.copyOf, hnames, ← List.append_assoc,
    List.append_cancel_right_eq]
  exact ⟨fun h => h.2, fun h => ⟨habs', h⟩⟩

/-- **Include paths.**  Let `PHD` pass the checks of both functions and be somewhere below the include
directory.  A header that the install rule copies is included by the same path from the build tree and
from the installed package, if and only if `PHD` is directly below the include directory and ends in the
name it has there.  Both functions are taken to read the same `CMAKE_INSTALL_INCLUDEDIR`; in the first configuration
`wndx_sane_create_targets` reads it before `GNUInstallDirs` sets it. -/
theorem include_path_eq_iff (h : Accepted fs currentSourceDir projectName phd rel)
    (hsub : (installHeaders projectName installIncludedir phd patterns).copies glob fs
      currentSourceDir sub = true) :
    (normal (headerAt currentSourceDir (installPhd projectName phd) sub)).relativeTo
        (curIncDir currentSourceDir) =
      (normal ((installHeaders projectName installIncludedir phd patterns).copyOf sub)).relativeTo
        (normal installIncludedir) ↔
      rel = [filename (installPhd projectName phd)] := by
  have hplain := plain_of_copies hsub
  rw [headerAt_relativeTo h hplain, eq_comm]
  refine (copyOf_relativeTo_iff (installHeaders projectName installIncludedir phd patterns)
    hplain).trans ?_
  exact normal_append_component_iff installIncludedir (sep_not_mem_filename _) h.deeper h.plain

/-- A source tree `/s` with one header `include/wndx/sane/rc.hpp`, and one more in `include/wndx`. -/
def sourceTree : Fs :=
  (((((((Tree.root 0o755 40).putDir [bytes "s"] 0o755).putDir [bytes "include", bytes "s"] 0o755).putDir
    [bytes "wndx", bytes "include", bytes "s"] 0o755).putDir
    [bytes "sane", bytes "wndx", bytes "include", bytes "s"] 0o755).putFile
    [bytes "rc.hpp", bytes "sane", bytes "wndx", bytes "include", bytes "s"] []).putFile
    [bytes "all.hpp", bytes "wndx", bytes "include", bytes "s"] [])

/-- The header `all.hpp`, with the `PHD` `include/wndx`, is `wndx/all.hpp` in both. -/
theorem include_path_eq_of_one_level :
    (normal (headerAt (bytes "/s") (bytes "include/wndx") [bytes "all.hpp"])).relativeTo
        (curIncDir (bytes "/s")) =
      (normal ((installHeaders (bytes "wndx_sane") (bytes "include") ⟨bytes "include/wndx", false⟩
        [bytes "*.hpp"]).copyOf [bytes "all.hpp"])).relativeTo (normal (bytes "include")) := by
  have haccepted : Accepted sourceTree (bytes "/s") (bytes "wndx_sane") ⟨bytes "include/wndx", false⟩
      [bytes "wndx"] := ⟨by decide, by decide, by decide, by decide, by decide⟩
  have hcopies : (installHeaders (bytes "wndx_sane") (bytes "include") ⟨bytes "include/wndx", false⟩
      [bytes "*.hpp"]).copies (fun pattern name => (pattern.drop 1).isSuffixOf name) sourceTree
      (bytes "/s") [bytes "all.hpp"] = true := by decide
  exact (include_path_eq_iff haccepted hcopies).mpr (by decide)

/-- With the `PHD` of the project's own call, the header `wndx/sane/rc.hpp` is installed as
`sane/rc.hpp`. -/
theorem include_path_ne_of_two_levels :
    ¬ ∀ (glob : List Byte → Path → Bool) (fs : Fs) (currentSourceDir projectName : Path)
      (installIncludedir : Path) (phd : OneValue) (rel : List Path) (patterns : List (List Byte))
      (sub : List Path), Accepted fs currentSourceDir projectName phd rel →
      (installHeaders projectName installIncludedir phd patterns).copies glob fs currentSourceDir sub =
        true →
      (normal (headerAt currentSourceDir (installPhd projectName phd) sub)).relativeTo
          (curIncDir currentSourceDir) =
        (normal ((installHeaders projectName installIncludedir phd patterns).copyOf sub)).relativeTo
          (normal installIncludedir) := by
  intro h
  have hsame := h (fun pattern name => (pattern.drop 1).isSuffixOf name) sourceTree (bytes "/s")
    (bytes "wndx_sane") (bytes "include") ⟨bytes "include/wndx/sane", false⟩
    [bytes "wndx", bytes "sane"] [bytes "*.hpp"] [bytes "rc.hpp"]
    ⟨by decide, by decide, by decide, by decide, by decide⟩ (by decide)
  revert hsame
  decide

/-! ### Patterns -/

/-- There is a file `sub` below the directory of the rule, and its name is `name`. -/
structure InstallDirectory.Below (rule : InstallDirectory) (fs : Fs) (currentSourceDir : Path)
    (sub : List Path) (name : Path) : Prop where
  plain : ∀ n ∈ sub, Plain n
  file : (fs.target (route (append currentSourceDir rule.directory))).any (fun l =>
    (fs.node (sub.reverse ++ l)).any fun x => !x.isDir) = true
  name : sub.getLast? = some name

/-- The patterns that a call means. -/
def meantPatterns (patterns : List (List Byte)) : List (List Byte) :=
  if patterns = [] then [bytes "*.hpp", bytes "*.h", bytes "*.hh"] else patterns

/-- Of the files below `PHD`, those are copied that match one of the patterns. -/
def InstallsPatterns (glob : List Byte → Path → Bool) (fs : Fs)
    (currentSourceDir projectName installIncludedir : Path) (phd : OneValue)
    (patterns : List (List Byte)) : Prop :=
  let rule := installHeaders projectName installIncludedir phd patterns
  ∀ sub name, rule.Below fs currentSourceDir sub name →
    (rule.copies glob fs currentSourceDir sub = true ↔
      ∃ p ∈ meantPatterns patterns, glob p name = true)

theorem InstallDirectory.Below.copies_iff {rule : InstallDirectory} {name : Path}
    (h : rule.Below fs currentSourceDir sub name) :
    rule.copies glob fs currentSourceDir sub = true ↔ glob rule.pattern name = true := by
  have hplain : sub.all (fun n => decide (Plain n)) = true := by
    simpa [List.all_eq_true] using h.plain
  rw [InstallDirectory.copies, hplain, h.name, h.file, Option.any_some, Bool.true_and, Bool.and_true]

/-- The joined list decides what is copied. -/
theorem installsPatterns_iff_joined :
    InstallsPatterns glob fs currentSourceDir projectName installIncludedir phd patterns ↔
      ∀ sub name,
        (installHeaders projectName installIncludedir phd patterns).Below fs currentSourceDir sub name →
          (glob (quoted (installPatterns patterns)) name = true ↔
            ∃ p ∈ meantPatterns patterns, glob p name = true) := by
  unfold InstallsPatterns
  refine forall_congr' fun sub => forall_congr' fun name => forall_congr' fun h => ?_
  rw [h.copies_iff]
  rfl

/-- **Patterns.**  The install rule copies exactly the files below `PHD` that match one of the patterns, if
and only if the list of patterns put together with `;`, as a single glob, matches the same files as the
patterns do.  So it is for a single pattern, unless CMake takes it for false.  With several patterns, or with
none and the default in their place, without brackets and for names without `;`, so it is only where no file
below `PHD` matches any pattern. -/
theorem installs_patterns_iff :
    (InstallsPatterns glob fs currentSourceDir projectName installIncludedir phd patterns ↔
        ∀ sub name,
          (installHeaders projectName installIncludedir phd patterns).Below fs currentSourceDir sub name →
            (glob (quoted (installPatterns patterns)) name = true ↔
              ∃ p ∈ meantPatterns patterns, glob p name = true)) ∧
      (∀ p, patterns = [p] → isFalseConstant p = false →
        InstallsPatterns glob fs currentSourceDir projectName installIncludedir phd patterns) ∧
      (SplitsAtSemicolon glob → 2 ≤ (installPatterns patterns).length →
        (∀ p ∈ installPatterns patterns, 91 ∉ p) →
          (∀ sub name, (installHeaders projectName installIncludedir phd patterns).Below fs currentSourceDir
            sub name → 59 ∉ name) →
            (InstallsPatterns glob fs currentSourceDir projectName installIncludedir phd patterns ↔
              ∀ sub name, (installHeaders projectName installIncludedir phd patterns).Below fs
                currentSourceDir sub name → ∀ p ∈ meantPatterns patterns, glob p name = false)) := by
  refine ⟨installsPatterns_iff_joined, ?_, ?_⟩
  · rintro p rfl hp
    rw [installsPatterns_iff_joined]
    intro sub name _
    have hinstall : installPatterns [p] = [p] := by
      rw [installPatterns, quoted, List.intercalate_singleton, hp]
      rfl
    rw [hinstall, quoted, List.intercalate_singleton, meantPatterns, if_neg (List.cons_ne_nil p [])]
    simp
  · intro hglob hlen hbracket hnames
    rw [installsPatterns_iff_joined]
    refine forall_congr' fun sub => forall_congr' fun name => forall_congr' fun h => ?_
    have hjoined : glob (quoted (installPatterns patterns)) name ≠ true := fun hmatch =>
      hnames sub name h (semicolon_mem_of_quoted hglob hlen hbracket hmatch)
    rw [iff_false_left hjoined]
    simp

/-- The header `rc.hpp` below the `PHD` of the project's own call is not copied when the default list of
patterns is used. -/
theorem default_patterns_install_nothing :
    ¬ ∀ (glob : List Byte → Path → Bool) (fs : Fs) (currentSourceDir projectName : Path)
      (installIncludedir : Path) (phd : OneValue) (patterns : List (List Byte)),
      SplitsAtSemicolon glob →
        InstallsPatterns glob fs currentSourceDir projectName installIncludedir phd patterns := by
  intro h
  have hrule := h wildcard sourceTree (bytes "/s") (bytes "wndx_sane") (bytes "include")
    ⟨bytes "include/wndx/sane", false⟩ [] splitsAtSemicolon_wildcard
  have hcopied := (hrule [bytes "rc.hpp"] (bytes "rc.hpp")
    ⟨by decide, by decide, by decide⟩).mpr ⟨bytes "*.hpp", by decide, by decide⟩
  exact absurd hcopied (by decide)

end WndxSane.CMake
