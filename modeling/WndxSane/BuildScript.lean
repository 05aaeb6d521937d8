import WndxSane.CMake
import WndxSane.Lib.Words

/-!
# The build script

`get_opt` and `trailing_args` of `wndx_cmake_build.sh`, and the call of cmake at the configure step.  The
options come in the order in which `getopt` has put them, the trailing arguments after them.

The options for cmake are kept in one string, `COPTS`, that the configure step has the shell cut into
arguments again: cut at white space, and each word that is a pattern replaced by the names of the files it
matches.

* `trailingArgs`, `getOpt`: what the command line sets.
* `configureArgs`: what cmake is called with.
-/

namespace WndxSane.BuildScript

open CMake (bytes)
open Words

/-- A word of the command line. -/
abbrev Word := List Byte

/-- A blank. -/
def blank : Byte := 32

/-! ### Command line -/

/-- The flags of the script. -/
structure Flags where
  rmCmakecache : Bool
  clean : Bool
  cleaner : Bool
  cleanest : Bool
  runTests : Bool
  runTestsType : Word
  testsFilter : Word
  argType : Word
  deriving DecidableEq

/-- The flags as `get_opt` sets them; `arg_type` is not set. -/
def Flags.default : Flags := ⟨false, false, false, false, false, [], bytes ".*", []⟩

/-- The options. -/
inductive Opt
  | xCache
  | clean
  | cleaner
  | cleanest
  | define (value : Word)
  | getBuildDir
  | getProjectName
  | getProjectNameUpper
  | help
  | version
  deriving DecidableEq

/-- The ways the command line makes the script exit: after it has printed what an option asks for, or at a
trailing argument that it does not know. -/
inductive Exit
  | printed (o : Opt)
  | unparsed (targc : ℕ) (targv arg : Word)
  deriving DecidableEq

def Exit.status : Exit → ℕ
  | .printed _ => 0
  | .unparsed _ _ _ => 6

/-- What is printed to stderr. -/
def Exit.stderr : Exit → List Byte
  | .printed _ => []
  | .unparsed targc targv arg =>
    bytes ("unparsed trailing args[" ++ toString targc ++ "]=[") ++ targv ++
      bytes "]\nunsupported arg: [" ++ arg ++ bytes "]\n"

/-- `cut -d ' ' -f "${n}-"` of one line. -/
def cutFrom (n : ℕ) (line : List Byte) : List Byte :=
  List.intercalate [blank] ((line.splitOn blank).drop (n - 1))

/-- `gtest|gt`. -/
def isGtest (arg : Word) : Bool := [bytes "gtest", bytes "gt"].contains arg

/-- `ctest|ctp|ctr|ct|gtest|gt`. -/
def isTest (arg : Word) : Bool :=
  [bytes "ctest", bytes "ctp", bytes "ctr", bytes "ct"].contains arg || isGtest arg

/-- The loop of `trailing_args` over the arguments it has still to go through, after `argn` of them. -/
def trailingLoop (targc : ℕ) (targv : Word) : ℕ → Flags → List Word → Except Exit Flags
  | _, f, [] => .ok f
  | argn, f, arg :: args =>
    -- what follows a test keyword is a filter pattern, whatever it is
    if f.argType ≠ [] then
      trailingLoop targc targv (argn + 1) { f with testsFilter := arg, argType := [] } args
    else if isTest arg then
      trailingLoop targc targv (argn + 1)
        { f with
          argType := arg
          runTests := true
          runTestsType := arg
          testsFilter := if isGtest arg then bytes "*" else f.testsFilter } args
    else if [bytes "cleanest", bytes "ccc"].contains arg then
      trailingLoop targc targv (argn + 1) { f with cleanest := true } args
    else if [bytes "cleaner", bytes "cc"].contains arg then
      trailingLoop targc targv (argn + 1) { f with cleaner := true } args
    else if [bytes "clean", bytes "c"].contains arg then
      trailingLoop targc targv (argn + 1) { f with clean := true } args
    else if [bytes "x_cache", bytes "x"].contains arg then
      trailingLoop targc targv (argn + 1) { f with rmCmakecache := true } args
    else .error (.unparsed targc (cutFrom (argn + 1) targv) arg)

/-- `trailing_args`, called with all the arguments in one string: it is split by space again. -/
def trailingArgs (f : Flags) (targv : Word) : Except Exit Flags :=
  if targv = [] then .ok f else trailingLoop 1 targv 0 f (fields (· = blank) targv)

/-- What the options have set so far. -/
structure OptState where
  flags : Flags
  copts : List Byte

/-- One option. -/
def getOptStep (s : OptState) : Opt → Except Exit OptState
  | .xCache => .ok { s with flags := { s.flags with rmCmakecache := true } }
  | .clean => .ok { s with flags := { s.flags with clean := true } }
  | .cleaner => .ok { s with flags := { s.flags with cleaner := true } }
  | .cleanest => .ok { s with flags := { s.flags with cleanest := true } }
  | .define value => .ok { s with copts := s.copts ++ bytes " -D " ++ value }
  | .getBuildDir => .error (.printed .getBuildDir)
  | .getProjectName => .error (.printed .getProjectName)
  | .getProjectNameUpper => .error (.printed .getProjectNameUpper)
  | .help => .error (.printed .help)
  | .version => .error (.printed .version)

/-- `[:space:]`. -/
def isSpace (c : Byte) : Bool := c = 32 || (9 ≤ c && c ≤ 13)

/-- `tr -s '[:space:]' ' '`. -/
def trSqueeze (s : List Byte) : List Byte := squeeze blank (s.map fun c => if isSpace c then blank else c)

/-- The variables that the default options are made of. -/
structure Defaults where
  cc : Word
  cxx : Word
  buildType : Word
  prjBuildTests : Word
  prjMemcheckEn : Word
  copts : List Byte

/-- The default options. -/
def Defaults.options (d : Defaults) : List Byte :=
  bytes "-D CMAKE_C_COMPILER='" ++ d.cc ++ bytes "'\n -D CMAKE_CXX_COMPILER='" ++ d.cxx ++
    bytes "'\n -D CMAKE_BUILD_TYPE=" ++ d.buildType ++ bytes "\n -D " ++ d.prjBuildTests ++
      bytes "=ON\n -D " ++ d.prjMemcheckEn ++ bytes "=ON\n " ++ d.copts ++ bytes "\n"

/-- `get_opt`: the options one after another, then the trailing arguments, put together with blanks. -/
def getOpt (d : Defaults) (opts : List Opt) (trailing : List Word) : Except Exit OptState := do
  let s ← opts.foldlM getOptStep ⟨Flags.default, d.options⟩
  let flags ← trailingArgs s.flags (List.intercalate [blank] trailing)
  -- joined by single blanks
  return ⟨flags, trSqueeze s.copts⟩

/-! ### The configure step -/

/-- Where the script runs: the system, whether mold is at the path, the names of the files that a pattern
matches, and what is fixed of the command line of cmake. -/
structure Setup where
  uname : Word
  moldAtPath : Bool
  cc : Word
  matching : Word → List Word
  sdir : Word
  bdir : Word
  generator : Word
  verbose : Bool

/-- `case "$s" in *"part"*`. -/
def hasPart (part s : List Byte) : Bool := s.tails.any fun t => part.isPrefixOf t

/-- What `use_linker_mold` puts after the options. -/
def moldOptions (e : Setup) (copts : List Byte) : List Byte :=
  if hasPart (bytes "CMAKE_LINKER_TYPE") copts then []
  else if !e.moldAtPath then []
  else if e.uname = bytes "Darwin" then
    if hasPart (bytes "clang") e.cc then bytes " -D CMAKE_LINKER_TYPE=MOLD" else []
  else if e.uname = bytes "Linux" then
    if hasPart (bytes "clang") e.cc || hasPart (bytes "gcc") e.cc then
      bytes " -D CMAKE_LINKER_TYPE=MOLD"
    else []
  else []

/-- The characters that make a word a pattern. -/
def isPattern (w : Word) : Bool := w.any fun c => c = 42 || c = 63 || c = 91

/-- Pathname expansion of a word: a pattern that no file matches is left as it is. -/
def pathnames (matching : Word → List Word) (w : Word) : List Word :=
  if isPattern w && !(matching w).isEmpty then matching w else [w]

/-- The separators of `IFS`. -/
def isIfs (c : Byte) : Bool := c = 32 || c = 9 || c = 10

/-- An expansion without quotes. -/
def unquoted (matching : Word → List Word) (s : List Byte) : List Word :=
  (fields isIfs s).flatMap (pathnames matching)

/-- The arguments of cmake before the options. -/
def fixedArgs (e : Setup) (s : OptState) : List Word :=
  [bytes "-S", e.sdir, bytes "-B", e.bdir, bytes "-G", e.generator, bytes "-Wdev", bytes "-Werror=dev"] ++
    unquoted e.matching (if s.flags.cleaner then bytes "--fresh" else []) ++
      unquoted e.matching (if e.verbose then bytes "--log-level=DEBUG" else [])

/-- The arguments that cmake is called with at the configure step. -/
def configureArgs (e : Setup) (s : OptState) : List Word :=
  fixedArgs e s ++ unquoted e.matching (s.copts ++ moldOptions e s.copts)

end WndxSane.BuildScript
