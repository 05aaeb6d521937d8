import WndxSane.CMake
import WndxSane.Lib.Transition
import WndxSane.Lib.UsageRequirements

/-!
# The targets of the library

`wndx_sane_create_targets` makes six targets: one that the others have in common, one each for the dependencies,
the sources, the users of the library and the options of development, and the umbrella target.  `CMakeLists.txt`
links them with each other.  These are commands of CMake, run in a project that has other commands of its own.

A link is a name.  What the name stands for is looked up when the build system is generated: a target, or an
alias of one.  A name with `::` that stands for nothing is an error, once a target that is compiled gets to it.

The build tree is modelled, not what is installed: an include directory is the one of `BUILD_INTERFACE`.

* `step`: what a command does to a project.
* `targetsAndLinking`: the commands of the library.
* `Project.graph`: what targets link and require, with the names looked up.
-/

namespace WndxSane.CMake

open Usage

abbrev Name := List Byte

/-! ### A project -/

inductive Kind
  | compiled
  | interface
  | imported
  deriving DecidableEq

/-- What a name stands for. -/
inductive Entry
  | target (kind : Kind)
  | alias (target : Name)
  deriving DecidableEq

/-- What is required of a target by `target_compile_options`, `target_include_directories`,
`target_compile_features`, `target_compile_definitions` and `target_sources`. -/
inductive Requirement
  | option (flag : Name)
  | includeDir (system : Bool) (dir : Path)
  | feature (std : Name)
  | definition (macroName : Name)
  | source (file : Name)
  deriving DecidableEq

def Requirement.isSource : Requirement → Bool
  | .source _ => true
  | _ => false

/-- A project: what its names stand for, the features that CMake knows the compiler to have, and what has been
linked and required so far. -/
structure Project where
  entries : Name → Option Entry
  known : Name → Bool
  links : List (Name × Scope × Name)
  reqs : List (Name × Scope × Requirement)

namespace Project

/-- Before the first command. -/
def empty (known : Name → Bool) : Project := ⟨fun _ => none, known, [], []⟩

/-- The target that a name stands for. -/
def resolve (p : Project) (n : Name) : Option Name :=
  (p.entries n).map fun
    | .target _ => n
    | .alias t => t

end Project

/-! ### Commands -/

inductive Command
  | addTarget (name : Name) (kind : Kind)
  | addAlias (name target : Name)
  | link (target : Name) (scope : Scope) (item : Name)
  | require (target : Name) (scope : Scope) (reqs : List Requirement)
  deriving DecidableEq

/-- The names that CMake keeps for targets of its own. -/
def reservedTargets : List Name :=
  ["all", "ALL_BUILD", "help", "install", "INSTALL", "preinstall", "clean", "edit_cache", "rebuild_cache",
    "ZERO_CHECK"].map bytes

/-- One of `A-Z`, `a-z`, `0-9`, `_`, `.`, `:`, `+` and `-`. -/
def nameByte (b : Byte) : Bool :=
  (65 ≤ b && b ≤ 90) || (97 ≤ b && b ≤ 122) || (48 ≤ b && b ≤ 58) || b = 95 || b = 46 || b = 43 || b = 45

/-- A name that a target or an alias may have. -/
def nameOk (n : Name) : Bool := !n.isEmpty && n.all nameByte && !reservedTargets.contains n

/-- A feature is one that the compiler is known to have. -/
def Requirement.knownTo (known : Name → Bool) : Requirement → Bool
  | .feature std => known std
  | _ => true

/-- The commands that are no error.  A name is given to one target, and a target that is not imported has none
with a colon; only a target has requirements, and one that is not compiled has them for those that link it.
`target_compile_features` looks at the features that a target is built with itself. -/
def Command.enabled (p : Project) : Command → Bool
  | .addTarget n kind =>
    nameOk n && decide (p.entries n = none) && (decide (kind = .imported) || decide (58 ∉ n))
  | .addAlias n t => nameOk n && decide (p.entries n = none) && (p.entries t matches some (.target _))
  | .link t scope _ =>
    match p.entries t with
    | some (.target .compiled) => true
    | some (.target _) => decide (scope = .INTERFACE)
    | _ => false
  | .require t scope reqs =>
    (!scope.builds || reqs.all (Requirement.knownTo p.known)) &&
    match p.entries t with
    | some (.target .compiled) => true
    | some (.target .interface) => decide (scope = .INTERFACE) || reqs.all Requirement.isSource
    | some (.target .imported) => decide (scope = .INTERFACE)
    | _ => false

/-- What a command makes of a project, where it is no error. -/
def Command.run (p : Project) : Command → Project
  | .addTarget n kind => { p with entries := Function.update p.entries n (some (.target kind)) }
  | .addAlias n t => { p with entries := Function.update p.entries n (some (.alias t)) }
  | .link t scope item => { p with links := p.links ++ [(t, scope, item)] }
  | .require t scope reqs => { p with reqs := p.reqs ++ reqs.map fun r => (t, scope, r) }

/-- A command; an error ends the configuration. -/
def step (p : Project) (c : Command) : Option Project := if c.enabled p then some (c.run p) else none

/-! ### `wndx_sane_create_targets` -/

/-- What the functions read: variables of CMake and of the environment, and which flags and which features the
compiler has. -/
structure Config where
  cCompilerId : Name
  cxxCompilerId : Name
  buildType : Name
  gccColors : Option Name
  supports : Name → Bool
  features : Name → Bool
  msvc : Bool
  win32 : Bool
  leanAndMean : Bool
  curIncDir : Path
  cxxStd : Name
  buildSrc : Bool
  isTopProject : Bool
  pkgInc : Path

/-- The name of a target in the name space of a package: `${lib_pfx}::${lib_name}`. -/
def qualified (pfx name : Name) : Name := pfx ++ bytes "::" ++ name

def baseTarget (lib : Name) : Name := bytes "_" ++ lib ++ bytes "_base"
def depsTarget (lib : Name) : Name := lib ++ bytes "_deps"
def srcTarget (lib : Name) : Name := lib ++ bytes "_src"
def coreTarget (lib : Name) : Name := lib ++ bytes "_core"
def devTarget (lib : Name) : Name := lib ++ bytes "_dev"

/-- `wndx_sane_add_alias`. -/
def addAlias (pfx name target : Name) : Command := .addAlias (qualified pfx name) target

/-- `wndx_sane_under_compiler`. -/
def underCompiler (cfg : Config) (id : String) : Bool :=
  decide (cfg.cCompilerId = bytes id) || decide (cfg.cxxCompilerId = bytes id)

/-- `arg_CXX_STD`: two characters after `cxx_std_`, or the default. -/
def cxxStd (cfg : Config) : Name :=
  if (bytes "cxx_std_").isPrefixOf cfg.cxxStd && decide (cfg.cxxStd.length = 10) then cfg.cxxStd
  else bytes "cxx_std_20"

/-- `fac_clr`. -/
def facClr (cfg : Config) : Name :=
  match cfg.gccColors with
  | none => bytes "auto"
  | some v => if v = [] ∨ v = bytes "no" then bytes "auto" else bytes "always"

/-- `target_compile_options`. -/
def compileOptions (target : Name) (scope : Scope) (flags : List Name) : Command :=
  .require target scope (flags.map .option)

/-- `wndx_sane_tgt_add_check_cxx_compiler_flag`: the flags that the compiler has, one after another. -/
def addCheckCxxCompilerFlag (cfg : Config) (target : Name) (scope : Scope) (flags : List Name) :
    List Command :=
  (flags.filter cfg.supports).map fun flag => compileOptions target scope [flag]

/-- The targets, their aliases and what they have in common. -/
def createLibraries (cfg : Config) (pfx lib : Name) : List Command :=
  [.addTarget (baseTarget lib) .interface,
    .require (baseTarget lib) .INTERFACE [.includeDir false cfg.curIncDir],
    .require (baseTarget lib) .INTERFACE [.feature (cxxStd cfg)],
    .addTarget (depsTarget lib) .compiled,
    addAlias pfx (qualified lib (bytes "deps")) (depsTarget lib),
    .require (depsTarget lib) .PUBLIC [.includeDir false cfg.curIncDir],
    .require (depsTarget lib) .PUBLIC [.feature (cxxStd cfg)],
    .addTarget (srcTarget lib) .compiled,
    addAlias pfx (qualified lib (bytes "src")) (srcTarget lib),
    .require (srcTarget lib) .PUBLIC [.includeDir false cfg.curIncDir],
    .require (srcTarget lib) .PUBLIC [.feature (cxxStd cfg)],
    .addTarget (coreTarget lib) .interface,
    addAlias pfx (qualified lib (bytes "core")) (coreTarget lib),
    .link (coreTarget lib) .INTERFACE (baseTarget lib),
    .require (coreTarget lib) .INTERFACE [.includeDir true cfg.curIncDir],
    .addTarget (devTarget lib) .interface,
    addAlias pfx (qualified lib (bytes "dev")) (devTarget lib),
    .link (devTarget lib) .INTERFACE (baseTarget lib),
    .require (devTarget lib) .INTERFACE [.includeDir false cfg.curIncDir],
    .addTarget lib .interface,
    addAlias pfx lib lib,
    .link lib .INTERFACE (qualified pfx (bytes "core"))]

/-- The options for a type of build. -/
def buildTypeOptions (cfg : Config) : List Name :=
  if cfg.buildType = bytes "MinSizeRel" then [bytes "-Os"]
  else if cfg.buildType = bytes "Release" then [bytes "-O3"]
  else if cfg.buildType = bytes "RelWithDebInfo" then [bytes "-g", bytes "-Og"]
  else if cfg.buildType = bytes "Debug" then [bytes "-g", bytes "-Og", bytes "-D_GLIBCXX_DEBUG"]
  else []

/-- `fdiag_common`. -/
def fdiagCommon (cfg : Config) : List Name :=
  [bytes "-fdiagnostics-color=" ++ facClr cfg] ++
    (if underCompiler cfg "GNU" then [bytes "-fdiagnostics-urls=" ++ facClr cfg] else []) ++
    [bytes "-fdiagnostics-show-template-tree", bytes "-fdiagnostics-show-option"] ++
    if underCompiler cfg "GNU" then [bytes "-fdiagnostics-generate-patch"]
    else if underCompiler cfg "Clang" || underCompiler cfg "AppleClang" then
      [bytes "-fdiagnostics-fixit-info"]
    else []

/-- `GNU_COMP OR Clang_COMP OR AppleClang_COMP`. -/
def mainCompiler (cfg : Config) : Bool :=
  underCompiler cfg "GNU" || underCompiler cfg "Clang" || underCompiler cfg "AppleClang"

/-- The flags common to the main compilers. -/
def commonOptions (cfg : Config) (lib : Name) : List Command :=
  if mainCompiler cfg then
    [compileOptions (devTarget lib) .INTERFACE (buildTypeOptions cfg),
      compileOptions (devTarget lib) .INTERFACE
        (["-Wall", "-Wextra", "-Wpedantic", "-pedantic-errors"].map bytes),
      compileOptions (devTarget lib) .INTERFACE
        (["-Wconversion", "-Wsign-conversion", "-Wenum-conversion", "-Wfloat-conversion",
          "-Wsign-promo", "-Wdouble-promotion"].map bytes),
      compileOptions (devTarget lib) .INTERFACE
        (["-Wold-style-cast", "-Wundef", "-Wshadow", "-ftrapv"].map bytes),
      compileOptions (devTarget lib) .INTERFACE (fdiagCommon cfg),
      compileOptions (depsTarget lib) .PUBLIC (fdiagCommon cfg)]
  else []

/-- The options of MSVC for a type of build. -/
def msvcBuildTypeOptions (cfg : Config) : List Name :=
  if cfg.buildType = bytes "MinSizeRel" then [bytes "/O1si"]
  else if cfg.buildType = bytes "Release" then [bytes "/O2ti"]
  else if cfg.buildType = bytes "RelWithDebInfo" then ["/Ox", "/DEBUG", "/Zi"].map bytes
  else if cfg.buildType = bytes "Debug" then ["/Od", "/DEBUG", "/Zi"].map bytes
  else []

/-- The flags of MSVC, or those that other compilers may have. -/
def otherOptions (cfg : Config) (lib : Name) : List Command :=
  if cfg.msvc then
    [compileOptions (devTarget lib) .INTERFACE (["/MP", "/utf-8"].map bytes),
      compileOptions (devTarget lib) .INTERFACE (msvcBuildTypeOptions cfg),
      compileOptions (devTarget lib) .INTERFACE [bytes "/W3"]]
  else
    addCheckCxxCompilerFlag cfg (devTarget lib) .INTERFACE
        (["-Warith-conversion", "-Wstrict-null-sentinel", "-Wzero-as-null-pointer-constant",
          "-Wdeprecated-declarations"].map bytes) ++
      addCheckCxxCompilerFlag cfg (devTarget lib) .INTERFACE [bytes "-Wno-dangling-reference"]

/-- `WIN32_LEAN_AND_MEAN`, unless it is defined. -/
def windowsDefinitions (cfg : Config) (lib : Name) : List Command :=
  if cfg.msvc || cfg.win32 then
    [.require (srcTarget lib) .PRIVATE
      (if cfg.leanAndMean then [] else [.definition (bytes "WIN32_LEAN_AND_MEAN")])]
  else []

/-- `wndx_sane_create_targets`, past the checks of its arguments. -/
def createTargets (cfg : Config) (pfx lib : Name) : List Command :=
  createLibraries cfg pfx lib ++ commonOptions cfg lib ++ otherOptions cfg lib ++
    windowsDefinitions cfg lib

/-! ### The project -/

/-- `wndx_sane_find`, past the package: the dependencies get its headers, and it is linked. -/
def findLink (pkgInc : Path) (pkgTgt : Name) (pkgNoLink : Bool) : List Command :=
  if pkgNoLink then []
  else
    [.require (bytes "sane_deps") .PUBLIC [.includeDir false pkgInc],
      .link (bytes "sane_deps") .PRIVATE pkgTgt]

/-- `src/wndx/sane/CMakeLists.txt`. -/
def sources : List Command :=
  [.require (bytes "sane_src") .PRIVATE
      (["file.cpp", "ll.cpp", "log.cpp", "path.cpp", "pl.cpp", "sig_handler.cpp"].map fun f =>
        .source (bytes f)),
    .require (bytes "sane_deps") .PUBLIC [.source (bytes "ll.cpp")]]

/-- `targets_and_linking`.  The commands of the package `fmt` are not among them. -/
def targetsAndLinking (cfg : Config) : List Command :=
  createTargets cfg (bytes "wndx") (bytes "sane") ++
    [Command.link (bytes "sane_src") .INTERFACE (bytes "wndx::sane::core"),
      Command.link (bytes "sane_src") .PRIVATE (bytes "wndx::sane::dev"),
      Command.link (bytes "sane_src") .PUBLIC (bytes "wndx::sane::deps")] ++
    if cfg.buildSrc || !cfg.isTopProject then
      findLink cfg.pkgInc (bytes "fmt::fmt") false ++ sources
    else []

/-! ### What the commands mean -/

namespace Project

/-- What the targets link and require. -/
def graph (p : Project) : LinkGraph Name Requirement where
  links t scope v := ∃ item, (t, scope, item) ∈ p.links ∧ p.resolve item = some v
  reqs t scope r := (t, scope, r) ∈ p.reqs

/-- The names that are looked up for a target: its own links, and those passed on to it. -/
def Reads (p : Project) (t item : Name) : Prop :=
  (∃ scope : Scope, scope.builds = true ∧ (t, scope, item) ∈ p.links) ∨
    ∃ v scope, p.graph.Needs t v ∧ Scope.passes scope = true ∧ (v, scope, item) ∈ p.links

/-- The build system can be generated: no target that is compiled gets to a name with `::` that stands for
nothing. -/
def Generates (p : Project) : Prop :=
  ∀ t, p.entries t = some (.target .compiled) → ∀ item, p.Reads t item → bytes "::" <:+: item →
    p.resolve item ≠ none

end Project

/-! ### Runs of commands -/

/-- The name that a command defines, and the target it stands for from then on. -/
def Command.defines : Command → Option (Name × Name)
  | .addTarget n _ => some (n, n)
  | .addAlias n t => some (n, t)
  | _ => none

variable {p q : Project} {c : Command} {cs : List Command}

theorem step_eq_some_iff : step p c = some q ↔ c.enabled p = true ∧ c.run p = q := by
  rw [step]
  split <;> simp_all

/-- A name is given once: what it stands for does not change. -/
theorem resolve_step (h : step p c = some q) (n v : Name) :
    q.resolve n = some v ↔ p.resolve n = some v ∨ c.defines = some (n, v) := by
  obtain ⟨hen, rfl⟩ := (step_eq_some_iff ..).mp h
  have hnew : ∀ (m : Name) (e : Entry), p.entries m = none →
      (Project.resolve { p with entries := Function.update p.entries m (some e) } n = some v ↔
        p.resolve n = some v ∨
          (m = n ∧ (match e with | .target _ => n | .alias t => t) = v)) := by
    intro m e hm
    by_cases hn : n = m
    · subst hn
      simp [Project.resolve, hm]
    · simp [Project.resolve, Function.update_of_ne hn, Ne.symm hn]
  cases c with
  | addTarget m kind =>
    rw [Command.enabled, Bool.and_eq_true, Bool.and_eq_true, decide_eq_true_eq] at hen
    rw [Command.run, hnew m _ hen.1.2, Command.defines, Option.some.injEq, Prod.mk.injEq]
    refine or_congr_right (and_congr_right fun hmn => ?_)
    rw [hmn]
  | addAlias m t =>
    rw [Command.enabled, Bool.and_eq_true, Bool.and_eq_true, decide_eq_true_eq] at hen
    rw [Command.run, hnew m _ hen.1.2, Command.defines, Option.some.injEq, Prod.mk.injEq]
  | link t scope item => simp [Command.run, Command.defines, Project.resolve]
  | require t scope reqs => simp [Command.run, Command.defines, Project.resolve]

/-- What a name stands for after a run. -/
theorem resolve_run (h : Transition.run step p cs = some q) (n v : Name) :
    q.resolve n = some v ↔ p.resolve n = some v ∨ ∃ c ∈ cs, c.defines = some (n, v) :=
  Transition.run_iff_exists (P := fun p => p.resolve n = some v) (fun _ _ _ h => resolve_step h n v) h

/-- The links after a run. -/
theorem mem_links_run (h : Transition.run step p cs = some q) (t : Name) (scope : Scope) (item : Name) :
    (t, scope, item) ∈ q.links ↔ (t, scope, item) ∈ p.links ∨ .link t scope item ∈ cs := by
  have hstep : ∀ p c q, step p c = some q →
      ((t, scope, item) ∈ q.links ↔ (t, scope, item) ∈ p.links ∨ c = .link t scope item) := by
    intro p c q h
    obtain ⟨-, rfl⟩ := (step_eq_some_iff ..).mp h
    cases c <;> simp [Command.run, eq_comm]
  rw [Transition.run_iff_exists (P := fun p => (t, scope, item) ∈ p.links) hstep h]
  simp

/-- The requirements after a run. -/
theorem mem_reqs_run (h : Transition.run step p cs = some q) (t : Name) (scope : Scope) (r : Requirement) :
    (t, scope, r) ∈ q.reqs ↔
      (t, scope, r) ∈ p.reqs ∨ ∃ rs, Command.require t scope rs ∈ cs ∧ r ∈ rs := by
  have hstep : ∀ p c q, step p c = some q → ((t, scope, r) ∈ q.reqs ↔
      (t, scope, r) ∈ p.reqs ∨ ∃ rs, c = Command.require t scope rs ∧ r ∈ rs) := by
    intro p c q h
    obtain ⟨-, rfl⟩ := (step_eq_some_iff ..).mp h
    cases c with
    | require t' scope' rs =>
      simp only [Command.run, List.mem_append, List.mem_map, Prod.mk.injEq, Command.require.injEq]
      refine or_congr_right ⟨?_, ?_⟩
      · intro ⟨r', hr', ht, hs, hr⟩
        exact ⟨rs, ⟨ht, hs, rfl⟩, hr ▸ hr'⟩
      · intro ⟨rs', ⟨ht, hs, hrs⟩, hr⟩
        exact ⟨r, hrs ▸ hr, ht, hs, rfl⟩
    | _ => simp [Command.run]
  rw [Transition.run_iff_exists (P := fun p => (t, scope, r) ∈ p.reqs) hstep h]
  refine or_congr_right ⟨?_, ?_⟩
  · intro ⟨c, hc, rs, heq, hr⟩
    exact ⟨rs, heq ▸ hc, hr⟩
  · intro ⟨rs, hc, hr⟩
    exact ⟨_, hc, rs, rfl, hr⟩

end WndxSane.CMake
