import WndxSane.Targets

/-!
# What users of the library get

A project runs the commands of the library among its own.  Its targets get at the library through the links they
have, and the links passed on.

* **`umbrella_not_generated`**: the umbrella target has a link to `${PFX}::core`, which
  `wndx_sane_create_targets` does not make.
* `needs_dev_iff`: who is built with the options of development.
* **`options_iff`**, **`headers_iff`**: the compile options, and the headers, that a user of the library gets.
* **`needs_src_iff`**: all that comes with a link to the sources, for compiling and for linking.
-/

namespace WndxSane.CMake

open Usage

variable {cfg : Config} {pfx lib : Name} {cs : List Command} {p q : Project} {c : Command} {t : Name}

/-! ### The commands of `wndx_sane_create_targets` -/

/-- The commands that do not make targets: options and definitions. -/
theorem options_require
    (h : c ∈ commonOptions cfg lib ++ otherOptions cfg lib ++ windowsDefinitions cfg lib) :
    (∃ flags, c = compileOptions (devTarget lib) .INTERFACE flags) ∨
    (mainCompiler cfg = true ∧ c = compileOptions (depsTarget lib) .PUBLIC (fdiagCommon cfg)) ∨
    ∃ defs, c = .require (srcTarget lib) .PRIVATE defs ∧ ∀ r ∈ defs, ∃ name, r = .definition name := by
  rw [List.mem_append, List.mem_append] at h
  rcases h with (h | h) | h
  · rw [commonOptions] at h
    split at h
    · rename_i hmain
      simp only [List.mem_cons, List.not_mem_nil, or_false] at h
      rcases h with h | h | h | h | h | h
      all_goals first
        | exact Or.inl ⟨_, h⟩
        | exact Or.inr (Or.inl ⟨hmain, h⟩)
    · exact absurd h List.not_mem_nil
  · refine Or.inl ?_
    rw [otherOptions] at h
    split at h
    · simp only [List.mem_cons, List.not_mem_nil, or_false] at h
      rcases h with h | h | h <;> exact ⟨_, h⟩
    · rw [List.mem_append] at h
      rcases h with h | h
      all_goals
        obtain ⟨flag, -, hc⟩ := List.mem_map.mp h
        exact ⟨_, hc.symm⟩
  · refine Or.inr (Or.inr ?_)
    rw [windowsDefinitions] at h
    split at h
    · refine ⟨_, List.mem_singleton.mp h, fun r hr => ?_⟩
      split at hr
      · exact absurd hr List.not_mem_nil
      · exact ⟨_, List.mem_singleton.mp hr⟩
    · exact absurd h List.not_mem_nil

/-- Apart from options and definitions, the commands are those that make the targets. -/
theorem filterMap_createTargets {β : Type*} {f : Command → Option β}
    (hf : ∀ t scope reqs, f (.require t scope reqs) = none) (cfg : Config) (pfx lib : Name) :
    (createTargets cfg pfx lib).filterMap f = (createLibraries cfg pfx lib).filterMap f := by
  have hopt : (commonOptions cfg lib ++ otherOptions cfg lib ++ windowsDefinitions cfg lib).filterMap f =
      [] := by
    rw [List.filterMap_eq_nil_iff]
    intro c hc
    rcases options_require hc with ⟨flags, rfl⟩ | ⟨-, rfl⟩ | ⟨defs, rfl, -⟩
    all_goals exact hf ..
  rw [createTargets, List.append_assoc, List.append_assoc, List.filterMap_append, ← List.append_assoc,
    hopt, List.append_nil]

theorem mem_createTargets (h : c ∈ createLibraries cfg pfx lib) : c ∈ createTargets cfg pfx lib :=
  List.mem_append_left _ (List.mem_append_left _ (List.mem_append_left _ h))

/-- What is defined, and what it stands for. -/
def definitions (pfx lib : Name) : List (Name × Name) :=
  [(baseTarget lib, baseTarget lib),
    (depsTarget lib, depsTarget lib),
    (qualified pfx (qualified lib (bytes "deps")), depsTarget lib),
    (srcTarget lib, srcTarget lib),
    (qualified pfx (qualified lib (bytes "src")), srcTarget lib),
    (coreTarget lib, coreTarget lib),
    (qualified pfx (qualified lib (bytes "core")), coreTarget lib),
    (devTarget lib, devTarget lib),
    (qualified pfx (qualified lib (bytes "dev")), devTarget lib),
    (lib, lib),
    (qualified pfx lib, lib)]

theorem defines_createTargets (cfg : Config) (pfx lib : Name) (d : Name × Name) :
    (∃ c ∈ createTargets cfg pfx lib, c.defines = some d) ↔ d ∈ definitions pfx lib := by
  rw [← List.mem_filterMap, filterMap_createTargets fun _ _ _ => rfl]
  rfl

/-! ### The umbrella target -/

/-- The name of a target that is not imported has no colon. -/
theorem colon_free (hrun : Transition.run step p cs = some q) {kind : Kind}
    (h : .addTarget t kind ∈ cs) (hkind : kind ≠ .imported) : 58 ∉ t := by
  obtain ⟨u, v, hstep⟩ := Transition.exists_step_of_mem hrun h
  have hen := ((step_eq_some_iff ..).mp hstep).1
  rw [Command.enabled, Bool.and_eq_true, Bool.or_eq_true] at hen
  exact of_decide_eq_true (hen.2.resolve_left fun hk => hkind (of_decide_eq_true hk))

/-- `${PFX}::core` is not among the names defined. -/
theorem core_not_defined (hlib : 58 ∉ lib) (hcore : lib ≠ bytes "core") (v : Name) :
    (qualified pfx (bytes "core"), v) ∉ definitions pfx lib := by
  -- the names of the targets have no colon
  have htarget : ∀ s₁ s₂ : List Byte, 58 ∉ s₁ → 58 ∉ s₂ →
      qualified pfx (bytes "core") ≠ s₁ ++ lib ++ s₂ := by
    intro s₁ s₂ h₁ h₂ heq
    have hmem : 58 ∈ s₁ ++ lib ++ s₂ := by
      rw [← heq]
      simp [qualified, bytes]
    simp [h₁, h₂, hlib] at hmem
  -- the others are in the name space of the library
  have halias : ∀ s : List Byte, qualified pfx (bytes "core") ≠ qualified pfx (qualified lib s) := by
    intro s heq
    have hname : bytes "core" = qualified lib s := List.append_cancel_left heq
    have hmem : (58 : Byte) ∈ bytes "core" := by
      rw [hname]
      simp [qualified, bytes]
    exact absurd hmem (by decide)
  have humbrella : qualified pfx (bytes "core") ≠ qualified pfx lib := fun heq =>
    hcore (List.append_cancel_left heq).symm
  have hdeps := htarget [] (bytes "_deps") (by decide) (by decide)
  have hsrc := htarget [] (bytes "_src") (by decide) (by decide)
  have hcoreTarget := htarget [] (bytes "_core") (by decide) (by decide)
  have hdev := htarget [] (bytes "_dev") (by decide) (by decide)
  have hself := htarget [] [] (by decide) (by decide)
  rw [List.nil_append] at hdeps hsrc hcoreTarget hdev hself
  rw [List.append_nil] at hself
  have hbase := htarget (bytes "_") (bytes "_base") (by decide) (by decide)
  simp only [definitions, List.mem_cons, Prod.mk.injEq, List.not_mem_nil, baseTarget, depsTarget,
    srcTarget, coreTarget, devTarget, hbase, hdeps, hsrc, hcoreTarget, hdev, hself, halias, humbrella,
    false_and, or_self, not_false_eq_true]

/-- What `${PFX}::core` stands for is made by another command, except in a library of that name. -/
theorem resolve_core_iff (hrun : Transition.run step (.empty cfg.features) cs = some q)
    (hlib : ∀ c ∈ createTargets cfg pfx lib, c ∈ cs) (hcore : lib ≠ bytes "core") (v : Name) :
    q.resolve (qualified pfx (bytes "core")) = some v ↔ ∃ c ∈ cs,
      c ∉ createTargets cfg pfx lib ∧ c.defines = some (qualified pfx (bytes "core"), v) := by
  have hcolon : 58 ∉ lib := by
    have hmem : .addTarget lib .interface ∈ createTargets cfg pfx lib := by
      exact mem_createTargets (by simp [createLibraries])
    exact colon_free hrun (hlib _ hmem) (by decide)
  rw [resolve_run hrun]
  constructor
  · intro h
    rcases h with h | ⟨c, hc, hd⟩
    · exact absurd h (Option.some_ne_none v).symm
    · refine ⟨c, hc, fun hmem => ?_, hd⟩
      have hdef := (defines_createTargets cfg pfx lib _).mp ⟨c, hmem, hd⟩
      exact core_not_defined hcolon hcore v hdef
  · intro ⟨c, hc, _, hd⟩
    exact Or.inr ⟨c, hc, hd⟩

/-- **The umbrella target.**  Let a project run the commands of `wndx_sane_create_targets`, in whatever order,
and let no other command of it define `${PFX}::core`.  Then, unless the library has the name `core`, the build
system is not generated as soon as a target that is compiled needs the umbrella target. -/
theorem umbrella_not_generated (hrun : Transition.run step (.empty cfg.features) cs = some q)
    (hlib : ∀ c ∈ createTargets cfg pfx lib, c ∈ cs) (hcore : lib ≠ bytes "core")
    (hother : ∀ c ∈ cs, c ∉ createTargets cfg pfx lib →
      ∀ v, c.defines ≠ some (qualified pfx (bytes "core"), v))
    (hcompiled : q.entries t = some (.target .compiled)) (hneeds : q.graph.Needs t lib) :
    ¬ q.Generates := by
  intro hgen
  have hlink : (lib, Scope.INTERFACE, qualified pfx (bytes "core")) ∈ q.links := by
    refine (mem_links_run hrun ..).mpr (Or.inr (hlib _ ?_))
    exact mem_createTargets (by simp [createLibraries])
  have hreads : q.Reads t (qualified pfx (bytes "core")) := Or.inr ⟨lib, .INTERFACE, hneeds, rfl, hlink⟩
  have hcolons : bytes "::" <:+: qualified pfx (bytes "core") := ⟨pfx, bytes "core", rfl⟩
  obtain ⟨v, hv⟩ := Option.ne_none_iff_exists'.mp (hgen t hcompiled _ hreads hcolons)
  obtain ⟨c, hc, hnot, hd⟩ := (resolve_core_iff hrun hlib hcore v).mp hv
  exact hother c hc hnot v hd

/-- An application that links `wndx::sane`. -/
def umbrellaUser (cfg : Config) : List Command :=
  createTargets cfg (bytes "wndx") (bytes "sane") ++
    [Command.addTarget (bytes "app") .compiled, Command.link (bytes "app") .PRIVATE (bytes "wndx::sane")]

/-- A build with GCC for debugging. -/
def debugBuild : Config where
  cCompilerId := []
  cxxCompilerId := bytes "GNU"
  buildType := bytes "Debug"
  gccColors := none
  supports _ := true
  features _ := true
  msvc := false
  win32 := false
  leanAndMean := false
  curIncDir := bytes "/sane/include"
  cxxStd := bytes "cxx_std_20"
  buildSrc := true
  isTopProject := true
  pkgInc := bytes "/sane/build/_deps/fmt/src/include"

theorem umbrella_not_generated_app :
    ∃ q, Transition.run step (.empty debugBuild.features) (umbrellaUser debugBuild) = some q ∧
      ¬ q.Generates := by
  have hsome : (Transition.run step (.empty debugBuild.features) (umbrellaUser debugBuild)).isSome = true := by
    decide +kernel
  have happ : ((Transition.run step (.empty debugBuild.features) (umbrellaUser debugBuild)).bind fun q =>
      q.entries (bytes "app")) = some (.target .compiled) := by decide +kernel
  obtain ⟨q, hq⟩ := Option.isSome_iff_exists.mp hsome
  rw [hq] at happ
  refine ⟨q, hq, umbrella_not_generated hq (fun c hc => List.mem_append_left _ hc) (by decide) ?_ happ ?_⟩
  · intro c hc hnot v
    rcases (List.mem_append.mp hc).resolve_left hnot with _ | ⟨_, _ | ⟨_, h⟩⟩
    · simp [Command.defines, qualified, bytes]
    · exact (Option.some_ne_none _).symm
    · exact absurd h List.not_mem_nil
  · refine LinkGraph.Builds.needs ⟨.PRIVATE, rfl, bytes "wndx::sane", ?_, ?_⟩
    · exact (mem_links_run hq ..).mpr (Or.inr (List.mem_append_right _ (by simp)))
    · refine (resolve_run hq ..).mpr (Or.inr ?_)
      obtain ⟨c, hc, hd⟩ := (defines_createTargets debugBuild (bytes "wndx") (bytes "sane")
        (bytes "wndx::sane", bytes "sane")).mpr (by decide)
      exact ⟨c, List.mem_append_left _ hc, hd⟩

/-! ### The library in a project -/

/-- The targets of the library. -/
def members : List Name :=
  ["_sane_base", "sane_deps", "sane_src", "sane_core", "sane_dev", "sane"].map bytes

/-- A command that leaves the targets of the library as they are. -/
def Command.KeepsOff : Command → Prop
  | .link t _ _ => t ∉ members
  | .require t _ _ => t ∉ members
  | _ => True

/-- A project that runs the commands of the library, in whatever order, and others that keep off it. -/
structure Embedded (cfg : Config) (cs : List Command) (q : Project) : Prop where
  run : Transition.run step (.empty cfg.features) cs = some q
  library : ∀ c ∈ targetsAndLinking cfg, c ∈ cs
  others : ∀ c ∈ cs, c ∉ targetsAndLinking cfg → c.KeepsOff

/-- A way to the options of development outside the library: a link to them of the target itself, or one that
a target outside the library passes on to it. -/
def TakesDev (cs : List Command) (q : Project) (t : Name) : Prop :=
  ∃ u scope item, u ∉ members ∧ .link u scope item ∈ cs ∧ q.resolve item = some (bytes "sane_dev") ∧
    ((u = t ∧ scope.builds = true) ∨ (q.graph.Needs t u ∧ scope.passes = true))

/-- What the sources bring along for linking: what they pass on, the options of development where they are a
static library, and `fmt` with what comes with it where the dependencies are one. -/
def ComesWithSrc (cfg : Config) (q : Project) (static : Name → Prop) (v : Name) : Prop :=
  v ∈ ["sane_src", "sane_core", "_sane_base", "sane_deps"].map bytes ∨
  (static (bytes "sane_src") ∧ v = bytes "sane_dev") ∨
  (static (bytes "sane_deps") ∧ (cfg.buildSrc || !cfg.isTopProject) = true ∧
    ∃ w, q.resolve (bytes "fmt::fmt") = some w ∧ Relation.ReflTransGen (q.graph.Hands static) w v)

/-- One of the options of development. -/
def DevOption (cfg : Config) (flag : Name) : Prop :=
  ∃ rs, .require (bytes "sane_dev") .INTERFACE rs ∈ targetsAndLinking cfg ∧ .option flag ∈ rs

/-- The links that the library always has. -/
def ownLinks : List (Name × Scope × Name) :=
  [(bytes "sane_core", Scope.INTERFACE, bytes "_sane_base"),
    (bytes "sane_dev", Scope.INTERFACE, bytes "_sane_base"),
    (bytes "sane", Scope.INTERFACE, bytes "wndx::core"),
    (bytes "sane_src", Scope.INTERFACE, bytes "wndx::sane::core"),
    (bytes "sane_src", Scope.PRIVATE, bytes "wndx::sane::dev"),
    (bytes "sane_src", Scope.PUBLIC, bytes "wndx::sane::deps")]

/-- The links of the library. -/
def libraryLinks (cfg : Config) : List (Name × Scope × Name) :=
  ownLinks ++
    if cfg.buildSrc || !cfg.isTopProject then [(bytes "sane_deps", Scope.PRIVATE, bytes "fmt::fmt")] else []

def Command.asLink : Command → Option (Name × Scope × Name)
  | .link t scope item => some (t, scope, item)
  | _ => none

theorem mem_libraryLinks (cfg : Config) (t : Name) (scope : Scope) (item : Name) :
    .link t scope item ∈ targetsAndLinking cfg ↔ (t, scope, item) ∈ libraryLinks cfg := by
  have hlinks : (targetsAndLinking cfg).filterMap Command.asLink = libraryLinks cfg := by
    rw [targetsAndLinking, List.filterMap_append, List.filterMap_append,
      filterMap_createTargets fun _ _ _ => rfl, libraryLinks]
    cases cfg.buildSrc <;> cases cfg.isTopProject <;> rfl
  rw [← hlinks, List.mem_filterMap]
  constructor
  · intro h
    exact ⟨_, h, rfl⟩
  · intro ⟨c, hc, heq⟩
    cases c with
    | link t' scope' item' =>
      cases heq
      exact hc
    | _ => exact absurd heq (Option.some_ne_none _).symm

theorem defines_targetsAndLinking (cfg : Config) (d : Name × Name) :
    (∃ c ∈ targetsAndLinking cfg, c.defines = some d) ↔
      d ∈ definitions (bytes "wndx") (bytes "sane") := by
  have hdefs : (targetsAndLinking cfg).filterMap Command.defines =
      definitions (bytes "wndx") (bytes "sane") := by
    rw [targetsAndLinking, List.filterMap_append, List.filterMap_append,
      filterMap_createTargets fun _ _ _ => rfl]
    cases cfg.buildSrc <;> cases cfg.isTopProject <;> rfl
  rw [← hdefs, List.mem_filterMap]

/-- An application that links `wndx::sane::src`; the package `fmt` has been found. -/
def srcUser (cfg : Config) : List Command :=
  targetsAndLinking cfg ++
    [Command.addTarget (bytes "fmt::fmt") .imported, Command.addTarget (bytes "app") .compiled,
      Command.link (bytes "app") .PRIVATE (bytes "wndx::sane::src")]

theorem embedded_srcUser : ∃ q, Embedded debugBuild (srcUser debugBuild) q := by
  have hsome : (Transition.run step (.empty debugBuild.features) (srcUser debugBuild)).isSome = true := by
    decide +kernel
  obtain ⟨q, hq⟩ := Option.isSome_iff_exists.mp hsome
  refine ⟨q, hq, fun c hc => List.mem_append_left _ hc, fun c hc hnot => ?_⟩
  have hrest := (List.mem_append.mp hc).resolve_left hnot
  simp only [List.mem_cons, List.not_mem_nil, or_false] at hrest
  rcases hrest with rfl | rfl | rfl
  · trivial
  · trivial
  · show bytes "app" ∉ members
    decide

/-- A link of a target outside the library is the one of the application. -/
theorem link_srcUser {u : Name} {scope : Scope} {item : Name} (h : .link u scope item ∈ srcUser debugBuild)
    (hu : u ∉ members) : u = bytes "app" ∧ scope = .PRIVATE ∧ item = bytes "wndx::sane::src" := by
  rcases List.mem_append.mp h with hlib | happ
  · have hmembers : ∀ l ∈ libraryLinks debugBuild, l.1 ∈ members := by decide
    exact absurd (hmembers _ ((mem_libraryLinks ..).mp hlib)) hu
  · simpa using happ

theorem resolve_core_srcUser (h : Embedded debugBuild (srcUser debugBuild) q) :
    q.resolve (bytes "wndx::core") = none := by
  have hnone : ((Transition.run step (.empty debugBuild.features) (srcUser debugBuild)).bind fun q =>
      q.resolve (bytes "wndx::core")) = none := by decide +kernel
  rwa [h.run] at hnone

namespace Embedded

variable {v : Name} {item : Name} {scope : Scope} {r : Requirement} {flag : Name}

/-- A name of the library stands for its target. -/
theorem resolve_of_mem (h : Embedded cfg cs q)
    (hd : (item, v) ∈ definitions (bytes "wndx") (bytes "sane")) : q.resolve item = some v := by
  obtain ⟨c, hc, hdef⟩ := (defines_targetsAndLinking cfg _).mpr hd
  exact (resolve_run h.run ..).mpr (Or.inr ⟨c, h.library c hc, hdef⟩)

/-- A link is one of the library, or of a target outside it. -/
theorem links_cases (h : Embedded cfg cs q) (hl : (t, scope, item) ∈ q.links) :
    (t, scope, item) ∈ libraryLinks cfg ∨ (.link t scope item ∈ cs ∧ t ∉ members) := by
  have hmem := ((mem_links_run h.run ..).mp hl).resolve_left List.not_mem_nil
  by_cases hlib : .link t scope item ∈ targetsAndLinking cfg
  · exact Or.inl ((mem_libraryLinks cfg ..).mp hlib)
  · exact Or.inr ⟨hmem, h.others _ hmem hlib⟩

/-- A link of a target of the library is one of the library. -/
theorem mem_libraryLinks_of_mem (h : Embedded cfg cs q) (ht : t ∈ members) (hl : (t, scope, item) ∈ q.links) :
    (t, scope, item) ∈ libraryLinks cfg :=
  (h.links_cases hl).resolve_right fun hout => hout.2 ht

theorem links_of_mem (h : Embedded cfg cs q) (hl : (t, scope, item) ∈ libraryLinks cfg) :
    (t, scope, item) ∈ q.links :=
  (mem_links_run h.run ..).mpr (Or.inr (h.library _ ((mem_libraryLinks cfg ..).mpr hl)))

/-- **The library passes the options of development on to nobody**, unless it is one of their names that the
umbrella target links. -/
theorem not_passes_dev (h : Embedded cfg cs q)
    (hcore : q.resolve (bytes "wndx::core") ≠ some (bytes "sane_dev")) (ht : t ∈ members) :
    ¬ q.graph.Passes t (bytes "sane_dev") := by
  intro ⟨scope, hpasses, item, hl, hres⟩
  have hitems : ∀ l ∈ libraryLinks cfg, l.2.1.passes = true → l.2.2 = bytes "wndx::core" ∨
      ∃ v ∈ members, v ≠ bytes "sane_dev" ∧ (l.2.2, v) ∈ definitions (bytes "wndx") (bytes "sane") := by
    rw [libraryLinks]
    split <;> decide
  rcases hitems _ (h.mem_libraryLinks_of_mem ht hl) hpasses with hitem | ⟨v, -, hne, hd⟩
  · exact hcore (hitem ▸ hres)
  · exact hne (Option.some.inj ((h.resolve_of_mem hd).symm.trans hres))

/-- **The options of development** are for targets with a link of their own to them, and for those that need a
target outside the library which passes such a link on. -/
theorem needs_dev_iff (h : Embedded cfg cs q)
    (hcore : q.resolve (bytes "wndx::core") ≠ some (bytes "sane_dev")) (ht : t ∉ members) :
    q.graph.Needs t (bytes "sane_dev") ↔ TakesDev cs q t := by
  rw [LinkGraph.needs_iff]
  constructor
  · intro hcase
    rcases hcase with ⟨scope, hbuilds, item, hl, hres⟩ | ⟨u, hneeds, hpasses⟩
    · have hmem := ((mem_links_run h.run ..).mp hl).resolve_left List.not_mem_nil
      exact ⟨t, scope, item, ht, hmem, hres, Or.inl ⟨rfl, hbuilds⟩⟩
    · have hu : u ∉ members := fun hu => h.not_passes_dev hcore hu hpasses
      obtain ⟨scope, hpass, item, hl, hres⟩ := hpasses
      have hmem := ((mem_links_run h.run ..).mp hl).resolve_left List.not_mem_nil
      exact ⟨u, scope, item, hu, hmem, hres, Or.inr ⟨hneeds, hpass⟩⟩
  · intro ⟨u, scope, item, _, hmem, hres, hway⟩
    have hl := (mem_links_run h.run u scope item).mpr (Or.inr hmem)
    rcases hway with ⟨rfl, hbuilds⟩ | ⟨hneeds, hpass⟩
    · exact Or.inl ⟨scope, hbuilds, item, hl, hres⟩
    · exact Or.inr ⟨u, hneeds, scope, hpass, item, hl, hres⟩

/-! ### Requirements -/

/-- A requirement of a target of the library is one of a command of the library. -/
theorem reqs_of_mem (h : Embedded cfg cs q) (hv : v ∈ members) :
    (v, scope, r) ∈ q.reqs ↔ ∃ rs, .require v scope rs ∈ targetsAndLinking cfg ∧ r ∈ rs := by
  rw [mem_reqs_run h.run]
  constructor
  · intro hcase
    obtain ⟨rs, hmem, hr⟩ := hcase.resolve_left List.not_mem_nil
    refine ⟨rs, ?_, hr⟩
    by_contra hnot
    exact h.others _ hmem hnot hv
  · intro ⟨rs, hmem, hr⟩
    exact Or.inr ⟨rs, h.library _ hmem, hr⟩

/-- What the library gives a target outside it is what its targets pass on. -/
theorem gives_iff (h : Embedded cfg cs q) (ht : t ∉ members) (hv : v ∈ members) :
    q.graph.Gives v t r ↔ q.graph.Needs t v ∧ ∃ scope : Scope, scope.passes = true ∧
      ∃ rs, .require v scope rs ∈ targetsAndLinking cfg ∧ r ∈ rs := by
  have hne : v ≠ t := fun heq => ht (heq ▸ hv)
  rw [LinkGraph.Gives, or_iff_right fun hself => hne hself.1]
  refine and_congr_right fun _ => exists_congr fun scope => and_congr_right fun _ => ?_
  exact h.reqs_of_mem hv

end Embedded

section Requirements

variable {v : Name} {scope : Scope} {rs : List Requirement}

/-- The requirements of the library: those that make its targets, the options, and what has no options. -/
theorem require_cases (h : .require v scope rs ∈ targetsAndLinking cfg) :
    .require v scope rs ∈ createLibraries cfg (bytes "wndx") (bytes "sane") ∨
    (v = bytes "sane_dev" ∧ scope = .INTERFACE) ∨
    (v = bytes "sane_deps" ∧ mainCompiler cfg = true ∧ rs = (fdiagCommon cfg).map .option) ∨
    (v ∈ ["sane_src", "sane_deps"].map bytes ∧ ∀ flag, Requirement.option flag ∉ rs) := by
  rw [targetsAndLinking, List.mem_append, List.mem_append] at h
  rcases h with (h | h) | h
  · rw [createTargets, List.append_assoc, List.append_assoc, List.mem_append, ← List.append_assoc] at h
    refine h.imp_right fun hopt => ?_
    rcases options_require hopt with ⟨flags, heq⟩ | ⟨hmain, heq⟩ | ⟨defs, heq, hdefs⟩
    · cases heq
      exact Or.inl ⟨rfl, rfl⟩
    · cases heq
      exact Or.inr (Or.inl ⟨rfl, hmain, rfl⟩)
    · cases heq
      refine Or.inr (Or.inr ⟨by decide, fun flag hflag => ?_⟩)
      obtain ⟨name, hname⟩ := hdefs _ hflag
      exact Requirement.noConfusion hname
  · simp at h
  · refine Or.inr (Or.inr (Or.inr ?_))
    split at h
    · simp only [findLink, sources, Bool.false_eq_true, if_false, List.cons_append, List.nil_append,
        List.mem_cons, Command.require.injEq, reduceCtorEq, List.not_mem_nil, or_false, false_or] at h
      rcases h with ⟨rfl, -, rfl⟩ | ⟨rfl, -, rfl⟩ | ⟨rfl, -, rfl⟩
      all_goals exact ⟨by decide, by simp⟩
    · exact absurd h List.not_mem_nil

/-- The commands that make the targets: no options, and none for the umbrella target. -/
theorem require_createLibraries
    (h : .require v scope rs ∈ createLibraries cfg (bytes "wndx") (bytes "sane")) :
    v ≠ bytes "sane" ∧ ∀ flag, Requirement.option flag ∉ rs := by
  simp only [createLibraries, addAlias, List.mem_cons, Command.require.injEq, reduceCtorEq,
    List.not_mem_nil, or_false, false_or] at h
  rcases h with ⟨rfl, -, rfl⟩ | ⟨rfl, -, rfl⟩ | ⟨rfl, -, rfl⟩ | ⟨rfl, -, rfl⟩ | ⟨rfl, -, rfl⟩ |
    ⟨rfl, -, rfl⟩ | ⟨rfl, -, rfl⟩ | ⟨rfl, -, rfl⟩
  all_goals exact ⟨by decide, by simp⟩

theorem mem_targetsAndLinking (h : c ∈ createLibraries cfg (bytes "wndx") (bytes "sane")) :
    c ∈ targetsAndLinking cfg :=
  List.mem_append_left _ (List.mem_append_left _ (mem_createTargets h))

/-- The umbrella target has no requirements. -/
theorem ne_umbrella_of_require (h : .require v scope rs ∈ targetsAndLinking cfg) : v ≠ bytes "sane" := by
  rcases require_cases h with hlib | ⟨rfl, -⟩ | ⟨rfl, -, -⟩ | ⟨hv, -⟩
  · exact (require_createLibraries hlib).1
  · decide
  · decide
  · intro heq
    rw [heq] at hv
    exact absurd hv (by decide)

/-- Every other target has the include directory. -/
theorem require_includeDir (cfg : Config) (hv : v ∈ members) (hne : v ≠ bytes "sane") :
    ∃ scope : Scope, scope.passes = true ∧
      ∃ system, .require v scope [.includeDir system cfg.curIncDir] ∈ targetsAndLinking cfg := by
  have hlibs : ∃ scope : Scope, scope.passes = true ∧ ∃ system,
      .require v scope [.includeDir system cfg.curIncDir] ∈
        createLibraries cfg (bytes "wndx") (bytes "sane") := by
    simp only [members, List.map_cons, List.map_nil, List.mem_cons, List.not_mem_nil, or_false] at hv
    rcases hv with rfl | rfl | rfl | rfl | rfl | rfl
    · exact ⟨.INTERFACE, rfl, false, by simp [createLibraries, baseTarget, bytes]⟩
    · exact ⟨.PUBLIC, rfl, false, by simp [createLibraries, depsTarget, bytes]⟩
    · exact ⟨.PUBLIC, rfl, false, by simp [createLibraries, srcTarget, bytes]⟩
    · exact ⟨.INTERFACE, rfl, true, by simp [createLibraries, coreTarget, bytes]⟩
    · exact ⟨.INTERFACE, rfl, false, by simp [createLibraries, devTarget, bytes]⟩
    · exact absurd rfl hne
  obtain ⟨scope, hpasses, system, hmem⟩ := hlibs
  exact ⟨scope, hpasses, system, mem_targetsAndLinking hmem⟩

end Requirements

namespace Embedded

variable {v : Name}

/-- The way from the sources to what they pass on. -/
theorem needs_of_src (h : Embedded cfg cs q) (hneeds : q.graph.Needs t (bytes "sane_src")) :
    q.graph.Needs t (bytes "sane_core") ∧ q.graph.Needs t (bytes "_sane_base") ∧
      q.graph.Needs t (bytes "sane_deps") := by
  have hcore : q.graph.Needs t (bytes "sane_core") :=
    hneeds.tail ⟨.INTERFACE, rfl, bytes "wndx::sane::core",
      h.links_of_mem (List.mem_append_left _ (by decide)), h.resolve_of_mem (by decide)⟩
  have hbase : q.graph.Needs t (bytes "_sane_base") :=
    hcore.tail ⟨.INTERFACE, rfl, bytes "_sane_base",
      h.links_of_mem (List.mem_append_left _ (by decide)), h.resolve_of_mem (by decide)⟩
  have hdeps : q.graph.Needs t (bytes "sane_deps") :=
    hneeds.tail ⟨.PUBLIC, rfl, bytes "wndx::sane::deps",
      h.links_of_mem (List.mem_append_left _ (by decide)), h.resolve_of_mem (by decide)⟩
  exact ⟨hcore, hbase, hdeps⟩

theorem needs_srcUser (h : Embedded debugBuild (srcUser debugBuild) q) :
    q.graph.Needs (bytes "app") (bytes "sane_src") := by
  refine LinkGraph.Builds.needs ⟨.PRIVATE, rfl, bytes "wndx::sane::src", ?_, h.resolve_of_mem (by decide)⟩
  exact (mem_links_run h.run ..).mpr (Or.inr (List.mem_append_right _ (by simp)))

/-- **Options.**  Let the name that the umbrella target links not stand for the options of development.  Then,
from the library, a target outside it gets these if and only if it has a link to them, or needs a target outside
the library that passes such a link on; and the options for diagnostics, with the main compilers, if it needs the
dependencies. -/
theorem options_iff (h : Embedded cfg cs q)
    (hcore : q.resolve (bytes "wndx::core") ≠ some (bytes "sane_dev")) (ht : t ∉ members) (flag : Name) :
    (∃ v ∈ members, q.graph.Gives v t (.option flag)) ↔
      (DevOption cfg flag ∧ TakesDev cs q t) ∨
      (mainCompiler cfg = true ∧ flag ∈ fdiagCommon cfg ∧ q.graph.Needs t (bytes "sane_deps")) := by
  constructor
  · intro ⟨v, hv, hgives⟩
    obtain ⟨hneeds, scope, -, rs, hmem, hflag⟩ := (h.gives_iff ht hv).mp hgives
    rcases require_cases hmem with hlib | ⟨rfl, rfl⟩ | ⟨rfl, hmain, rfl⟩ | ⟨-, hnone⟩
    · exact absurd hflag ((require_createLibraries hlib).2 flag)
    · exact Or.inl ⟨⟨rs, hmem, hflag⟩, (h.needs_dev_iff hcore ht).mp hneeds⟩
    · refine Or.inr ⟨hmain, ?_, hneeds⟩
      simpa using hflag
    · exact absurd hflag (hnone flag)
  · intro hcase
    rcases hcase with ⟨⟨rs, hmem, hflag⟩, htakes⟩ | ⟨hmain, hflag, hneeds⟩
    · have hdev : bytes "sane_dev" ∈ members := by decide
      exact ⟨_, hdev, (h.gives_iff ht hdev).mpr
        ⟨(h.needs_dev_iff hcore ht).mpr htakes, .INTERFACE, rfl, rs, hmem, hflag⟩⟩
    · have hdeps : bytes "sane_deps" ∈ members := by decide
      refine ⟨_, hdeps, (h.gives_iff ht hdeps).mpr
        ⟨hneeds, .PUBLIC, rfl, _, ?_, List.mem_map_of_mem hflag⟩⟩
      refine List.mem_append_left _ (List.mem_append_left _ ?_)
      simp only [createTargets, commonOptions, if_pos hmain, List.mem_append]
      refine Or.inl (Or.inl (Or.inr ?_))
      simp [compileOptions, depsTarget, devTarget, bytes]

/-- An application that links the sources gets what the compiler shows of a diagnostic, and not `-Wall`. -/
theorem options_iff_srcUser : ∃ q, Embedded debugBuild (srcUser debugBuild) q ∧
    (∃ v ∈ members, q.graph.Gives v (bytes "app") (.option (bytes "-fdiagnostics-show-option"))) ∧
    ¬ ∃ v ∈ members, q.graph.Gives v (bytes "app") (.option (bytes "-Wall")) := by
  obtain ⟨q, hq⟩ := embedded_srcUser
  have happ : bytes "app" ∉ members := by decide
  have hcore : q.resolve (bytes "wndx::core") ≠ some (bytes "sane_dev") := by
    rw [resolve_core_srcUser hq]
    exact (Option.some_ne_none _).symm
  have hdeps : q.graph.Needs (bytes "app") (bytes "sane_deps") := (hq.needs_of_src hq.needs_srcUser).2.2
  refine ⟨q, hq, (hq.options_iff hcore happ _).mpr (Or.inr ⟨by decide, by decide, hdeps⟩), fun hwall => ?_⟩
  rcases (hq.options_iff hcore happ _).mp hwall with ⟨-, u, scope, item, hu, hmem, hres, -⟩ | ⟨-, hflag, -⟩
  · obtain ⟨-, -, rfl⟩ := link_srcUser hmem hu
    rw [hq.resolve_of_mem (v := bytes "sane_src") (by decide)] at hres
    exact absurd hres (by decide)
  · exact absurd hflag (by decide)

/-- The language standard comes with the target itself, or with what it has in common with the others. -/
theorem require_feature (h : Embedded cfg cs q) (hv : v ∈ members) (hne : v ≠ bytes "sane")
    (hneeds : q.graph.Needs t v) :
    ∃ w ∈ members, q.graph.Needs t w ∧ ∃ scope : Scope, scope.passes = true ∧
      .require w scope [.feature (cxxStd cfg)] ∈ targetsAndLinking cfg := by
  have hbase : .require (bytes "_sane_base") .INTERFACE [.feature (cxxStd cfg)] ∈ targetsAndLinking cfg :=
    mem_targetsAndLinking (by simp [createLibraries, baseTarget, bytes])
  have hresolve : q.resolve (bytes "_sane_base") = some (bytes "_sane_base") := h.resolve_of_mem (by decide)
  have hlinked : ∀ u, (u, .INTERFACE, bytes "_sane_base") ∈ libraryLinks cfg → q.graph.Needs t u →
      q.graph.Needs t (bytes "_sane_base") := fun u hl hu =>
    hu.tail ⟨.INTERFACE, rfl, _, h.links_of_mem hl, hresolve⟩
  simp only [members, List.map_cons, List.map_nil, List.mem_cons, List.not_mem_nil, or_false] at hv
  rcases hv with rfl | rfl | rfl | rfl | rfl | rfl
  · exact ⟨_, by decide, hneeds, .INTERFACE, rfl, hbase⟩
  · exact ⟨_, by decide, hneeds, .PUBLIC, rfl,
      mem_targetsAndLinking (by simp [createLibraries, depsTarget, bytes])⟩
  · exact ⟨_, by decide, hneeds, .PUBLIC, rfl,
      mem_targetsAndLinking (by simp [createLibraries, srcTarget, bytes])⟩
  · exact ⟨_, by decide, hlinked _ (List.mem_append_left _ (by decide)) hneeds, .INTERFACE, rfl, hbase⟩
  · exact ⟨_, by decide, hlinked _ (List.mem_append_left _ (by decide)) hneeds, .INTERFACE, rfl, hbase⟩
  · exact absurd rfl hne

/-- **Headers.**  A target outside the library gets the include directory from the library if and only if it
needs one of its targets other than the umbrella; and so with the language standard. -/
theorem headers_iff (h : Embedded cfg cs q) (ht : t ∉ members) :
    ((∃ v ∈ members, ∃ system, q.graph.Gives v t (.includeDir system cfg.curIncDir)) ↔
      ∃ v ∈ members, v ≠ bytes "sane" ∧ q.graph.Needs t v) ∧
    ((∃ v ∈ members, q.graph.Gives v t (.feature (cxxStd cfg))) ↔
      ∃ v ∈ members, v ≠ bytes "sane" ∧ q.graph.Needs t v) := by
  have hgiven : ∀ v ∈ members, ∀ r, q.graph.Gives v t r → v ≠ bytes "sane" ∧ q.graph.Needs t v := by
    intro v hv r hgives
    obtain ⟨hneeds, _, -, rs, hmem, -⟩ := (h.gives_iff ht hv).mp hgives
    exact ⟨ne_umbrella_of_require hmem, hneeds⟩
  refine ⟨⟨?_, ?_⟩, ⟨?_, ?_⟩⟩
  · intro ⟨v, hv, system, hgives⟩
    exact ⟨v, hv, hgiven v hv _ hgives⟩
  · intro ⟨v, hv, hne, hneeds⟩
    obtain ⟨scope, hpasses, system, hmem⟩ := require_includeDir cfg hv hne
    exact ⟨v, hv, system, (h.gives_iff ht hv).mpr
      ⟨hneeds, scope, hpasses, _, hmem, List.mem_singleton_self _⟩⟩
  · intro ⟨v, hv, hgives⟩
    exact ⟨v, hv, hgiven v hv _ hgives⟩
  · intro ⟨v, hv, hne, hneeds⟩
    obtain ⟨w, hw, hneedsw, scope, hpasses, hmem⟩ := h.require_feature hv hne hneeds
    exact ⟨w, hw, (h.gives_iff ht hw).mpr
      ⟨hneedsw, scope, hpasses, _, hmem, List.mem_singleton_self _⟩⟩

theorem headers_iff_srcUser : ∃ q, Embedded debugBuild (srcUser debugBuild) q ∧
    (∃ v ∈ members, ∃ system, q.graph.Gives v (bytes "app") (.includeDir system (bytes "/sane/include"))) ∧
    ∃ v ∈ members, q.graph.Gives v (bytes "app") (.feature (bytes "cxx_std_20")) := by
  obtain ⟨q, hq⟩ := embedded_srcUser
  have hneeds : ∃ v ∈ members, v ≠ bytes "sane" ∧ q.graph.Needs (bytes "app") v :=
    ⟨bytes "sane_src", by decide, by decide, hq.needs_srcUser⟩
  have happ : bytes "app" ∉ members := by decide
  exact ⟨q, hq, (hq.headers_iff happ).1.mpr hneeds, (hq.headers_iff happ).2.mpr hneeds⟩

/-- Where a link leads that is handed on by what the sources pass on, or by the options of development. -/
theorem hands_cases (h : Embedded cfg cs q) (ht : t ∈ members) (hne : t ≠ bytes "sane") {static : Name → Prop}
    (hhands : q.graph.Hands static t v) :
    v ∈ ["sane_src", "sane_core", "_sane_base", "sane_deps"].map bytes ∨
    (static (bytes "sane_src") ∧ v = bytes "sane_dev") ∨
    (static (bytes "sane_deps") ∧ (cfg.buildSrc || !cfg.isTopProject) = true ∧
      q.resolve (bytes "fmt::fmt") = some v) := by
  obtain ⟨scope, hscope, item, hl, hres⟩ := hhands
  have hlib := h.mem_libraryLinks_of_mem ht hl
  rw [libraryLinks, List.mem_append] at hlib
  rcases hlib with hown | hfmt
  · have hitems : ∀ l ∈ ownLinks, l.1 ≠ bytes "sane" →
        (∃ w ∈ ["sane_src", "sane_core", "_sane_base", "sane_deps"].map bytes,
          (l.2.2, w) ∈ definitions (bytes "wndx") (bytes "sane")) ∨
        l = (bytes "sane_src", .PRIVATE, bytes "wndx::sane::dev") := by decide
    rcases hitems _ hown hne with ⟨w, hw, hd⟩ | heq
    · rw [h.resolve_of_mem hd] at hres
      cases hres
      exact Or.inl hw
    · cases heq
      rw [h.resolve_of_mem (v := bytes "sane_dev") (by decide)] at hres
      cases hres
      exact Or.inr (Or.inl ⟨hscope.resolve_left (by decide), rfl⟩)
  · split at hfmt
    · rename_i hfind
      cases List.mem_singleton.mp hfmt
      exact Or.inr (Or.inr ⟨hscope.resolve_left (by decide), hfind, hres⟩)
    · exact absurd hfmt List.not_mem_nil

/-- What is linked by a target that links the sources of the library and nothing else. -/
theorem linkedWith_src (h : Embedded cfg cs q) (hsrc : ∀ u, q.graph.Builds t u ↔ u = bytes "sane_src")
    {static : Name → Prop} (hlinked : q.graph.LinkedWith static t v) : ComesWithSrc cfg q static v := by
  refine LinkGraph.linkedWith_of_closed (S := ComesWithSrc cfg q static) ?_ ?_ hlinked
  · intro u hu
    rw [(hsrc u).mp hu]
    exact Or.inl (by decide)
  · intro u v hu hhands
    rcases hu with hfour | ⟨-, rfl⟩ | ⟨hstatic, hfind, w, hw, hpath⟩
    · have hmembers : ∀ u ∈ ["sane_src", "sane_core", "_sane_base", "sane_deps"].map bytes,
          u ∈ members ∧ u ≠ bytes "sane" := by decide
      obtain ⟨hmem, hne⟩ := hmembers u hfour
      exact (h.hands_cases hmem hne hhands).imp_right (Or.imp_right fun hfmt =>
        ⟨hfmt.1, hfmt.2.1, v, hfmt.2.2, .refl⟩)
    · exact (h.hands_cases (by decide) (by decide) hhands).imp_right (Or.imp_right fun hfmt =>
        ⟨hfmt.1, hfmt.2.1, v, hfmt.2.2, .refl⟩)
    · exact Or.inr (Or.inr ⟨hstatic, hfind, w, hw, hpath.tail hhands⟩)

/-- **What the sources pass on.**  A target that links the sources of the library and nothing else gets usage
requirements from these, the core, what is common to them, and the dependencies: not from the options of
development, and not from `fmt`.  It is linked with these four; with the options of development too where the
sources are a static library; and with `fmt` and what comes with it where the dependencies are one. -/
theorem needs_src_iff (h : Embedded cfg cs q) (hsrc : ∀ u, q.graph.Builds t u ↔ u = bytes "sane_src")
    (static : Name → Prop) (v : Name) :
    (q.graph.Needs t v ↔ v ∈ ["sane_src", "sane_core", "_sane_base", "sane_deps"].map bytes) ∧
    (q.graph.LinkedWith static t v ↔ ComesWithSrc cfg q static v) := by
  have hneeds : q.graph.Needs t (bytes "sane_src") := ((hsrc _).mpr rfl).needs
  obtain ⟨hcore, hbase, hdeps⟩ := h.needs_of_src hneeds
  have hfour : v ∈ ["sane_src", "sane_core", "_sane_base", "sane_deps"].map bytes → q.graph.Needs t v := by
    intro hv
    simp only [List.map_cons, List.map_nil, List.mem_cons, List.not_mem_nil, or_false] at hv
    rcases hv with rfl | rfl | rfl | rfl
    · exact hneeds
    · exact hcore
    · exact hbase
    · exact hdeps
  refine ⟨⟨fun hv => ?_, hfour⟩, ⟨h.linkedWith_src hsrc, fun hv => ?_⟩⟩
  · -- for what is needed no library counts as static
    rcases h.linkedWith_src hsrc (LinkGraph.needs_iff_linkedWith.mp hv) with hmem | ⟨hno, -⟩ | ⟨hno, -⟩
    · exact hmem
    · exact hno.elim
    · exact hno.elim
  · rcases hv with hmem | ⟨hstatic, rfl⟩ | ⟨hstatic, hfind, w, hw, hpath⟩
    · exact (hfour hmem).linkedWith static
    · refine (hneeds.linkedWith static).tail ⟨.PRIVATE, Or.inr hstatic, bytes "wndx::sane::dev", ?_, ?_⟩
      · exact h.links_of_mem (List.mem_append_left _ (by decide))
      · exact h.resolve_of_mem (by decide)
    · have hfmt : q.graph.LinkedWith static t w := by
        refine (hdeps.linkedWith static).tail ⟨.PRIVATE, Or.inr hstatic, bytes "fmt::fmt", ?_, hw⟩
        refine h.links_of_mem (List.mem_append_right _ ?_)
        rw [if_pos hfind]
        exact List.mem_singleton_self _
      obtain ⟨u, hbuilds, hway⟩ := hfmt
      exact ⟨u, hbuilds, hway.trans hpath⟩

/-- With static libraries, the application is linked with `fmt`, of which it gets no headers. -/
theorem needs_src_iff_srcUser : ∃ q, Embedded debugBuild (srcUser debugBuild) q ∧
    q.graph.Needs (bytes "app") (bytes "sane_core") ∧ ¬ q.graph.Needs (bytes "app") (bytes "sane_dev") ∧
    ¬ q.graph.Needs (bytes "app") (bytes "fmt::fmt") ∧
    q.graph.LinkedWith (fun _ => True) (bytes "app") (bytes "fmt::fmt") := by
  obtain ⟨q, hq⟩ := embedded_srcUser
  have hresolve : q.resolve (bytes "wndx::sane::src") = some (bytes "sane_src") := hq.resolve_of_mem (by decide)
  have hmem : .addTarget (bytes "fmt::fmt") .imported ∈ srcUser debugBuild :=
    List.mem_append_right _ List.mem_cons_self
  have hfmt : q.resolve (bytes "fmt::fmt") = some (bytes "fmt::fmt") :=
    (resolve_run hq.run ..).mpr (Or.inr ⟨_, hmem, rfl⟩)
  have hlink : (bytes "app", .PRIVATE, bytes "wndx::sane::src") ∈ q.links :=
    (mem_links_run hq.run ..).mpr (Or.inr (List.mem_append_right _ (by simp)))
  have hsrc : ∀ u, q.graph.Builds (bytes "app") u ↔ u = bytes "sane_src" := by
    intro u
    constructor
    · intro ⟨scope, _, item, hl, hres⟩
      have happ := ((mem_links_run hq.run ..).mp hl).resolve_left List.not_mem_nil
      rw [(link_srcUser happ (by decide)).2.2, hresolve] at hres
      exact (Option.some.inj hres).symm
    · intro hu
      exact ⟨.PRIVATE, rfl, _, hlink, hu ▸ hresolve⟩
  have hiff := hq.needs_src_iff hsrc (fun _ => True)
  refine ⟨q, hq, (hiff _).1.mpr (by decide), fun h => absurd ((hiff _).1.mp h) (by decide),
    fun h => absurd ((hiff _).1.mp h) (by decide), (hiff _).2.mpr (Or.inr (Or.inr ?_))⟩
  exact ⟨trivial, rfl, _, hfmt, .refl⟩

end Embedded

end WndxSane.CMake
