import WndxSane.UsedTargets

/-!
# Where the targets can be made

A command is an error when it gives a name that is taken, or works on a target that is not there yet.  The
names that commands give, and an order in which none of them works on a target before it is made, say where
they run.

* `run_of_ordered`: ordered commands that give free names are no error.
* **`create_targets_iff`**: where `wndx_sane_create_targets` is no error.
-/

namespace WndxSane.CMake

open Usage

variable {cfg : Config} {pfx lib : Name} {cs cs' : List Command} {p q : Project} {c : Command}
  {ds : List (Name × Entry)}

/-! ### Names -/

/-- The name that a command gives, and what it stands for from then on. -/
def Command.gives : Command → Option (Name × Entry)
  | .addTarget n kind => some (n, .target kind)
  | .addAlias n t => some (n, .alias t)
  | _ => none

/-- The names that commands give. -/
def given (cs : List Command) : List (Name × Entry) := cs.filterMap Command.gives

theorem given_cons_of_none (h : c.gives = none) : given (c :: cs) = given cs := List.filterMap_cons_none h

theorem given_cons_of_some {d : Name × Entry} (h : c.gives = some d) : given (c :: cs) = d :: given cs :=
  List.filterMap_cons_some h

theorem given_cons (c : Command) (cs : List Command) : given (c :: cs) = c.gives.toList ++ given cs := by
  cases hgives : c.gives with
  | none => exact given_cons_of_none hgives
  | some d => exact given_cons_of_some hgives

/-- A command works on a target among `ds`, in a way that its kind allows, and asks for known features only. -/
def Command.Fits (known : Name → Bool) (ds : List (Name × Entry)) : Command → Prop
  | .addTarget n kind => kind = .imported ∨ 58 ∉ n
  | .addAlias _ t => ∃ kind, (t, .target kind) ∈ ds
  | .link t scope _ => (t, .target .compiled) ∈ ds ∨ (t, .target .interface) ∈ ds ∧ scope = .INTERFACE
  | .require t scope reqs => reqs.all (Requirement.knownTo known) = true ∧
    ((t, .target .compiled) ∈ ds ∨ (t, .target .interface) ∈ ds ∧ scope = .INTERFACE)

/-- Every command works on a target among `ds`, or one made before it. -/
def Ordered (known : Name → Bool) : List (Name × Entry) → List Command → Prop
  | _, [] => True
  | ds, c :: cs => c.Fits known ds ∧ Ordered known (ds ++ c.gives.toList) cs

/-- The name can still be given. -/
def Project.Free (p : Project) (n : Name) : Prop := p.entries n = none ∧ nameOk n = true

theorem entries_run_of_gives {n : Name} {e : Entry} (h : c.gives = some (n, e)) (m : Name) :
    (c.run p).entries m = if m = n then some e else p.entries m := by
  cases c with
  | addTarget n' kind =>
    cases h
    exact Function.update_apply ..
  | addAlias n' t =>
    cases h
    exact Function.update_apply ..
  | link t scope item => exact absurd h (Option.some_ne_none _).symm
  | require t scope reqs => exact absurd h (Option.some_ne_none _).symm

theorem entries_run_of_none (h : c.gives = none) : (c.run p).entries = p.entries := by
  cases c with
  | addTarget n kind => exact absurd h (Option.some_ne_none _)
  | addAlias n t => exact absurd h (Option.some_ne_none _)
  | link t scope item => rfl
  | require t scope reqs => rfl

theorem known_run (c : Command) (p : Project) : (c.run p).known = p.known := by
  cases c <;> rfl

theorem enabled_of_fits (hds : ∀ d ∈ ds, p.entries d.1 = some d.2) (hfits : c.Fits p.known ds)
    (hfree : ∀ d, c.gives = some d → p.Free d.1) : c.enabled p = true := by
  cases c with
  | addTarget n kind =>
    obtain ⟨hnone, hok⟩ := hfree _ rfl
    have hcolon : kind = .imported ∨ 58 ∉ n := hfits
    simp [Command.enabled, hok, hnone, hcolon]
  | addAlias n t =>
    obtain ⟨hnone, hok⟩ := hfree _ rfl
    obtain ⟨kind, hmem⟩ := hfits
    have ht : p.entries t = some (.target kind) := hds _ hmem
    simp [Command.enabled, hok, hnone, ht]
  | link t scope item =>
    rcases hfits with hmem | ⟨hmem, rfl⟩
    · have ht : p.entries t = some (.target .compiled) := hds _ hmem
      simp [Command.enabled, ht]
    · have ht : p.entries t = some (.target .interface) := hds _ hmem
      simp [Command.enabled, ht]
  | require t scope reqs =>
    obtain ⟨hknown, hmem | ⟨hmem, rfl⟩⟩ := hfits
    · have ht : p.entries t = some (.target .compiled) := hds _ hmem
      simp only [Command.enabled, ht, hknown, Bool.or_true, Bool.and_true]
    · have ht : p.entries t = some (.target .interface) := hds _ hmem
      simp [Command.enabled, ht, hknown]

/-- A command that is no error gives a free name. -/
theorem free_of_enabled (hen : c.enabled p = true) {d : Name × Entry} (hgives : c.gives = some d) :
    p.Free d.1 := by
  cases c with
  | addTarget n kind =>
    cases hgives
    simp only [Command.enabled, Bool.and_eq_true, decide_eq_true_eq] at hen
    obtain ⟨⟨hok, hnone⟩, -⟩ := hen
    exact ⟨hnone, hok⟩
  | addAlias n t =>
    cases hgives
    simp only [Command.enabled, Bool.and_eq_true, decide_eq_true_eq] at hen
    obtain ⟨⟨hok, hnone⟩, -⟩ := hen
    exact ⟨hnone, hok⟩
  | link t scope item => exact absurd hgives (Option.some_ne_none _).symm
  | require t scope reqs => exact absurd hgives (Option.some_ne_none _).symm

/-- **Ordered commands** that give free names, each once, are no error. -/
theorem run_of_ordered (hds : ∀ d ∈ ds, p.entries d.1 = some d.2) (hord : Ordered p.known ds cs)
    (hnodup : ((given cs).map Prod.fst).Nodup) (hfree : ∀ d ∈ given cs, p.Free d.1) :
    ∃ q, Transition.run step p cs = some q := by
  induction cs generalizing p ds with
  | nil => exact ⟨p, rfl⟩
  | cons c cs ih =>
    obtain ⟨hfits, hrest⟩ := hord
    rw [← known_run c] at hrest
    have hen : c.enabled p = true := enabled_of_fits hds hfits fun d hd =>
      hfree d (List.mem_filterMap.mpr ⟨c, List.mem_cons_self, hd⟩)
    rw [Transition.run_cons, (step_eq_some_iff ..).mpr ⟨hen, rfl⟩, Option.bind_some]
    cases hgives : c.gives with
    | none =>
      rw [given_cons_of_none hgives] at hnodup hfree
      rw [hgives, Option.toList_none, List.append_nil] at hrest
      refine ih ?_ hrest hnodup fun d hd => ?_
      · rw [entries_run_of_none hgives]
        exact hds
      · rw [Project.Free, entries_run_of_none hgives]
        exact hfree d hd
    | some d =>
      obtain ⟨n, e⟩ := d
      rw [given_cons_of_some hgives] at hnodup hfree
      rw [hgives, Option.toList_some] at hrest
      have hnone := (hfree _ List.mem_cons_self).1
      obtain ⟨hnew, hnodup⟩ := List.nodup_cons.mp hnodup
      refine ih (fun d hd => ?_) hrest hnodup fun d hd => ?_
      · rw [entries_run_of_gives hgives]
        rcases List.mem_append.mp hd with hd | hd
        · rw [if_neg]
          · exact hds d hd
          · intro heq
            rw [← heq, hds d hd] at hnone
            exact Option.some_ne_none _ hnone
        · rw [List.mem_singleton.mp hd, if_pos rfl]
      · rw [Project.Free, entries_run_of_gives hgives, if_neg]
        · exact hfree d (List.mem_cons_of_mem _ hd)
        · intro heq
          exact hnew (List.mem_map.mpr ⟨d, hd, heq⟩)

/-- A feature that a target is built with in a run is known. -/
theorem known_of_run (h : Transition.run step p cs = some q) {t : Name} {scope : Scope}
    {reqs : List Requirement} (hc : .require t scope reqs ∈ cs) (hbuilds : scope.builds = true) {std : Name}
    (hstd : .feature std ∈ reqs) : p.known std = true := by
  induction cs generalizing p with
  | nil => exact absurd hc List.not_mem_nil
  | cons c cs ih =>
    obtain ⟨u, hu, hrest⟩ := Transition.run_cons_some h
    obtain ⟨hen, rfl⟩ := (step_eq_some_iff ..).mp hu
    rcases List.mem_cons.mp hc with rfl | hc
    · rw [Command.enabled, Bool.and_eq_true, hbuilds, Bool.not_true, Bool.false_or] at hen
      exact List.all_eq_true.mp hen.1 _ hstd
    · rw [← known_run c p]
      exact ih hrest hc

/-- What is given in a run was free before it. -/
theorem free_of_run (h : Transition.run step p cs = some q) {d : Name × Entry} (hd : d ∈ given cs) :
    p.Free d.1 := by
  induction cs generalizing p with
  | nil => exact absurd hd List.not_mem_nil
  | cons c cs ih =>
    obtain ⟨u, hu, hrest⟩ := Transition.run_cons_some h
    obtain ⟨hen, rfl⟩ := (step_eq_some_iff ..).mp hu
    cases hgives : c.gives with
    | none =>
      rw [given_cons_of_none hgives] at hd
      have hfree := ih hrest hd
      rwa [Project.Free, entries_run_of_none hgives] at hfree
    | some d' =>
      obtain ⟨n, e⟩ := d'
      rw [given_cons_of_some hgives] at hd
      rcases List.mem_cons.mp hd with rfl | hd
      · exact free_of_enabled hen hgives
      · obtain ⟨hnone, hok⟩ := ih hrest hd
        rw [entries_run_of_gives hgives] at hnone
        split at hnone
        · exact absurd hnone (Option.some_ne_none _)
        · exact ⟨hnone, hok⟩

theorem ordered_append {known : Name → Bool} :
    Ordered known ds (cs ++ cs') ↔ Ordered known ds cs ∧ Ordered known (ds ++ given cs) cs' := by
  induction cs generalizing ds with
  | nil => simp [Ordered, given]
  | cons c cs ih =>
    rw [List.cons_append, Ordered, Ordered, ih, and_assoc, List.append_assoc, given_cons]

/-- Commands that give no name. -/
theorem ordered_of_fits {known : Name → Bool} (h : ∀ c ∈ cs, c.gives = none ∧ c.Fits known ds) :
    Ordered known ds cs := by
  induction cs with
  | nil => trivial
  | cons c cs ih =>
    obtain ⟨hgives, hfits⟩ := h c List.mem_cons_self
    refine ⟨hfits, ?_⟩
    rw [hgives, Option.toList_none, List.append_nil]
    exact ih fun c' hc' => h c' (List.mem_cons_of_mem c hc')

/-! ### `wndx_sane_create_targets` -/

theorem given_createTargets (cfg : Config) (pfx lib : Name) :
    given (createTargets cfg pfx lib) = given (createLibraries cfg pfx lib) :=
  filterMap_createTargets (fun _ _ _ => rfl) cfg pfx lib

theorem names_createTargets (cfg : Config) (pfx lib : Name) :
    (given (createTargets cfg pfx lib)).map Prod.fst = (definitions pfx lib).map Prod.fst := by
  rw [given_createTargets]
  rfl

theorem colon_notMem : 58 ∉ bytes "_" ∧ 58 ∉ bytes "_base" ∧ 58 ∉ bytes "_deps" ∧ 58 ∉ bytes "_src" ∧
    58 ∉ bytes "_core" ∧ 58 ∉ bytes "_dev" := by decide

/-- Every target is made before it is worked on. -/
theorem ordered_createLibraries (cfg : Config) (pfx : Name) (h : 58 ∉ lib) {known : Name → Bool}
    (hstd : known (cxxStd cfg) = true) : Ordered known [] (createLibraries cfg pfx lib) := by
  simp [Ordered, createLibraries, addAlias, Command.Fits, Command.gives, baseTarget, depsTarget, srcTarget,
    coreTarget, devTarget, h, colon_notMem, exists_or, Requirement.knownTo, hstd]

/-- The name of a target is no name in a name space. -/
theorem ne_qualified (h : 58 ∉ lib) (s₁ : List Byte) {s₂ : List Byte} (h₁ : 58 ∉ s₁) (h₂ : 58 ∉ s₂)
    (m : Name) : s₁ ++ lib ++ s₂ ≠ qualified pfx m := by
  intro heq
  have hmem : 58 ∉ s₁ ++ lib ++ s₂ := by simp [h₁, h₂, h]
  rw [heq] at hmem
  simp [qualified, bytes] at hmem

/-- The eleven names are different. -/
theorem nodup_names (pfx : Name) (h : 58 ∉ lib) : ((definitions pfx lib).map Prod.fst).Nodup := by
  obtain ⟨hunder, hbaseEnd, hdepsEnd, hsrcEnd, hcoreEnd, hdevEnd⟩ := colon_notMem
  have hbase : ∀ m, baseTarget lib ≠ qualified pfx m := ne_qualified h _ hunder hbaseEnd
  have hdeps : ∀ m, depsTarget lib ≠ qualified pfx m := ne_qualified h [] List.not_mem_nil hdepsEnd
  have hsrc : ∀ m, srcTarget lib ≠ qualified pfx m := ne_qualified h [] List.not_mem_nil hsrcEnd
  have hcore : ∀ m, coreTarget lib ≠ qualified pfx m := ne_qualified h [] List.not_mem_nil hcoreEnd
  have hdev : ∀ m, devTarget lib ≠ qualified pfx m := ne_qualified h [] List.not_mem_nil hdevEnd
  have hlib : ∀ m, lib ≠ qualified pfx m := by
    intro m
    have hne : [] ++ lib ++ [] ≠ qualified pfx m := ne_qualified h [] List.not_mem_nil List.not_mem_nil m
    rwa [List.nil_append, List.append_nil] at hne
  have hq : ∀ m n, qualified pfx m = qualified pfx n ↔ m = n := fun m n => List.append_right_inj _
  have hlong : ∀ s : List Byte, s.length < 6 → baseTarget lib ≠ lib ++ s := by
    intro s hs heq
    have hlen := congrArg List.length heq
    simp [baseTarget, bytes] at hlen
    omega
  have hself : baseTarget lib ≠ lib := by simpa using hlong [] (by decide)
  simp only [definitions, List.map_cons, List.map_nil, List.nodup_cons, List.mem_cons, List.not_mem_nil,
    or_false, not_or, hbase, hdeps, hsrc, hcore, hdev, hlib, fun m => (hsrc m).symm, fun m => (hcore m).symm,
    fun m => (hdev m).symm, fun m => (hlib m).symm, hq, hself, not_false_eq_true, true_and, and_true,
    List.nodup_nil]
  simp [depsTarget, srcTarget, coreTarget, devTarget, qualified, bytes, hlong]

theorem mem_given_createLibraries (cfg : Config) (pfx lib : Name) :
    (devTarget lib, .target .interface) ∈ given (createLibraries cfg pfx lib) ∧
      (depsTarget lib, .target .compiled) ∈ given (createLibraries cfg pfx lib) ∧
        (srcTarget lib, .target .compiled) ∈ given (createLibraries cfg pfx lib) := by
  simp [given, createLibraries, addAlias, Command.gives]

theorem ordered_createTargets (cfg : Config) (pfx : Name) (h : 58 ∉ lib) {known : Name → Bool}
    (hstd : known (cxxStd cfg) = true) : Ordered known [] (createTargets cfg pfx lib) := by
  obtain ⟨hdev, hdeps, hsrc⟩ := mem_given_createLibraries cfg pfx lib
  rw [createTargets, List.append_assoc, List.append_assoc, ← List.append_assoc (commonOptions cfg lib),
    ordered_append]
  refine ⟨ordered_createLibraries cfg pfx h hstd, ordered_of_fits fun c hc => ?_⟩
  have hflags : ∀ flags : List Name, (flags.map Requirement.option).all (Requirement.knownTo known) = true := by
    simp [Requirement.knownTo]
  rw [List.nil_append]
  rcases options_require hc with ⟨flags, rfl⟩ | ⟨-, rfl⟩ | ⟨defs, rfl, hdefs⟩
  · exact ⟨rfl, hflags flags, Or.inr ⟨hdev, rfl⟩⟩
  · exact ⟨rfl, hflags _, Or.inl hdeps⟩
  · refine ⟨rfl, List.all_eq_true.mpr fun r hr => ?_, Or.inl hsrc⟩
    obtain ⟨name, hname⟩ := hdefs r hr
    rw [hname]
    rfl

/-- **Where the targets can be made.**  Whatever the compiler, the type of build and the commands before,
`wndx_sane_create_targets` is no error if and only if CMake knows the compiler to have the language standard,
the name of the library has no colon, and each of the eleven names it gives is allowed and not taken. -/
theorem create_targets_iff (cfg : Config) (pfx lib : Name) (p : Project) :
    (∃ q, Transition.run step p (createTargets cfg pfx lib) = some q) ↔
      p.known (cxxStd cfg) = true ∧ 58 ∉ lib ∧ ∀ d ∈ definitions pfx lib, p.Free d.1 := by
  have hnames : (∀ d ∈ given (createTargets cfg pfx lib), p.Free d.1) ↔
      ∀ d ∈ definitions pfx lib, p.Free d.1 := by
    rw [← List.forall_mem_map (f := Prod.fst) (P := p.Free), names_createTargets, List.forall_mem_map]
  constructor
  · rintro ⟨q, hrun⟩
    have hmem : .addTarget lib .interface ∈ createTargets cfg pfx lib :=
      mem_createTargets (by simp [createLibraries])
    -- the dependencies are built with the standard themselves
    have hstd : .require (depsTarget lib) .PUBLIC [.feature (cxxStd cfg)] ∈ createTargets cfg pfx lib :=
      mem_createTargets (by simp [createLibraries])
    exact ⟨known_of_run hrun hstd rfl (List.mem_singleton_self _), colon_free hrun hmem (by decide),
      hnames.mp fun d hd => free_of_run hrun hd⟩
  · rintro ⟨hknown, hcolon, hfree⟩
    refine run_of_ordered (fun d hd => absurd hd List.not_mem_nil)
      (ordered_createTargets cfg pfx hcolon hknown) ?_ (hnames.mpr hfree)
    rw [names_createTargets]
    exact nodup_names pfx hcolon

end WndxSane.CMake
