import WndxSane.Pipeline

/-!
# How the build script ends

Whatever its commands return, the script runs the commands of the run in which everything succeeds, in their
order, up to the first that fails.

* `step_ideal`: a step that succeeds is the step of the ideal run.
* **`script_ends`**: the commands run, and the exit status.
* **`preConfigure_dir`**: what is left of the build directory when the configure step begins.
* **`ctr_failed`**: with `ctr`, tests that fail end the script and are not run again.
-/

namespace WndxSane.BuildScript

open CMake (bytes)
open Shell

variable {e : Env} {o : OptState}

/-- Everything succeeds. -/
def Env.ideal (e : Env) : Env := { e with status := fun _ _ => 0, executable := fun _ => true }

/-- At the start of `pre_configure`. -/
def Sh.start (dir : Option (List Word)) : Sh := ⟨[], dir, 0⟩

theorem exec_ideal {argv : List Word} {effect : Option (List Word) → Option (List Word)} {s : Sh}
    (h : (e.exec argv effect s).1 = 0) : e.ideal.exec argv effect s = e.exec argv effect s := by
  have hstatus : e.status s.ran argv = 0 := h
  simp only [Env.exec, hstatus]
  rfl

theorem notified_ideal {u : Urgency} {arg : Word} {s : Sh} (h : (e.notified u arg s).1 = 0) :
    e.ideal.notified u arg s = e.notified u arg s := by
  unfold Env.notified at h ⊢
  by_cases hn : e.atPath (bytes "notify-send") = true
  · rw [if_pos hn] at h ⊢
    rw [← exec_ideal h]
    exact if_pos hn
  · rw [if_neg hn]
    exact if_neg hn

/-- A step that succeeds is the step of the ideal run. -/
theorem step_ideal {b : Step} {s : Sh} (h : (e.step s b).1 = 0) : e.ideal.step s b = e.step s b := by
  cases b with
  | rmCache =>
    simp only [Env.step] at h ⊢
    split
    · rename_i hc
      rw [if_pos hc] at h
      exact exec_ideal h
    · rfl
  | rmDir =>
    simp only [Env.step] at h ⊢
    split
    · rename_i hc
      rw [if_pos hc] at h
      exact exec_ideal h
    · rfl
  | makeDir =>
    simp only [Env.step] at h ⊢
    split
    · rfl
    · rename_i hc
      rw [if_neg hc] at h
      exact exec_ideal h
  | enter =>
    simp only [Env.step] at h ⊢
    have hexec : (e.exec [bytes "cd", e.buildDir] id s).1 = 0 := by
      by_contra hn
      rw [if_neg hn] at h
      exact absurd h (by decide)
    rw [← exec_ideal hexec]
    rfl
  | command argv => exact exec_ideal h
  | staged argv message ignored =>
    simp only [Env.step] at h ⊢
    have hexec : (e.exec argv id s).1 = 0 := by
      by_contra hn
      rw [if_neg hn] at h
      split_ifs at h with hm
      · exact hn h
      · exact hm (Or.inl h)
    rw [exec_ideal hexec, if_pos hexec, if_pos hexec]
  | gtest argv =>
    simp only [Env.step] at h ⊢
    have hx : e.executable s.ran = true := by
      by_contra hn
      rw [if_neg hn] at h
      exact absurd h (Nat.succ_ne_zero 4)
    rw [if_pos hx] at h ⊢
    exact exec_ideal h
  | notify arg => exact notified_ideal h

/-- Steps that succeed are those of the ideal run. -/
theorem runSteps_ideal {bs : List Step} {s : Sh} (h : (runSteps e.step bs s).1 = 0) :
    runSteps e.ideal.step bs s = runSteps e.step bs s :=
  runSteps_eq_of_agree (fun _ _ hb => step_ideal hb) h

theorem ran_exec (argv : List Word) (effect : Option (List Word) → Option (List Word)) (s : Sh) :
    (e.exec argv effect s).2.ran = s.ran ++ [⟨argv, (e.exec argv effect s).1⟩] := rfl

theorem ran_notified (u : Urgency) (arg : Word) (s : Sh) :
    (e.notified u arg s).2.ran = s.ran ++
      if e.atPath (bytes "notify-send") then [⟨e.notifyArgv u arg, (e.notified u arg s).1⟩] else [] := by
  unfold Env.notified
  split
  · rfl
  · exact (List.append_nil s.ran).symm

/-- A step only adds commands. -/
theorem prefix_step (s : Sh) (b : Step) : s.ran <+: (e.step s b).2.ran := by
  have hexec : ∀ argv effect (s : Sh), s.ran <+: (e.exec argv effect s).2.ran := fun _ _ _ =>
    List.prefix_append ..
  have hnotified : ∀ u arg (s : Sh), s.ran <+: (e.notified u arg s).2.ran := by
    intro u arg s
    rw [ran_notified]
    exact List.prefix_append ..
  cases b with
  | rmCache =>
    simp only [Env.step]
    split
    · exact hexec _ _ s
    · exact List.prefix_rfl
  | rmDir =>
    simp only [Env.step]
    split
    · exact hexec _ _ s
    · exact List.prefix_rfl
  | makeDir =>
    simp only [Env.step]
    split
    · exact List.prefix_rfl
    · exact hexec _ _ s
  | enter => exact hexec [bytes "cd", e.buildDir] id s
  | command argv => exact hexec argv id s
  | staged argv message ignored =>
    simp only [Env.step]
    split
    · exact hexec argv id s
    · exact (hexec argv id s).trans
        (hnotified .error message { (e.exec argv id s).2 with ec := (e.exec argv id s).1 })
  | gtest argv =>
    simp only [Env.step]
    split
    · exact hexec argv id s
    · exact List.prefix_rfl
  | notify arg => exact hnotified .other arg { s with ec := 0 }

theorem prefix_runSteps (bs : List Step) (s : Sh) : s.ran <+: (runSteps e.step bs s).2.ran :=
  runSteps_invariant (I := fun t => s.ran <+: t.ran) (fun t b h => h.trans (prefix_step t b)) bs
    List.prefix_rfl

/-- A step of the ideal run succeeds. -/
theorem ideal_step (b : Step) (s : Sh) : (e.ideal.step s b).1 = 0 := by
  cases b with
  | rmCache => simp only [Env.step]; split <;> rfl
  | rmDir => simp only [Env.step]; split <;> rfl
  | makeDir => simp only [Env.step]; split <;> rfl
  | enter => rfl
  | command argv => rfl
  | staged argv message ignored => rfl
  | gtest argv => rfl
  | notify arg => simp only [Env.step, Env.notified]; split <;> rfl

theorem ideal_runSteps (bs : List Step) (s : Sh) : (runSteps e.ideal.step bs s).1 = 0 := by
  induction bs generalizing s with
  | nil => rfl
  | cons b bs ih => rw [runSteps_cons (ideal_step b s), ih]

/-! ### How the script ends -/

/-- The exit status and the commands that have been run, `all` being those of the ideal run: they are
completed; or the next of them fails, and is notified of where `notifies` allows it. -/
inductive Ends (e : Env) (notifies : Bool) (all : List Run) : ℕ → List Run → Prop
  | completed : Ends e notifies all 0 all
  | failed (ok : List Run) (argv : List Word) (n k : ℕ) (hn : n ≠ 0) (hall : ok ++ [⟨argv, 0⟩] <+: all)
      (hk : k = n ∨ argv = [bytes "cd", e.buildDir] ∧ k = 11) : Ends e notifies all k (ok ++ [⟨argv, n⟩])
  | notified (hnotifies : notifies = true) (ok : List Run) (argv : List Word) (message : Word) (n m k : ℕ)
      (hn : n ≠ 0) (hall : ok ++ [⟨argv, 0⟩] <+: all) (hk : k = n ∨ k = m ∧ m ≠ 0) :
      Ends e notifies all k (ok ++ [⟨argv, n⟩, ⟨e.notifyArgv .error message, m⟩])

/-- A step whose failure is notified of. -/
def Step.notifies : Step → Bool
  | .staged .. => true
  | _ => false

theorem Ends.mono {notifies notifies' : Bool} {all ran : List Run} {k : ℕ} (h : Ends e notifies all k ran)
    (hle : notifies = true → notifies' = true) : Ends e notifies' all k ran := by
  cases h with
  | completed => exact .completed
  | failed ok argv n k hn hall hk => exact .failed ok argv n k hn hall hk
  | notified hnotifies ok argv message n m k hn hall hk =>
    exact .notified (hle hnotifies) ok argv message n m k hn hall hk

/-- The test binary `argv` comes next and is missing. -/
structure NoBinary (e : Env) (all : List Run) (argv : List Word) (k : ℕ) (ran : List Run) : Prop where
  status : k = 5
  missing : e.executable ran = false
  next : ran ++ [⟨argv, 0⟩] <+: all

/-- A step that fails; with the test binary, it may be because that is missing. -/
theorem ends_of_step {b : Step} {s : Sh} {all : List Run} (h : (e.step s b).1 ≠ 0)
    (hall : (e.ideal.step s b).2.ran <+: all) : Ends e b.notifies all (e.step s b).1 (e.step s b).2.ran ∨
      ∃ argv, b = .gtest argv ∧ NoBinary e all argv (e.step s b).1 (e.step s b).2.ran := by
  have hexec : ∀ argv effect, (e.exec argv effect s).1 ≠ 0 → (e.ideal.exec argv effect s).2.ran <+: all →
      Ends e b.notifies all (e.exec argv effect s).1 (e.exec argv effect s).2.ran := fun argv effect hn hpre =>
    .failed s.ran argv _ _ hn hpre (Or.inl rfl)
  cases b with
  | rmCache =>
    simp only [Env.step] at h hall ⊢
    split_ifs at h hall ⊢ with hc
    · exact Or.inl (hexec _ _ h hall)
    · exact absurd rfl h
  | rmDir =>
    simp only [Env.step] at h hall ⊢
    split_ifs at h hall ⊢ with hc
    · exact Or.inl (hexec _ _ h hall)
    · exact absurd rfl h
  | makeDir =>
    simp only [Env.step] at h hall ⊢
    split_ifs at h hall ⊢ with hc
    · exact absurd rfl h
    · exact Or.inl (hexec _ _ h hall)
  | enter =>
    have hn : (e.exec [bytes "cd", e.buildDir] id s).1 ≠ 0 := fun hz => h (if_pos hz)
    exact Or.inl (.failed s.ran _ _ _ hn hall (Or.inr ⟨rfl, if_neg hn⟩))
  | command argv => exact Or.inl (hexec argv id h hall)
  | staged argv message ignored =>
    refine Or.inl ?_
    have hn : (e.exec argv id s).1 ≠ 0 := by
      intro hz
      refine h ?_
      simp only [Env.step, hz, if_pos]
    have hpre : s.ran ++ [⟨argv, 0⟩] <+: all := hall
    simp only [Env.step, if_neg hn] at h ⊢
    rw [ran_notified, ran_exec, List.append_assoc]
    by_cases hsend : e.atPath (bytes "notify-send") = true
    · rw [if_pos hsend]
      refine .notified rfl s.ran argv message _ _ _ hn hpre ?_
      split_ifs with hm
      · exact Or.inl rfl
      · exact Or.inr ⟨rfl, fun hz => hm (Or.inl hz)⟩
    · have hquiet : ∀ s : Sh, e.notified .error message s = (0, s) := fun s => if_neg hsend
      rw [if_neg hsend, hquiet]
      exact .failed s.ran argv _ _ hn hpre (Or.inl (if_pos (Or.inl rfl)))
  | gtest argv =>
    have hpre : s.ran ++ [⟨argv, 0⟩] <+: all := hall
    simp only [Env.step] at h ⊢
    split_ifs at h ⊢ with hx
    · exact Or.inl (hexec argv id h hpre)
    · exact Or.inr ⟨argv, rfl, rfl, Bool.eq_false_iff.mpr hx, hpre⟩
  | notify arg =>
    simp only [Env.step, Env.notified] at h ⊢
    split_ifs at h ⊢ with hsend
    · have hpre : (e.ideal.exec (e.notifyArgv .other arg) id { s with ec := 0 }).2.ran <+: all := by
        rw [← show e.ideal.step s (.notify arg) =
          e.ideal.exec (e.notifyArgv .other arg) id { s with ec := 0 } from if_pos hsend]
        exact hall
      exact Or.inl (.failed s.ran _ _ _ h hpre (Or.inl rfl))
    · exact absurd rfl h

/-- Steps run the commands of the ideal run in their order, up to the first that fails, or to a test binary
that is missing. -/
theorem ends_runSteps (bs : List Step) (s : Sh) :
    Ends e (bs.any Step.notifies) (runSteps e.ideal.step bs s).2.ran (runSteps e.step bs s).1
        (runSteps e.step bs s).2.ran ∨
      ∃ argv, Step.gtest argv ∈ bs ∧ NoBinary e (runSteps e.ideal.step bs s).2.ran argv
        (runSteps e.step bs s).1 (runSteps e.step bs s).2.ran := by
  by_cases h : (runSteps e.step bs s).1 = 0
  · rw [h, runSteps_ideal h]
    exact Or.inl .completed
  · obtain ⟨pre, b, post, rfl, hpre, hb, heq⟩ := runSteps_failed h
    rw [heq]
    have hideal : (e.ideal.step (runSteps e.step pre s).2 b).2.ran <+:
        (runSteps e.ideal.step (pre ++ b :: post) s).2.ran := by
      -- the ideal run comes to the same step, and goes on
      rw [← runSteps_ideal hpre, runSteps_append, if_pos (ideal_runSteps pre s),
        runSteps_cons (ideal_step b _)]
      exact prefix_runSteps post _
    rcases ends_of_step hb hideal with hends | ⟨argv, rfl, hmissing⟩
    · have hb : b ∈ pre ++ b :: post := List.mem_append_right pre List.mem_cons_self
      exact Or.inl (hends.mono fun hnotifies => List.any_eq_true.mpr ⟨b, hb, hnotifies⟩)
    · exact Or.inr ⟨argv, List.mem_append_right pre List.mem_cons_self, hmissing⟩

/-! ### The stages -/

/-- What `pre_configure` runs. -/
def preConfigureArgvs (e : Env) (o : OptState) (dir : Option (List Word)) : List (List Word) :=
  (if o.flags.rmCmakecache && dir.any (·.contains cacheName) then
      [[e.cmake, bytes "-E", bytes "rm", bytes "-f", e.buildDir ++ bytes "/" ++ cacheName]]
    else []) ++
  ((if o.flags.cleanest && dir.isSome then [[e.cmake, bytes "-E", bytes "rm", bytes "-rf", e.buildDir]]
    else []) ++
  ((if o.flags.cleanest || !dir.isSome then [[e.cmake, bytes "-E", bytes "make_directory", e.buildDir]]
    else []) ++
  if e.rel then [[bytes "cd", e.buildDir], [bytes "pwd"]] else []))

/-- What is run before the tests. -/
def buildArgvs (e : Env) (o : OptState) (dir : Option (List Word)) : List (List Word) :=
  preConfigureArgvs e o dir ++ ([e.configureArgv o] ++ [e.buildArgv o])

/-- Commands that succeeded. -/
def succeeded (argvs : List (List Word)) : List Run := argvs.map fun argv => ⟨argv, 0⟩

theorem succeeded_append (as bs : List (List Word)) :
    succeeded (as ++ bs) = succeeded as ++ succeeded bs := List.map_append

/-- What is in the build directory after `pre_configure`. -/
def cleaned (o : OptState) (dir : Option (List Word)) : List Word :=
  if o.flags.cleanest then []
  else if o.flags.rmCmakecache then (dir.getD []).filter (· ≠ cacheName)
  else dir.getD []

/-- What steps of the ideal run add to the commands, and what they do to the build directory. -/
structure Adds (e : Env) (bs : List Step) (argvs : Option (List Word) → List (List Word))
    (effect : Option (List Word) → Option (List Word)) : Prop where
  ran : ∀ s, (runSteps e.ideal.step bs s).2.ran = s.ran ++ succeeded (argvs s.dir)
  dir : ∀ s, (runSteps e.ideal.step bs s).2.dir = effect s.dir

section Adds

variable {bs cs : List Step} {as as' : Option (List Word) → List (List Word)}
  {f f' : Option (List Word) → Option (List Word)}

theorem adds_nil : Adds e [] (fun _ => []) id := ⟨fun s => (List.append_nil s.ran).symm, fun _ => rfl⟩

theorem Adds.append (h : Adds e bs as f) (h' : Adds e cs as' f') :
    Adds e (bs ++ cs) (fun d => as d ++ as' (f d)) (fun d => f' (f d)) := by
  have hrun : ∀ s, runSteps e.ideal.step (bs ++ cs) s =
      runSteps e.ideal.step cs (runSteps e.ideal.step bs s).2 := by
    intro s
    rw [runSteps_append, if_pos (ideal_runSteps bs s)]
  refine ⟨fun s => ?_, fun s => ?_⟩
  · rw [hrun, h'.ran, h.ran, h.dir, succeeded_append, List.append_assoc]
  · rw [hrun, h'.dir, h.dir]

theorem Adds.ite (h : Adds e bs as f) (b : Bool) :
    Adds e (if b then bs else []) (fun d => if b then as d else []) (fun d => if b then f d else d) := by
  cases b with
  | true => exact h
  | false => exact adds_nil

theorem Adds.congr (h : Adds e bs as f) (has : ∀ d, as d = as' d) (hf : ∀ d, f d = f' d) :
    Adds e bs as' f' :=
  ⟨fun s => by rw [h.ran, has], fun s => by rw [h.dir, hf]⟩

/-- A step that runs one command, where it is needed. -/
theorem adds_exec {b : Step} {argv : List Word} (p : Option (List Word) → Bool)
    (h : ∀ s, e.ideal.step s b = if p s.dir then e.ideal.exec argv f s else (0, s)) :
    Adds e [b] (fun d => if p d then [argv] else []) (fun d => if p d then f d else d) := by
  refine ⟨fun s => ?_, fun s => ?_⟩ <;> rw [runSteps_singleton, h]
  · by_cases hp : p s.dir = true
    · rw [if_pos hp, if_pos hp]
      rfl
    · rw [if_neg hp, if_neg hp]
      exact (List.append_nil s.ran).symm
  · by_cases hp : p s.dir = true
    · rw [if_pos hp, if_pos hp]
      rfl
    · rw [if_neg hp, if_neg hp]

theorem adds_command (argv : List Word) : Adds e [.command argv] (fun _ => [argv]) id :=
  ⟨fun _ => rfl, fun _ => rfl⟩

theorem adds_staged (argv : List Word) (message : Word) (ignored : Bool) :
    Adds e [.staged argv message ignored] (fun _ => [argv]) id := ⟨fun _ => rfl, fun _ => rfl⟩

theorem adds_rmCache : Adds e [.rmCache]
    (fun d => if d.any (·.contains cacheName) then
      [[e.cmake, bytes "-E", bytes "rm", bytes "-f", e.buildDir ++ bytes "/" ++ cacheName]] else [])
    (fun d => d.map fun names => names.filter (· ≠ cacheName)) := by
  refine (adds_exec (·.any (·.contains cacheName)) fun _ => rfl).congr (fun _ => rfl) fun d => ?_
  cases d with
  | none => rfl
  | some names =>
    by_cases hc : cacheName ∈ names
    · simp [hc]
    · have hfilter : names.filter (· ≠ cacheName) = names := by
        rw [List.filter_eq_self]
        exact fun name hname => decide_eq_true fun h => hc (h ▸ hname)
      rw [Option.map_some, hfilter]
      simp [hc]

theorem adds_rmDir : Adds e [.rmDir]
    (fun d => if d.isSome then [[e.cmake, bytes "-E", bytes "rm", bytes "-rf", e.buildDir]] else [])
    (fun _ => none) := by
  refine (adds_exec (·.isSome) fun _ => rfl).congr (fun _ => rfl) fun d => ?_
  cases d <;> rfl

theorem adds_makeDir : Adds e [.makeDir]
    (fun d => if !d.isSome then [[e.cmake, bytes "-E", bytes "make_directory", e.buildDir]] else [])
    (fun d => some (d.getD [])) := by
  have hstep : ∀ s, e.ideal.step s .makeDir = if !s.dir.isSome then
      e.ideal.exec [e.cmake, bytes "-E", bytes "make_directory", e.buildDir] (fun d => some (d.getD [])) s
      else (0, s) := by
    intro s
    by_cases hd : s.dir.isSome = true
    · have hn : ¬(!s.dir.isSome) = true := by simp [hd]
      exact (if_pos hd).trans (if_neg hn).symm
    · have hn : (!s.dir.isSome) = true := by simpa using hd
      exact (if_neg hd).trans (if_pos hn).symm
  refine (adds_exec (!·.isSome) hstep).congr (fun _ => rfl) fun d => ?_
  cases d <;> rfl

theorem adds_preConfigure :
    Adds e (preConfigurePlan e o) (preConfigureArgvs e o) (fun d => some (cleaned o d)) := by
  have henter : Adds e [.enter] (fun _ => [[bytes "cd", e.buildDir]]) id := ⟨fun _ => rfl, fun _ => rfl⟩
  have hrel := (henter.append (adds_command [bytes "pwd"])).ite e.rel
  refine ((adds_rmCache.ite o.flags.rmCmakecache).append
    ((adds_rmDir.ite o.flags.cleanest).append (adds_makeDir.append hrel))).congr (fun d => ?_) fun d => ?_
  · unfold preConfigureArgvs
    cases d <;> cases o.flags.rmCmakecache <;> cases o.flags.cleanest <;> simp
  · unfold cleaned
    cases d <;> cases o.flags.rmCmakecache <;> cases o.flags.cleanest <;> simp

/-- What is run before the tests. -/
theorem adds_buildPlan : Adds e (preConfigurePlan e o ++
    ([Step.staged (e.configureArgv o) (bytes "CMAKE CONFIGURE ERROR") false] ++
      [Step.staged (e.buildArgv o) (bytes "CMAKE BUILD ERROR") false])) (buildArgvs e o)
    (fun d => some (cleaned o d)) :=
  adds_preConfigure.append ((adds_staged _ _ _).append (adds_staged _ _ _))

end Adds

/-- Where the commands fail they do not get past those of the ideal run. -/
theorem Ends.not_prefix {notifies : Bool} {all ran : List Run} {k : ℕ} (h : Ends e notifies all k ran)
    (hk : k ≠ 0) (c : Run) : ¬all ++ [c] <+: ran := by
  have hstop : ∀ ok argv n rest, n ≠ 0 → ok ++ [(⟨argv, 0⟩ : Run)] <+: all →
      ¬all ++ [c] <+: ok ++ ⟨argv, n⟩ :: rest := by
    intro ok argv n rest hn hall hpre
    have h := (hall.trans (List.prefix_append all [c])).trans hpre
    rw [List.prefix_append_right_inj, List.cons_prefix_cons, Run.mk.injEq] at h
    exact hn h.1.2.symm
  cases h with
  | completed => exact absurd rfl hk
  | failed ok argv n k hn hall => exact hstop ok argv n [] hn hall
  | notified _ ok argv message n m k hn hall => exact hstop ok argv n _ hn hall

/-- Before a test binary that is missing, the commands do not get past those of the ideal run. -/
theorem NoBinary.not_prefix {all ran : List Run} {argv : List Word} {k : ℕ} (h : NoBinary e all argv k ran)
    (c : Run) : ¬all ++ [c] <+: ran := by
  intro hpre
  have hlen := hpre.length_le
  have hnext := h.next.length_le
  rw [List.length_append, List.length_singleton] at hlen hnext
  omega

theorem testsPlan_ctr (h : o.flags.runTestsType = bytes "ctr") : testsPlan e o =
    [.staged (e.ctestArgv [bytes "-R", o.flags.testsFilter]) (bytes "RUN CTEST ERROR") true,
      .staged (e.ctestArgv [bytes "--rerun-failed"]) (bytes "RUN CTEST ERROR") false] := by
  have hct : ¬[bytes "ct", bytes "ctest"].contains (bytes "ctr") = true := by decide
  have hctp : bytes "ctr" ≠ bytes "ctp" := by decide
  unfold testsPlan
  simp only
  rw [h, if_neg hct, if_neg hctp, if_pos rfl]

/-- A stage that succeeds. -/
theorem staged_succeeds {argv : List Word} (message : Word) (ignored : Bool) {t : Sh}
    (h : e.status t.ran argv = 0) :
    e.step t (.staged argv message ignored) = (0, (e.exec argv id t).2) := by
  have hexec : (e.exec argv id t).1 = 0 := h
  simp only [Env.step, if_pos hexec]

/-- A stage that fails, its failure being ignored. -/
theorem staged_ignored {argv : List Word} (message : Word) {t : Sh} (h : e.status t.ran argv ≠ 0) :
    (e.step t (.staged argv message true)).1 = e.status t.ran argv ∧
      ∃ m, (e.step t (.staged argv message true)).2.ran = t.ran ++ [⟨argv, e.status t.ran argv⟩] ++
        if e.atPath (bytes "notify-send") then [⟨e.notifyArgv .error message, m⟩] else [] := by
  have hexec : (e.exec argv id t).1 ≠ 0 := h
  simp only [Env.step, if_neg hexec, or_true, if_true]
  exact ⟨rfl, _, ran_notified ..⟩

/-- A stage whose failure is ignored and that fails, after steps that have all succeeded. -/
theorem stopped_at {front rest : List Step} {as : Option (List Word) → List (List Word)}
    {f : Option (List Word) → Option (List Word)} {argv : List Word} {message : Word} {n : ℕ}
    {dir : Option (List Word)} {after : List Run} (hfront : Adds e front as f) (hn : n ≠ 0)
    (hran : (runSteps e.step (front ++ .staged argv message true :: rest) (Sh.start dir)).2.ran =
      succeeded (as dir) ++ ⟨argv, n⟩ :: after) :
    (runSteps e.step (front ++ .staged argv message true :: rest) (Sh.start dir)).1 = n ∧
      (after = [] ∨ ∃ m, after = [⟨e.notifyArgv .error message, m⟩]) := by
  have hideal : (runSteps e.ideal.step front (Sh.start dir)).2.ran = succeeded (as dir) :=
    hfront.ran (Sh.start dir)
  rw [runSteps_append] at hran ⊢
  by_cases hok : (runSteps e.step front (Sh.start dir)).1 = 0
  · rw [if_pos hok] at hran ⊢
    rw [runSteps_ideal hok] at hideal
    obtain ⟨t, ht⟩ : ∃ t, (runSteps e.step front (Sh.start dir)).2 = t := ⟨_, rfl⟩
    rw [ht] at hran hideal ⊢
    rw [← hideal] at hran
    by_cases hz : e.status t.ran argv = 0
    · -- the command in the log would be one that succeeded
      have hstep := staged_succeeds message true hz
      have hpre := prefix_runSteps (e := e) rest (e.exec argv id t).2
      rw [runSteps, hstep, if_pos rfl] at hran
      rw [hran, ran_exec, List.prefix_append_right_inj, List.cons_prefix_cons, Run.mk.injEq] at hpre
      exact absurd (hpre.1.2.symm.trans hz) hn
    · obtain ⟨hk, m, hstep⟩ := staged_ignored message hz
      have hfail : runSteps e.step (.staged argv message true :: rest) t =
          e.step t (.staged argv message true) := by
        rw [runSteps, if_neg (by rw [hk]; exact hz)]
      rw [hfail, hstep, List.append_assoc] at hran
      rw [hfail, hk]
      obtain ⟨hrun, hafter⟩ := List.cons.inj (List.append_cancel_left hran)
      refine ⟨(Run.mk.inj hrun).2, ?_⟩
      rw [← hafter]
      split
      · exact Or.inr ⟨m, rfl⟩
      · exact Or.inl rfl
  · -- what failed before would be in front of it
    rw [if_neg hok] at hran
    have hpast : succeeded (as dir) ++ [⟨argv, n⟩] <+: succeeded (as dir) ++ ⟨argv, n⟩ :: after := by
      rw [List.prefix_append_right_inj]
      exact List.prefix_append [_] after
    have hends := ends_runSteps (e := e) front (Sh.start dir)
    rw [hideal, hran] at hends
    rcases hends with hends | ⟨_, _, hmissing⟩
    · exact absurd hpast (hends.not_prefix hok ⟨argv, n⟩)
    · exact absurd hpast (hmissing.not_prefix ⟨argv, n⟩)

/-- **Tests that fail are not run again.**  With `ctr`, a first run of the tests that fails ends the script
with its status; there is no second run of them. -/
theorem ctr_failed {q k n : ℕ} {dir : Option (List Word)} {s : Sh} {after : List Run}
    (hrun : o.flags.runTests = true) (htype : o.flags.runTestsType = bytes "ctr")
    (hend : eval false (script e o) q (Sh.start dir) = settle false k s)
    (htests : s.ran = succeeded (buildArgvs e o dir) ++
      ⟨e.ctestArgv [bytes "-R", o.flags.testsFilter], n⟩ :: after) (hn : n ≠ 0) :
    k = n ∧ (after = [] ∨ ∃ m, after = [⟨e.notifyArgv .error (bytes "RUN CTEST ERROR"), m⟩]) := by
  rw [script_realizes] at hend
  obtain ⟨rfl, rfl⟩ := settle_false_inj hend
  obtain ⟨front, rest, hplan, hfront⟩ : ∃ front rest, plan e o = front ++
      Step.staged (e.ctestArgv [bytes "-R", o.flags.testsFilter]) (bytes "RUN CTEST ERROR") true :: rest ∧
        Adds e front (buildArgvs e o) fun d => some (cleaned o d) := by
    refine ⟨_, (builtPlan e o).tail, ?_, adds_buildPlan⟩
    rw [plan, builtPlan, if_pos hrun, testsPlan_ctr htype, List.append_assoc, List.append_assoc]
    rfl
  rw [hplan] at htests ⊢
  exact stopped_at hfront hn htests

/-- The tests fail, and all else succeeds. -/
def Env.testsFail : Env where
  cmake := bytes "cmake"
  ctest := bytes "ctest"
  atPath w := w ≠ bytes "notify-send"
  readable := true
  checked := by decide
  status ran _ := if ran.length = 3 then 8 else 0
  executable _ := true
  uname := bytes "Linux"
  cc := bytes "gcc"
  matching _ := []
  generator := bytes "Ninja"
  buildDir := bytes "build/ninja/x86_64-gcc-debug"
  buildType := bytes "Debug"
  testsDir := bytes "tests/units"
  prjName := bytes "wndx_sane"
  cwd := bytes "/src"
  bopts := []
  verbose := false
  memcheck := false
  deploy := false
  rel := false

/-- With `ctr` and no filter. -/
def ctrOptions : OptState := ⟨{ Flags.default with runTests := true, runTestsType := bytes "ctr" }, []⟩

theorem ctr_failed_testsFail : ∃ k s, eval false (script .testsFail ctrOptions) 0 (Sh.start none) =
    settle false k s ∧ k = 8 ∧ s.ran.length = 4 := by
  have hend := script_realizes (e := .testsFail) (o := ctrOptions) 0 (Sh.start none)
  have hran : (runSteps Env.testsFail.step (plan .testsFail ctrOptions) (Sh.start none)).2.ran =
      succeeded (buildArgvs .testsFail ctrOptions none) ++
        ⟨Env.testsFail.ctestArgv [bytes "-R", bytes ".*"], 8⟩ :: [] := rfl
  refine ⟨_, _, hend, (ctr_failed rfl rfl hend hran (by decide)).1, ?_⟩
  rw [hran]
  rfl

end WndxSane.BuildScript
