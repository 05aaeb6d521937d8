import WndxSane.BuildScript
import WndxSane.Lib.Shell

/-!
# The stages of the build script

What `wndx_cmake_build.sh` does once it has its options: `pre_configure`, the configure and build steps, the
tests, the memory check and the installation, as commands under `set -e`; and `check_prerequisites`, which comes
before.  What is printed is left out.

* `plan`: the steps that the flags ask for.
* **`script_realizes`**: the script does the steps of its plan one after another and stops at the first that
  fails.
-/

namespace WndxSane.BuildScript

open CMake (bytes)
open Shell

/-- A command that was run, and its exit status. -/
structure Run where
  argv : List Word
  status : ℕ
  deriving DecidableEq

/-- What the script works on: the commands run so far, the names in the build directory when there is one,
and `$EC`. -/
structure Sh where
  ran : List Run
  dir : Option (List Word)
  ec : ℕ

/-- What the script is given: the names of its programs, what is at the path, and whether there is a
`CMakeLists.txt` to read. -/
structure Host where
  cmake : Word
  ctest : Word
  atPath : Word → Bool
  readable : Bool

/-- What `check_prerequisites` looks for, in its order, and the exit status where it is missing. -/
def Host.checks (h : Host) : List (Bool × ℕ) :=
  [(h.atPath h.cmake, 64), (h.atPath h.ctest, 65), (h.readable, 66)] ++
    ([bytes "basename", bytes "cut", bytes "getopt", bytes "printf", bytes "sed", bytes "tr",
      bytes "uname"].map fun executable => (h.atPath executable, 67))

/-- The exit status with a message, which needs `printf`. -/
def Host.printed (h : Host) (n : ℕ) : ℕ := if h.atPath (bytes "printf") then n else 63

/-- The status of the first check that fails. -/
def Host.missing (h : Host) : ℕ :=
  match h.checks.find? fun c => !c.1 with
  | none => 0
  | some c => h.printed c.2

/-- Where the script runs once its prerequisites have been checked: its variables, and the exit status of a
command after those run before it. -/
structure Env extends Host where
  checked : toHost.missing = 0
  status : List Run → List Word → ℕ
  executable : List Run → Bool
  uname : Word
  cc : Word
  matching : Word → List Word
  generator : Word
  buildDir : Word
  buildType : Word
  testsDir : Word
  prjName : Word
  cwd : Word
  bopts : List Byte
  verbose : Bool
  memcheck : Bool
  deploy : Bool
  rel : Bool

variable (e : Env) (o : OptState)

/-! ### Arguments -/

def Env.sdir : Word := if e.rel then bytes "../../.." else bytes "."

def Env.bdir : Word := if e.rel then bytes "." else e.buildDir

def Env.setup : Setup where
  uname := e.uname
  moldAtPath := e.atPath (bytes "mold")
  cc := e.cc
  matching := e.matching
  sdir := e.sdir
  bdir := e.bdir
  generator := e.generator
  verbose := e.verbose

/-- `time_`. -/
def Env.timed (argv : List Word) : List Word := [e.cmake, bytes "-E", bytes "time"] ++ argv

def Env.configureArgv : List Word := e.timed (e.cmake :: configureArgs e.setup o)

def Env.buildArgv : List Word :=
  e.timed ([e.cmake, bytes "--build", e.bdir, bytes "--config", e.buildType] ++
    unquoted e.matching (if o.flags.clean || o.flags.cleaner then bytes "--clean-first" else []) ++
      unquoted e.matching (if e.verbose then bytes "--verbose" else []) ++
        unquoted e.matching (trSqueeze (e.bopts ++ bytes "\n")))

def Env.ctestArgv (args : List Word) : List Word :=
  e.timed ([e.ctest, bytes "--build-config", e.buildType, bytes "--test-dir",
    e.bdir ++ bytes "/" ++ e.testsDir, bytes "--output-on-failure"] ++ args)

def Env.gtestArgv : List Word :=
  [bytes "./" ++ e.bdir ++ bytes "/bin/tests_units", bytes "--gtest_filter=" ++ o.flags.testsFilter]

def Env.memcheckArgv : List Word :=
  e.timed [e.cmake, bytes "--build", e.bdir, bytes "--config", e.buildType, bytes "--target", bytes "memcheck"]

/-- The prefix is an absolute path. -/
def Env.installArgv : List Word :=
  e.timed [e.cmake, bytes "--install", e.bdir, bytes "--config", e.buildType, bytes "--prefix",
    e.cwd ++ bytes "/" ++ e.buildDir ++ bytes "/deploy"]

/-- The first argument of `notify`. -/
inductive Urgency
  | error
  | warning
  | other

def Env.notifyArgv (u : Urgency) (arg : Word) : List Word :=
  let tag := bytes "string:x-dunst-stack-tag"
  let urg := match u with
    | .error => bytes "critical"
    | .warning => bytes "normal"
    | .other => bytes "low"
  let (sbg, sfg) := match u with
    | .other => (bytes "string:bgcolor:#11FF44", bytes "string:fgcolor:#000000")
    | _ => (bytes "string:bgcolor:", bytes "string:fgcolor:")
  [bytes "notify-send", bytes "-u", urg, bytes "-h", tag ++ bytes ":" ++ e.prjName, bytes "-h",
    tag ++ bytes ":hi", bytes "-h", sbg, bytes "-h", sfg, bytes "[" ++ e.prjName ++ bytes "]", arg]

def cacheName : Word := bytes "CMakeCache.txt"

/-! ### Commands -/

/-- Run a command; `effect` is what it does to the build directory when it succeeds. -/
def Env.exec (argv : List Word) (effect : Option (List Word) → Option (List Word)) (s : Sh) : ℕ × Sh :=
  let n := e.status s.ran argv
  (n, { s with ran := s.ran ++ [⟨argv, n⟩], dir := if n = 0 then effect s.dir else s.dir })

/-- A command of another program. -/
def command (argv : List Word) (effect : Option (List Word) → Option (List Word)) : Cmd Sh :=
  .simple fun _ s => e.exec argv effect s

def rmF : Cmd Sh :=
  .call (command e [e.cmake, bytes "-E", bytes "rm", bytes "-f", e.buildDir ++ bytes "/" ++ cacheName]
    fun dir => dir.map fun names => names.filter (· ≠ cacheName))

def rmRf : Cmd Sh :=
  .call (command e [e.cmake, bytes "-E", bytes "rm", bytes "-rf", e.buildDir] fun _ => none)

def mkdir : Cmd Sh :=
  .call (command e [e.cmake, bytes "-E", bytes "make_directory", e.buildDir] fun dir => some (dir.getD []))

def true' : Cmd Sh := .call (command e [e.cmake, bytes "-E", bytes "true"] id)

/-- `vsep`: prints only. -/
def vsep : Cmd Sh := skip

/-- `at_path`. -/
def atPath (h : Host) (w : Word) : Cmd Sh := test fun _ => h.atPath w

/-- `printe`. -/
def printe (h : Host) : Cmd Sh := .call (.seq (.or (atPath h (bytes "printf")) (.exit fun _ _ => 63)) skip)

/-- `if ! ...; then printe ...; exit n; fi`. -/
def require (h : Host) (found : Bool) (n : ℕ) : Cmd Sh :=
  .ifElse (test fun _ => !found) (.seq (printe h) (.exit fun _ _ => n)) skip

/-- `check_prerequisites`. -/
def checkPrerequisites (h : Host) : Cmd Sh :=
  .call (h.checks.foldr (fun c rest => .seq (require h c.1 c.2) rest) skip)

/-- `notify`. -/
def notify (u : Urgency) (arg : Word) : Cmd Sh :=
  .call (.seq (assign fun q s => { s with ec := q })
    (.seq (.or (atPath e.toHost (bytes "notify-send")) (.ret fun _ _ => 0))
      (command e (e.notifyArgv u arg) id)))

/-- `time_ ... || { notify ERROR "..."; exit "$EC" ;}`. -/
def orNotify (argv : List Word) (message : Word) : Cmd Sh :=
  .or (.call (command e argv id)) (.seq (notify e .error message) (.exit fun _ s => s.ec))

/-- `run_ctest`. -/
def runCtest (args : List Word) : Cmd Sh :=
  .call (orNotify e (e.ctestArgv args) (bytes "RUN CTEST ERROR"))

def hasDir (s : Sh) : Bool := s.dir.isSome

def hasCache (s : Sh) : Bool := s.dir.any fun names => names.contains cacheName

/-- `pre_configure`. -/
def preConfigure : Cmd Sh :=
  .call (.seq (.ifElse (test fun _ => o.flags.rmCmakecache) (.and (test hasCache) (rmF e)) skip)
    (.seq (.ifElse (test fun _ => o.flags.cleanest) (.and (test hasDir) (rmRf e)) skip)
      (.seq (.or (test hasDir) (mkdir e))
        (.ifElse (test fun _ => e.rel)
          (.seq (.or (command e [bytes "cd", e.buildDir] id) (.exit fun _ _ => 11))
            (command e [bytes "pwd"] id)) skip))))

/-- The runner of the tests. -/
def testsCmd : Cmd Sh :=
  let type := o.flags.runTestsType
  if [bytes "ct", bytes "ctest"].contains type then
    runCtest e [bytes "-R", o.flags.testsFilter]
  else if type = bytes "ctp" then
    runCtest e [bytes "--progress", bytes "-R", o.flags.testsFilter]
  else if type = bytes "ctr" then
    .seq (.or (runCtest e [bytes "-R", o.flags.testsFilter]) (true' e)) (runCtest e [bytes "--rerun-failed"])
  else if isGtest type then
    .seq (.ifElse (test fun s => !e.executable s.ran) (.seq (printe e.toHost) (.exit fun _ _ => 5)) skip)
      (command e (e.gtestArgv o) id)
  else skip

def Env.hasDebugInfo : Bool := e.buildType = bytes "Debug" || e.buildType = bytes "RelWithDebInfo"

/-- The script from `pre_configure` on. -/
def script : Cmd Sh :=
  .seq (preConfigure e o)
    (.seq (.seq vsep (orNotify e (e.configureArgv o) (bytes "CMAKE CONFIGURE ERROR")))
      (.seq (.seq vsep (orNotify e (e.buildArgv o) (bytes "CMAKE BUILD ERROR")))
        (.seq (.ifElse (test fun _ => o.flags.runTests) (.seq vsep (testsCmd e o)) skip)
          (.seq (.ifElse (test fun _ => e.memcheck && e.hasDebugInfo)
              (.seq vsep (.call (command e e.memcheckArgv id))) skip)
            (.seq (.ifElse (test fun _ => e.deploy)
                (.seq vsep (.seq (printe e.toHost) (.call (command e e.installArgv id)))) skip)
              (.seq vsep (notify e .other (bytes "COMPLETED"))))))))

/-! ### Steps -/

/-- The steps of the script. -/
inductive Step
  | rmCache
  | rmDir
  | makeDir
  | enter
  | command (argv : List Word)
  | staged (argv : List Word) (message : Word) (ignored : Bool)
  | gtest (argv : List Word)
  | notify (arg : Word)

/-- A notification, where there is a program for it; it can fail too. -/
def Env.notified (u : Urgency) (arg : Word) (s : Sh) : ℕ × Sh :=
  if e.atPath (bytes "notify-send") then e.exec (e.notifyArgv u arg) id s else (0, s)

/-- What a step does, and whether it fails.  A stage that fails is notified of, and fails with its own status,
unless the notification fails as well and that is not ignored. -/
def Env.step (s : Sh) : Step → ℕ × Sh
  | .rmCache =>
    if hasCache s then
      e.exec [e.cmake, bytes "-E", bytes "rm", bytes "-f", e.buildDir ++ bytes "/" ++ cacheName]
        (fun dir => dir.map fun names => names.filter (· ≠ cacheName)) s
    else (0, s)
  | .rmDir =>
    if hasDir s then e.exec [e.cmake, bytes "-E", bytes "rm", bytes "-rf", e.buildDir] (fun _ => none) s
    else (0, s)
  | .makeDir =>
    if hasDir s then (0, s)
    else e.exec [e.cmake, bytes "-E", bytes "make_directory", e.buildDir] (fun dir => some (dir.getD [])) s
  | .enter =>
    let (n, s') := e.exec [bytes "cd", e.buildDir] id s
    (if n = 0 then 0 else 11, s')
  | .command argv => e.exec argv id s
  | .staged argv message ignored =>
    let (n, s') := e.exec argv id s
    if n = 0 then (0, s')
    else
      let (m, s'') := e.notified .error message { s' with ec := n }
      (if m = 0 ∨ ignored = true then n else m, s'')
  | .gtest argv => if e.executable s.ran then e.exec argv id s else (5, s)
  | .notify arg => e.notified .other arg { s with ec := 0 }

/-- The steps of the tests. -/
def testsPlan : List Step :=
  let type := o.flags.runTestsType
  let error := bytes "RUN CTEST ERROR"
  if [bytes "ct", bytes "ctest"].contains type then
    [.staged (e.ctestArgv [bytes "-R", o.flags.testsFilter]) error false]
  else if type = bytes "ctp" then
    [.staged (e.ctestArgv [bytes "--progress", bytes "-R", o.flags.testsFilter]) error false]
  else if type = bytes "ctr" then
    [.staged (e.ctestArgv [bytes "-R", o.flags.testsFilter]) error true,
      .staged (e.ctestArgv [bytes "--rerun-failed"]) error false]
  else if isGtest type then [.gtest (e.gtestArgv o)]
  else []

/-- The steps of `pre_configure`. -/
def preConfigurePlan : List Step :=
  (if o.flags.rmCmakecache then [Step.rmCache] else []) ++ ((if o.flags.cleanest then [Step.rmDir] else []) ++
    ([Step.makeDir] ++ if e.rel then [Step.enter, Step.command [bytes "pwd"]] else []))

/-- The steps after the build. -/
def builtPlan : List Step :=
  (if o.flags.runTests then testsPlan e o else []) ++
    ((if e.memcheck && e.hasDebugInfo then [Step.command e.memcheckArgv] else []) ++
      ((if e.deploy then [Step.command e.installArgv] else []) ++ [Step.notify (bytes "COMPLETED")]))

/-- The steps that the flags ask for. -/
def plan : List Step :=
  preConfigurePlan e o ++ ([Step.staged (e.configureArgv o) (bytes "CMAKE CONFIGURE ERROR") false] ++
    ([Step.staged (e.buildArgv o) (bytes "CMAKE BUILD ERROR") false] ++ builtPlan e o))

/-! ### The prerequisites -/

variable {e o} {ignored : Bool} {h : Host}

theorem eval_printe (hp : h.atPath (bytes "printf") = true) (q : ℕ) (s : Sh) :
    eval ignored (printe h) q s = .normal 0 s := by
  simp [printe, atPath, eval, hp, skip]

theorem eval_require (found : Bool) (n q : ℕ) (s : Sh) :
    eval ignored (require h found n) q s = if found then .normal 0 s else .exited (h.printed n) s := by
  cases found with
  | true => simp [require, eval, skip]
  | false =>
    by_cases hp : h.atPath (bytes "printf") = true
    · simp [require, eval, eval_printe hp, Host.printed, hp]
    · simp [require, printe, atPath, eval, Host.printed, hp]

/-- The loop stops at the first check that fails. -/
theorem eval_checks (cs : List (Bool × ℕ)) (q : ℕ) (s : Sh) :
    eval ignored (cs.foldr (fun c rest => .seq (require h c.1 c.2) rest) skip) q s =
      match cs.find? fun c => !c.1 with
      | none => .normal 0 s
      | some c => .exited (h.printed c.2) s := by
  induction cs generalizing q with
  | nil => exact settle_zero ignored s
  | cons c cs ih =>
    obtain ⟨found, n⟩ := c
    rw [List.foldr_cons, eval, eval_require]
    cases found with
    | true => exact ih 0
    | false => rfl

theorem printed_ne_zero {c : Bool × ℕ} (hc : c ∈ h.checks) : h.printed c.2 ≠ 0 := by
  have hne : c.2 ≠ 0 := by
    simp only [Host.checks, List.map_cons, List.map_nil, List.cons_append, List.nil_append, List.mem_cons,
      List.not_mem_nil, or_false] at hc
    rcases hc with rfl | rfl | rfl | rfl | rfl | rfl | rfl | rfl | rfl | rfl <;> simp
  unfold Host.printed
  split
  · exact hne
  · decide

/-- `check_prerequisites` ends the script with the status of the first check that fails, or with 63 where that
cannot be printed. -/
theorem checkPrerequisites_realizes : Realizes ignored (checkPrerequisites h) fun s => (h.missing, s) := by
  intro q s
  show _ = settle false h.missing s
  rw [checkPrerequisites, eval, eval_checks, Host.missing]
  cases hfind : h.checks.find? fun c => !c.1 with
  | none => rw [settle_zero]; exact settle_zero ignored s
  | some c => rw [settle_false (printed_ne_zero (List.mem_of_find?_eq_some hfind))]

/-- Once the prerequisites have been checked, messages can be printed. -/
theorem Env.printf_atPath (e : Env) : e.atPath (bytes "printf") = true := by
  have hchecked := e.checked
  unfold Host.missing at hchecked
  cases hfind : e.checks.find? fun c => !c.1 with
  | none =>
    have hall := List.find?_eq_none.mp hfind (e.atPath (bytes "printf"), 67) (by simp [Host.checks])
    simpa using hall
  | some c =>
    rw [hfind] at hchecked
    exact absurd hchecked (printed_ne_zero (List.mem_of_find?_eq_some hfind))

/-! ### The script does its plan -/

theorem realizes_printe {c : Cmd Sh} {bs : List Step} (h : Realizes ignored c (runSteps e.step bs)) :
    Realizes ignored (.seq (printe e.toHost) c) (runSteps e.step bs) := by
  intro q s
  rw [eval, eval_printe e.printf_atPath, andThen_normal, h]

theorem realizes_step {c : Cmd Sh} {b : Step} (h : Realizes ignored c fun s => e.step s b) :
    Realizes ignored c (runSteps e.step [b]) :=
  h.congr fun s => (runSteps_singleton b s).symm

theorem runs_step {c : Cmd Sh} {b : Step} (h : Runs ignored c fun s => e.step s b) :
    Runs ignored c (runSteps e.step [b]) :=
  h.congr fun s => (runSteps_singleton b s).symm

theorem realizes_command (argv : List Word) (effect : Option (List Word) → Option (List Word)) :
    Realizes false (command e argv effect) (e.exec argv effect) := fun _ _ => rfl

theorem realizes_vsep {c : Cmd Sh} {bs : List Step} (h : Realizes ignored c (runSteps e.step bs)) :
    Realizes ignored (.seq vsep c) (runSteps e.step bs) := by
  have hskip : Realizes ignored vsep (runSteps e.step []) := realizes_skip
  exact hskip.runs.seq h

/-- How a notification ends. -/
theorem eval_notify (u : Urgency) (arg : Word) (q : ℕ) (s : Sh) :
    eval ignored (notify e u arg) q s =
      settle ignored (e.notified u arg { s with ec := q }).1 (e.notified u arg { s with ec := q }).2 := by
  unfold notify Env.notified atPath
  by_cases h : e.atPath (bytes "notify-send") = true
  · rw [if_pos h]
    refine eval_call_settle ?_
    simp [eval, h, command]
  · rw [if_neg h]
    simp [eval, h]

/-- A stage. -/
theorem realizes_orNotify (argv : List Word) (message : Word) :
    Realizes ignored (orNotify e argv message) (runSteps e.step [.staged argv message ignored]) := by
  refine realizes_step fun q s => ?_
  unfold orNotify
  obtain ⟨n, s', hexec⟩ : ∃ n s', e.exec argv id s = (n, s') := ⟨_, _, rfl⟩
  have hcall : eval true (.call (command e argv id)) q s = .normal n s' := by
    rw [eval_call_settle (n := n) (t := s') (by rw [command, eval, hexec]), settle_true]
  rw [eval, hcall, andThen_normal]
  simp only [Env.step, hexec]
  by_cases hn : n = 0
  · rw [if_pos hn, if_pos hn, hn, settle_zero]
  rw [if_neg hn, if_neg hn, eval, eval_notify]
  obtain ⟨m, s'', hm⟩ : ∃ m s'', e.notified .error message { s' with ec := n } = (m, s'') := ⟨_, _, rfl⟩
  have hec : s''.ec = n := by
    have h := congrArg (fun r => r.2.ec) hm
    rw [← h]
    unfold Env.notified
    split <;> rfl
  rw [hm]
  by_cases hok : m = 0 ∨ ignored = true
  · rw [settle, if_pos hok, andThen_normal, eval, hec, if_pos hok, settle_false hn]
  · have hm0 : m ≠ 0 := fun h => hok (Or.inl h)
    rw [settle, if_neg hok, andThen_exited, if_neg hok, settle_false hm0]

theorem realizes_runCtest (args : List Word) :
    Realizes ignored (runCtest e args)
      (runSteps e.step [.staged (e.ctestArgv args) (bytes "RUN CTEST ERROR") ignored]) :=
  (realizes_orNotify _ _).call

theorem realizes_timed (argv : List Word) :
    Realizes false (.call (command e argv id)) (runSteps e.step [.command argv]) :=
  realizes_step (realizes_command argv id).call

/-- The parts of `pre_configure`. -/
theorem realizes_preConfigure :
    Realizes false (preConfigure e o) (runSteps e.step (preConfigurePlan e o)) := by
  have hcache : Runs false (.and (test hasCache) (rmF e)) (runSteps e.step [.rmCache]) :=
    runs_step ((realizes_command _ _).call.and_test hasCache)
  have hdir : Runs false (.and (test hasDir) (rmRf e)) (runSteps e.step [.rmDir]) :=
    runs_step ((realizes_command _ _).call.and_test hasDir)
  have hmake : Realizes false (.or (test hasDir) (mkdir e)) (runSteps e.step [.makeDir]) :=
    realizes_step ((realizes_command _ _).call.or_test hasDir)
  have henter : Realizes false (.or (command e [bytes "cd", e.buildDir] id) (.exit fun _ _ => 11))
      (runSteps e.step [.enter]) :=
    realizes_step (realizes_or_exit (f := e.exec [bytes "cd", e.buildDir] id) (by decide)
      fun q s => settle_true ..)
  have hpwd : Realizes false (command e [bytes "pwd"] id) (runSteps e.step [.command [bytes "pwd"]]) :=
    realizes_step (realizes_command _ _)
  refine ((runs_ifThen _ fun _ => hcache).seq ((runs_ifThen _ fun _ => hdir).seq
    (hmake.runs.seq (realizes_ifThen _ fun _ => ?_)))).call
  exact henter.runs.seq hpwd

/-- The tests, whatever runner is asked for. -/
theorem realizes_testsCmd : Realizes false (testsCmd e o) (runSteps e.step (testsPlan e o)) := by
  unfold testsCmd testsPlan
  simp only
  split_ifs
  · exact realizes_runCtest _
  · exact realizes_runCtest _
  · -- the fallback after the first run is never taken
    exact (realizes_or_ignored (realizes_runCtest _)).runs.seq (realizes_runCtest _)
  · refine realizes_step fun q s => ?_
    simp only [Env.step]
    by_cases hx : e.executable s.ran = true
    · simp [eval, hx, skip, command]
    · simp [eval, hx, eval_printe e.printf_atPath, settle]
  · exact realizes_skip

/-- **The script does its plan.**  Whatever the commands it runs return, the script does the steps of its plan
up to the first that fails, and then exits with the status of that. -/
theorem script_realizes : Realizes false (script e o) (runSteps e.step (plan e o)) := by
  have hstage : ∀ argv message, Realizes false (.seq vsep (orNotify e argv message))
      (runSteps e.step [.staged argv message false]) := fun argv message =>
    realizes_vsep (realizes_orNotify argv message)
  have hcompleted : Realizes false (.seq vsep (notify e .other (bytes "COMPLETED")))
      (runSteps e.step [.notify (bytes "COMPLETED")]) := by
    refine realizes_step fun q s => ?_
    rw [vsep, skip, eval, eval, settle_zero, andThen_normal, eval_notify]
    rfl
  exact realizes_preConfigure.runs.seq ((hstage _ _).runs.seq ((hstage _ _).runs.seq
    ((runs_ifThen _ fun _ => (realizes_vsep realizes_testsCmd).runs).seq
      ((runs_ifThen _ fun _ => (realizes_vsep (realizes_timed _)).runs).seq
        ((runs_ifThen _ fun _ => (realizes_vsep (realizes_printe (realizes_timed _))).runs).seq
          hcompleted)))))

end WndxSane.BuildScript
