import WndxSane.Instances
import WndxSane.LoggedFile

/-!
# Runs of the program and its log

A program makes calls on `File` instances and of the free functions of `file.cpp`, and sets urgency levels;
its state is the world of instances and the calls on loggers made so far.

* `World.value_loggedStep`: without the log, a step is the step of `Instances`.
* **`Prog.world_run`**: a run does in the world what it does without the log.
* `Prog.urgent_step_iff`: a step raises an alarm exactly when its call fails, or a removal does.
* **`Prog.no_silent_failure`**: over whole runs, `stderr` has no `ERRO` and no `CRIT` exactly when nothing
  failed.

A failure is one that a call returns, or an old file that a move could not remove: a byte that `write` loses is
none.  Log calls outside of `try` blocks are taken not to throw.
-/

namespace WndxSane

open Transition

/-! ### Calls on instances -/

/-- The call an action makes with its log calls; the code is `none` where the function returns none. -/
def Action.loggedOp (why : Reasons) :
    Action → Option (ℕ × (File → Env → Logged (Option Rc × File × Env)))
  | .alloc i io => some (i, fun f e => do
    let (rc, f', m') ← Logged.alloc why io f e.mem
    return (some rc, f', { e with mem := m' }))
  | .write i io => some (i, fun f e => do
    let (rc, e') ← Logged.write why io f e
    return (some rc, f, e'))
  | .read i io => some (i, fun f e => do
    let (rc, e') ← Logged.read why io f e
    return (some rc, f, e'))
  | .allocAndRead i io => some (i, fun f e => do
    let (rc, f', e') ← Logged.allocAndRead why io f e
    return (some rc, f', e'))
  | .copyTo i io dst => some (i, fun f e => do
    let (rc, f', e') ← Logged.copyTo why io f dst e
    return (some rc, f', e'))
  | .moveTo i io dst => some (i, fun f e => do
    let (rc, f', e') ← Logged.moveTo why io f dst e
    return (some rc, f', e'))
  | .cleanHeap i => some (i, fun f e =>
    let (f', m') := f.cleanHeap e.mem
    pure (none, f', { e with mem := m' }))
  | _ => none

/-- The code a step returns, and the world after it.  The constructors log, the copies and the destructor do
not. -/
def World.loggedStep (why : Reasons) (w : World) (a : Action) : Option (Logged (Option Rc × World)) :=
  match a.loggedOp why with
  | some (i, op) =>
    (w.live i).map fun f => do
      let (rc, f', e') ← op f w.env
      return (rc, ⟨e', Function.update w.live i (some f')⟩)
  | none =>
    match a with
    | .ofPath i fpath sz =>
      (w.construct i (Logged.ofPath fpath sz).value).map fun w' => do
        let _ ← Logged.ofPath fpath sz
        return (none, w')
    | .ofFinfo i finfo dpath =>
      (Logged.ofFinfo finfo dpath).bind fun x => (w.construct i x.value).map fun w' => do
        let _ ← x
        return (none, w')
    | a => (w.step a).map fun w' => pure (none, w')

/-- The old file of a move is not removed. -/
def Action.RemovalFails : Action → Prop
  | .moveTo _ io _ => io.removed = false
  | _ => False

/-- The call returned no other code than `SUCCESS`, and no removal failed. -/
def Action.Smooth (a : Action) (rc : Option Rc) : Prop := (rc = none ∨ rc = some .success) ∧ ¬ a.RemovalFails

theorem Action.op_eq_loggedOp (why : Reasons) (a : Action) :
    a.op = (a.loggedOp why).map fun p => (p.1, fun f e => (p.2 f e).value.2) := by
  cases a <;> simp [op, loggedOp, Logged.value_alloc, Logged.value_write, Logged.value_read,
    Logged.value_allocAndRead, Logged.value_copyTo, Logged.value_moveTo]

/-- An alarm is raised by a call that fails and by a removal that does. -/
theorem Action.urgent_loggedOp_iff {why : Reasons} {a : Action} {i : ℕ}
    {op : File → Env → Logged (Option Rc × File × Env)} (h : a.loggedOp why = some (i, op)) (f : File)
    (e : Env) : Urgent .ERRO (op f e).calls ↔ ¬ a.Smooth (op f e).value.1 := by
  cases a with
  | alloc j io => cases h; simp [Smooth, RemovalFails, Logged.value_alloc, Logged.alarm_alloc]
  | write j io => cases h; simp [Smooth, RemovalFails, Logged.value_write, Logged.alarm_write]
  | read j io => cases h; simp [Smooth, RemovalFails, Logged.value_read, Logged.alarm_read]
  | allocAndRead j io =>
    cases h
    simp [Smooth, RemovalFails, Logged.value_allocAndRead, Logged.alarm_allocAndRead]
  | copyTo j io dst => cases h; simp [Smooth, RemovalFails, Logged.value_copyTo, Logged.alarm_copyTo]
  | moveTo j io dst =>
    cases h
    simp [Smooth, RemovalFails, Logged.value_moveTo, Logged.alarm_moveTo, imp_iff_not_or]
  | cleanHeap j => cases h; simp [Smooth, RemovalFails]
  | _ => cases h

namespace World

/-- A constructor logs no more than a `DBUG`. -/
theorem not_urgent_ofPath (fpath : Path) (sz : ℕ) : ¬ Urgent .ERRO (Logged.ofPath fpath sz).calls := by
  simp [Logged.ofPath, LL.ERRO, LL.DBUG]

theorem not_urgent_ofFinfo {finfo : Finfo} {dpath : Path} {x : Logged File}
    (h : Logged.ofFinfo finfo dpath = some x) : ¬ Urgent .ERRO x.calls := by
  obtain ⟨f, -, rfl⟩ := Option.map_eq_some_iff.mp h
  simp [LL.ERRO, LL.DBUG]

theorem step_of_op {w : World} {a : Action} {i : ℕ} {op : File → Env → File × Env}
    (h : a.op = some (i, op)) : w.step a = w.call i op := by
  cases a <;> simp only [Action.op, Option.some.injEq, Prod.mk.injEq, reduceCtorEq] at h <;>
    obtain ⟨rfl, rfl⟩ := h <;> rfl

/-- **Without the log**, a step is the step of the world. -/
theorem value_loggedStep (why : Reasons) (w : World) (a : Action) :
    (w.loggedStep why a).map (fun x => x.value.2) = w.step a := by
  cases hop : a.loggedOp why with
  | some p =>
    obtain ⟨i, op⟩ := p
    have hplain : a.op = some (i, fun f e => (op f e).value.2) := by
      rw [Action.op_eq_loggedOp why, hop]
      rfl
    rw [step_of_op hplain, call]
    simp only [loggedStep, hop]
    cases w.live i <;> rfl
  | none =>
    simp only [loggedStep, hop]
    cases a with
    | ofPath i fpath sz =>
      rw [Option.map_map]
      exact Option.map_id'
    | ofFinfo i finfo dpath =>
      simp only [Logged.ofFinfo, step]
      cases File.ofFinfo finfo dpath with
      | none => rfl
      | some f =>
        simp only [Option.map_some, Option.bind_some, Option.map_map]
        exact Option.map_id'
    | _ =>
      rw [Option.map_map]
      exact Option.map_id'

/-- A step raises an alarm exactly when its call fails, or a removal does. -/
theorem urgent_loggedStep_iff {why : Reasons} {w : World} {a : Action} {x : Logged (Option Rc × World)}
    (h : w.loggedStep why a = some x) : Urgent .ERRO x.calls ↔ ¬ a.Smooth x.value.1 := by
  cases hop : a.loggedOp why with
  | some p =>
    obtain ⟨i, op⟩ := p
    simp only [loggedStep, hop] at h
    obtain ⟨f, -, rfl⟩ := Option.map_eq_some_iff.mp h
    rw [Logged.calls_bind, Logged.value_bind]
    simpa using Action.urgent_loggedOp_iff hop f w.env
  | none =>
    -- no code is returned, and nothing more than a `DBUG` is logged
    suffices hquiet : x.value.1 = none ∧ ¬ a.RemovalFails ∧ ¬ Urgent .ERRO x.calls by
      obtain ⟨hrc, hremoved, hcalls⟩ := hquiet
      simp [Action.Smooth, hrc, hremoved, hcalls]
    simp only [loggedStep, hop] at h
    cases a with
    | ofPath i fpath sz =>
      obtain ⟨w', -, rfl⟩ := Option.map_eq_some_iff.mp h
      exact ⟨rfl, id, by simpa using not_urgent_ofPath fpath sz⟩
    | ofFinfo i finfo dpath =>
      obtain ⟨y, hy, hw⟩ := Option.bind_eq_some_iff.mp h
      obtain ⟨w', -, rfl⟩ := Option.map_eq_some_iff.mp hw
      exact ⟨rfl, id, by simpa using not_urgent_ofFinfo hy⟩
    | moveTo i io dst => exact absurd hop (by simp [Action.loggedOp])
    | _ =>
      obtain ⟨w', -, rfl⟩ := Option.map_eq_some_iff.mp h
      exact ⟨rfl, id, by simp⟩

end World

/-! ### The program -/

/-- The instances, and the calls made on loggers so far. -/
structure Prog where
  world : World
  made : List LoggerAction

/-- The calls a program makes. -/
inductive ProgAction
  | file (a : Action)
  | isR (statusOk : Bool) (fpath : Path)
  | mkdir (a : Mkdir.Args) (c : Mkdir.Caller) (ok : Mkdir.Pc → Bool)
  | setUrgency (i : ℕ) (ll : LL)

/-- The call can change the world. -/
def ProgAction.changes : ProgAction → Bool
  | .file _ => true
  | .isR _ _ => false
  | .mkdir _ _ _ => true
  | .setUrgency _ _ => false

namespace World

/-- A call without its log calls. -/
def plainStep (w : World) : ProgAction → Option World
  | .file a => w.step a
  | .isR _ _ => some w
  | .mkdir a c ok => some { w with env := { w.env with fs := (Mkdir.mkdir a c ok w.env.fs).2 } }
  | .setUrgency _ _ => some w

theorem plainStep_skip (w : World) (a : ProgAction) (h : a.changes = false) : w.plainStep a = some w := by
  cases a with
  | file a => exact Bool.noConfusion h
  | isR statusOk fpath => rfl
  | mkdir a c ok => exact Bool.noConfusion h
  | setUrgency i ll => rfl

end World

namespace Prog

/-- The calls of `file.cpp` log on the global logger. -/
def onLogG (cs : List LogCall) : List LoggerAction := cs.map (.log logG)

/-- A call with the reasons the system gives for what fails in it: the code it returns, and what it leaves. -/
def call (p : Prog) (why : Reasons) : ProgAction → Option (Option Rc × Prog)
  | .file a => (p.world.loggedStep why a).map fun x =>
    (x.value.1, ⟨x.value.2, p.made ++ onLogG x.calls⟩)
  | .isR statusOk fpath =>
    let x := Logged.isR why statusOk p.world.env.fs fpath
    some (some x.value, ⟨p.world, p.made ++ onLogG x.calls⟩)
  | .mkdir a c ok =>
    let x := Logged.mkdir why a c ok p.world.env.fs
    some (some x.value.1,
      ⟨{ p.world with env := { p.world.env with fs := x.value.2 } }, p.made ++ onLogG x.calls⟩)
  | .setUrgency i ll => some (none, ⟨p.world, p.made ++ [.setUrgency i ll]⟩)

def step (p : Prog) (s : ProgAction × Reasons) : Option Prog := (p.call s.2 s.1).map Prod.snd

/-- The call returns no other code than `SUCCESS`, and no removal fails. -/
def Smooth (p : Prog) (s : ProgAction × Reasons) : Prop :=
  ∀ rc q, p.call s.2 s.1 = some (rc, q) →
    (rc = none ∨ rc = some .success) ∧ ∀ a, s.1 = .file a → ¬ a.RemovalFails

/-! ### Without the log -/

/-- **A step without its log** is the step of the world. -/
theorem map_world_step (p : Prog) (s : ProgAction × Reasons) :
    (p.step s).map world = p.world.plainStep s.1 := by
  obtain ⟨act, why⟩ := s
  cases act with
  | file a =>
    rw [step, Option.map_map, call, Option.map_map, World.plainStep, ← World.value_loggedStep why]
    rfl
  | isR statusOk fpath => rfl
  | mkdir a c ok =>
    rw [World.plainStep, ← Logged.value_mkdir why]
    rfl
  | setUrgency i ll => rfl

/-- **The log changes nothing.**  A run leaves the world that the same calls leave without their log calls,
and without the calls that set urgency levels or only look at a file. -/
theorem world_run (p : Prog) (as : List (ProgAction × Reasons)) :
    (run step p as).map world =
      run World.plainStep p.world ((as.map Prod.fst).filter ProgAction.changes) := by
  rw [run_filter World.plainStep_skip]
  exact run_map map_world_step p as

/-! ### Alarms -/

/-- The log calls made so far. -/
def calls (p : Prog) : List LogCall := p.made.map fun a => a.call.2

theorem calls_onLogG (cs : List LogCall) : (onLogG cs).map (fun a => a.call.2) = cs := by
  rw [onLogG, List.map_map]
  exact List.map_id cs

/-- What a step adds to the calls. -/
theorem urgent_step_iff {p q : Prog} {s : ProgAction × Reasons} (h : p.step s = some q) :
    Urgent .ERRO q.calls ↔ Urgent .ERRO p.calls ∨ ¬ p.Smooth s := by
  obtain ⟨act, why⟩ := s
  obtain ⟨⟨rc, q'⟩, hcall, rfl⟩ := Option.map_eq_some_iff.mp h
  have hsmooth : p.Smooth (act, why) ↔
      (rc = none ∨ rc = some .success) ∧ ∀ a, act = .file a → ¬ a.RemovalFails := by
    unfold Smooth
    rw [hcall]
    constructor
    · exact fun hall => hall rc q' rfl
    · intro hrc rc' q'' heq
      cases heq
      exact hrc
  rw [hsmooth]
  cases act with
  | file a =>
    obtain ⟨x, hx, hq⟩ := Option.map_eq_some_iff.mp hcall
    cases hq
    have halarm := World.urgent_loggedStep_iff hx
    simp only [calls, List.map_append, urgent_append, calls_onLogG, halarm, Action.Smooth,
      ProgAction.file.injEq, forall_eq']
  | isR statusOk fpath =>
    cases hcall
    simp [calls, calls_onLogG, Logged.alarm_isR, Logged.value_isR]
  | mkdir a c ok =>
    cases hcall
    simp [calls, calls_onLogG, Logged.alarm_mkdir, Logged.value_mkdir]
  | setUrgency i ll =>
    cases hcall
    simp [calls, LoggerAction.call, LL.ERRO, LL.NTFY]

/-- **Runs.**  An alarm is raised in a run exactly when a call in it fails, or a removal does. -/
theorem urgent_run_iff {p q : Prog} {as : List (ProgAction × Reasons)} (h : run step p as = some q)
    (hp : ¬ Urgent .ERRO p.calls) : Urgent .ERRO q.calls ↔ ¬ Guarded step Smooth p as := by
  have hout := guarded_or_broken (I := fun p => ¬ Urgent .ERRO p.calls)
    (B := fun p => Urgent .ERRO p.calls) (G := Smooth)
    (fun p s q hI hs hG hq => ((urgent_step_iff hs).mp hq).elim hI fun hn => hn hG)
    (fun p s q _ hs hG => (urgent_step_iff hs).mpr (Or.inr hG))
    (fun p s q hB hs => (urgent_step_iff hs).mpr (Or.inl hB)) hp h
  rcases hout with ⟨hG, hI⟩ | ⟨hG, hB⟩
  · exact ⟨fun hq => absurd hq hI, fun hn => absurd hG hn⟩
  · exact ⟨fun _ => hG, fun _ => hB⟩

/-- The level of the global logger is not set above `ll`. -/
def KeepsBelow (ll : LL) (as : List (ProgAction × Reasons)) : Prop :=
  ∀ s ∈ as, ∀ ll', s.1 = .setUrgency logG ll' → ll'.value ≤ ll.value

/-- What a run adds to the calls on loggers. -/
theorem keepsBelow_run {ll : LL} {p q : Prog} {as : List (ProgAction × Reasons)}
    (h : run step p as = some q) (has : KeepsBelow ll as) (hp : ∀ a ∈ p.made, a.KeepsBelow logG ll) :
    ∀ a ∈ q.made, a.KeepsBelow logG ll := by
  induction as generalizing p with
  | nil =>
    cases h
    exact hp
  | cons s as ih =>
    obtain ⟨r, hr, hrest⟩ := run_cons_some h
    refine ih hrest (fun t ht => has t (List.mem_cons_of_mem s ht)) ?_
    have hlog : ∀ cs, ∀ a ∈ p.made ++ onLogG cs, a.KeepsBelow logG ll := by
      intro cs a ha
      rcases List.mem_append.mp ha with ha | ha
      · exact hp a ha
      · obtain ⟨c, -, rfl⟩ := List.mem_map.mp ha
        exact ⟨rfl, fun ll' hll' => LoggerAction.noConfusion hll'⟩
    obtain ⟨act, why⟩ := s
    obtain ⟨⟨rc, r'⟩, hcall, rfl⟩ := Option.map_eq_some_iff.mp hr
    cases act with
    | file a =>
      obtain ⟨x, -, hq⟩ := Option.map_eq_some_iff.mp hcall
      cases hq
      exact hlog _
    | isR statusOk fpath => cases hcall; exact hlog _
    | mkdir a c ok => cases hcall; exact hlog _
    | setUrgency i ll₀ =>
      cases hcall
      intro a ha
      rcases List.mem_append.mp ha with ha | ha
      · exact hp a ha
      · rw [List.mem_singleton.mp ha]
        refine ⟨rfl, fun ll' hll' => ?_⟩
        cases hll'
        exact has _ List.mem_cons_self _ rfl

/-- **No silent failure.**  In a run in which the urgency level of the global logger is not above `ERRO`, the
records put out have an `ERRO` or a `CRIT` if and only if some call returned another code than `SUCCESS`, or
some move could not remove its old file. -/
theorem no_silent_failure {u : Loggers} (hu : (u logG).value ≤ LL.ERRO.value) {w : World} {q : Prog}
    {as : List (ProgAction × Reasons)} (has : KeepsBelow .ERRO as) (h : run step ⟨w, []⟩ as = some q) :
    Urgent .ERRO (printed u q.made) ↔ ¬ Guarded step Smooth ⟨w, []⟩ as := by
  have hmade := keepsBelow_run h has fun a ha => absurd ha List.not_mem_nil
  rw [urgent_printed_iff hu hmade]
  exact urgent_run_iff h (urgent_nil _)

/-- The file `a` is written without having been loaded. -/
def writeUnloaded (i : ℕ) : List (ProgAction × Reasons) :=
  let why : Reasons := ⟨fun _ => ⟨2, text "No such file or directory"⟩, fun _ => text "std::exception"⟩
  [(.file (.ofPath i [97] 1), why), (.file (.write i ⟨true, fun _ => true, none, none⟩), why)]

theorem no_silent_failure_write :
    ∃ q, run step ⟨.start (FileTree.Tree.root 0o755 40), []⟩ (writeUnloaded 0) = some q ∧
      ¬ Guarded step Smooth ⟨.start (FileTree.Tree.root 0o755 40), []⟩ (writeUnloaded 0) := by
  refine ⟨_, rfl, (no_silent_failure (u := fun _ => .DBUG) (by decide) ?_ rfl).mp ?_⟩
  · simp [KeepsBelow, writeUnloaded]
  · decide

end Prog

end WndxSane
