import Mathlib.Data.List.Basic
import Mathlib.Tactic.Common

/-!
# Shell commands under `set -e`

The commands of a POSIX shell script in which a command that fails ends the script, except where the shell
ignores that: on the left of `&&` and `||` and in the condition of an `if`, and in every function called from
there.  A simple command is a function of `$?` and the state that gives its exit status and the state after it.

* `eval`: how a command ends, with the failures ignored or not.
* `runSteps`: the plain meaning of a script, steps one after another up to the first that fails.
* `Runs`, **`Realizes`**: a command does what steps do; the rules build a script's steps from those of its
  parts.
* **`realizes_or_ignored`**: a fallback is never taken after a command that ends the script itself when it
  fails.
-/

namespace Shell

variable {σ β : Type*}

inductive Cmd (σ : Type*)
  | simple (f : ℕ → σ → ℕ × σ)
  | seq (c d : Cmd σ)
  | and (c d : Cmd σ)
  | or (c d : Cmd σ)
  | ifElse (test yes no : Cmd σ)
  | call (body : Cmd σ)
  | ret (status : ℕ → σ → ℕ)
  | exit (status : ℕ → σ → ℕ)

/-- How a command ends. -/
inductive Outcome (σ : Type*)
  | normal (status : ℕ) (s : σ)
  | returned (status : ℕ) (s : σ)
  | exited (status : ℕ) (s : σ)

def Outcome.andThen (r : Outcome σ) (k : ℕ → σ → Outcome σ) : Outcome σ :=
  match r with
  | .normal n s => k n s
  | .returned n s => .returned n s
  | .exited n s => .exited n s

/-- The end of a simple command or of a function call: a failure ends the script unless it is ignored. -/
def settle (ignored : Bool) (n : ℕ) (s : σ) : Outcome σ :=
  if n = 0 ∨ ignored = true then .normal n s else .exited n s

@[simp] def eval : Bool → Cmd σ → ℕ → σ → Outcome σ
  | ignored, .simple f, q, s => settle ignored (f q s).1 (f q s).2
  | ignored, .seq c d, q, s => (eval ignored c q s).andThen (eval ignored d)
  | ignored, .and c d, q, s =>
    (eval true c q s).andThen fun n t => if n = 0 then eval ignored d n t else .normal n t
  | ignored, .or c d, q, s =>
    (eval true c q s).andThen fun n t => if n = 0 then .normal n t else eval ignored d n t
  | ignored, .ifElse c d e, q, s =>
    (eval true c q s).andThen fun n t => if n = 0 then eval ignored d n t else eval ignored e n t
  | ignored, .call c, q, s =>
    match eval ignored c q s with
    | .normal n t => settle ignored n t
    | .returned n t => settle ignored n t
    | .exited n t => .exited n t
  | _, .ret f, q, s => .returned (f q s) s
  | _, .exit f, q, s => .exited (f q s) s

/-- A command that does nothing, and succeeds. -/
def skip : Cmd σ := .simple fun _ s => (0, s)

/-- `[ ... ]`. -/
def test (b : σ → Bool) : Cmd σ := .simple fun _ s => (if b s then 0 else 1, s)

/-- `NAME=value`. -/
def assign (f : ℕ → σ → σ) : Cmd σ := .simple fun q s => (0, f q s)

@[simp] theorem andThen_normal (n : ℕ) (s : σ) (k : ℕ → σ → Outcome σ) :
    (Outcome.normal n s).andThen k = k n s := rfl

@[simp] theorem andThen_returned (n : ℕ) (s : σ) (k : ℕ → σ → Outcome σ) :
    (Outcome.returned n s).andThen k = .returned n s := rfl

@[simp] theorem andThen_exited (n : ℕ) (s : σ) (k : ℕ → σ → Outcome σ) :
    (Outcome.exited n s).andThen k = .exited n s := rfl

@[simp] theorem settle_zero (ignored : Bool) (s : σ) : settle ignored 0 s = .normal 0 s := by
  simp [settle]

@[simp] theorem settle_true (n : ℕ) (s : σ) : settle true n s = .normal n s := by simp [settle]

theorem settle_false {n : ℕ} (h : n ≠ 0) (s : σ) : settle false n s = .exited n s := by
  simp [settle, h]

theorem settle_false_inj {n m : ℕ} {s t : σ} (h : settle false n s = settle false m t) : n = m ∧ s = t := by
  by_cases hn : n = 0 <;> by_cases hm : m = 0 <;> simp_all [settle]

@[simp] theorem eval_test (ignored : Bool) (b : σ → Bool) (q : ℕ) (s : σ) :
    eval ignored (test b) q s = settle ignored (if b s then 0 else 1) s := rfl

@[simp] theorem eval_assign (ignored : Bool) (f : ℕ → σ → σ) (q : ℕ) (s : σ) :
    eval ignored (assign f) q s = .normal 0 (f q s) := by
  simp [assign, eval]

/-- A function whose last command is simple. -/
theorem eval_call_settle {c : Cmd σ} {ignored : Bool} {q n : ℕ} {s t : σ}
    (h : eval ignored c q s = settle ignored n t) : eval ignored (.call c) q s = settle ignored n t := by
  rw [eval, h]
  by_cases hn : n = 0 ∨ ignored = true
  · rw [settle, if_pos hn]
    exact if_pos hn
  · rw [settle, if_neg hn]

/-! ### Steps -/

/-- Take the steps one after another, up to the first that fails. -/
def runSteps (exec : σ → β → ℕ × σ) : List β → σ → ℕ × σ
  | [], s => (0, s)
  | b :: bs, s => if (exec s b).1 = 0 then runSteps exec bs (exec s b).2 else exec s b

variable {exec : σ → β → ℕ × σ}

theorem runSteps_append (bs cs : List β) (s : σ) :
    runSteps exec (bs ++ cs) s =
      if (runSteps exec bs s).1 = 0 then runSteps exec cs (runSteps exec bs s).2
      else runSteps exec bs s := by
  induction bs generalizing s with
  | nil => simp [runSteps]
  | cons b bs ih =>
    rw [List.cons_append, runSteps, runSteps]
    by_cases h : (exec s b).1 = 0
    · rw [if_pos h, if_pos h, ih]
    · rw [if_neg h, if_neg h, if_neg h]

theorem runSteps_singleton (b : β) (s : σ) : runSteps exec [b] s = exec s b := by
  rw [runSteps]
  split
  · rename_i h
    rw [runSteps, ← h]
  · rfl

theorem runSteps_cons {b : β} {s : σ} (h : (exec s b).1 = 0) (bs : List β) :
    runSteps exec (b :: bs) s = runSteps exec bs (exec s b).2 := by
  rw [runSteps, if_pos h]

/-- Steps that all succeed can be taken in any way that agrees on steps that succeed. -/
theorem runSteps_eq_of_agree {exec' : σ → β → ℕ × σ}
    (hagree : ∀ s b, (exec s b).1 = 0 → exec' s b = exec s b) {bs : List β} {s : σ}
    (h : (runSteps exec bs s).1 = 0) : runSteps exec' bs s = runSteps exec bs s := by
  induction bs generalizing s with
  | nil => rfl
  | cons b bs ih =>
    by_cases hb : (exec s b).1 = 0
    · have hb' : (exec' s b).1 = 0 := by rw [hagree s b hb, hb]
      rw [runSteps_cons hb] at h ⊢
      rw [runSteps_cons hb', hagree s b hb, ih h]
    · rw [runSteps, if_neg hb] at h
      exact absurd h hb

/-- What every step preserves holds after the steps, however they end. -/
theorem runSteps_invariant {I : σ → Prop} (hstep : ∀ s b, I s → I (exec s b).2) (bs : List β) {s : σ}
    (hs : I s) : I (runSteps exec bs s).2 := by
  induction bs generalizing s with
  | nil => exact hs
  | cons b bs ih =>
    rw [runSteps]
    split
    · exact ih (hstep s b hs)
    · exact hstep s b hs

/-- Steps that fail stop at one of them: those before it succeed, and it fails. -/
theorem runSteps_failed {bs : List β} {s : σ} (h : (runSteps exec bs s).1 ≠ 0) :
    ∃ pre b post, bs = pre ++ b :: post ∧ (runSteps exec pre s).1 = 0 ∧
      (exec (runSteps exec pre s).2 b).1 ≠ 0 ∧ runSteps exec bs s = exec (runSteps exec pre s).2 b := by
  induction bs generalizing s with
  | nil => exact absurd rfl h
  | cons b bs ih =>
    by_cases hb : (exec s b).1 = 0
    · have hrun : ∀ cs, runSteps exec (b :: cs) s = runSteps exec cs (exec s b).2 := runSteps_cons hb
      rw [hrun] at h ⊢
      obtain ⟨pre, c, post, rfl, hpre, hc, heq⟩ := ih h
      refine ⟨b :: pre, c, post, rfl, ?_, ?_, ?_⟩
      · rwa [hrun]
      · rwa [hrun]
      · rw [heq, hrun]
    · refine ⟨[], b, bs, rfl, rfl, hb, ?_⟩
      conv_lhs => rw [runSteps, if_neg hb]
      rfl

/-! ### Commands that do steps -/

/-- The command goes on after the steps, with whatever status, or exits with the status of the step that
failed. -/
def Runs (ignored : Bool) (c : Cmd σ) (f : σ → ℕ × σ) : Prop :=
  ∀ q s, ((f s).1 = 0 → ∃ n, eval ignored c q s = .normal n (f s).2) ∧
    ((f s).1 ≠ 0 → eval ignored c q s = .exited (f s).1 (f s).2)

/-- The command succeeds after the steps, or exits with the status of the step that failed. -/
def Realizes (ignored : Bool) (c : Cmd σ) (f : σ → ℕ × σ) : Prop :=
  ∀ q s, eval ignored c q s = settle false (f s).1 (f s).2

variable {ignored : Bool} {c d : Cmd σ} {f g : σ → ℕ × σ} {bs cs : List β}

theorem Realizes.runs (h : Realizes ignored c f) : Runs ignored c f := by
  intro q s
  refine ⟨fun hz => ⟨0, ?_⟩, fun hn => ?_⟩
  · rw [h q s, hz, settle_zero]
  · rw [h q s, settle_false hn]

theorem Realizes.congr (h : Realizes ignored c f) (hfg : ∀ s, f s = g s) : Realizes ignored c g := by
  intro q s
  rw [h q s, hfg s]

theorem Runs.congr (h : Runs ignored c f) (hfg : ∀ s, f s = g s) : Runs ignored c g := by
  intro q s
  rw [← hfg s]
  exact h q s

/-- Two commands: the status of the first is lost. -/
theorem Runs.seq (hc : Runs ignored c (runSteps exec bs)) (hd : Realizes ignored d (runSteps exec cs)) :
    Realizes ignored (.seq c d) (runSteps exec (bs ++ cs)) := by
  intro q s
  rw [eval, runSteps_append]
  by_cases h : (runSteps exec bs s).1 = 0
  · obtain ⟨n, hn⟩ := (hc q s).1 h
    rw [hn, andThen_normal, hd n, if_pos h]
  · rw [(hc q s).2 h, andThen_exited, if_neg h, settle_false h]

theorem realizes_skip : Realizes ignored skip (runSteps exec []) := by
  intro q s
  rw [skip, eval, settle_zero]
  rfl

theorem Realizes.call (h : Realizes ignored c f) : Realizes ignored (.call c) f := by
  intro q s
  rw [eval, h q s]
  by_cases hz : (f s).1 = 0
  · rw [hz, settle_zero]
    exact settle_zero ignored _
  · rw [settle_false hz]

/-- `c || exit n`. -/
theorem realizes_or_exit {k : ℕ} (hk : k ≠ 0) (hc : ∀ q s, eval true c q s = .normal (f s).1 (f s).2) :
    Realizes ignored (.or c (.exit fun _ _ => k)) fun s => (if (f s).1 = 0 then 0 else k, (f s).2) := by
  intro q s
  show _ = settle false (if (f s).1 = 0 then 0 else k) (f s).2
  rw [eval, hc, andThen_normal]
  by_cases h : (f s).1 = 0
  · rw [h, if_pos rfl, if_pos rfl, settle_zero]
  · rw [if_neg h, if_neg h, settle_false hk]
    rfl

/-- `[ ... ] && c`. -/
theorem Realizes.and_test (h : Realizes ignored c f) (b : σ → Bool) :
    Runs ignored (.and (test b) c) fun s => if b s then f s else (0, s) := by
  intro q s
  have heval : eval ignored (.and (test b) c) q s =
      if b s then eval ignored c 0 s else .normal 1 s := by
    rw [eval, eval_test, settle_true, andThen_normal]
    cases b s <;> rfl
  simp only [heval]
  by_cases hb : b s = true
  · simp only [hb, if_true]
    exact h.runs 0 s
  · simp only [hb, Bool.false_eq_true, if_false]
    exact ⟨fun _ => ⟨1, rfl⟩, fun hn => absurd rfl hn⟩

/-- `[ ... ] || c`. -/
theorem Realizes.or_test (h : Realizes ignored c f) (b : σ → Bool) :
    Realizes ignored (.or (test b) c) fun s => if b s then (0, s) else f s := by
  intro q s
  have heval : eval ignored (.or (test b) c) q s =
      if b s then .normal 0 s else eval ignored c 1 s := by
    rw [eval, eval_test, settle_true, andThen_normal]
    cases b s <;> rfl
  simp only [heval]
  by_cases hb : b s = true
  · simp only [hb, if_true]
    exact (settle_zero false s).symm
  · simp only [hb, Bool.false_eq_true, if_false]
    exact h 1 s

/-- `if [ ... ]; then c; fi`, the test being of something that does not change. -/
theorem runs_ifThen (b : Bool) (h : b = true → Runs ignored c (runSteps exec bs)) :
    Runs ignored (.ifElse (test fun _ => b) c skip) (runSteps exec (if b then bs else [])) := by
  intro q s
  rw [eval, eval_test, settle_true, andThen_normal]
  cases b with
  | true => exact h rfl 0 s
  | false =>
    have hskip : Realizes ignored skip (runSteps exec []) := realizes_skip
    exact hskip.runs 1 s

theorem realizes_ifThen (b : Bool) (h : b = true → Realizes ignored c (runSteps exec bs)) :
    Realizes ignored (.ifElse (test fun _ => b) c skip) (runSteps exec (if b then bs else [])) := by
  intro q s
  rw [eval, eval_test, settle_true, andThen_normal]
  cases b with
  | true => exact h rfl 0 s
  | false => exact realizes_skip 1 s

/-- **A fallback that is not taken.**  Where `c` exits when it fails, also with its failures ignored, `c || d`
does what `c` does. -/
theorem realizes_or_ignored (h : Realizes true c f) : Realizes ignored (.or c d) f := by
  intro q s
  rw [eval, h q s]
  by_cases hz : (f s).1 = 0
  · rw [hz, settle_zero, andThen_normal, if_pos rfl]
  · rw [settle_false hz, andThen_exited]

end Shell
