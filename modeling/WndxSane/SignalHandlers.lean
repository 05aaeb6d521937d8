import Mathlib.Data.Nat.Basic
import Mathlib.Logic.Function.Basic
import Mathlib.Tactic.Common

/-!
# Handlers of the system signals

`handlers_set_defaults` goes through the signal numbers from 1 on and installs one handler for each of
them, a few left out.  A call of `sigaction` that fails ends the process.

The loop stops before `SIGRTMAX`, which is itself a signal: POSIX has the real-time signals from `SIGRTMIN`
to `SIGRTMAX` inclusive.

* `setDefaults_eq_returned`, `setDefaults_eq_exited`: what a loop over any interval of signals does.
* **`covers_all_signals_iff`**: when all signals up to `SIGRTMAX` are covered.
-/

namespace WndxSane.Sig

/-- `enum class SIG`; its values are those of `int`, named or not. -/
structure SIG where
  value : ℕ
  deriving DecidableEq

namespace SIG

def TRAP : SIG := ⟨5⟩
def KILL : SIG := ⟨9⟩
def CHLD : SIG := ⟨17⟩
def CONT : SIG := ⟨18⟩
def STOP : SIG := ⟨19⟩
def TSTP : SIG := ⟨20⟩
def TTIN : SIG := ⟨21⟩
def TTOU : SIG := ⟨22⟩
def URG : SIG := ⟨23⟩
def WINCH : SIG := ⟨28⟩
def WTF32 : SIG := ⟨32⟩
def WTF33 : SIG := ⟨33⟩

end SIG

/-- The signals that no handler is installed on. -/
def skipped (sig : SIG) : Bool :=
  decide (sig ∈ [SIG.WTF32, SIG.WTF33, SIG.TRAP, SIG.KILL, SIG.CONT, SIG.STOP, SIG.TSTP, SIG.TTIN,
    SIG.TTOU, SIG.CHLD, SIG.URG, SIG.WINCH])

/-- `EXIT_FAILURE`. -/
def exitFailure : ℕ := 1

/-- How a call ends: the function returns, or the process exits with a status, after a message about a
signal.  The dispositions of the signals are those left behind. -/
inductive Outcome (H : Type*)
  | returned (table : ℕ → H)
  | exited (status : ℕ) (sig : ℕ) (extraMsg : String) (table : ℕ → H)

variable {H : Type*}

/-- The loop of `handlers_set_defaults` over the signals it has still to go through; `fails` are the signals
for which `sigaction` returns -1. -/
def setDefaults (fails : ℕ → Bool) (handler : H) : List ℕ → (ℕ → H) → Outcome H
  | [], table => .returned table
  | sig :: sigs, table =>
    if skipped ⟨sig⟩ then setDefaults fails handler sigs table
    else if fails sig then
      .exited exitFailure sig "-> FAILED to set handler for this system signal! EXIT." table
    else setDefaults fails handler sigs (Function.update table sig handler)

/-- `handlers_set_defaults`: `for (int sig = 1; sig < SIGRTMAX; sig++)`. -/
def handlersSetDefaults (sigrtmax : ℕ) (fails : ℕ → Bool) (handler : H) (table : ℕ → H) : Outcome H :=
  setDefaults fails handler (List.range' 1 (sigrtmax - 1)) table

/-! ### The loop -/

/-- A handler is to be installed on the signal, and cannot be. -/
def Failing (fails : ℕ → Bool) (sig : ℕ) : Prop := skipped ⟨sig⟩ = false ∧ fails sig = true

/-- The dispositions once the handler is installed on the signals from `a` on and before `b`. -/
def installed (handler : H) (a b : ℕ) (table : ℕ → H) (sig : ℕ) : H :=
  if a ≤ sig ∧ sig < b ∧ skipped ⟨sig⟩ = false then handler else table sig

variable {fails : ℕ → Bool} {handler : H} {table : ℕ → H} {a k : ℕ}

theorem installed_self (handler : H) (a : ℕ) (table : ℕ → H) : installed handler a a table = table := by
  funext sig
  rw [installed, if_neg]
  omega

/-- One more signal at the start of the interval, left out or not. -/
theorem installed_cons {b : ℕ} (hab : a < b) :
    installed handler (a + 1) b (if skipped ⟨a⟩ then table else Function.update table a handler) =
      installed handler a b table := by
  funext sig
  by_cases hsig : sig = a
  · subst hsig
    rw [installed, installed, if_neg (by omega)]
    by_cases hskip : skipped ⟨sig⟩ = true
    · rw [if_pos hskip, if_neg (by rw [hskip]; exact fun h => Bool.noConfusion h.2.2)]
    · rw [if_neg hskip, Function.update_self,
        if_pos ⟨le_refl sig, hab, (Bool.not_eq_true _).mp hskip⟩]
  · have hle : a + 1 ≤ sig ↔ a ≤ sig := by omega
    have hrest : (if skipped ⟨a⟩ then table else Function.update table a handler) sig = table sig := by
      split
      · rfl
      · exact Function.update_of_ne hsig ..
    simp only [installed, hle, hrest]

/-- A round of the loop that goes on. -/
theorem setDefaults_cons (h : ¬ Failing fails a) (sigs : List ℕ) :
    setDefaults fails handler (a :: sigs) table =
      setDefaults fails handler sigs (if skipped ⟨a⟩ then table else Function.update table a handler) := by
  rw [setDefaults]
  by_cases hskip : skipped ⟨a⟩ = true
  · rw [if_pos hskip, if_pos hskip]
  · have hok : ¬ fails a = true := fun hf => h ⟨(Bool.not_eq_true _).mp hskip, hf⟩
    rw [if_neg hskip, if_neg hok, if_neg hskip]

/-- Where no call fails, the loop installs the handler on all signals of the interval but those left out. -/
theorem setDefaults_eq_returned (h : ∀ sig, a ≤ sig → sig < a + k → ¬ Failing fails sig) :
    setDefaults fails handler (List.range' a k) table =
      .returned (installed handler a (a + k) table) := by
  induction k generalizing a table with
  | zero => rw [List.range'_zero, setDefaults, Nat.add_zero, installed_self]
  | succ k ih =>
    have hend : a + (k + 1) = a + 1 + k := by omega
    rw [List.range'_succ, setDefaults_cons (h a (le_refl a) (by omega)),
      ih fun sig hle hlt => h sig (by omega) (by omega), hend, installed_cons (by omega)]

/-- The first call that fails ends the process: the handler is installed on the signals before. -/
theorem setDefaults_eq_exited {first : ℕ} (hle : a ≤ first) (hlt : first < a + k)
    (hfirst : Failing fails first) (h : ∀ sig, a ≤ sig → sig < first → ¬ Failing fails sig) :
    setDefaults fails handler (List.range' a k) table =
      .exited exitFailure first "-> FAILED to set handler for this system signal! EXIT."
        (installed handler a first table) := by
  induction k generalizing a table with
  | zero => omega
  | succ k ih =>
    rw [List.range'_succ]
    rcases Nat.eq_or_lt_of_le hle with rfl | hafter
    · rw [setDefaults, if_neg (by rw [hfirst.1]; exact Bool.false_ne_true), if_pos hfirst.2,
        installed_self]
    · rw [setDefaults_cons (h a (le_refl a) hafter),
        ih (by omega) (by omega) fun sig hle' hlt' => h sig (by omega) hlt', installed_cons hafter]

/-! ### All signals -/

/-- All signals from 1 to `SIGRTMAX` are covered: when the function returns, the handler is installed on all
of them but those left out, which are as they were; when it cannot be installed on one of them, the process
exits at the first such signal, without having changed that one or a higher one. -/
structure CoversAllSignals (sigrtmax : ℕ) (fails : ℕ → Bool) (handler : H) (table : ℕ → H) : Prop where
  returned : ∀ table', handlersSetDefaults sigrtmax fails handler table = .returned table' →
    ∀ sig, 1 ≤ sig → sig ≤ sigrtmax → table' sig = if skipped ⟨sig⟩ then table sig else handler
  exits : ∀ first, 1 ≤ first → first ≤ sigrtmax → Failing fails first →
    (∀ sig, 1 ≤ sig → sig < first → ¬ Failing fails sig) →
      ∃ extraMsg table', handlersSetDefaults sigrtmax fails handler table =
          .exited exitFailure first extraMsg table' ∧ ∀ sig, first ≤ sig → table' sig = table sig

variable {sigrtmax : ℕ}

/-- Without a failure before `SIGRTMAX`, the function returns, whatever would become of `SIGRTMAX`. -/
theorem handlersSetDefaults_returned (hmax : 1 ≤ sigrtmax)
    (h : ∀ sig, 1 ≤ sig → sig < sigrtmax → ¬ Failing fails sig) :
    handlersSetDefaults sigrtmax fails handler table = .returned (installed handler 1 sigrtmax table) := by
  have hend : 1 + (sigrtmax - 1) = sigrtmax := by omega
  rw [handlersSetDefaults, setDefaults_eq_returned (by rwa [hend]), hend]

theorem handlersSetDefaults_exited {first : ℕ} (hle : 1 ≤ first) (hlt : first < sigrtmax)
    (hfirst : Failing fails first) (h : ∀ sig, 1 ≤ sig → sig < first → ¬ Failing fails sig) :
    handlersSetDefaults sigrtmax fails handler table =
      .exited exitFailure first "-> FAILED to set handler for this system signal! EXIT."
        (installed handler 1 first table) :=
  setDefaults_eq_exited hle (by omega) hfirst h

/-- The first failure before a signal that has one before it. -/
theorem exists_first_failing {n : ℕ} (hn : 1 ≤ n) (h : Failing fails n) :
    ∃ first, 1 ≤ first ∧ first ≤ n ∧ Failing fails first ∧
      ∀ sig, 1 ≤ sig → sig < first → ¬ Failing fails sig := by
  induction n using Nat.strong_induction_on with
  | _ n ih =>
    by_cases hearlier : ∃ m, 1 ≤ m ∧ m < n ∧ Failing fails m
    · obtain ⟨m, hm, hmn, hfail⟩ := hearlier
      obtain ⟨first, h₁, hle, hfirst, hmin⟩ := ih m hmn hm hfail
      exact ⟨first, h₁, by omega, hfirst, hmin⟩
    · exact ⟨n, hn, le_refl n, h, fun sig h₁ hlt hfail => hearlier ⟨sig, h₁, hlt, hfail⟩⟩

/-- The dispositions from the end of the interval on are as they were. -/
theorem installed_of_le {b sig : ℕ} (h : b ≤ sig) : installed handler a b table sig = table sig := by
  rw [installed, if_neg]
  omega

/-- A process that exits before `SIGRTMAX` has done as it should. -/
theorem coversAllSignals_of_failing {n : ℕ} (hn : 1 ≤ n) (hmax : n < sigrtmax)
    (hfail : Failing fails n) : CoversAllSignals sigrtmax fails handler table := by
  obtain ⟨first, h₁, hle, hfirst, hmin⟩ := exists_first_failing hn hfail
  have hexit : handlersSetDefaults sigrtmax fails handler table = .exited exitFailure first
      "-> FAILED to set handler for this system signal! EXIT." (installed handler 1 first table) :=
    handlersSetDefaults_exited h₁ (lt_of_le_of_lt hle hmax) hfirst hmin
  refine ⟨fun table' hret => ?_, fun first' h₁' hle' hfirst' hmin' => ?_⟩
  · rw [hexit] at hret
    exact absurd hret (by simp)
  · have heq : first' = first := by
      rcases Nat.lt_trichotomy first' first with hlt | heq | hgt
      · exact absurd hfirst' (hmin first' h₁' hlt)
      · exact heq
      · exact absurd hfirst (hmin' first h₁ hgt)
    exact ⟨_, _, heq ▸ hexit, fun sig hsig => installed_of_le (heq ▸ hsig)⟩

/-- Where the function returns, only `SIGRTMAX` has not been looked at. -/
theorem coversAllSignals_iff_of_clear (hmax : 1 ≤ sigrtmax)
    (hclear : ∀ sig, 1 ≤ sig → sig < sigrtmax → ¬ Failing fails sig) :
    CoversAllSignals sigrtmax fails handler table ↔
      skipped ⟨sigrtmax⟩ = true ∨ (fails sigrtmax = false ∧ table sigrtmax = handler) := by
  have hret : handlersSetDefaults sigrtmax fails handler table =
      .returned (installed handler 1 sigrtmax table) := handlersSetDefaults_returned hmax hclear
  constructor
  · intro h
    by_cases hskip : skipped ⟨sigrtmax⟩ = true
    · exact Or.inl hskip
    have htable := h.returned _ hret sigrtmax hmax (le_refl _)
    rw [installed_of_le (le_refl _), if_neg hskip] at htable
    refine Or.inr ⟨?_, htable⟩
    by_contra hfail
    have hfailing : Failing fails sigrtmax :=
      ⟨(Bool.not_eq_true _).mp hskip, (Bool.not_eq_false _).mp hfail⟩
    obtain ⟨_, _, hexit, -⟩ := h.exits sigrtmax hmax (le_refl _) hfailing hclear
    rw [hret] at hexit
    exact absurd hexit (by simp)
  · intro hlast
    refine ⟨fun table' htable sig h₁ hle => ?_, fun first h₁ hle hfirst _ => ?_⟩
    · rw [hret] at htable
      cases htable
      rcases lt_or_eq_of_le hle with hlt | rfl
      · rw [installed]
        cases skipped ⟨sig⟩ <;> simp [h₁, hlt]
      · rw [installed_of_le (le_refl _)]
        rcases hlast with hskip | ⟨-, hdone⟩
        · rw [if_pos hskip]
        · rw [hdone, ite_self]
    · exfalso
      rcases lt_or_eq_of_le hle with hlt | rfl
      · exact hclear first h₁ hlt hfirst
      · rcases hlast with hskip | ⟨hok, -⟩
        · rw [hfirst.1] at hskip
          exact Bool.noConfusion hskip
        · rw [hfirst.2] at hok
          exact Bool.noConfusion hok

/-- **All signals.**  All signals up to `SIGRTMAX` are covered if and only if `SIGRTMAX` need not be: there
are no signals, it is one of those left out, the process exits at a signal before it, or its handler could be
installed and is installed already. -/
theorem covers_all_signals_iff (sigrtmax : ℕ) (fails : ℕ → Bool) (handler : H) (table : ℕ → H) :
    CoversAllSignals sigrtmax fails handler table ↔
      sigrtmax = 0 ∨ skipped ⟨sigrtmax⟩ = true ∨
        (∃ sig, 1 ≤ sig ∧ sig < sigrtmax ∧ Failing fails sig) ∨
          (fails sigrtmax = false ∧ table sigrtmax = handler) := by
  rcases Nat.eq_zero_or_pos sigrtmax with rfl | hmax
  · refine ⟨fun _ => Or.inl rfl, fun _ => ⟨fun _ _ sig h₁ hle => ?_, fun first h₁ hle => ?_⟩⟩ <;> omega
  by_cases hearly : ∃ sig, 1 ≤ sig ∧ sig < sigrtmax ∧ Failing fails sig
  · refine ⟨fun _ => Or.inr (Or.inr (Or.inl hearly)), fun _ => ?_⟩
    obtain ⟨n, hn, hnmax, hfail⟩ := hearly
    exact coversAllSignals_of_failing hn hnmax hfail
  · rw [coversAllSignals_iff_of_clear hmax fun sig h₁ hlt hfail => hearly ⟨sig, h₁, hlt, hfail⟩,
      or_iff_right (Nat.ne_of_gt hmax), or_iff_right hearly]

/-- With 64 signals, and no call that fails, the last one keeps its disposition. -/
theorem last_signal_not_covered :
    ¬ ∀ (sigrtmax : ℕ) (fails : ℕ → Bool) (handler : ℕ) (table : ℕ → ℕ),
      CoversAllSignals sigrtmax fails handler table := by
  intro h
  have hret : handlersSetDefaults 64 (fun _ => false) 1 (fun _ => 0) =
      .returned (installed 1 1 64 fun _ => 0) :=
    handlersSetDefaults_returned (by decide) fun _ _ _ hfail => Bool.noConfusion hfail.2
  have hlast := (h 64 (fun _ => false) 1 fun _ => 0).returned _ hret 64 (by decide) (by decide)
  exact absurd hlast (by decide)

end WndxSane.Sig
