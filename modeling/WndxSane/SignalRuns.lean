import WndxSane.SignalHandlers
import WndxSane.Logger

/-!
# A process that sets the handlers

A process installs `handlers` with `handlers_set_defaults`, and then signals are delivered to it.  The handler
prints the signal and returns: a signal it is installed on does not end the process.  A signal that stops or
continues the process is, here, one that does not end it.

* `run_of_running`: what signals do to a process with any dispositions.
* **`signals_run`**: what ends the process, and what it prints until then.

What is printed are the log calls made; which of them are shown depends on the urgency level.
-/

namespace WndxSane.Sig

/-! ### The handler -/

/-- The names in `fmt::formatter<SIG>::format`, from signal 1 on. -/
def names : List String :=
  ["SIGHUP", "SIGINT", "SIGQUIT", "SIGILL", "SIGTRAP", "SIGABRT", "SIGBUS", "SIGFPE", "SIGKILL",
    "SIGUSR1", "SIGSEGV", "SIGUSR2", "SIGPIPE", "SIGALRM", "SIGTERM", "SIGSTKFLT", "SIGCHLD",
    "SIGCONT", "SIGSTOP", "SIGTSTP", "SIGTTIN", "SIGTTOU", "SIGURG", "SIGXCPU", "SIGXFSZ",
    "SIGVTALRM", "SIGPROF", "SIGWINCH", "SIGPOLL", "SIGPWR", "SIGSYS", "WTF32", "WTF33",
    "SIGRTMIN", "SIGRTMIN+1", "SIGRTMIN+2", "SIGRTMIN+3", "SIGRTMIN+4", "SIGRTMIN+5", "SIGRTMIN+6",
    "SIGRTMIN+7", "SIGRTMIN+8", "SIGRTMIN+9", "SIGRTMIN+10", "SIGRTMIN+11", "SIGRTMIN+12",
    "SIGRTMIN+13", "SIGRTMIN+14", "SIGRTMIN+15", "SIGRTMIN+16", "SIGRTMIN+17", "SIGRTMIN+18",
    "SIGRTMIN+19", "SIGRTMIN+20", "SIGRTMIN+21", "SIGRTMIN+22", "SIGRTMIN+23", "SIGRTMIN+24",
    "SIGRTMIN+25", "SIGRTMIN+26", "SIGRTMIN+27", "SIGRTMIN+28", "SIGRTMIN+29", "SIGRTMIN+30"]

/-- `fmt::formatter<SIG>::format`. -/
def SIG.format (sig : SIG) : List Byte :=
  match sig.value with
  | 0 => text "unknown"
  | n + 1 => text (names.getD n "unknown")

/-- `print`. -/
def print (sig : ℕ) (extraMsg : String) : LogCall :=
  ⟨.sigHandlerCpp, 44, .NTFY, fmt "\nSIG {:2}: [{}] {} {}\n\n"
    [decimal sig, SIG.format ⟨sig⟩, text "received.", text extraMsg]⟩

/-- `handlers`: every signal is printed. -/
def handlers (sig : ℕ) : LogCall := print sig "FINISH HIM!"

/-! ### The process -/

/-- What a signal does: its default action, or a call of `handlers`. -/
inductive Disposition
  | default
  | handlers
  deriving DecidableEq

/-- The dispositions of a process, whether it has ended, and the log calls it has made. -/
structure Process where
  table : ℕ → Disposition
  ended : Bool
  made : List LogCall

namespace Process

/-- The process once it has called `handlers_set_defaults`. -/
def start (sigrtmax : ℕ) (fails : ℕ → Bool) : Process :=
  match handlersSetDefaults sigrtmax fails .handlers fun _ => .default with
  | .returned table => ⟨table, false, []⟩
  | .exited _ sig extraMsg table => ⟨table, true, [print sig extraMsg]⟩

variable (terminates : ℕ → Bool)

/-- A signal is delivered; `terminates` are the signals whose default action ends the process. -/
def deliver (p : Process) (sig : ℕ) : Process :=
  if p.ended then p
  else match p.table sig with
    | .handlers => { p with made := p.made ++ [Sig.handlers sig] }
    | .default => { p with ended := terminates sig }

/-- Signals are delivered one after another. -/
def run (p : Process) (sigs : List ℕ) : Process := sigs.foldl (deliver terminates) p

/-- The signal ends the process. -/
def Fatal (table : ℕ → Disposition) (sig : ℕ) : Prop := table sig = .default ∧ terminates sig = true

instance (table : ℕ → Disposition) (sig : ℕ) : Decidable (Fatal terminates table sig) :=
  inferInstanceAs (Decidable (_ ∧ _))

/-- The signals delivered before one ends the process, as far as they are handled. -/
def handled (table : ℕ → Disposition) (sigs : List ℕ) : List ℕ :=
  (sigs.takeWhile fun sig => !decide (Fatal terminates table sig)).filter fun sig =>
    decide (table sig = .handlers)

variable {terminates} {p : Process}

theorem run_of_ended (h : p.ended = true) (sigs : List ℕ) : p.run terminates sigs = p := by
  induction sigs with
  | nil => rfl
  | cons sig sigs ih =>
    show (p.deliver terminates sig).run terminates sigs = p
    rw [deliver, if_pos h, ih]

/-- What one signal does to a process that runs. -/
theorem deliver_of_running (terminates : ℕ → Bool) (h : p.ended = false) (sig : ℕ) :
    p.deliver terminates sig = ⟨p.table, decide (Fatal terminates p.table sig),
      p.made ++ if p.table sig = .handlers then [Sig.handlers sig] else []⟩ := by
  rw [deliver, h, if_neg Bool.false_ne_true]
  cases hsig : p.table sig with
  | handlers => simp [Fatal, hsig, ← h]
  | default => simp [Fatal, hsig]

theorem handled_cons_of_fatal {table : ℕ → Disposition} {sig : ℕ} (h : Fatal terminates table sig)
    (sigs : List ℕ) : handled terminates table (sig :: sigs) = [] := by
  rw [handled, List.takeWhile_cons_of_neg (by simpa using h), List.filter_nil]

theorem handled_cons {table : ℕ → Disposition} {sig : ℕ} (h : ¬ Fatal terminates table sig)
    (sigs : List ℕ) : handled terminates table (sig :: sigs) =
      (if table sig = .handlers then [sig] else []) ++ handled terminates table sigs := by
  rw [handled, List.takeWhile_cons_of_pos (by simpa using h), List.filter_cons]
  by_cases hsig : table sig = .handlers
  · rw [if_pos (decide_eq_true hsig), if_pos hsig]
    rfl
  · rw [if_neg (by simpa using hsig), if_neg hsig]
    rfl

/-- **What signals do** to a process that runs: it ends at the first that ends it, and prints the handled ones
before. -/
theorem run_of_running (terminates : ℕ → Bool) (h : p.ended = false) (sigs : List ℕ) :
    ((p.run terminates sigs).ended = true ↔ ∃ sig ∈ sigs, Fatal terminates p.table sig) ∧
      (p.run terminates sigs).made = p.made ++ (handled terminates p.table sigs).map Sig.handlers := by
  induction sigs generalizing p with
  | nil =>
    refine ⟨?_, (List.append_nil p.made).symm⟩
    simp [run, h]
  | cons sig sigs ih =>
    have hrun : p.run terminates (sig :: sigs) = (p.deliver terminates sig).run terminates sigs := rfl
    have hdeliver := deliver_of_running terminates h sig
    rw [hrun]
    by_cases hfatal : Fatal terminates p.table sig
    · have hended : (p.deliver terminates sig).ended = true := by
        rw [hdeliver]
        exact decide_eq_true hfatal
      have hdefault : ¬ p.table sig = .handlers := by
        rw [hfatal.1]
        exact Disposition.noConfusion
      rw [run_of_ended hended, hdeliver, handled_cons_of_fatal hfatal, if_neg hdefault]
      exact ⟨⟨fun _ => ⟨sig, List.mem_cons_self, hfatal⟩, fun _ => decide_eq_true hfatal⟩, rfl⟩
    · have hrunning : (p.deliver terminates sig).ended = false := by
        rw [hdeliver]
        exact decide_eq_false hfatal
      obtain ⟨hended, hmade⟩ := ih hrunning
      have htable : (p.deliver terminates sig).table = p.table := by rw [hdeliver]
      rw [htable] at hended hmade
      refine ⟨?_, ?_⟩
      · rw [hended, List.exists_mem_cons_iff, or_iff_right hfatal]
      · rw [hmade, hdeliver, handled_cons hfatal, List.map_append, ← List.append_assoc]
        congr 2
        split <;> rfl

/-! ### The handlers of the program -/

/-- The signal is one that `handlers` is installed on. -/
def Installed (sigrtmax sig : ℕ) : Prop := 1 ≤ sig ∧ sig < sigrtmax ∧ skipped ⟨sig⟩ = false

instance (sigrtmax sig : ℕ) : Decidable (Installed sigrtmax sig) := inferInstanceAs (Decidable (_ ∧ _))

/-- The dispositions that are left where `handlers` can be installed. -/
def withHandlers (sigrtmax : ℕ) : ℕ → Disposition := installed .handlers 1 sigrtmax fun _ => .default

/-- The signals with a handler, up to the first that ends the process. -/
def printedSignals (sigrtmax : ℕ) (terminates : ℕ → Bool) (sigs : List ℕ) : List ℕ :=
  (sigs.takeWhile fun sig => decide (Installed sigrtmax sig) || !terminates sig).filter fun sig =>
    decide (Installed sigrtmax sig)

variable {sigrtmax : ℕ} {fails : ℕ → Bool}

theorem start_eq (h : ∀ sig, 1 ≤ sig → sig < sigrtmax → ¬ Failing fails sig) :
    start sigrtmax fails = ⟨withHandlers sigrtmax, false, []⟩ := by
  have hret : handlersSetDefaults sigrtmax fails .handlers (fun _ => Disposition.default) =
      .returned (withHandlers sigrtmax) := by
    rcases Nat.eq_zero_or_pos sigrtmax with rfl | hmax
    · have hnone : withHandlers 0 = fun _ => .default := by
        funext sig
        rw [withHandlers, installed, if_neg]
        omega
      rw [hnone]
      rfl
    · exact handlersSetDefaults_returned hmax h
  rw [start, hret]

theorem start_of_failing {first : ℕ} (hle : 1 ≤ first) (hlt : first < sigrtmax)
    (hfirst : Failing fails first) (h : ∀ sig, 1 ≤ sig → sig < first → ¬ Failing fails sig) :
    start sigrtmax fails = ⟨withHandlers first, true,
      [print first "-> FAILED to set handler for this system signal! EXIT."]⟩ := by
  rw [start, handlersSetDefaults_exited hle hlt hfirst h, withHandlers]

theorem withHandlers_eq_iff (sigrtmax sig : ℕ) :
    withHandlers sigrtmax sig = .handlers ↔ Installed sigrtmax sig := by
  rw [withHandlers, installed]
  split
  · rename_i h
    exact ⟨fun _ => h, fun _ => rfl⟩
  · rename_i h
    exact ⟨fun hd => Disposition.noConfusion hd, fun hi => absurd hi h⟩

theorem fatal_withHandlers_iff (sigrtmax sig : ℕ) :
    Fatal terminates (withHandlers sigrtmax) sig ↔ ¬ Installed sigrtmax sig ∧ terminates sig = true := by
  rw [Fatal, ← withHandlers_eq_iff]
  cases withHandlers sigrtmax sig <;> simp

theorem handled_withHandlers (sigrtmax : ℕ) (sigs : List ℕ) :
    handled terminates (withHandlers sigrtmax) sigs = printedSignals sigrtmax terminates sigs := by
  have hrunning : ∀ sig, (!decide (Fatal terminates (withHandlers sigrtmax) sig)) =
      (decide (Installed sigrtmax sig) || !terminates sig) := by
    intro sig
    simp only [fatal_withHandlers_iff]
    by_cases hi : Installed sigrtmax sig <;> simp [hi]
  simp only [handled, printedSignals, hrunning, withHandlers_eq_iff]

/-- **A process that sets the handlers.**  Either the handler cannot be installed on some signal, and the
process ends with a message about the first such signal; or the signals delivered end the process if and only
if one of them has no handler and ends a process by default, and the log calls made until then are one for each
signal that has a handler. -/
theorem signals_run (sigrtmax : ℕ) (fails terminates : ℕ → Bool) (sigs : List ℕ) :
    (∃ first, (1 ≤ first ∧ first < sigrtmax ∧ Failing fails first ∧
        ∀ sig, 1 ≤ sig → sig < first → ¬ Failing fails sig) ∧
      ((start sigrtmax fails).run terminates sigs).ended = true ∧
      ((start sigrtmax fails).run terminates sigs).made =
        [print first "-> FAILED to set handler for this system signal! EXIT."]) ∨
    ((∀ sig, 1 ≤ sig → sig < sigrtmax → ¬ Failing fails sig) ∧
      (((start sigrtmax fails).run terminates sigs).ended = true ↔
        ∃ sig ∈ sigs, ¬ Installed sigrtmax sig ∧ terminates sig = true) ∧
      ((start sigrtmax fails).run terminates sigs).made =
        (printedSignals sigrtmax terminates sigs).map Sig.handlers) := by
  by_cases hclear : ∀ sig, 1 ≤ sig → sig < sigrtmax → ¬ Failing fails sig
  · refine Or.inr ⟨hclear, ?_⟩
    rw [start_eq hclear]
    obtain ⟨hended, hmade⟩ := run_of_running terminates (p := ⟨withHandlers sigrtmax, false, []⟩) rfl sigs
    refine ⟨hended.trans (exists_congr fun sig => and_congr_right fun _ => ?_), ?_⟩
    · exact fatal_withHandlers_iff sigrtmax sig
    · rw [hmade, List.nil_append, handled_withHandlers]
  · refine Or.inl ?_
    push Not at hclear
    obtain ⟨n, hn, hmax, hfail⟩ := hclear
    obtain ⟨first, h₁, hle, hfirst, hmin⟩ := exists_first_failing hn hfail
    have hstart := start_of_failing h₁ (lt_of_le_of_lt hle hmax) hfirst hmin
    refine ⟨first, ⟨h₁, lt_of_le_of_lt hle hmax, hfirst, hmin⟩, ?_⟩
    rw [hstart, run_of_ended rfl]
    exact ⟨rfl, rfl⟩

/-- `SIGTERM` and `SIGINT` do not end the process, `SIGKILL` does. -/
example : ((start 64 fun _ => false).run (fun _ => true) [15, 2, 15]).ended = false ∧
    ((start 64 fun _ => false).run (fun _ => true) [15, 9, 2]).ended = true := by
  decide

end Process

end WndxSane.Sig
