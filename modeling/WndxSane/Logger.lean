import WndxSane.Path
import WndxSane.Lib.Format

/-!
# The logger

A log call puts out one record, unless its level is below the urgency level of the logger: the level and
the message, and from `WARN` on a trace to the place of the call.  The macro `WNDX_LOG` always calls the
global logger, and so do `set_urgency` and `errnum`, whichever logger they are called on.

* `printed_append`: a run of calls in two parts.
* **`printed_eq_filter`**: what a run puts out, call by call.
* **`printed_sublist`**: the higher the levels, the fewer messages, in every run.
-/

namespace WndxSane

open Format

/-! ### Texts -/

/-- A character of a literal; the literals of the source are ASCII. -/
def ascii (c : Char) : Byte := c.toNat.toUInt8

/-- A string literal. -/
def text (s : String) : List Byte := s.toList.map ascii

/-- `fmt::format`: the format strings are literals, checked when the program is compiled. -/
def fmt (s : String) (args : List (List Byte)) : List Byte :=
  match parse s.toList with
  | some f => render (ascii ' ') (f.map (Piece.map ascii)) args
  | none => []

/-- What `{}` makes of a number. -/
def decimal (n : ℕ) : List Byte := (Nat.toDigits 10 n).map ascii

/-- What `{}` makes of an `int`. -/
def decimalInt : ℤ → List Byte
  | .ofNat n => decimal n
  | .negSucc n => ascii '-' :: decimal (n + 1)

/-! ### Log levels -/

/-- `enum class LL`; its values are those of `int`, named or not. -/
structure LL where
  value : ℤ
  deriving DecidableEq

namespace LL

def DBUG : LL := ⟨1⟩
def INFO : LL := ⟨2⟩
def STAT : LL := ⟨3⟩
def NTFY : LL := ⟨4⟩
def WARN : LL := ⟨5⟩
def ERRO : LL := ⟨6⟩
def CRIT : LL := ⟨7⟩

/-- `fmt::formatter<LL>::format`. -/
def format (ll : LL) : List Byte :=
  if ll = DBUG then text "DBUG"
  else if ll = INFO then text "INFO"
  else if ll = STAT then text "STAT"
  else if ll = NTFY then text "NTFY"
  else if ll = WARN then text "WARN"
  else if ll = ERRO then text "ERRO"
  else if ll = CRIT then text "CRIT"
  else text "unknown"

end LL

/-- The source files that log. -/
inductive Source
  | fileCpp
  | logCpp
  | sigHandlerCpp
  deriving DecidableEq

/-- A call of `log`, its message formatted. -/
structure LogCall where
  file : Source
  line : ℕ
  ll : LL
  message : List Byte
  deriving DecidableEq

/-- `trace_to_the_file`; `name` is what `__FILE__` is for each source file. -/
def traceToTheFile (name : Source → List Byte) (file : Source) (line : ℕ) (ll : LL) : List Byte :=
  if ll.value < LL.WARN.value then []
  else fmt "{:>6}: \"{}\"\n" [decimal line, name file]

/-- `vlog`: the text of a record. -/
def vlog (name : Source → List Byte) (c : LogCall) : List Byte :=
  fmt "[{}]: {}" [c.ll.format, c.message] ++ traceToTheFile name c.file c.line c.ll

/-- `Logger::log` of a logger with an urgency level: the records put out. -/
def log (mUrgencyLevel : LL) (c : LogCall) : List LogCall :=
  if mUrgencyLevel.value > c.ll.value then [] else [c]

/-! ### Runs of calls -/

/-- The urgency level of each logger. -/
abbrev Loggers := ℕ → LL

/-- `log_g`. -/
def logG : ℕ := 0

/-- The urgency level a logger is built with. -/
def defaultUrgency (ndebug : Bool) : LL := if ndebug then .NTFY else .DBUG

/-- The calls on loggers. -/
inductive LoggerAction
  | log (i : ℕ) (c : LogCall)
  | setUrgency (i : ℕ) (ll : LL)
  | errnum (msg strerror : List Byte)

/-- The call of `log` an action makes, and the logger it makes it on. -/
def LoggerAction.call : LoggerAction → ℕ × LogCall
  | .log i c => (i, c)
  | .setUrgency _ ll => (logG, ⟨.logCpp, 34, .NTFY, fmt "forced urgency level = {}\n" [ll.format]⟩)
  | .errnum msg strerror => (logG, ⟨.logCpp, 47, .CRIT, fmt "{}\n\terrno: {}\n" [msg, strerror]⟩)

/-- The levels an action leaves; `set_urgency` sets its logger's before it logs. -/
def LoggerAction.levels (u : Loggers) : LoggerAction → Loggers
  | .setUrgency i ll => Function.update u i ll
  | _ => u

/-- The levels after a run. -/
def levelsAfter (u : Loggers) (as : List LoggerAction) : Loggers := as.foldl LoggerAction.levels u

/-- The records a run of calls puts out. -/
def printed : Loggers → List LoggerAction → List LogCall
  | _, [] => []
  | u, a :: as =>
    let u' := a.levels u
    log (u' a.call.1) a.call.2 ++ printed u' as

/-- What a run of calls writes to `stderr`. -/
def stderr (name : Source → List Byte) (cs : List LogCall) : List Byte := cs.flatMap (vlog name)

theorem mem_log_iff {u : LL} {c d : LogCall} : d ∈ log u c ↔ d = c ∧ u.value ≤ c.ll.value := by
  unfold log
  split
  · rename_i h
    exact ⟨fun hd => absurd hd List.not_mem_nil, fun hd => absurd hd.2 (not_le.mpr h)⟩
  · rename_i h
    rw [List.mem_singleton]
    exact ⟨fun hd => ⟨hd, not_lt.mp h⟩, fun hd => hd.1⟩

theorem log_sublist {u v : LL} (h : u.value ≤ v.value) (c : LogCall) : (log v c).Sublist (log u c) := by
  unfold log
  by_cases hv : v.value > c.ll.value
  · rw [if_pos hv]
    exact List.nil_sublist _
  · rw [if_neg hv, if_neg (not_lt.mpr (le_trans h (not_lt.mp hv)))]

theorem mem_printed {u : Loggers} {as : List LoggerAction} {c : LogCall} (h : c ∈ printed u as) :
    ∃ a ∈ as, c = a.call.2 := by
  induction as generalizing u with
  | nil => exact absurd h List.not_mem_nil
  | cons a as ih =>
    rcases List.mem_append.mp h with h | h
    · exact ⟨a, List.mem_cons_self, ((mem_log_iff ..).mp h).1⟩
    · obtain ⟨b, hb, hc⟩ := ih h
      exact ⟨b, List.mem_cons_of_mem a hb, hc⟩

theorem printed_append (u : Loggers) (as bs : List LoggerAction) :
    printed u (as ++ bs) = printed u as ++ printed (levelsAfter u as) bs := by
  induction as generalizing u with
  | nil => rfl
  | cons a as ih =>
    show log _ _ ++ printed (a.levels u) (as ++ bs) = _
    rw [ih, ← List.append_assoc]
    rfl

/-! ### Urgent calls -/

/-- Among the calls is one of the level, or of a higher one. -/
def Urgent (ll : LL) (cs : List LogCall) : Prop := ∃ c ∈ cs, ll.value ≤ c.ll.value

instance (ll : LL) (cs : List LogCall) : Decidable (Urgent ll cs) :=
  inferInstanceAs (Decidable (∃ c ∈ cs, _))

@[simp] theorem urgent_nil (ll : LL) : ¬ Urgent ll [] := by simp [Urgent]

@[simp] theorem urgent_cons (ll : LL) (c : LogCall) (cs : List LogCall) :
    Urgent ll (c :: cs) ↔ ll.value ≤ c.ll.value ∨ Urgent ll cs := by simp [Urgent]

@[simp] theorem urgent_append (ll : LL) (cs ds : List LogCall) :
    Urgent ll (cs ++ ds) ↔ Urgent ll cs ∨ Urgent ll ds := by simp [Urgent, or_and_right, exists_or]

/-- The action logs on the logger `i`, and sets no level above `ll` on it. -/
def LoggerAction.KeepsBelow (i : ℕ) (ll : LL) (a : LoggerAction) : Prop :=
  a.call.1 = i ∧ ∀ ll', a = .setUrgency i ll' → ll'.value ≤ ll.value

/-- **Nothing urgent is held back.**  While the level of a logger is not above `ll`, what calls on it put out
has a call of that level if and only if one was made. -/
theorem urgent_printed_iff {ll : LL} {i : ℕ} {u : Loggers} (hu : (u i).value ≤ ll.value)
    {as : List LoggerAction} (has : ∀ a ∈ as, a.KeepsBelow i ll) :
    Urgent ll (printed u as) ↔ Urgent ll (as.map fun a => a.call.2) := by
  induction as generalizing u with
  | nil => exact Iff.rfl
  | cons a as ih =>
    obtain ⟨hlogger, hset⟩ := has a List.mem_cons_self
    have hlevel : (a.levels u i).value ≤ ll.value := by
      cases a with
      | log j c => exact hu
      | errnum msg strerror => exact hu
      | setUrgency j ll' =>
        rw [LoggerAction.levels, Function.update_apply]
        split
        · rename_i hij
          exact hset ll' (by rw [hij])
        · exact hu
    have hlog : Urgent ll (log (a.levels u a.call.1) a.call.2) ↔ ll.value ≤ a.call.2.ll.value := by
      rw [hlogger]
      constructor
      · rintro ⟨c, hc, hll⟩
        rw [((mem_log_iff ..).mp hc).1] at hll
        exact hll
      · intro hll
        exact ⟨a.call.2, (mem_log_iff ..).mpr ⟨rfl, le_trans hlevel hll⟩, hll⟩
    rw [printed, urgent_append, hlog, List.map_cons, urgent_cons,
      ih hlevel fun b hb => has b (List.mem_cons_of_mem a hb)]

/-! ### The level in force -/

/-- The level last set on a logger, if one was. -/
def lastSet (i : ℕ) : List LoggerAction → Option LL
  | [] => none
  | .setUrgency j ll :: as => (lastSet i as).orElse fun _ => if j = i then some ll else none
  | _ :: as => lastSet i as

theorem levelsAfter_eq (u : Loggers) (as : List LoggerAction) (i : ℕ) :
    levelsAfter u as i = (lastSet i as).getD (u i) := by
  induction as generalizing u with
  | nil => rfl
  | cons a as ih =>
    show levelsAfter (a.levels u) as i = _
    rw [ih]
    cases a with
    | log j c => rfl
    | errnum msg strerror => rfl
    | setUrgency j ll =>
      rw [lastSet, LoggerAction.levels]
      cases lastSet i as with
      | some v => rfl
      | none =>
        by_cases hj : j = i
        · subst hj
          simp
        · simp [hj, Function.update_of_ne (Ne.symm hj)]

/-- The positions of a run with the calls before each, the call itself included. -/
def withPast (as : List LoggerAction) : List (List LoggerAction × LoggerAction) :=
  as.mapIdx fun k a => (as.take (k + 1), a)

/-- **What is put out.**  A run puts out, in order, the calls whose level is not below the level last set on
the logger they are made on, or on which none was set, not below the one it began with. -/
theorem printed_eq_filter (u : Loggers) (as : List LoggerAction) :
    printed u as = ((withPast as).filter fun p =>
      decide (((lastSet p.2.call.1 p.1).getD (u p.2.call.1)).value ≤ p.2.call.2.ll.value)).map
        fun p => p.2.call.2 := by
  induction as using List.reverseRecOn with
  | nil => rfl
  | append_singleton as a ih =>
    have hpast : withPast (as ++ [a]) = withPast as ++ [(as ++ [a], a)] := by
      rw [withPast, List.mapIdx_append, withPast]
      congr 1
      · refine List.mapIdx_eq_mapIdx_iff.mpr fun i hi => ?_
        rw [List.take_append_of_le_length (by omega)]
      · simp
    rw [printed_append, hpast, List.filter_append, List.map_append, ← ih]
    congr 1
    show log ((a.levels (levelsAfter u as)) a.call.1) a.call.2 ++ [] = _
    have hlevel : a.levels (levelsAfter u as) = levelsAfter u (as ++ [a]) := by
      rw [levelsAfter, levelsAfter, List.foldl_append]
      rfl
    rw [hlevel, levelsAfter_eq, List.append_nil, log]
    by_cases h : ((lastSet a.call.1 (as ++ [a])).getD (u a.call.1)).value ≤ a.call.2.ll.value
    · rw [if_neg (not_lt.mpr h), List.filter_cons_of_pos (by simpa using h)]
      rfl
    · rw [if_pos (not_le.mp h), List.filter_cons_of_neg (by simpa using h)]
      rfl

/-- **The higher the level, the fewer messages.** -/
theorem printed_sublist {u v : Loggers} (h : ∀ i, (u i).value ≤ (v i).value) (as : List LoggerAction) :
    (printed v as).Sublist (printed u as) := by
  induction as generalizing u v with
  | nil => exact List.Sublist.refl _
  | cons a as ih =>
    have hlevels : ∀ i, (a.levels u i).value ≤ (a.levels v i).value := by
      intro i
      cases a with
      | log j c => exact h i
      | errnum msg strerror => exact h i
      | setUrgency j ll =>
        rw [LoggerAction.levels, LoggerAction.levels, Function.update_apply, Function.update_apply]
        split
        · exact le_refl _
        · exact h i
    exact List.Sublist.append (log_sublist (hlevels _) _) (ih hlevels)

/-- A release build does not put out what a debug build does of a constructor. -/
theorem printed_sublist_ndebug :
    (printed (fun _ => defaultUrgency true)
        [.log logG ⟨.fileCpp, 112, .DBUG, text "File()\n"⟩, .setUrgency 1 .CRIT]).Sublist
      (printed (fun _ => defaultUrgency false)
        [.log logG ⟨.fileCpp, 112, .DBUG, text "File()\n"⟩, .setUrgency 1 .CRIT]) :=
  printed_sublist (fun _ => by decide) _

end WndxSane
