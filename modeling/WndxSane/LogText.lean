import WndxSane.Logger
import WndxSane.Lib.Records

/-!
# Reading the log

The text on `stderr` is that of one list of records, as long as each message is whole lines and no line
inside a message looks like the head of a record.

* `vlog_eq`: the text of a record is its head, its message and, from `WARN` on, its trace.
* `place_eq_of_trace`: a trace names the line and the file of the call.
* **`stderr_eq_iff`**: two runs write the same text exactly when they put out the same records, as far as
  records are shown.
-/

namespace WndxSane

open Format Records

/-! ### The text of a record -/

def newline : Byte := ascii '\n'

/-- What a record begins with. -/
def LL.head (ll : LL) : List Byte := text "[" ++ ll.format ++ text "]: "

/-- One of the enumerators. -/
def LL.Named (ll : LL) : Prop := ll ∈ [DBUG, INFO, STAT, NTFY, WARN, ERRO, CRIT]

instance (ll : LL) : Decidable ll.Named := inferInstanceAs (Decidable (_ ∈ _))

/-- The head of a record of a named level. -/
def IsHead (h : List Byte) : Prop := ∃ ll : LL, ll.Named ∧ h = ll.head

theorem vlog_eq (name : Source → List Byte) (c : LogCall) :
    vlog name c = c.ll.head ++ (c.message ++ traceToTheFile name c.file c.line c.ll) := by
  have hfmt : fmt "[{}]: {}" [c.ll.format, c.message] = c.ll.head ++ c.message := by
    simp [fmt, LL.head, text, parse, render, List.leftpad, Piece.map]
  rw [vlog, hfmt, List.append_assoc]

theorem newline_notMem_head {h : List Byte} (hh : IsHead h) : newline ∉ h := by
  obtain ⟨ll, hll, rfl⟩ := hh
  have hall : ∀ ll ∈ [LL.DBUG, .INFO, .STAT, .NTFY, .WARN, .ERRO, .CRIT], newline ∉ ll.head := by decide
  exact hall ll hll

theorem head_inj {ll ll' : LL} (h : ll.Named) (h' : ll'.Named) (hpre : ll.head <+: ll'.head) :
    ll = ll' := by
  have hall : ∀ ll ∈ [LL.DBUG, .INFO, .STAT, .NTFY, .WARN, .ERRO, .CRIT],
      ∀ ll' ∈ [LL.DBUG, .INFO, .STAT, .NTFY, .WARN, .ERRO, .CRIT],
        ll.head.isPrefixOf ll'.head = true → ll = ll' := by decide
  exact hall ll h ll' h' (List.isPrefixOf_iff_prefix.mpr hpre)

/-! ### The trace -/

/-- The name of a source file can be read off a trace. -/
def Quotable (name : Source → List Byte) : Prop :=
  ∀ file, ascii '"' ∉ name file ∧ newline ∉ name file

theorem ascii_toNat {d : Char} (h : d.isDigit = true) :
    (ascii d).toNat = d.toNat ∧ 48 ≤ d.toNat ∧ d.toNat ≤ 57 := by
  rw [Char.isDigit, Bool.and_eq_true, decide_eq_true_eq, decide_eq_true_eq] at h
  have h₁ : 48 ≤ d.toNat := h.1
  have h₂ : d.toNat ≤ 57 := h.2
  refine ⟨?_, h₁, h₂⟩
  rw [ascii, Nat.toUInt8, UInt8.toNat_ofNat']
  omega

theorem isDigit_of_mem {n : ℕ} {d : Char} (h : d ∈ Nat.toDigits 10 n) : d.isDigit = true :=
  Nat.isDigit_of_mem_toDigits (by decide) (by decide) h

theorem digit_of_mem_decimal {n : ℕ} {c : Byte} (h : c ∈ decimal n) : 48 ≤ c.toNat ∧ c.toNat ≤ 57 := by
  obtain ⟨d, hd, rfl⟩ := List.mem_map.mp h
  obtain ⟨hval, hdigit⟩ := ascii_toNat (isDigit_of_mem hd)
  rwa [hval]

/-- A number can be read off its digits. -/
theorem decimal_injective : Function.Injective decimal := by
  intro n m h
  have hchars : ∀ k, (decimal k).map (fun c => Char.ofNat c.toNat) = Nat.toDigits 10 k := by
    intro k
    rw [decimal, List.map_map]
    conv_rhs => rw [← List.map_id (Nat.toDigits 10 k)]
    refine List.map_congr_left fun d hd => ?_
    rw [Function.comp_apply, (ascii_toNat (isDigit_of_mem hd)).1, Char.ofNat_toNat, id]
  rw [← Nat.ofDigitChars_ten_toDigits (n := n), ← hchars n, h, hchars m, Nat.ofDigitChars_ten_toDigits]

variable {name : Source → List Byte}

/-- The line of a trace, without its end. -/
def traceLine (name : Source → List Byte) (file : Source) (line : ℕ) : List Byte :=
  fmt "{:>6}: \"{}\"" [decimal line, name file]

theorem traceToTheFile_eq (file : Source) (line : ℕ) (ll : LL) :
    traceToTheFile name file line ll =
      if ll.value < LL.WARN.value then [] else traceLine name file line ++ [newline] := by
  have hline : fmt "{:>6}: \"{}\"\n" [decimal line, name file] =
      traceLine name file line ++ [newline] := by
    simp [traceLine, fmt, parse, render, Piece.map, newline]
  rw [traceToTheFile, hline]

/-- What pads a number, and its digits. -/
theorem pad_or_digit {line : ℕ} {c : Byte} (h : c ∈ (decimal line).leftpad 6 (ascii ' ')) :
    c = ascii ' ' ∨ 48 ≤ c.toNat ∧ c.toNat ≤ 57 := by
  rcases List.mem_append.mp h with h | h
  · exact Or.inl (List.mem_replicate.mp h).2
  · exact Or.inr (digit_of_mem_decimal h)

/-- A byte that is neither a blank nor a digit does not occur where a number is padded. -/
theorem notMem_pad {line : ℕ} {c : Byte} (hc : (c ≠ ascii ' ' ∧ (c.toNat < 48 ∨ 57 < c.toNat))) :
    c ∉ (decimal line).leftpad 6 (ascii ' ') := by
  intro h
  rcases pad_or_digit h with hpad | hdigit
  · exact hc.1 hpad
  · omega

theorem traceLine_eq (file : Source) (line : ℕ) :
    traceLine name file line =
      (decimal line).leftpad 6 (ascii ' ') ++ (text ": \"" ++ (name file ++ text "\"")) := by
  simp [traceLine, fmt, parse, render, Piece.map, text]

theorem newline_notMem_traceLine (hname : Quotable name) (file : Source) (line : ℕ) :
    newline ∉ traceLine name file line := by
  rw [traceLine_eq]
  simp only [List.mem_append, not_or]
  exact ⟨notMem_pad (by decide), by decide, (hname file).2, by decide⟩

/-- **Traces.**  A trace names the line and the file of the call. -/
theorem place_eq_of_trace (hname : Quotable name) {file file' : Source} {line line' : ℕ}
    (h : traceLine name file line = traceLine name file' line') : line = line' ∧ name file = name file' := by
  have hdelim : ∀ file line, Delimited (ascii ' ')
      [.field 6, .lit (ascii ':'), .lit (ascii ' '), .lit (ascii '"'), .field 0, .lit (ascii '"')]
      [decimal line, name file] := by
    intro file line
    refine ⟨Or.inr fun hhead => ?_, notMem_pad (by decide), Or.inl rfl, ?_, rfl⟩
    · exact absurd (digit_of_mem_decimal (List.mem_of_mem_head? hhead)) (by decide)
    · simpa [List.leftpad] using (hname file).1
  have hargs := render_inj (hdelim file line) (hdelim file' line') h
  obtain ⟨hline, hrest⟩ := List.cons.inj hargs
  exact ⟨decimal_injective hline, (List.cons.inj hrest).1⟩

/-! ### Reading back -/

/-- What a record shows of its call: the place from `WARN` on only. -/
def LogCall.seen (name : Source → List Byte) (c : LogCall) : LL × List Byte × Option (ℕ × List Byte) :=
  (c.ll, c.message, if c.ll.value < LL.WARN.value then none else some (c.line, name c.file))

theorem urgent_iff_of_seen {name : Source → List Byte} {cs cs' : List LogCall} {ll : LL}
    (h : cs.map (LogCall.seen name) = cs'.map (LogCall.seen name)) : Urgent ll cs ↔ Urgent ll cs' := by
  have hlevels : ∀ cs : List LogCall,
      Urgent ll cs ↔ ∃ x ∈ cs.map (LogCall.seen name), ll.value ≤ x.1.value := by
    intro cs
    simp [Urgent, LogCall.seen]
  rw [hlevels, hlevels, h]

/-- The level has a name, and the message is whole lines, none of which, after the first, begins with the head
of a record. -/
structure LogCall.Readable (c : LogCall) : Prop where
  named : c.ll.Named
  message : Sealed newline IsHead c.message

def bracket : Byte := ascii '['

/-- For each field of a format string, whether it may begin a line after the first; `none` where the message
is not whole lines, or a bracket may begin a line. -/
def fieldsOf (s : List Char) : Option (List Bool) :=
  (parse s).bind fun f => lineStarts newline bracket false false (f.map (Piece.map ascii))

/-- What may be put into a field. -/
abbrev Plain (b : Bool) (a : List Byte) : Prop := Inline newline bracket b a

/-- A message whose format string keeps brackets off the begin of lines. -/
theorem readable_fmt {file : Source} {line : ℕ} {ll : LL} {s : String} {cs : List Char}
    {args : List (List Byte)} (bs : List Bool) (hll : ll.Named) (hs : s = String.ofList cs)
    (hcs : fieldsOf cs = some bs) (hargs : List.Forall₂ Plain bs args) :
    LogCall.Readable ⟨file, line, ll, fmt s args⟩ := by
  obtain ⟨f, hf, hlines⟩ := Option.bind_eq_some_iff.mp hcs
  have hmessage : fmt s args = render (ascii ' ') (f.map (Piece.map ascii)) args := by
    rw [fmt, hs, String.toList_ofList, hf]
  have hhead : ∀ h, IsHead h → h.head? = some bracket := by
    rintro h ⟨ll', -, rfl⟩
    rfl
  have hblank : ascii ' ' ≠ newline := by decide
  obtain ⟨hlast, hchain⟩ := lines_render (ascii ' ') hlines hargs (fun h => absurd h hblank)
    fun h => absurd h (by decide)
  refine ⟨hll, sealed_of_isChain hhead ?_ ?_⟩
  · rw [hmessage, Whole]
    rcases List.eq_nil_or_concat (render (ascii ' ') (f.map (Piece.map ascii)) args) with h | ⟨p, c, h⟩
    · rw [h] at hlast
      exact absurd hlast (by decide)
    · rw [h, List.concat_eq_append, ← List.cons_append, List.getLast?_concat] at hlast
      exact ⟨p, by rw [h, List.concat_eq_append, Option.some.inj hlast]⟩
  · rw [hmessage]
    exact hchain.tail

/-- No trace begins with a head. -/
theorem not_head_prefix_trace {h : List Byte} (hh : IsHead h) (file : Source) (line : ℕ) :
    ¬ h <+: traceLine name file line ++ [newline] := by
  obtain ⟨ll', -, rfl⟩ := hh
  rintro ⟨t, ht⟩
  have hfirst : (traceLine name file line ++ [newline]).head? = some (ascii '[') := by
    rw [← ht]
    rfl
  have hne : (decimal line).leftpad 6 (ascii ' ') ≠ [] := by
    refine List.ne_nil_of_length_pos ?_
    rw [List.length_leftpad]
    omega
  rw [traceLine_eq, List.append_assoc, List.head?_append_of_ne_nil _ hne] at hfirst
  exact notMem_pad (by decide) (List.mem_of_mem_head? hfirst)

/-- The message of a readable record with its trace. -/
theorem LogCall.Readable.body (hname : Quotable name) {c : LogCall} (hc : c.Readable) :
    Sealed newline IsHead (c.message ++ traceToTheFile name c.file c.line c.ll) := by
  rw [traceToTheFile_eq]
  split
  · rw [List.append_nil]
    exact hc.message
  · exact hc.message.append_line (fun h => newline_notMem_head) (newline_notMem_traceLine hname _ _)
      fun h hh => not_head_prefix_trace hh _ _

/-- The same level, and the same text after the head: the same is seen of both calls. -/
theorem seen_eq_of_body (hname : Quotable name) {c c' : LogCall} (hc : c.Readable) (hc' : c'.Readable)
    (hll : c.ll = c'.ll) (h : c.message ++ traceToTheFile name c.file c.line c.ll =
      c'.message ++ traceToTheFile name c'.file c'.line c'.ll) : c.seen name = c'.seen name := by
  rw [traceToTheFile_eq, traceToTheFile_eq, ← hll] at h
  rw [LogCall.seen, LogCall.seen, ← hll]
  split_ifs at h with hlow
  · rw [List.append_nil, List.append_nil] at h
    rw [h, if_pos hlow, if_pos hlow]
  · obtain ⟨hmessage, htrace⟩ := lastLine_unique hc.message.whole hc'.message.whole
      (newline_notMem_traceLine hname _ _) (newline_notMem_traceLine hname _ _) h
    obtain ⟨hline, hfile⟩ := place_eq_of_trace hname htrace
    rw [hmessage, hline, hfile, if_neg hlow]

/-- What is seen of a call is all that its text depends on. -/
theorem vlog_eq_of_seen {c c' : LogCall} (h : c.seen name = c'.seen name) : vlog name c = vlog name c' := by
  obtain ⟨hll, hrest⟩ := Prod.mk.inj h
  obtain ⟨hmessage, hplace⟩ := Prod.mk.inj hrest
  rw [vlog_eq, vlog_eq, traceToTheFile_eq, traceToTheFile_eq, ← hll, hmessage]
  rw [← hll] at hplace
  split_ifs at hplace ⊢ with hlow
  · rfl
  · obtain ⟨hline, hfile⟩ := Prod.mk.inj (Option.some.inj hplace)
    rw [traceLine_eq, traceLine_eq, hline, hfile]

/-- **The log can be read back.**  Two lists of readable records have the same text on `stderr` if and only if
the same is seen of them: level, message and, from `WARN` on, line and file, in the same order. -/
theorem stderr_eq_iff (hname : Quotable name) {cs cs' : List LogCall} (hcs : ∀ c ∈ cs, c.Readable)
    (hcs' : ∀ c ∈ cs', c.Readable) :
    stderr name cs = stderr name cs' ↔ cs.map (LogCall.seen name) = cs'.map (LogCall.seen name) := by
  constructor
  · intro h
    have htext : ∀ cs : List LogCall, stderr name cs = cs.flatMap fun c =>
        c.ll.head ++ (c.message ++ traceToTheFile name c.file c.line c.ll) := by
      intro cs
      exact List.flatMap_congr fun c _ => vlog_eq name c
    rw [htext, htext] at h
    have hsealed : ∀ cs : List LogCall, (∀ c ∈ cs, c.Readable) → ∀ c ∈ cs, IsHead c.ll.head ∧
        Sealed newline IsHead (c.message ++ traceToTheFile name c.file c.line c.ll) :=
      fun cs hall c hc => ⟨⟨c.ll, (hall c hc).named, rfl⟩, (hall c hc).body hname⟩
    have hparts := flatMap_inj (fun h => newline_notMem_head)
      (by rintro _ _ ⟨ll, hll, rfl⟩ ⟨ll', hll', rfl⟩ hpre; rw [head_inj hll hll' hpre])
      (hsealed cs hcs) (hsealed cs' hcs') h
    refine map_eq_map_of (fun c hc c' hc' hpart => ?_) hparts
    obtain ⟨hhead, hbody⟩ := Prod.mk.inj hpart
    have hll : c.ll = c'.ll := head_inj (hcs c hc).named (hcs' c' hc').named (hhead ▸ List.prefix_rfl)
    exact seen_eq_of_body hname (hcs c hc) (hcs' c' hc') hll hbody
  · intro h
    rw [stderr, stderr, List.flatMap_def, List.flatMap_def,
      map_eq_map_of (fun c _ c' _ hseen => vlog_eq_of_seen hseen) h]

/-- Without readable messages records can be forged. -/
example : stderr (fun _ => []) [⟨.fileCpp, 47, .DBUG, text "a\n[INFO]: b\n"⟩] =
    stderr (fun _ => []) [⟨.fileCpp, 47, .DBUG, text "a\n"⟩, ⟨.fileCpp, 28, .INFO, text "b\n"⟩] := by
  decide

end WndxSane
