import Mathlib.Data.List.Chain
import Mathlib.Tactic.Common

/-!
# Format strings with replacement fields

A format string is literal characters and fields; what replaces a field is set to the right of a least
width.

* `parse` reads the syntax `{}`, `{:N}` and `{:>N}`, with doubled braces for literal ones.
* **`render_inj`**: what was put into the fields can be read off the text again, where each field is
  followed by a character that does not occur in what replaces it, or ends the format.
-/

namespace Format

variable {α β : Type*}

inductive Piece (α : Type*)
  | lit (c : α)
  | field (width : ℕ)
  deriving DecidableEq

/-- Read a format string; `none` where a brace is not part of a field or doubled. -/
def parse : List Char → Option (List (Piece Char))
  | [] => some []
  | '\x7b' :: '\x7b' :: cs => (parse cs).map fun f => .lit '\x7b' :: f
  | '\x7d' :: '\x7d' :: cs => (parse cs).map fun f => .lit '\x7d' :: f
  | '\x7b' :: '\x7d' :: cs => (parse cs).map fun f => .field 0 :: f
  | '\x7b' :: ':' :: '>' :: d :: '\x7d' :: cs =>
    if d.isDigit then (parse cs).map fun f => .field (d.toNat - '0'.toNat) :: f else none
  | '\x7b' :: ':' :: d :: '\x7d' :: cs =>
    if d.isDigit then (parse cs).map fun f => .field (d.toNat - '0'.toNat) :: f else none
  | '\x7b' :: _ => none
  | '\x7d' :: _ => none
  | c :: cs => (parse cs).map fun f => .lit c :: f

def Piece.map (g : α → β) : Piece α → Piece β
  | .lit c => .lit (g c)
  | .field w => .field w

variable (blank : α)

/-- The text of a format string with its fields replaced in turn. -/
def render : List (Piece α) → List (List α) → List α
  | [], _ => []
  | .lit c :: f, args => c :: render f args
  | .field w :: f, a :: args => a.leftpad w blank ++ render f args
  | .field _ :: _, [] => []

/-- Where each replaced field ends is seen from the text: it ends the format, or a character follows that
does not occur in it.  What is padded does not begin with the padding. -/
def Delimited : List (Piece α) → List (List α) → Prop
  | [], args => args = []
  | .lit _ :: f, args => Delimited f args
  | .field w :: f, a :: args =>
    (w = 0 ∨ a.head? ≠ some blank) ∧
      (match f with
        | [] => True
        | .lit c :: _ => c ∉ a.leftpad w blank
        | .field _ :: _ => False) ∧
      Delimited f args
  | .field _ :: _, [] => False

variable {blank}

/-- The text before the first `c`. -/
theorem before_first_unique {c : α} {x x' z z' : List α} (hx : c ∉ x) (hx' : c ∉ x')
    (h : x ++ c :: z = x' ++ c :: z') : x = x' ∧ z = z' := by
  induction x generalizing x' with
  | nil =>
    cases x' with
    | nil => exact ⟨rfl, (List.cons.inj h).2⟩
    | cons d x' => exact absurd (List.cons.inj h).1 fun hc => hx' (hc ▸ List.mem_cons_self)
  | cons d x ih =>
    cases x' with
    | nil => exact absurd (List.cons.inj h).1 fun hc => hx (hc ▸ List.mem_cons_self)
    | cons d' x' =>
      obtain ⟨rfl, hrest⟩ := List.cons.inj h
      obtain ⟨rfl, rfl⟩ := ih (List.not_mem_of_not_mem_cons hx) (List.not_mem_of_not_mem_cons hx') hrest
      exact ⟨rfl, rfl⟩

/-- Dropping the padding gives back what was padded. -/
theorem leftpad_inj {w : ℕ} {a a' : List α} (ha : w = 0 ∨ a.head? ≠ some blank)
    (ha' : w = 0 ∨ a'.head? ≠ some blank) (h : a.leftpad w blank = a'.leftpad w blank) : a = a' := by
  rcases Nat.eq_zero_or_pos w with rfl | hw
  · simpa [List.leftpad] using h
  classical
  have hdrop : ∀ b : List α, b.head? ≠ some blank → (b.leftpad w blank).dropWhile (· = blank) = b := by
    intro b hb
    rw [List.leftpad, List.dropWhile_append_of_pos (by simp [List.mem_replicate])]
    cases b with
    | nil => rfl
    | cons d b => rw [List.dropWhile_cons_of_neg]; simpa using fun hd => hb (by rw [hd]; rfl)
  have hne : ∀ {b : List α}, w = 0 ∨ b.head? ≠ some blank → b.head? ≠ some blank := fun hb =>
    hb.resolve_left (Nat.ne_of_gt hw)
  rw [← hdrop a (hne ha), h, hdrop a' (hne ha')]

/-- **Reading back.**  Delimited fields are determined by the text. -/
theorem render_inj {f : List (Piece α)} {args args' : List (List α)} (h : Delimited blank f args)
    (h' : Delimited blank f args') (heq : render blank f args = render blank f args') :
    args = args' := by
  induction f generalizing args args' with
  | nil => rw [show args = [] from h, show args' = [] from h']
  | cons p f ih =>
    cases p with
    | lit c => exact ih h h' (List.cons.inj heq).2
    | field w =>
      cases args with
      | nil => exact h.elim
      | cons a args =>
        cases args' with
        | nil => exact h'.elim
        | cons a' args' =>
          obtain ⟨ha, hnext, hrest⟩ := h
          obtain ⟨ha', hnext', hrest'⟩ := h'
          simp only [render] at heq
          cases f with
          | nil =>
            rw [render, render, List.append_nil, List.append_nil] at heq
            rw [leftpad_inj ha ha' heq, show args = [] from hrest, show args' = [] from hrest']
          | cons q f =>
            cases q with
            | field _ => exact hnext.elim
            | lit c =>
              -- the character after the field is the first of its kind
              obtain ⟨hfield, htail⟩ := before_first_unique hnext hnext' heq
              rw [leftpad_inj ha ha' hfield, ih hrest hrest' (congrArg (List.cons c) htail)]

/-! ### Lines -/

section Lines

variable {nl br : α}

/-- Text without line ends, in front of lines in which no `br` follows a line end. -/
theorem isChain_append_of_notMem {l r : List α} {x : α} (hx : x ≠ nl) (hl : nl ∉ l)
    (hr : ∀ y, y ≠ nl → (y :: r).IsChain fun a b => a = nl → b ≠ br) :
    (x :: (l ++ r)).IsChain fun a b => a = nl → b ≠ br := by
  induction l generalizing x with
  | nil => exact hr x hx
  | cons y l ih =>
    have hy : y ≠ nl := fun h => hl (h ▸ List.mem_cons_self)
    exact List.isChain_cons_cons.mpr ⟨fun h => absurd h hx, ih hy (List.not_mem_of_not_mem_cons hl)⟩

variable [DecidableEq α]

/-- For each field of a format string, whether it may begin a line: `b` is whether the format may, and `e`
whether what is in front of it is a line end.  `none` where the format does not end with a line end, or a `br`
of it may begin a line, or a field is padded. -/
def lineStarts (nl br : α) : Bool → Bool → List (Piece α) → Option (List Bool)
  | _, e, [] => if e then some [] else none
  | b, _, .lit c :: f => if b ∧ c = br then none else lineStarts nl br (c = nl) (c = nl) f
  | b, _, .field 0 :: f => (lineStarts nl br b false f).map (b :: ·)
  | _, _, .field _ :: _ => none

/-- What may replace a field: it has no line end, and does not begin a line with a `br`. -/
def Inline (nl br : α) (b : Bool) (a : List α) : Prop := nl ∉ a ∧ (b = true → a.head? ≠ some br)

/-- **Lines of a text.**  In the text of a format string the last line is ended, and no `br` follows a line
end. -/
theorem lines_render (blank : α) {b e : Bool} {f : List (Piece α)} {bs : List Bool}
    {args : List (List α)} {x : α} (hf : lineStarts nl br b e f = some bs)
    (hargs : List.Forall₂ (Inline nl br) bs args)
    (hb : x = nl → b = true) (he : e = true → x = nl) :
    (x :: render blank f args).getLast? = some nl ∧
      (x :: render blank f args).IsChain fun a b => a = nl → b ≠ br := by
  induction f generalizing b e bs args x with
  | nil =>
    rw [lineStarts] at hf
    split at hf
    · rename_i h
      rw [render, he h]
      exact ⟨rfl, List.IsChain.singleton nl⟩
    · exact absurd hf (by simp)
  | cons p f ih =>
    cases p with
    | lit c =>
      rw [lineStarts] at hf
      split at hf
      · exact absurd hf (by simp)
      · rename_i h
        obtain ⟨hlast, hchain⟩ := ih hf hargs (x := c) (by simp) (by simp)
        rw [render, List.getLast?_cons_cons, List.isChain_cons_cons]
        exact ⟨hlast, fun hx hc => h ⟨hb hx, hc⟩, hchain⟩
    | field w =>
      cases w with
      | succ w => exact absurd hf (by simp [lineStarts])
      | zero =>
        rw [lineStarts] at hf
        obtain ⟨bs', hf', rfl⟩ := Option.map_eq_some_iff.mp hf
        obtain ⟨a, args, ha, hrest, rfl⟩ := List.forall₂_cons_left_iff.mp hargs
        have hpad : a.leftpad 0 blank = a := by simp [List.leftpad]
        rw [render, hpad]
        cases a with
        | nil => exact ih hf' hrest hb (by simp)
        | cons y t =>
          have hy : y ≠ nl := fun h => ha.1 (h ▸ List.mem_cons_self)
          have htext := fun z (hz : z ≠ nl) => ih hf' hrest (x := z) (fun h => absurd h hz) (by simp)
          refine ⟨?_, List.isChain_cons_cons.mpr ⟨fun hx hbr => ha.2 (hb hx) (by rw [hbr]; rfl), ?_⟩⟩
          · have hne : render blank f args ≠ [] := by
              intro hnil
              have hlast := (htext y hy).1
              rw [hnil] at hlast
              exact hy (Option.some.inj hlast)
            have hlast := (htext y hy).1
            rw [← List.singleton_append, List.getLast?_append_of_ne_nil _ hne] at hlast
            rw [← List.cons_append, List.getLast?_append_of_ne_nil _ hne, hlast]
          · exact isChain_append_of_notMem hy (List.not_mem_of_not_mem_cons ha.1) fun z hz =>
              (htext z hz).2

end Lines

end Format
