import WndxSane.FileSystem

/-!
# The CMake modules

What the functions under `cmake/` take from CMake, and the sanity checks of the public header directory
`PHD` that `wndx_sane_create_targets` and `wndx_sane_install` both make, word for word the same.

A variable that is not set has the empty value.  A list is one value, its items put together with `;`.

How a name is matched against a glob is a parameter wherever it is used; `wildcard` is such a matching.

* `listItems_quoted`: a list of plain items is split into these.
* **`wildcard_append`**: globs put together match names put together.
-/

namespace WndxSane.CMake

open PathGrammar PathAlphabet LexicalNormal FileTree

/-- The bytes of an ASCII text. -/
def bytes (s : String) : List Byte := s.toList.map fun c => c.toNat.toUInt8

def toUpper (c : Byte) : Byte := if 97 ≤ c ∧ c ≤ 122 then c - 32 else c

/-- The values that `if` takes for false.  Of the named ones only `NOTFOUND` has to be in upper case. -/
def isFalseConstant (v : List Byte) : Bool :=
  decide (v.map toUpper ∈ ["", "0", "N", "NO", "OFF", "FALSE", "IGNORE"].map bytes) ||
    decide (v = bytes "NOTFOUND") || (bytes "-NOTFOUND").isSuffixOf v

/-- A quoted list: `"${xs}"`. -/
def quoted (xs : List (List Byte)) : List Byte := List.intercalate (bytes ";") xs

/-! ### Lists -/

/-- Matching of a name against a glob without brackets: `*` is any string, `?` any character, and every
other character itself. -/
def wildcard : List Byte → Path → Bool
  | [], name => name.isEmpty
  | c :: pattern, name =>
    if c = 42 then name.tails.any (wildcard pattern)
    else
      match name with
      | [] => false
      | d :: name => (c = 63 || c = d) && wildcard pattern name

/-- A location below the directory that a path leads to. -/
def under (fs : Fs) (p : Path) : Loc → Bool
  | [] => false
  | _ :: up => (fs.target (route p)).any fun d => d.isSuffixOf up

/-- The name at a location matches a glob. -/
def named (glob : List Byte → Path → Bool) (pattern : List Byte) : Loc → Bool
  | [] => false
  | n :: _ => glob pattern n

theorem wildcard_nil (name : Path) : wildcard [] name = name.isEmpty := rfl

theorem wildcard_star (pattern : List Byte) (name : Path) :
    wildcard (42 :: pattern) name = name.tails.any (wildcard pattern) := by
  cases name <;> rfl

theorem wildcard_cons_nil {c : Byte} (hc : c ≠ 42) (pattern : List Byte) :
    wildcard (c :: pattern) [] = false := by
  rw [wildcard.eq_def]
  simp [hc]

theorem wildcard_cons_cons {c : Byte} (hc : c ≠ 42) (pattern : List Byte) (d : Byte) (name : Path) :
    wildcard (c :: pattern) (d :: name) = ((c = 63 || c = d) && wildcard pattern name) := by
  rw [wildcard.eq_def]
  simp [hc]

/-- **Globs put together.** -/
theorem wildcard_append (p q : List Byte) (name : Path) :
    wildcard (p ++ q) name = true ↔
      ∃ a b, name = a ++ b ∧ wildcard p a = true ∧ wildcard q b = true := by
  induction p generalizing name with
  | nil =>
    constructor
    · exact fun h => ⟨[], name, rfl, rfl, h⟩
    · rintro ⟨a, b, rfl, ha, hb⟩
      rw [wildcard_nil, List.isEmpty_iff] at ha
      rw [ha]
      exact hb
  | cons c p ih =>
    rw [List.cons_append]
    by_cases hc : c = 42
    · simp only [hc, wildcard_star, List.any_eq_true, List.mem_tails, ih]
      constructor
      · rintro ⟨t, ⟨s, rfl⟩, a, b, rfl, ha, hb⟩
        exact ⟨s ++ a, b, (List.append_assoc ..).symm, ⟨a, List.suffix_append s a, ha⟩, hb⟩
      · rintro ⟨a, b, rfl, ⟨t, ⟨s, rfl⟩, ht⟩, hb⟩
        exact ⟨t ++ b, ⟨s, (List.append_assoc ..).symm⟩, t, b, rfl, ht, hb⟩
    · cases name with
      | nil =>
        rw [wildcard_cons_nil hc]
        refine ⟨fun h => Bool.noConfusion h, ?_⟩
        rintro ⟨a, b, hab, ha, -⟩
        rw [(List.append_eq_nil_iff.mp hab.symm).1, wildcard_cons_nil hc] at ha
        exact Bool.noConfusion ha
      | cons d name =>
        rw [wildcard_cons_cons hc, Bool.and_eq_true, ih]
        constructor
        · rintro ⟨hcd, a, b, rfl, ha, hb⟩
          refine ⟨d :: a, b, rfl, ?_, hb⟩
          rw [wildcard_cons_cons hc, hcd, ha]
          rfl
        · rintro ⟨a, b, hab, ha, hb⟩
          cases a with
          | nil =>
            rw [wildcard_cons_nil hc] at ha
            exact Bool.noConfusion ha
          | cons x a =>
            obtain ⟨rfl, rfl⟩ := List.cons.inj hab
            rw [wildcard_cons_cons hc, Bool.and_eq_true] at ha
            exact ⟨ha.1, a, b, rfl, ha.2, hb⟩

/-- What is in strings put together is in one of them, or between two. -/
theorem mem_intercalate {s : List Byte} {xs : List (List Byte)} {c : Byte} (h : c ∈ List.intercalate s xs) :
    (∃ x ∈ xs, c ∈ x) ∨ c ∈ s := by
  induction xs with
  | nil => exact absurd h (by simp)
  | cons x xs ih =>
    cases xs with
    | nil => exact Or.inl ⟨x, List.mem_cons_self, by simpa using h⟩
    | cons y ys =>
      rw [List.intercalate_cons_cons, List.mem_append, List.mem_append] at h
      rcases h with (hx | hs) | hrest
      · exact Or.inl ⟨x, List.mem_cons_self, hx⟩
      · exact Or.inr hs
      · refine (ih hrest).imp_left ?_
        rintro ⟨z, hz, hcz⟩
        exact ⟨z, List.mem_cons_of_mem x hz, hcz⟩

/-- What is in a quoted list is in one of its items, or a `;`. -/
theorem mem_quoted {xs : List (List Byte)} {c : Byte} (h : c ∈ quoted xs) : (∃ x ∈ xs, c ∈ x) ∨ c = 59 :=
  (mem_intercalate h).imp_right fun hsemi => List.mem_singleton.mp hsemi

/-- Without brackets, a `;` in a glob matches a `;`, and the globs on its two sides what is on the two sides
of that. -/
def SplitsAtSemicolon (glob : List Byte → Path → Bool) : Prop :=
  ∀ p q name, 91 ∉ p → 91 ∉ q → (glob (p ++ 59 :: q) name = true ↔
    ∃ a b, name = a ++ 59 :: b ∧ glob p a = true ∧ glob q b = true)

theorem splitsAtSemicolon_wildcard : SplitsAtSemicolon wildcard := by
  intro p q name _ _
  rw [wildcard_append]
  constructor
  · rintro ⟨a, c, rfl, ha, hc⟩
    cases c with
    | nil =>
      rw [wildcard_cons_nil (by decide)] at hc
      exact Bool.noConfusion hc
    | cons d b =>
      rw [wildcard_cons_cons (by decide)] at hc
      obtain ⟨hd, hb⟩ := Bool.and_eq_true_iff.mp hc
      have hd' : (59 : Byte) = d := by simpa using hd
      exact ⟨a, b, by rw [hd'], ha, hb⟩
  · rintro ⟨a, b, rfl, ha, hb⟩
    refine ⟨a, 59 :: b, rfl, ha, ?_⟩
    rw [wildcard_cons_cons (by decide), hb]
    rfl

/-- A quoted list of two or more globs matches only names with a `;`. -/
theorem semicolon_mem_of_quoted {glob : List Byte → Path → Bool} (hglob : SplitsAtSemicolon glob)
    {patterns : List (List Byte)} (hlen : 2 ≤ patterns.length) (hbracket : ∀ p ∈ patterns, 91 ∉ p)
    {name : Path} (h : glob (quoted patterns) name = true) : 59 ∈ name := by
  match patterns, hlen with
  | p :: q :: rest, _ =>
    have hquoted : quoted (p :: q :: rest) = p ++ 59 :: quoted (q :: rest) := by
      rw [quoted, List.intercalate_cons_cons]
      exact List.append_assoc ..
    have hrest : 91 ∉ quoted (q :: rest) := by
      intro hmem
      rcases mem_quoted hmem with ⟨r, hr, hmem⟩ | hsemi
      · exact hbracket r (List.mem_cons_of_mem p hr) hmem
      · exact absurd hsemi (by decide)
    rw [hquoted] at h
    obtain ⟨a, b, rfl, -, -⟩ := (hglob _ _ _ (hbracket p List.mem_cons_self) hrest).mp h
    exact List.mem_append_right a List.mem_cons_self

/-! ### The public header directory -/

/-- The elements of one path are a prefix of those of another; a final empty element stands for anything
that follows. -/
def elementsPrefix : List Path → List Path → Bool
  | [], _ => true
  | _ :: _, [] => false
  | x :: xs, y :: ys => if x = y then elementsPrefix xs ys else x.isEmpty

/-- `cmake_path(IS_PREFIX prefix path NORMALIZE out)`. -/
def isPrefixNormalize (pre p : Path) : Bool :=
  elementsPrefix (normal pre).elements (normal p).elements

/-- The argument of a one-value keyword.  The keyword is among `arg_KEYWORDS_MISSING_VALUES` when no value
follows it where it stands last. -/
structure OneValue where
  value : Path
  missing : Bool

/-- `PHD_w_prefix`, by way of `cmake_path(APPEND)`. -/
def phdWPrefix (currentSourceDir phd : Path) : Path := append (append [] currentSourceDir) phd

theorem phdWPrefix_eq (currentSourceDir phd : Path) :
    phdWPrefix currentSourceDir phd = append currentSourceDir phd := by
  have hsrc : append [] currentSourceDir = currentSourceDir := by
    unfold append
    split
    · rfl
    · exact if_pos rfl
  rw [phdWPrefix, hsrc]

/-- The sanity checks of `PHD`: neither of the two fatal errors. -/
def phdChecks (fs : Fs) (currentSourceDir phd : Path) : Bool :=
  isPrefixNormalize currentSourceDir (phdWPrefix currentSourceDir phd) &&
    fsIsDirectory fs (phdWPrefix currentSourceDir phd)

/-- `CUR_INC_DIR`, the include directory of the build interface. -/
def curIncDir (currentSourceDir : Path) : Normal Byte := normal (currentSourceDir ++ bytes "/include")

end WndxSane.CMake
