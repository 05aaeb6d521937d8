import WndxSane.Lib.LexicalNormal
import WndxSane.Lib.FileTree

/-!
# Paths

`fs::path` in its native format is a string of bytes.  `trim` and `sanitize` are the functions of
`path.cpp`; `route` is what the operating system makes of a path: it reads the C string, up to the first
NUL, and takes a trailing separator for a final `.`.

* `names_trim`, `endsInSep_trim`: trimming keeps the names and cuts the separators off the end.
* **`route_trim`**: a path resolves as the trimmed path does, with at most a `.` after it.
* **`route_parentPath`**: a path resolves as its parent path with at most one component after it.
-/

namespace WndxSane

open PathGrammar PathAlphabet LexicalNormal FileTree

abbrev Byte := UInt8

instance : PathAlphabet Byte where
  sep := 47
  dot := 46
  dot_ne_sep := by decide

/-- The native format of `fs::path`. -/
abbrev Path := List Byte

/-- A place in the file tree, the innermost name first. -/
abbrev Loc := List Path

/-- Trim trailing separators. -/
def trim (path : Path) : Path :=
  -- one separator more, so that what parent_path cuts off is never a name
  parentPath (concat path [sep])

def sanitize (path : Path) : Path := trim path

/-- The C string at the start of a string of bytes. -/
def cstr (s : List Byte) : List Byte := s.takeWhile (· ≠ 0)

/-- A file name as a component of a route. -/
def toComp (n : Path) : Comp Path :=
  if n = [dot] then .dot else if n = dotdot then .dotdot else .name n

/-- How the operating system resolves a string. -/
def strRoute (s : Path) : Route Path where
  abs := isAbsolute s
  comps := (names s).map toComp ++ if names s ≠ [] ∧ endsInSep s then [.dot] else []

/-- How the operating system resolves a path. -/
def route (p : Path) : Route Path := strRoute (cstr p)

/-! ### Trimming -/

/-- What is trimmed off, or put on where there is no name. -/
theorem trim_eq (p : Path) :
    trim p = if names p = [] then p ++ [sep] else p.rdropWhile (· = sep) := by
  rw [trim, concat, parentPath, stem_concat_sep, trimRoot, names_concat_sep, rdropSep_concat_sep]
  split <;> rfl

theorem names_trim (p : Path) : names (trim p) = names p := by
  rw [trim_eq]
  split
  · exact names_concat_sep p
  · exact names_rdropSep p

/-- A trimmed path ends in a name, unless it has no names at all. -/
theorem endsInSep_trim {p : Path} (h : names p ≠ []) : endsInSep (trim p) = false := by
  rw [trim_eq, if_neg h]
  exact endsInSep_rdropSep p

/-- A path with names is the trimmed path followed by separators. -/
theorem trim_append {p : Path} (h : names p ≠ []) : ∃ k, trim p ++ List.replicate k sep = p := by
  rw [trim_eq, if_neg h]
  exact rdropSep_append p

/-! ### Routes -/

theorem cstr_append_of_mem {s : List Byte} (h : 0 ∈ s) (t : List Byte) :
    cstr (s ++ t) = cstr s := by
  induction s with
  | nil => exact absurd h (by simp)
  | cons c s ih =>
    by_cases hc : c = 0
    · simp [cstr, hc]
    · have hmem : 0 ∈ s := (List.mem_cons.mp h).resolve_left (Ne.symm hc)
      have hcons : ∀ u, cstr (c :: u) = c :: cstr u := fun u => by simp [cstr, hc]
      rw [List.cons_append, hcons, hcons, ih hmem]

theorem cstr_append_of_not_mem {s : List Byte} (h : 0 ∉ s) (t : List Byte) :
    cstr (s ++ t) = s ++ cstr t := by
  rw [cstr, List.takeWhile_append_of_pos]
  · rfl
  · intro c hc
    simpa using fun he : c = 0 => h (he ▸ hc)

theorem cstr_of_not_mem {s : List Byte} (h : 0 ∉ s) : cstr s = s := by
  have := cstr_append_of_not_mem h []
  simpa [cstr] using this

theorem mem_of_mem_cstr {s : List Byte} {c : Byte} (h : c ∈ cstr s) : c ∈ s :=
  (List.takeWhile_prefix _).subset h

/-- A route that names nothing after its last separator ends in a directory, if it has names. -/
theorem comps_strRoute_of_name {s : Path} {xs : List (Comp Path)} {n : Path}
    (h : (strRoute s).comps = xs ++ [.name n]) : endsInSep s = false := by
  cases hend : endsInSep s with
  | false => rfl
  | true =>
    by_cases hn : names s = []
    · simp [strRoute, hn] at h
    · simp only [strRoute, hn, hend, ne_eq, not_false_eq_true, and_self, if_true] at h
      have hlast := (List.append_inj' h rfl).2
      simp at hlast

/-- A path without names, but not empty, resolves as the root directory. -/
theorem route_of_names {p : Path} (h : names p = []) (hp : p ≠ []) : route p = ⟨true, []⟩ := by
  have habs := isAbsolute_of_names h hp
  obtain ⟨k, rfl⟩ := eq_replicate_of_names h
  have hzero : (0 : Byte) ∉ List.replicate k sep := fun hmem =>
    absurd (List.eq_of_mem_replicate hmem) (by decide)
  rw [route, cstr_of_not_mem hzero, strRoute, habs, h]
  rfl

/-- What comes after the parent of a resolved string: nothing or one component. -/
theorem strRoute_append {d m g : Path} (hm : names (d ++ m) = names d)
    (hmd : filename (d ++ m) = []) (hg : sep ∉ g) (hd : d ≠ [])
    (hend : names d = [] ∨ endsInSep d = false) :
    ∃ cs, (strRoute (d ++ m ++ g)).abs = (strRoute d).abs ∧
      (strRoute (d ++ m ++ g)).comps = (strRoute d).comps ++ cs ∧ cs.length ≤ 1 := by
  have habs : isAbsolute (d ++ m ++ g) = isAbsolute d := by
    rw [List.append_assoc, isAbsolute_append hd]
  have hdcomps : (strRoute d).comps = (names d).map toComp := by
    rcases hend with hn | he
    · simp [strRoute, hn]
    · simp [strRoute, he]
  have hstem : d ++ m = [] ∨ ∃ r, d ++ m = r ++ [sep] := by
    rcases (filename_eq_nil_iff _).mp hmd with hnil | he
    · exact Or.inl hnil
    · obtain ⟨r, c, hr⟩ := (List.eq_nil_or_concat (d ++ m)).resolve_left (by simp [hd])
      refine Or.inr ⟨r, ?_⟩
      rw [hr] at he ⊢
      simp [endsInSep] at he
      rw [he, List.concat_eq_append]
  have hnames : names (d ++ m ++ g) = names d ++ names g := by
    rw [names_stem_append hstem, hm]
  by_cases hgn : g = []
  · subst hgn
    refine ⟨if names d ≠ [] ∧ endsInSep (d ++ m ++ []) then [.dot] else [], habs, ?_, ?_⟩
    · rw [hdcomps]
      simp only [strRoute, List.append_nil, hm]
    · split <;> simp
  · have hge : endsInSep (d ++ m ++ g) = false := by
      rw [endsInSep_append hgn]
      cases he : endsInSep g with
      | false => rfl
      | true => exact absurd (List.mem_of_getLast? (by simpa [endsInSep] using he)) hg
    refine ⟨[toComp g], habs, ?_, le_refl 1⟩
    rw [hdcomps, strRoute, hnames, names_of_sep_free hg, if_neg hgn, hge]
    simp

/-- **Parent paths.**  A path that ends in a name resolves as its parent path does, with at most one
component after it. -/
theorem route_parentPath {p : Path} (hf : filename p ≠ []) (hne : parentPath p ≠ []) :
    ∃ cs, (route p).abs = (route (parentPath p)).abs ∧
      (route p).comps = (route (parentPath p)).comps ++ cs ∧ cs.length ≤ 1 := by
  have hn : names p ≠ [] := fun h => hf (filename_eq_nil_of_names h)
  have hzero : (0 : Byte) ≠ sep := by decide
  -- the path is its parent, separators and its file name
  obtain ⟨k, hp, hfile⟩ : ∃ k, p = parentPath p ++ List.replicate k sep ++ filename p ∧
      filename (parentPath p ++ List.replicate k sep) = [] := by
    rcases parentPath_shape hn with ⟨-, hp, hfp, -⟩ | ⟨-, -, k, hp⟩
    · exact ⟨0, by simpa using hp.symm, by simpa using hfp⟩
    · refine ⟨k + 1, ?_, ?_⟩
      · rw [List.replicate_succ, List.append_assoc, List.cons_append]
        exact hp.symm
      · rw [filename_eq_nil_iff, List.replicate_succ', ← List.append_assoc]
        exact Or.inr (by simp [endsInSep])
  by_cases h0 : (0 : Byte) ∈ parentPath p
  · have hroute : route p = route (parentPath p) := by
      rw [route, route, hp, List.append_assoc, cstr_append_of_mem h0, ← List.append_assoc, ← hp]
    exact ⟨[], by rw [hroute], by rw [hroute, List.append_nil], Nat.zero_le 1⟩
  · have h0' : (0 : Byte) ∉ parentPath p ++ List.replicate k sep := by
      intro h
      rcases List.mem_append.mp h with h | h
      · exact h0 h
      · exact hzero (List.eq_of_mem_replicate h)
    have hcp : cstr p = parentPath p ++ List.replicate k sep ++ cstr (filename p) := by
      conv_lhs => rw [hp]
      exact cstr_append_of_not_mem h0' _
    rw [route, route, hcp, cstr_of_not_mem h0]
    refine strRoute_append (names_append_replicate_sep _ k) hfile ?_ hne
      (names_eq_parentPath_append hf).2
    intro h
    exact sep_not_mem_filename p (mem_of_mem_cstr h)

/-- **Trimmed paths.**  A path with names resolves as the trimmed path does, or with a `.` after its
components. -/
theorem route_trim {p : Path} (h : names p ≠ []) :
    route p = route (trim p) ∨ ((route p).abs = (route (trim p)).abs ∧
      (route p).comps = (route (trim p)).comps ++ [.dot] ∧ (route (trim p)).comps ≠ []) := by
  have hzero : (0 : Byte) ≠ sep := by decide
  have hend := endsInSep_trim h
  have hnames := names_trim p
  obtain ⟨k, hk⟩ := trim_append h
  cases k with
  | zero =>
    left
    rw [List.replicate_zero, List.append_nil] at hk
    rw [hk]
  | succ k =>
    by_cases h0 : (0 : Byte) ∈ trim p
    · left
      rw [route, route, ← cstr_append_of_mem h0 (List.replicate (k + 1) sep), hk]
    · right
      have hp0 : (0 : Byte) ∉ p := by
        rw [← hk]
        intro hmem
        rcases List.mem_append.mp hmem with hmem | hmem
        · exact h0 hmem
        · exact hzero (List.eq_of_mem_replicate hmem)
      have hpe : endsInSep p = true := by
        rw [← hk, List.replicate_succ', ← List.append_assoc]
        simp [endsInSep]
      have htne : trim p ≠ [] := fun hnil => h (by rw [← hnames, hnil, names_nil])
      have habs : isAbsolute p = isAbsolute (trim p) := by
        conv_lhs => rw [← hk]
        exact isAbsolute_append htne _
      rw [route, route, cstr_of_not_mem hp0, cstr_of_not_mem h0]
      refine ⟨habs, ?_, ?_⟩
      · simp [strRoute, hnames, h, hpe, hend]
      · simp [strRoute, hnames, h]

end WndxSane
