import WndxSane.MkdirAlone

/-!
# Trimmed paths

`path::trim` puts a separator after the path and takes the parent path, so that the separators at the end
go and every name stays.  `mkdir` uses the trimmed path in place of the path it was given.

The empty path has no name that the separator could follow: it becomes the root directory.

* **`trim_keeps_meaning_iff`**: a trimmed path means what the path means, unless the path is empty.
* **`trim_normal_form`**: trimming is a normal form, whatever separators are at the end.
-/

namespace WndxSane

open PathGrammar PathAlphabet LexicalNormal FileTree

/-! ### Elements -/

/-- The elements without the empty one that a separator at the end stands for. -/
def dropFinalEmpty (es : List Path) : List Path := if es.getLast? = some [] then es.dropLast else es

theorem isAbsolute_trim {p : Path} (hp : p ≠ []) : isAbsolute (trim p) = isAbsolute p := by
  by_cases h : names p = []
  · rw [trim_eq, if_pos h, isAbsolute_append hp]
  · obtain ⟨k, hk⟩ := trim_append h
    have hne : trim p ≠ [] := fun hnil => h (by rw [← names_trim, hnil, names_nil])
    conv_rhs => rw [← hk]
    exact (isAbsolute_append hne _).symm

/-- The elements of a trimmed path. -/
theorem elements_trim_eq (p : Path) :
    elements (trim p) = (if isAbsolute (trim p) then [[sep]] else []) ++ names p := by
  have hend : ¬ (names (trim p) ≠ [] ∧ endsInSep (trim p) = true) := by
    rintro ⟨hn, he⟩
    rw [endsInSep_trim (names_trim p ▸ hn)] at he
    exact Bool.noConfusion he
  rw [elements, if_neg hend, List.append_nil, names_trim]

theorem elements_trim {p : Path} (hp : p ≠ []) :
    elements (trim p) = dropFinalEmpty (elements p) := by
  rw [elements_trim_eq, isAbsolute_trim hp, dropFinalEmpty, elements]
  by_cases h : names p ≠ [] ∧ endsInSep p = true
  · rw [if_pos h, List.getLast?_concat, if_pos rfl, List.dropLast_concat]
  · -- neither the root directory nor a name is empty
    have hlast : ((if isAbsolute p then [[sep]] else []) ++ names p).getLast? ≠ some [] := by
      intro hlast
      rcases List.mem_append.mp (List.mem_of_getLast? hlast) with hmem | hmem
      · split at hmem <;> simp at hmem
      · exact (mem_names hmem).1 rfl
    rw [if_neg h, List.append_nil, if_neg hlast]

theorem samePlace_trim {p : Path} (hp : p ≠ []) : SamePlace (normal p) (normal (trim p)) := by
  simp only [SamePlace, normal, names_trim, isAbsolute_trim hp, and_self]

/-! ### Locations -/

variable {fs : Fs} {p : Path}

/-- Where the root directory is given by separators alone, trimming leaves the root directory. -/
theorem route_trim_of_names (h : names p = []) (hp : p ≠ []) : route (trim p) = route p := by
  have htrim : trim p ≠ [] := by
    rw [trim_eq, if_pos h]
    simp
  rw [route_of_names h hp, route_of_names ((names_trim p).trans h) htrim]

/-- A path that leads somewhere leads where the trimmed path does. -/
theorem target_trim {l : Loc} (h : fs.target (route p) = some l) :
    fs.target (route (trim p)) = some l := by
  have hp : p ≠ [] := by
    rintro rfl
    exact absurd h (by simp [Tree.target, Tree.resolve, route, strRoute, cstr, isAbsolute])
  by_cases hn : names p = []
  · rw [route_trim_of_names hn hp, h]
  · rcases route_trim hn with hroute | ⟨habs, hcomps, hne⟩
    · rw [← hroute, h]
    · exact ((Tree.target_append_dot habs hcomps hne).mp h).1

/-- A path leads to the directory that the trimmed path leads to. -/
theorem target_of_trim (hp : p ≠ []) {d : Loc} (h : fs.target (route (trim p)) = some d)
    (hd : fs.isDir d = true) : fs.target (route p) = some d := by
  by_cases hn : names p = []
  · rw [← route_trim_of_names hn hp, h]
  · rcases route_trim hn with hroute | ⟨habs, hcomps, hne⟩
    · rw [hroute, h]
    · exact (Tree.target_append_dot habs hcomps hne).mpr ⟨h, hd⟩

theorem isDirectory_of_trim (hp : p ≠ []) (h : fsIsDirectory fs (trim p) = true) :
    fsIsDirectory fs p = true := by
  obtain ⟨d, hd, hdir⟩ := (Mkdir.isDirectory_iff ..).mp h
  exact (Mkdir.isDirectory_iff ..).mpr ⟨d, target_of_trim hp hd hdir, hdir⟩

/-- A separator after the path of a directory makes no difference. -/
theorem target_concat_sep (h : fsIsDirectory fs p = true) :
    fs.target (route (p ++ [sep])) = fs.target (route p) := by
  obtain ⟨d, hd, hdir⟩ := (Mkdir.isDirectory_iff ..).mp h
  rw [hd]
  by_cases hn : names p = []
  · have htrim : trim p = p ++ [sep] := by rw [trim_eq, if_pos hn]
    rw [← htrim, target_trim hd]
  · have hlong : names (p ++ [sep]) ≠ [] := by rwa [names_concat_sep]
    have htrim : trim (p ++ [sep]) = trim p := by
      rw [trim_eq, trim_eq, if_neg hn, if_neg hlong, rdropSep_concat_sep]
    exact target_of_trim (by simp) (htrim ▸ target_trim hd) hdir

/-- What is sanitized is trimmed: it is absolute as before, it has the same elements but for a final empty one, and
it is the same place. -/
theorem sanitize_keeps {p : Path} (hp : p ≠ []) :
    isAbsolute (sanitize p) = isAbsolute p ∧ elements (sanitize p) = dropFinalEmpty (elements p) ∧
      SamePlace (normal p) (normal (sanitize p)) :=
  ⟨isAbsolute_trim hp, elements_trim hp, samePlace_trim hp⟩

/-! ### What a trimmed path means -/

/-- The trimmed path means what the path means. -/
structure KeepsMeaning (p : Path) : Prop where
  absolute : isAbsolute (trim p) = isAbsolute p
  elements : elements (trim p) = dropFinalEmpty (elements p)
  /-- Both name one place, by their names. -/
  place : SamePlace (normal p) (normal (trim p))
  /-- Where the path leads somewhere, the trimmed path leads there. -/
  location : ∀ (fs : Fs) (l : Loc), fs.target (route p) = some l → fs.target (route (trim p)) = some l
  /-- Where the trimmed path leads to a directory, the path leads there. -/
  directory : ∀ (fs : Fs) (d : Loc), fs.target (route (trim p)) = some d → fs.isDir d = true →
    fs.target (route p) = some d
  /-- After `SUCCESS` of `mkdir` there is a directory at the path. -/
  mkdir : ∀ (perms : Perms) (c : Mkdir.Caller) (ok : Mkdir.Pc → Bool) (fs : Fs),
    (Mkdir.mkdir ⟨p, perms⟩ c ok fs).1 = .success →
      fsIsDirectory (Mkdir.mkdir ⟨p, perms⟩ c ok fs).2 p = true

/-- After `SUCCESS` the trimmed path is a directory, and so is the path. -/
theorem isDirectory_of_mkdir (hp : p ≠ []) {perms : Perms} {c : Mkdir.Caller} {ok : Mkdir.Pc → Bool}
    (h : (Mkdir.mkdir ⟨p, perms⟩ c ok fs).1 = .success) :
    fsIsDirectory (Mkdir.mkdir ⟨p, perms⟩ c ok fs).2 p = true := by
  rcases Mkdir.mkdir_outcomes ⟨p, perms⟩ c ok fs with ⟨hr, hdir⟩ | ⟨l, hr, hsite⟩ | ⟨rc, hr, hne, -⟩ |
    ⟨l, m, hr, -⟩
  · rw [hr]
    exact isDirectory_of_trim hp hdir
  · rw [hr]
    exact isDirectory_of_trim hp (hsite.made perms).isDirectory
  · rw [hr] at h
    exact absurd h hne
  · rw [hr] at h
    exact absurd h (by simp)

/-- **The meaning of a trimmed path.**  Trimming keeps what a path means if and only if the path is not
empty. -/
theorem trim_keeps_meaning_iff (p : Path) : KeepsMeaning p ↔ p ≠ [] := by
  constructor
  · rintro h rfl
    exact absurd h.absolute (by decide)
  · intro hp
    exact ⟨isAbsolute_trim hp, elements_trim hp, samePlace_trim hp, fun _ _ h => target_trim h,
      fun _ _ h hd => target_of_trim hp h hd, fun _ _ _ _ h => isDirectory_of_mkdir hp h⟩

/-- `mkdir` of the empty path reports `SUCCESS`, on account of the root directory. -/
theorem mkdir_of_empty_path_succeeds : ¬ ∀ p, KeepsMeaning p := by
  intro h
  have hdir := (h []).mkdir 0o755 ⟨false, 0⟩ (fun _ => true) (Tree.root 0o755 40) (by decide)
  exact absurd hdir (by decide)

/-! ### Normal form -/

/-- **Normal form.**  With paths compared by their elements: separators at the end make no difference to the
trimmed path, a trimmed path is not changed by trimming, and a trimmed path does not end in a separator
unless it is the root directory. -/
theorem trim_normal_form (p : Path) (k : ℕ) :
    elements (trim (p ++ List.replicate k sep)) = elements (trim p) ∧
      elements (trim (trim p)) = elements (trim p) ∧
        (endsInSep (trim p) = false ∨ elements (trim p) = [[sep]]) := by
  have hroot : ∀ q : Path, names q = [] → elements (trim q) = [[sep]] := by
    intro q hq
    have habs : isAbsolute (trim q) = true := by
      refine isAbsolute_of_names ((names_trim q).trans hq) ?_
      rw [trim_eq, if_pos hq]
      simp
    rw [elements_trim_eq, habs, hq]
    rfl
  by_cases hn : names p = []
  · refine ⟨?_, ?_, Or.inr (hroot p hn)⟩
    · rw [hroot p hn, hroot _ ((names_append_replicate_sep p k).trans hn)]
    · rw [hroot p hn, hroot _ ((names_trim p).trans hn)]
  · have hp : p ≠ [] := fun hnil => hn (by rw [hnil, names_nil])
    have htrim : trim p ≠ [] := fun hnil => hn (by rw [← names_trim, hnil, names_nil])
    have hlong : p ++ List.replicate k sep ≠ [] := fun hnil => hp (List.append_eq_nil_iff.mp hnil).1
    refine ⟨?_, ?_, Or.inl (endsInSep_trim hn)⟩
    · rw [elements_trim_eq, elements_trim_eq, isAbsolute_trim hlong, isAbsolute_append hp,
        names_append_replicate_sep, isAbsolute_trim hp]
    · rw [elements_trim_eq, isAbsolute_trim htrim, names_trim, ← elements_trim_eq]

end WndxSane
