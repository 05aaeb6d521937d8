import WndxSane.File

/-!
# File info and paths

`to_finfo` writes the file name over the default name, byte by byte, and a terminator after it; the
constructor from a `Finfo` reads the C string back and appends it to a directory path.

* `toFinfo_eq_some`: what is in the buffer when the name fits.
* **`finfo_in_bounds_iff`**: neither direction knows the size of the buffer.
* **`ofFinfo_toFinfo`**: a path goes through a `Finfo` and its parent path unchanged.
-/

namespace WndxSane.File

open PathGrammar PathAlphabet

/-! ### The buffer -/

theorem setFname_toList (finfo : Finfo) {i : ℕ} (h : i < fnameMaxLen) (c : Byte) :
    ∃ finfo', setFname finfo i c = some finfo' ∧ finfo'.mBlockSize = finfo.mBlockSize ∧
      finfo'.mFname.toList = finfo.mFname.toList.set i c := by
  rw [setFname, dif_pos h]
  exact ⟨_, rfl, rfl, Vector.toList_set h⟩

/-- Writing the next byte of a name over a buffer that starts with the bytes before it. -/
theorem set_take_append {fname old : List Byte} {n : ℕ} (c : Byte) (hn : n ≤ fname.length)
    (hold : n < old.length) :
    (fname.take n ++ old.drop n).set n c = fname.take n ++ c :: old.drop (n + 1) := by
  have hlen : (fname.take n).length = n := List.length_take_of_le hn
  rw [List.set_append_right _ _ (le_of_eq hlen), hlen, Nat.sub_self, List.drop_eq_getElem_cons hold,
    List.set_cons_zero]

/-- The loop writes the first bytes of the name and leaves the rest of the buffer. -/
theorem fillFname_eq_some (fname : List Byte) (hlen : fname.length ≤ fnameMaxLen) (finfo : Finfo)
    {n : ℕ} (hn : n ≤ fname.length) :
    ∃ finfo', fillFname fname n finfo = some finfo' ∧ finfo'.mBlockSize = finfo.mBlockSize ∧
      finfo'.mFname.toList = fname.take n ++ finfo.mFname.toList.drop n := by
  induction n with
  | zero => exact ⟨finfo, rfl, rfl, by simp⟩
  | succ n ih =>
    obtain ⟨f₁, h₁, hsize₁, hlist₁⟩ := ih (by omega)
    obtain ⟨f₂, h₂, hsize₂, hlist₂⟩ := setFname_toList f₁ (show n < fnameMaxLen by omega)
      (fname.getD n 0)
    refine ⟨f₂, by rw [fillFname, h₁, Option.bind_some, h₂], by rw [hsize₂, hsize₁], ?_⟩
    have hold : n < finfo.mFname.toList.length := by
      rw [Vector.length_toList]
      omega
    have hlt : n < fname.length := by omega
    rw [hlist₂, hlist₁, set_take_append _ (by omega) hold, List.take_add_one,
      List.getD_eq_getElem?_getD, List.getElem?_eq_getElem hlt, List.append_assoc]
    rfl

/-- **The buffer.**  A name that leaves room for the terminator is written in front, the terminator
after it; what follows is left of the default name. -/
theorem toFinfo_eq_some {f : File} (h : (filename f.mFpath).length ≤ fnameMaxLen - 1) :
    ∃ finfo rest, f.toFinfo = some finfo ∧ finfo.mBlockSize = f.mBlockSize ∧
      finfo.mFname.toList = filename f.mFpath ++ 0 :: rest := by
  have hmax : fnameMaxLen = 79 := rfl
  obtain ⟨f₁, h₁, hsize₁, hlist₁⟩ := fillFname_eq_some (filename f.mFpath) (by omega)
    { Finfo.default with mBlockSize := f.mBlockSize } (le_refl _)
  obtain ⟨f₂, h₂, hsize₂, hlist₂⟩ := setFname_toList f₁
    (show (filename f.mFpath).length < fnameMaxLen by omega) 0
  refine ⟨f₂, Finfo.default.mFname.toList.drop ((filename f.mFpath).length + 1), ?_,
    hsize₂.trans hsize₁, ?_⟩
  · simp only [toFinfo, h₁, Option.bind_some, h₂]
  · rw [hlist₂, hlist₁, set_take_append 0 (le_refl _) ?_, List.take_length]
    rw [Vector.length_toList]
    omega

theorem stringOf_eq_some {n : ℕ} {s : Vector Byte n} {name rest : List Byte} (hnul : 0 ∉ name)
    (h : s.toList = name ++ 0 :: rest) : stringOf s = some name := by
  have hmem : (0 : Byte) ∈ s.toList := by
    rw [h]
    exact List.mem_append_right _ List.mem_cons_self
  rw [stringOf, if_pos hmem, h, cstr_append_of_not_mem hnul]
  simp [cstr]

/-! ### Bounds of the buffer -/

/-- The indices `to_finfo` writes to: those of the loop, then that of the terminator. -/
def writtenIndices (f : File) : List ℕ :=
  let fname := filename f.mFpath
  List.range fname.length ++ [fname.length]

/-- The indices `std::string(s)` reads: up to and including that of the first NUL.  Without a NUL in the
array the size of the array is among them, whatever is behind it. -/
def readIndices {n : ℕ} (s : Vector Byte n) : List ℕ := List.range ((cstr s.toList).length + 1)

theorem writtenIndices_lt_iff (f : File) :
    (∀ i ∈ f.writtenIndices, i < fnameMaxLen) ↔ (filename f.mFpath).length < fnameMaxLen := by
  unfold writtenIndices
  constructor
  · intro h
    exact h _ (by simp)
  · intro h i hi
    simp only [List.mem_append, List.mem_range, List.mem_singleton] at hi
    omega

theorem length_cstr_lt_iff (s : List Byte) : (cstr s).length < s.length ↔ 0 ∈ s := by
  by_cases h : 0 ∈ s
  · refine ⟨fun _ => h, fun _ => lt_of_le_of_ne ((List.takeWhile_prefix _).length_le) fun hlen => ?_⟩
    have hall : cstr s = s := (List.takeWhile_prefix _).eq_of_length hlen
    rw [← hall] at h
    simpa using List.mem_takeWhile_imp h
  · rw [cstr_of_not_mem h]
    exact ⟨fun hlt => absurd hlt (lt_irrefl _), fun hm => absurd hm h⟩

theorem readIndices_lt_iff {n : ℕ} (s : Vector Byte n) :
    (∀ i ∈ readIndices s, i < n) ↔ 0 ∈ s.toList := by
  rw [← length_cstr_lt_iff, Vector.length_toList]
  unfold readIndices
  constructor
  · intro h
    exact h _ (by simp)
  · intro h i hi
    rw [List.mem_range] at hi
    omega

/-- **Bounds of the name buffer.**  What `to_finfo` writes for a file is inside the buffer and has a
terminator, and what the constructor reads of a `Finfo` is inside its buffer, if and only if the name of
the file leaves room for the terminator and the buffer of the `Finfo` has one. -/
theorem finfo_in_bounds_iff (f : File) (finfo : Finfo) :
    ((∀ i ∈ f.writtenIndices, i < fnameMaxLen) ∧
        (∃ out, f.toFinfo = some out ∧ 0 ∈ out.mFname.toList) ∧
          ∀ i ∈ readIndices finfo.mFname, i < fnameMaxLen) ↔
      (filename f.mFpath).length < fnameMaxLen ∧ 0 ∈ finfo.mFname.toList := by
  rw [writtenIndices_lt_iff, readIndices_lt_iff]
  constructor
  · rintro ⟨hfit, -, hnul⟩
    exact ⟨hfit, hnul⟩
  · rintro ⟨hfit, hnul⟩
    obtain ⟨out, rest, hout, -, hlist⟩ := toFinfo_eq_some (f := f) (by omega)
    refine ⟨hfit, ⟨out, hout, ?_⟩, hnul⟩
    rw [hlist]
    exact List.mem_append_right _ List.mem_cons_self

/-- A name of 79 bytes: the terminator is written behind the buffer. -/
theorem finfo_out_of_bounds :
    ¬ ∀ (f : File) (finfo : Finfo), (∀ i ∈ f.writtenIndices, i < fnameMaxLen) ∧
      (∃ out, f.toFinfo = some out ∧ 0 ∈ out.mFname.toList) ∧
        ∀ i ∈ readIndices finfo.mFname, i < fnameMaxLen := by
  intro h
  have hbound := (h (ofPath (List.replicate 79 97) 0) Finfo.default).1 79 (by decide)
  exact absurd hbound (by decide)

/-! ### There and back -/

/-- **Round trip.**  A path without NUL whose file name fits goes through `to_finfo` and the
constructor with its parent path: the size is the same, the path is the same element by element, and the
C string in between is the file name alone. -/
theorem ofFinfo_toFinfo (p : Path) (n : ℕ) (hnul : 0 ∉ p)
    (hfit : (filename p).length ≤ fnameMaxLen - 1) :
    ∃ finfo f, (ofPath p n).toFinfo = some finfo ∧ ofFinfo finfo (parentPath p) = some f ∧
      f.mBlockSize = n ∧ elements f.mFpath = elements p ∧
        stringOf finfo.mFname = some (filename p) := by
  obtain ⟨finfo, rest, hfinfo, hsize, hlist⟩ := toFinfo_eq_some (f := ofPath p n) hfit
  have hname : (0 : Byte) ∉ filename p := by
    intro h
    refine hnul ?_
    rw [← stem_append_filename p]
    exact List.mem_append_right _ h
  have hstring : stringOf finfo.mFname = some (filename p) := stringOf_eq_some hname hlist
  refine ⟨finfo, ⟨finfo.mBlockSize, append (parentPath p) (filename p), none, 0⟩, hfinfo, ?_,
    hsize, elements_append_parentPath_filename p, hstring⟩
  rw [ofFinfo, hstring]
  rfl

/-- The path `/d//x`, of the bytes 47 100 47 47 120. -/
theorem ofFinfo_toFinfo_slashes :
    ∃ finfo f, (ofPath [47, 100, 47, 47, 120] 3).toFinfo = some finfo ∧
      ofFinfo finfo (parentPath [47, 100, 47, 47, 120]) = some f ∧ f.mBlockSize = 3 ∧
        elements f.mFpath = elements ([47, 100, 47, 47, 120] : Path) ∧
          stringOf finfo.mFname = some (filename [47, 100, 47, 47, 120]) :=
  ofFinfo_toFinfo [47, 100, 47, 47, 120] 3 (by decide) (by decide)

end WndxSane.File
