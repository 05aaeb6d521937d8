import WndxSane.Path
import WndxSane.Lib.FileTreeEntry

/-!
# Return codes, `std::filesystem` and the file streams

The return codes of `rc.hpp`, and what the program uses of the standard library: the file system calls
as operations on a file tree, and the streams as the state they keep.  Each file has one name here, there are no
hard links, so two paths are the same file exactly when they resolve to the same place.

* `Writable`: the path of a regular file, or of a place where one can be made.
* **`openOut_eq_some_iff`**: what opening a path for writing does to the file system.
-/

namespace WndxSane

open FileTree PathGrammar PathAlphabet

/-- Return codes. -/
inductive Rc
  | success
  | failure
  | dummyFixme
  | init
  | memoryBlockEmpty
  | memoryBadAlloc
  | fileFixme
  | fileSpecial
  | fileStatusGenericErro
  | fileMkdirGenericErro
  | filePathCanonicalErro
  | fileRmDirEmptySuccess
  | fileRmDirPermsErro
  | filePathUnexpectedErro
  | fsCtorErro
  | fsOpenErro
  | fsIoUnavailable
  | unixSockMakeErro
  | unixSockAddrErro
  | unixSockBindErro
  | unixSockLstnErro
  | unixSockConnErro
  | unixSockSendErro
  | unixSockRecvErro
  | warnCmdFileReq
  | erroCmdOpt
  | critExFixme
  | critExUnhandled
  | critExAnonymous
  deriving DecidableEq, Repr

/-- The bits of `fs::perms::mask`. -/
abbrev Perms := BitVec 12

/-- A file system: regular files hold bytes.  Each has one name, hard links are left out. -/
abbrev Fs := Tree Path (List Byte) Perms

/-! ### `std::filesystem` -/

/-- `fs::status`, symbolic links followed; `none` is an error. -/
def fsStatus (fs : Fs) (p : Path) : Option (Node Path (List Byte) Perms) :=
  (fs.target (route p)).bind fs.node

def fsExists (fs : Fs) (p : Path) : Bool := (fsStatus fs p).isSome

def fsIsDirectory (fs : Fs) (p : Path) : Bool := (fsStatus fs p).any Node.isDir

/-- `fs::file_size`. -/
def fsFileSize (fs : Fs) (p : Path) : Option ℕ := (fs.contents (route p)).map List.length

/-- `fs::canonical`. -/
def fsCanonical (fs : Fs) (p : Path) : Option Loc :=
  (fs.target (route p)).filter fun l => (fs.node l).isSome

/-- `fs::create_directory(p, existing, ec)` for a path `p` that ends in a name: the new directory has
the mode of `existing` less the bits of the umask.  `none` is the result `false`. -/
def fsCreateDirectory (umask : Perms) (fs : Fs) (p existing : Path) : Option Fs :=
  match fsStatus fs existing with
  | some (.dir mode) =>
    match fs.entry (route p) with
    | some l => if (fs.node l).isSome then none else some (fs.putDir l (mode &&& ~~~umask))
    | none => none
  | _ => none

/-- `fs::permissions(p, prms, ec)`; only the modes of directories are kept.  A call that succeeds sets all twelve
bits, the set-group-ID bit among them.  `none` is an error. -/
def fsPermissions (fs : Fs) (p : Path) (prms : Perms) : Option Fs :=
  match fs.target (route p) with
  | some l =>
    match fs.node l with
    | some (.dir _) => some (fs.putDir l prms)
    | some _ => some fs
    | none => none
  | none => none

/-- The entry `fs::remove` acts on: the last name of the path, its symbolic link not followed.  With a
separator after it, it has to be a directory. -/
def removedEntry (fs : Fs) (p : Path) : Option Loc :=
  if endsInSep (cstr p) then (fs.entry (strRoute (trim (cstr p)))).filter fun l => fs.isDir l
  else fs.entry (route p)

/-- `fs::remove(p, ec)`: whether something was removed, and the file system after it. -/
def fsRemove (fs : Fs) (p : Path) : Bool × Fs :=
  match removedEntry fs p with
  | some l =>
    if fs.isDir l then (!(fs.rmdir l).isDir l, fs.rmdir l) else ((fs.node l).isSome, fs.unlink l)
  | none => (false, fs)

/-! ### Streams -/

/-- The state bits of a stream. -/
structure Iostate where
  eofbit : Bool
  failbit : Bool
  badbit : Bool
  deriving DecidableEq

def Iostate.fail (s : Iostate) : Bool := s.failbit || s.badbit

def Iostate.good (s : Iostate) : Bool := !s.eofbit && !s.failbit && !s.badbit

/-- Opening a path with `out | binary`: a regular file is truncated, a missing one created; a device
takes the bytes without keeping them; a directory cannot be opened.  Beside the file system, the place
where written bytes end up. -/
def openOut (fs : Fs) (p : Path) : Option (Fs × Option Loc) :=
  match fs.target (route p) with
  | some l =>
    match fs.node l with
    | none => some (fs.putFile l [], some l)
    | some (.reg _) => some (fs.putFile l [], some l)
    | some .other => some (fs, none)
    | some (.dir _) => none
    | some (.link _) => none
  | none => none

/-- An output file stream: the file it writes, its state, and the bytes it took. -/
structure Ofstream where
  file : Option Loc
  good : Bool
  buf : List Byte

/-- The constructor from a path; `opened` is whether the system lets the path be opened.  A stream that
failed to open is in a failed state, and nothing is thrown. -/
def Ofstream.open (opened : Bool) (fs : Fs) (p : Path) : Fs × Ofstream :=
  match if opened then openOut fs p else none with
  | some (fs', file) => (fs', ⟨file, true, []⟩)
  | none => (fs, ⟨none, false, []⟩)

/-- `ofs << c`: a stream in a failed state takes nothing; an insertion that fails sets the state. -/
def Ofstream.put (inserted : Bool) (ofs : Ofstream) (c : Byte) : Ofstream :=
  if ofs.good then
    if inserted then { ofs with buf := ofs.buf ++ [c] } else { ofs with good := false }
  else ofs

/-- What of the taken bytes the final flush delivers: all, or the first few when it fails. -/
def Ofstream.delivered (flushed : Option ℕ) (ofs : Ofstream) : List Byte :=
  match flushed with
  | none => ofs.buf
  | some k => ofs.buf.take k

/-- The destructor: flush and close, errors going unnoticed. -/
def Ofstream.close (flushed : Option ℕ) (fs : Fs) (ofs : Ofstream) : Fs :=
  match ofs.file with
  | some l => fs.putFile l (ofs.delivered flushed)
  | none => fs

/-! ### Paths that can be written -/

/-- A path leads to a regular file at `l`, or to nothing there yet. -/
def Writable (fs : Fs) (p : Path) (l : Loc) : Prop :=
  fs.target (route p) = some l ∧ (fs.node l = none ∨ ∃ x, fs.node l = some (.reg x))

theorem Writable.isDir {fs : Fs} {p : Path} {l : Loc} (h : Writable fs p l) :
    fs.isDir l = false := by
  rcases h.2 with hn | ⟨x, hx⟩
  · rw [Tree.isDir, hn]
    rfl
  · exact Tree.isDir_eq_false_of_reg hx

theorem Writable.linkAt {fs : Fs} {p : Path} {l : Loc} (h : Writable fs p l) :
    fs.linkAt l = none := by
  rcases h.2 with hn | ⟨x, hx⟩
  · rw [Tree.linkAt, hn]
    rfl
  · exact Tree.linkAt_eq_none_of_reg hx

theorem Writable.isDir_tail {fs : Fs} {p : Path} {l : Loc} (h : Writable fs p l) :
    fs.isDir l.tail = true :=
  Tree.isDir_tail_of_target h.1

/-- The path of a device is not writable. -/
theorem Writable.status_ne_other {fs : Fs} {p : Path} {l : Loc} (h : Writable fs p l) :
    fsStatus fs p ≠ some .other := by
  rw [fsStatus, h.1, Option.bind_some]
  rcases h.2 with hn | ⟨x, hx⟩
  · rw [hn]
    simp
  · rw [hx]
    simp

/-- **Opening for writing** makes an empty regular file of a writable path, and opens a device as it
is; nothing else can be opened. -/
theorem openOut_eq_some_iff {fs fs' : Fs} {p : Path} {file : Option Loc} :
    openOut fs p = some (fs', file) ↔
      (∃ l, Writable fs p l ∧ fs' = fs.putFile l [] ∧ file = some l) ∨
        (fsStatus fs p = some .other ∧ fs' = fs ∧ file = none) := by
  unfold openOut fsStatus Writable
  cases ht : fs.target (route p) with
  | none => simp
  | some l =>
    cases hn : fs.node l with
    | none => simp [hn, eq_comm]
    | some x => cases x <;> simp [hn, eq_comm]

theorem openOut_of_writable {fs : Fs} {p : Path} {l : Loc} (h : Writable fs p l) :
    openOut fs p = some (fs.putFile l [], some l) :=
  (openOut_eq_some_iff ..).mpr (Or.inl ⟨l, h, rfl, rfl⟩)

/-- The path of a regular file is writable. -/
theorem writable_of_contents {fs : Fs} {p : Path} {x : List Byte}
    (h : fs.contents (route p) = some x) : ∃ l, Writable fs p l ∧ fs.node l = some (.reg x) := by
  obtain ⟨l, hl, hx⟩ := (Tree.contents_eq_some_iff ..).mp h
  exact ⟨l, ⟨hl, Or.inr ⟨x, hx⟩⟩, hx⟩

theorem Writable.sameShape {fs : Fs} {p : Path} {l : Loc} (h : Writable fs p l) (x : List Byte) :
    Tree.SameShape fs (fs.putFile l x) :=
  Tree.sameShape_putFile fs x h.isDir h.linkAt h.isDir_tail

/-! ### Removing a file -/

theorem endsInSep_of_entry {fs : Fs} {p : Path} {l : Loc} (h : fs.entry (route p) = some l) :
    endsInSep (cstr p) = false := by
  obtain ⟨xs, n, m, tr, hxs, -⟩ := (Tree.entry_eq_some_iff ..).mp h
  exact comps_strRoute_of_name hxs

/-- Removing a path that names an entry which is no directory unlinks that entry. -/
theorem fsRemove_of_entry {fs : Fs} {p : Path} {l : Loc} (h : fs.entry (route p) = some l)
    (hd : fs.isDir l = false) : fsRemove fs p = ((fs.node l).isSome, fs.unlink l) := by
  have hend := endsInSep_of_entry h
  simp only [fsRemove, removedEntry, hend, h, hd, Bool.false_eq_true, if_false]

/-- Removing the path of a regular file unlinks the entry the path names. -/
theorem fsRemove_of_contents {fs : Fs} {p : Path} {x : List Byte}
    (h : fs.contents (route p) = some x) :
    ∃ k, fs.entry (route p) = some k ∧ k ∈ fs.trail (route p) ∧ fs.isDir k = false ∧
      (fsRemove fs p).2 = fs.unlink k := by
  obtain ⟨l, hl, hx⟩ := (Tree.contents_eq_some_iff ..).mp h
  obtain ⟨k, hk, hmem, hd, -⟩ := Tree.exists_entry hl (Tree.isDir_eq_false_of_reg hx)
  exact ⟨k, hk, hmem, hd, by rw [fsRemove_of_entry hk hd]⟩

end WndxSane
