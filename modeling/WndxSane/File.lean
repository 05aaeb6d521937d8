import WndxSane.FileSystem
import WndxSane.Lib.Ownership

/-!
# The class `File`

The functions of `file.hpp` and `file.cpp`.  A `File` keeps the address of its memory block; the bytes
are in `Mem`, with the trace of what is allocated, used and deleted.  Every function takes the outcome of
the calls it makes to the system (a record named `…Io`) beside the state it works on.

* **`File.output_eq_iff`**: the loop and the flush of `write` get the whole block out exactly when no
  insertion and no flush fails.
* `File.write_of_block`: what a write of a block returns and does to the file system.
* `File.moveTo_eq`, `File.moveTo_of_block`: a move is its copy and a removal, and a move of a block.
-/

namespace WndxSane

open FileTree PathGrammar Ownership

/-! ### Files and their information -/

/-- `fname_max_len`. -/
def fnameMaxLen : ℕ := 79

/-- `"sane_default_file_name"`. -/
def defaultFname : List Byte :=
  ['s', 'a', 'n', 'e', '_', 'd', 'e', 'f', 'a', 'u', 'l', 't', '_', 'f', 'i', 'l', 'e', '_', 'n',
    'a', 'm', 'e'].map fun c => c.toNat.toUInt8

/-- File info. -/
structure Finfo where
  mBlockSize : ℕ
  mFname : Vector Byte fnameMaxLen

/-- `Finfo{}`: the default name, zeros after it. -/
def Finfo.default : Finfo where
  mBlockSize := 0
  mFname := Vector.ofFn fun i => defaultFname.getD i 0

/-- A file: the size of its block, its path and the address of the block, `none` for `nullptr`.  `dtors`
counts how often the destructor has run on the instance. -/
structure File where
  mBlockSize : ℕ
  mFpath : Path
  mBlock : Option ℕ
  dtors : ℕ
  deriving DecidableEq

/-- The heap: the bytes behind each address, the next address to be handed out, and the trace of the
blocks. -/
structure Mem where
  block : ℕ → List Byte
  next : ℕ
  trace : List (Event ℕ)
  fresh : ∀ b ∈ allocated trace, b < next

/-- What a file works on. -/
structure Env where
  fs : Fs
  mem : Mem

/-- `new char_type[n]{}`. -/
def Mem.newBlock (m : Mem) (n : ℕ) : ℕ × Mem :=
  (m.next,
    { block := Function.update m.block m.next (List.replicate n 0)
      next := m.next + 1
      trace := .new m.next :: m.trace
      fresh := by
        intro b hb
        rcases List.mem_cons.mp hb with rfl | hb
        · omega
        · have := m.fresh b hb
          omega })

/-- `delete[] p`; of a null pointer it does nothing. -/
def Mem.deleteBlock (m : Mem) (p : Option ℕ) : Mem :=
  match p with
  | none => m
  | some b => { m with trace := .delete b :: m.trace, fresh := m.fresh }

/-- Reading or writing bytes of a block. -/
def Mem.useBlock (m : Mem) (b : ℕ) : Mem :=
  { m with trace := .use b :: m.trace, fresh := m.fresh }

/-- Storing bytes from the start of a block on; what is beyond its end is not part of it. -/
def Mem.store (m : Mem) (b : ℕ) (bytes : List Byte) : Mem :=
  let old := m.block b
  { m.useBlock b with
    block := Function.update m.block b (bytes.take old.length ++ old.drop bytes.length) }

namespace File

/-! ### Construction and destruction -/

/-- `File(fs::path, size_t)`. -/
def ofPath (fpath : Path) (sz : ℕ) : File := ⟨sz, fpath, none, 0⟩

/-- `std::string(s)` of a character array: up to the terminator; without one in the array the reads go
out of its bounds, and there is no value. -/
def stringOf {n : ℕ} (s : Vector Byte n) : Option (List Byte) :=
  if 0 ∈ s.toList then some (cstr s.toList) else none

/-- `File(Finfo const&, fs::path const&)`. -/
def ofFinfo (finfo : Finfo) (dpath : Path) : Option File :=
  (stringOf finfo.mFname).map fun fname => ⟨finfo.mBlockSize, append dpath fname, none, 0⟩

/-- `File(File const&) = default`. -/
def copyOf (src : File) : File := { src with dtors := 0 }

/-- `File(File&&) = default`: the path is moved, `left` being what a moved-from path is left with; the
numbers and the pointer are copied. -/
def moveOf (left : Path) (src : File) : File × File :=
  ({ src with dtors := 0 }, { src with mFpath := left })

/-- `clean_heap`. -/
def cleanHeap (f : File) (m : Mem) : File × Mem :=
  ({ f with mBlock := none }, m.deleteBlock f.mBlock)

/-- `~File`, called explicitly or at the end of the scope. -/
def destruct (f : File) (m : Mem) : File × Mem :=
  let (f', m') := f.cleanHeap m
  ({ f' with dtors := f'.dtors + 1 }, m')

/-! ### Conversion to file info -/

/-- `finfo.m_fname[i] = c`; an index outside the array has no value. -/
def setFname (finfo : Finfo) (i : ℕ) (c : Byte) : Option Finfo :=
  if h : i < fnameMaxLen then some { finfo with mFname := finfo.mFname.set i c h } else none

/-- The loop of `to_finfo` after its first `n` rounds. -/
def fillFname (fname : List Byte) : ℕ → Finfo → Option Finfo
  | 0, finfo => some finfo
  | i + 1, finfo => (fillFname fname i finfo).bind fun finfo' => setFname finfo' i (fname.getD i 0)

/-- `to_finfo`. -/
def toFinfo (f : File) : Option Finfo :=
  let finfo := { Finfo.default with mBlockSize := f.mBlockSize }
  let fname := filename f.mFpath
  -- the terminator after the file name
  (fillFname fname fname.length finfo).bind fun finfo' => setFname finfo' fname.length 0

/-! ### Allocation -/

/-- How the try block of `alloc` goes: nothing is thrown, or an exception is, by `new` or by the log call
after it; it is a `std::bad_alloc` or another. -/
inductive AllocIo
  | ok
  | thrown (afterNew badAlloc : Bool)
  deriving DecidableEq

/-- Whether `new` succeeds; it never yields a null pointer then, so the check after it does not fire. -/
def AllocIo.allocates : AllocIo → Bool
  | .ok => true
  | .thrown afterNew _ => afterNew

/-- `alloc`.  Both handlers call the destructor. -/
def alloc (io : AllocIo) (f : File) (m : Mem) : Rc × File × Mem :=
  let (f', m') :=
    if io.allocates then
      let (b, m') := m.newBlock f.mBlockSize
      ({ f with mBlock := some b }, m')
    else (f, m)
  match io with
  | .ok => (.success, f', m')
  | .thrown _ true => (.memoryBadAlloc, f'.destruct m')
  | .thrown _ false => (.critExUnhandled, f'.destruct m')

/-! ### Writing -/

/-- The outcomes of a write: whether the path can be opened, whether the insertion of each byte
succeeds, after how many insertions an exception is raised if one is, and how many bytes the final
flush gets out when it fails. -/
structure WriteIo where
  opened : Bool
  inserted : ℕ → Bool
  raised : Option ℕ
  flushed : Option ℕ

/-- The loop of `write` after its first `n` rounds. -/
def insertAll (inserted : ℕ → Bool) (bytes : List Byte) : ℕ → Ofstream → Ofstream
  | 0, ofs => ofs
  | i + 1, ofs => (insertAll inserted bytes i ofs).put (inserted i) (bytes.getD i 0)

/-- How many rounds the loop of `write` makes. -/
def WriteIo.rounds (io : WriteIo) (size : ℕ) : ℕ :=
  match io.raised with
  | none => size
  | some k => min k size

/-- `write`.  The stream is not looked at again after it was opened; it is destroyed on every way out. -/
def write (io : WriteIo) (f : File) (e : Env) : Rc × Env :=
  match f.mBlock with
  | none => (.memoryBlockEmpty, e)
  | some b =>
    let (fs, ofs) := Ofstream.open io.opened e.fs f.mFpath
    let n := io.rounds f.mBlockSize
    let ofs' := insertAll io.inserted (e.mem.block b) n ofs
    let mem := if n = 0 then e.mem else e.mem.useBlock b
    let rc := if io.raised.isSome then Rc.critExUnhandled else .success
    (rc, ⟨ofs'.close io.flushed fs, mem⟩)

/-- The places of its block that `print` gets to, one in each round of the loop. -/
def printIndices (f : File) : List ℕ := if f.mBlock = none then [] else List.range f.mBlockSize

/-- `print`: the characters put out. -/
def print (f : File) (m : Mem) : List Byte × Mem :=
  match f.mBlock with
  | none => ([], m)
  | some b =>
    (f.printIndices.map fun i => (m.block b).getD i 0, if f.mBlockSize = 0 then m else m.useBlock b)

/-! ### Reading -/

/-- Where an exception is raised in the try block of `read`. -/
inductive ReadPoint
  | beforeRead
  | afterRead
  deriving DecidableEq

/-- The outcomes of a read: whether `fs::status` works, the state of the opened stream, whether `tellg`
does, how many bytes arrive when not all do, and where an exception is raised if one is. -/
structure ReadIo where
  statusOk : Bool
  opened : Iostate
  tellgOk : Bool
  delivered : Option ℕ
  raised : Option ReadPoint

/-- `is_r`. -/
def isR (statusOk : Bool) (fs : Fs) (fpath : Path) : Rc :=
  match if statusOk then fsStatus fs fpath else none with
  | none => .fileStatusGenericErro
  | some (.reg _) => .success
  | some _ => .fileSpecial

/-- The contents at the end of which `read` opens the file. -/
def contentsAt (fs : Fs) (fpath : Path) : List Byte := (fs.contents (route fpath)).getD []

/-- `tellg` at the end of a file. -/
def tellg (ok : Bool) (contents : List Byte) : ℤ := if ok then contents.length else -1

/-- `read` up to the call of `ifs.read`: the number of bytes it asks for, or the code `read` returns
before it. -/
def readRequest (io : ReadIo) (f : File) (fs : Fs) : Except Rc ℤ :=
  match isR io.statusOk fs f.mFpath with
  | .success =>
    if io.opened.fail then .error .fsCtorErro
    else if io.opened.fail then .error .fsOpenErro
    else if !io.opened.good then .error .fsIoUnavailable
    else if io.raised = some .beforeRead then .error .critExUnhandled
    else .ok (tellg io.tellgOk (contentsAt fs f.mFpath))
  | rc => .error rc

/-- What arrives of the bytes asked for. -/
def ReadIo.arrived (io : ReadIo) (bytes : List Byte) : List Byte :=
  match io.delivered with
  | none => bytes
  | some k => bytes.take k

/-- `ifs.read(m_block, size)`, at the start of the file. -/
def readBlock (io : ReadIo) (f : File) (size : ℤ) (e : Env) : Env :=
  let bytes := io.arrived ((contentsAt e.fs f.mFpath).take size.toNat)
  match f.mBlock with
  | some b => if bytes = [] then e else { e with mem := e.mem.store b bytes }
  | none => e

/-- `read`. -/
def read (io : ReadIo) (f : File) (e : Env) : Rc × Env :=
  match readRequest io f e.fs with
  | .error rc => (rc, e)
  | .ok size =>
    let e' := f.readBlock io size e
    (if io.raised = some .afterRead then .critExUnhandled else .success, e')

/-- What the log calls of `alloc_and_read` throw. -/
inductive Thrown
  | exception
  | anonymous
  deriving DecidableEq

structure LoadIo where
  alloc : AllocIo
  read : ReadIo
  raised : Option Thrown

/-- `alloc_and_read`. -/
def allocAndRead (io : LoadIo) (f : File) (e : Env) : Rc × File × Env :=
  match f.alloc io.alloc e.mem with
  | (.success, f₁, m₁) =>
    let (rc, e₂) := f₁.read io.read { e with mem := m₁ }
    match io.raised with
    | none => (rc, f₁, e₂)
    | some .exception =>
      let (f₂, m₂) := f₁.destruct e₂.mem
      (.critExUnhandled, f₂, { e₂ with mem := m₂ })
    | some .anonymous => (.critExAnonymous, f₁, e₂)
  | (rc, f₁, m₁) => (rc, f₁, { e with mem := m₁ })

/-! ### Copying and moving -/

/-- `m_fpath = p`. -/
def setFpath (f : File) (p : Path) : File := { f with mFpath := p }

@[simp] theorem setFpath_mFpath (f : File) (p : Path) : (f.setFpath p).mFpath = p := rfl

@[simp] theorem setFpath_mBlock (f : File) (p : Path) : (f.setFpath p).mBlock = f.mBlock := rfl

@[simp] theorem setFpath_mBlockSize (f : File) (p : Path) :
    (f.setFpath p).mBlockSize = f.mBlockSize := rfl

/-- `copy_to`. -/
def copyTo (io : WriteIo) (f : File) (dst : Path) (e : Env) : Rc × File × Env :=
  match f.mBlock with
  | none => (.memoryBlockEmpty, f, e)
  | some _ =>
    -- the new path is set prior to the write
    let f' := f.setFpath dst
    let (rc, e') := f'.write io e
    (rc, f', e')

structure MoveIo where
  write : WriteIo
  removed : Bool

/-- `move_to`.  What `fs::remove` reports is logged only. -/
def moveTo (io : MoveIo) (f : File) (dst : Path) (e : Env) : Rc × File × Env :=
  let oldFpath := f.mFpath
  match f.copyTo io.write dst e with
  | (.success, f', e') =>
    (.success, f', if io.removed then { e' with fs := (fsRemove e'.fs oldFpath).2 } else e')
  | (rc, f', e') => (rc, f', e')

/-! ### Conversion to `bool` and comparison -/

/-- `operator bool`. -/
def opBool (f : File) : Bool := f.mBlock.isSome

/-- `memcmp(lhs, rhs, count)` as far as its sign tells: equal bytes, or the first difference. -/
def memcmp (lhs rhs : List Byte) (count : ℕ) : Ordering :=
  compareOfLessAndEq (lhs.take count) (rhs.take count)

/-- `operator!=`. -/
def opNe (lhs rhs : File) : Bool :=
  lhs.mBlock.isNone || rhs.mBlock.isNone || lhs.mBlockSize != rhs.mBlockSize

/-- `operator==`. -/
def opEq (m : Mem) (lhs rhs : File) : Bool :=
  !opNe lhs rhs &&
    match lhs.mBlock, rhs.mBlock with
    | some a, some b => memcmp (m.block a) (m.block b) lhs.mBlockSize == .eq
    | _, _ => false

/-- `operator<`. -/
def opLt (lhs rhs : File) : Bool := opNe lhs rhs && decide (lhs.mBlockSize < rhs.mBlockSize)

/-- `operator>`. -/
def opGt (lhs rhs : File) : Bool := opNe lhs rhs && decide (lhs.mBlockSize > rhs.mBlockSize)

/-- `operator<=`. -/
def opLe (m : Mem) (lhs rhs : File) : Bool := opLt lhs rhs || opEq m lhs rhs

/-- `operator>=`. -/
def opGe (m : Mem) (lhs rhs : File) : Bool := opGt lhs rhs || opEq m lhs rhs

theorem memcmp_eq_iff (lhs rhs : List Byte) (count : ℕ) :
    memcmp lhs rhs count = .eq ↔ lhs.take count = rhs.take count := by
  unfold memcmp compareOfLessAndEq
  constructor
  · intro h
    split at h
    · exact absurd h (by simp)
    · split at h
      · assumption
      · exact absurd h (by simp)
  · intro h
    rw [h, if_neg (List.lt_irrefl _), if_pos rfl]

/-- An allocation keeps the path. -/
theorem mFpath_alloc {f : File} (io : AllocIo) (m : Mem) : (f.alloc io m).2.1.mFpath = f.mFpath := by
  cases io with
  | ok => rfl
  | thrown afterNew badAlloc => cases afterNew <;> cases badAlloc <;> rfl

/-! ### What a write gets out -/

/-- The bytes a write of a block sends to its file. -/
def WriteIo.output (io : WriteIo) (bytes : List Byte) (size : ℕ) : List Byte :=
  (insertAll io.inserted bytes (io.rounds size) ⟨none, true, []⟩).delivered io.flushed

/-- Every insertion succeeds and so does the flush. -/
structure WriteIo.Complete (io : WriteIo) (size : ℕ) : Prop where
  inserted : ∀ i < size, io.inserted i = true
  flushed : ∀ k, io.flushed = some k → size ≤ k

theorem insertAll_file (inserted : ℕ → Bool) (bytes : List Byte) (n : ℕ) (file : Option Loc)
    (good : Bool) (buf : List Byte) :
    insertAll inserted bytes n ⟨file, good, buf⟩ =
      { insertAll inserted bytes n ⟨none, good, buf⟩ with file := file } := by
  induction n with
  | zero => rfl
  | succ n ih =>
    rw [insertAll, ih, insertAll]
    simp only [Ofstream.put]
    split
    · split <;> rfl
    · rfl

theorem insertAll_failed (inserted : ℕ → Bool) (bytes : List Byte) (n : ℕ) {ofs : Ofstream}
    (h : ofs.good = false) : insertAll inserted bytes n ofs = ofs := by
  induction n with
  | zero => rfl
  | succ n ih => rw [insertAll, ih, Ofstream.put, if_neg (by simp [h])]

/-- A good stream takes the bytes one after another. -/
theorem insertAll_good {inserted : ℕ → Bool} {bytes : List Byte} {n : ℕ} (ofs : Ofstream)
    (hgood : ofs.good = true) (hn : n ≤ bytes.length) (hins : ∀ i < n, inserted i = true) :
    insertAll inserted bytes n ofs = { ofs with buf := ofs.buf ++ bytes.take n } := by
  induction n with
  | zero => simp [insertAll]
  | succ n ih =>
    have hlt : n < bytes.length := by omega
    rw [insertAll, ih (by omega) fun i hi => hins i (by omega), hins n (by omega), Ofstream.put,
      if_pos hgood, if_pos rfl, List.take_add_one, List.getD_eq_getElem?_getD,
      List.getElem?_eq_getElem hlt, ← List.append_assoc]
    rfl

theorem length_put_le (inserted : Bool) (ofs : Ofstream) (c : Byte) :
    (ofs.put inserted c).buf.length ≤ ofs.buf.length + 1 := by
  unfold Ofstream.put
  split
  · split <;> simp
  · omega

theorem length_insertAll_le (inserted : ℕ → Bool) (bytes : List Byte) (n : ℕ) (ofs : Ofstream) :
    (insertAll inserted bytes n ofs).buf.length ≤ ofs.buf.length + n := by
  induction n with
  | zero => exact le_refl _
  | succ n ih =>
    have h := length_put_le (inserted n) (insertAll inserted bytes n ofs) (bytes.getD n 0)
    rw [insertAll]
    omega

/-- A failed insertion loses a byte. -/
theorem length_insertAll_lt {inserted : ℕ → Bool} (bytes : List Byte) {n i : ℕ} (ofs : Ofstream)
    (hi : i < n) (hins : inserted i = false) :
    (insertAll inserted bytes n ofs).buf.length < ofs.buf.length + n := by
  induction n with
  | zero => omega
  | succ n ih =>
    rw [insertAll]
    by_cases hin : i = n
    · have hle := length_insertAll_le inserted bytes n ofs
      have hput : ((insertAll inserted bytes n ofs).put (inserted n) (bytes.getD n 0)).buf =
          (insertAll inserted bytes n ofs).buf := by
        rw [← hin, hins, Ofstream.put]
        split <;> rfl
      rw [hput]
      omega
    · have hlt := ih (by omega)
      have h := length_put_le (inserted n) (insertAll inserted bytes n ofs) (bytes.getD n 0)
      omega

/-- **Complete writes.**  Without an exception, the whole block gets out exactly when no insertion and
no flush fails. -/
theorem output_eq_iff {io : WriteIo} {bytes : List Byte} {size : ℕ} (hraised : io.raised = none)
    (hsize : size = bytes.length) : io.output bytes size = bytes ↔ io.Complete size := by
  have hrounds : io.rounds size = size := by rw [WriteIo.rounds, hraised]
  rw [WriteIo.output, hrounds]
  constructor
  · intro h
    have hlen := congrArg List.length h
    have hle := length_insertAll_le io.inserted bytes size ⟨none, true, []⟩
    refine ⟨fun i hi => ?_, fun k hk => ?_⟩
    · by_contra hins
      have hlt := length_insertAll_lt bytes ⟨none, true, []⟩ hi
        (Bool.not_eq_true _ ▸ hins)
      have hdel : ((insertAll io.inserted bytes size ⟨none, true, []⟩).delivered io.flushed).length ≤
          (insertAll io.inserted bytes size ⟨none, true, []⟩).buf.length := by
        unfold Ofstream.delivered
        split
        · exact le_refl _
        · exact List.length_take_le' ..
      simp only [List.length_nil] at hlt
      omega
    · rw [hk, Ofstream.delivered, List.length_take] at hlen
      omega
  · intro h
    have hall := insertAll_good ⟨none, true, []⟩ rfl (le_of_eq hsize) h.inserted
    rw [hall, hsize, List.take_length]
    unfold Ofstream.delivered
    split
    · rfl
    · rename_i k hk
      exact List.take_of_length_le (by simpa [hsize] using h.flushed k hk)

/-- The file system after a write of a block. -/
def writeFs (io : WriteIo) (fs : Fs) (fpath : Path) (bytes : List Byte) (size : ℕ) : Fs :=
  match if io.opened then openOut fs fpath else none with
  | some (_, some l) => fs.putFile l (io.output bytes size)
  | _ => fs

/-- A write of a block fails only by an exception, whatever becomes of the bytes. -/
theorem write_of_block {f : File} {b : ℕ} (h : f.mBlock = some b) (io : WriteIo) (e : Env) :
    (f.write io e).1 = (if io.raised.isSome then Rc.critExUnhandled else .success) ∧
      (f.write io e).2.fs = writeFs io e.fs f.mFpath (e.mem.block b) f.mBlockSize := by
  unfold write writeFs
  rw [h]
  refine ⟨rfl, ?_⟩
  simp only [Ofstream.open]
  cases hopen : (if io.opened then openOut e.fs f.mFpath else none) with
  | none => rw [insertAll_failed _ _ _ rfl]; rfl
  | some v =>
    obtain ⟨fs', file⟩ := v
    rw [insertAll_file]
    cases file with
    | none =>
      -- a device: nothing is kept, and opening it changed nothing
      split at hopen
      · rcases (openOut_eq_some_iff ..).mp hopen with ⟨l, -, -, hf⟩ | ⟨-, hfs, -⟩
        · exact absurd hf (by simp)
        · exact hfs
      · exact absurd hopen (by simp)
    | some l =>
      have hfs : fs' = e.fs.putFile l [] := by
        split at hopen
        · rcases (openOut_eq_some_iff ..).mp hopen with ⟨k, -, hfs, hf⟩ | ⟨-, -, hf⟩
          · rw [hfs, Option.some.inj hf]
          · exact absurd hf (by simp)
        · exact absurd hopen (by simp)
      rw [hfs]
      exact Tree.putFile_putFile e.fs l [] _

/-- Writing changes no block. -/
theorem write_mem (io : WriteIo) (f : File) (e : Env) :
    (f.write io e).2.mem.block = e.mem.block ∧ (f.write io e).2.mem.next = e.mem.next := by
  unfold write
  split
  · exact ⟨rfl, rfl⟩
  · simp only
    split <;> exact ⟨rfl, rfl⟩

theorem copyTo_of_block {f : File} {b : ℕ} (h : f.mBlock = some b) (io : WriteIo) (dst : Path)
    (e : Env) : f.copyTo io dst e =
      (((f.setFpath dst).write io e).1, f.setFpath dst, ((f.setFpath dst).write io e).2) := by
  rw [copyTo, h]

/-- A move is its copy, and when that succeeds the removal of the path the move began with. -/
theorem moveTo_eq (io : MoveIo) (f : File) (dst : Path) (e : Env) :
    let r := f.copyTo io.write dst e
    f.moveTo io dst e = (r.1, r.2.1,
      if r.1 = .success ∧ io.removed = true then
        { r.2.2 with fs := (fsRemove r.2.2.fs f.mFpath).2 }
      else r.2.2) := by
  intro r
  unfold moveTo
  split
  · rename_i f' e' heq
    rw [show r = _ from heq]
    simp only [true_and]
  · rename_i rc f' e' hrc heq
    rw [show r = _ from heq, if_neg fun h => hrc h.1]

/-- A move of a block: the write, and unless it reports an exception, the removal of the old path. -/
theorem moveTo_of_block {f : File} {b : ℕ} (h : f.mBlock = some b) (io : MoveIo) (dst : Path)
    (e : Env) :
    let fs' := writeFs io.write e.fs dst (e.mem.block b) f.mBlockSize
    (f.moveTo io dst e).2.1 = f.setFpath dst ∧
      if io.write.raised.isSome then
        (f.moveTo io dst e).1 = .critExUnhandled ∧ (f.moveTo io dst e).2.2.fs = fs'
      else
        (f.moveTo io dst e).1 = .success ∧
          (f.moveTo io dst e).2.2.fs = if io.removed then (fsRemove fs' f.mFpath).2 else fs' := by
  obtain ⟨hrc, hfs⟩ := write_of_block (f := f.setFpath dst) h io.write e
  rw [setFpath_mFpath, setFpath_mBlockSize] at hfs
  rw [moveTo_eq, copyTo_of_block h]
  refine ⟨rfl, ?_⟩
  by_cases hr : io.write.raised.isSome
  · rw [if_pos hr] at hrc
    rw [if_pos hr, hrc, if_neg fun hs => Rc.noConfusion hs.1]
    exact ⟨rfl, hfs⟩
  · rw [if_neg hr] at hrc
    rw [if_neg hr, hrc]
    refine ⟨rfl, ?_⟩
    cases io.removed with
    | false => exact hfs
    | true => simp only [hfs, and_self, if_true]

/-- Moving changes no block. -/
theorem moveTo_mem {f : File} {b : ℕ} (h : f.mBlock = some b) (io : MoveIo) (dst : Path)
    (e : Env) : (f.moveTo io dst e).2.2.mem.block = e.mem.block ∧
      (f.moveTo io dst e).2.2.mem.next = e.mem.next := by
  have hwrite := write_mem io.write (f.setFpath dst) e
  rw [moveTo_eq, copyTo_of_block h]
  split
  · exact hwrite
  · exact hwrite

/-! ### What a load does after the allocation -/

/-- What loading does once a block is allocated. -/
theorem allocAndRead_of_ok {f : File} {io : LoadIo} (h : io.alloc = .ok) (e : Env) :
    let f₁ : File := { f with mBlock := some e.mem.next }
    let r := f₁.read io.read { e with mem := (e.mem.newBlock f.mBlockSize).2 }
    f.allocAndRead io e =
      match io.raised with
      | none => (r.1, f₁, r.2)
      | some .exception =>
        (.critExUnhandled, (f₁.destruct r.2.mem).1, { r.2 with mem := (f₁.destruct r.2.mem).2 })
      | some .anonymous => (.critExAnonymous, f₁, r.2) := by
  intro f₁ r
  unfold allocAndRead
  rw [h]
  rfl

/-- Loading stops where the allocation threw. -/
theorem allocAndRead_of_thrown {f : File} {io : LoadIo} (h : io.alloc ≠ .ok) (e : Env) :
    f.allocAndRead io e =
      ((f.alloc io.alloc e.mem).1, (f.alloc io.alloc e.mem).2.1,
        { e with mem := (f.alloc io.alloc e.mem).2.2 }) := by
  obtain ⟨alloc, read, raised⟩ := io
  cases alloc with
  | ok => exact absurd rfl h
  | thrown afterNew badAlloc => cases badAlloc <;> rfl

end File

end WndxSane
