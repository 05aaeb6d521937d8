import WndxSane.CopyMoveRuns
import WndxSane.ReadBounds

/-!
# What a reported success means

`write` reports success unless an exception is raised: neither the opening of the file nor the insertions
nor the flush are looked at.  `alloc_and_read` reports success when its checks pass, whatever number of
bytes arrives, and the size of the block is the one the instance was built with, not that of the file.

* **`write_success_iff`**: when a write that reports success has written the block.
* `allocAndRead_eq_success_iff`: what loading takes to report success.
* **`allocAndRead_success_iff`**: when a load that reports success has loaded the file.
-/

namespace WndxSane.File

open FileTree

/-! ### Writing -/

/-- **Reported writes.**  A file that has a block of its size is written.  If `write` returns `SUCCESS`, its
path has exactly the bytes of the block: this is so if and only if an exception was reported, the path was
opened as the path of a file and neither an insertion nor the flush failed, or the path was not opened but
had these very bytes before. -/
theorem write_success_iff {f : File} {e : Env} {b : ℕ} (hb : f.mBlock = some b) (hf : f.Sized e.mem)
    (io : WriteIo) :
    ((f.write io e).1 = .success →
        (f.write io e).2.fs.contents (route f.mFpath) = some (e.mem.block b)) ↔
      io.raised.isSome = true ∨
        (io.opened = true ∧ (∃ l, Writable e.fs f.mFpath l) ∧ io.Complete f.mBlockSize) ∨
        (io.opened = false ∧ e.fs.contents (route f.mFpath) = some (e.mem.block b)) := by
  obtain ⟨hrc, hfs⟩ := write_of_block hb io e
  rw [hrc, hfs]
  by_cases hr : io.raised.isSome = true
  · rw [if_pos hr]
    exact ⟨fun _ => Or.inl hr, fun _ h => absurd h (by decide)⟩
  · have hraised : io.raised = none := by simpa using hr
    rw [if_neg hr, contents_writeFs_self_iff hraised (hf b hb).2.symm e.fs f.mFpath]
    exact ⟨fun h => Or.inr (h rfl), fun h _ => h.resolve_left hr⟩

theorem oneFile_sized : oneFile.Sized oneFileEnv.mem := by
  intro b hb
  cases hb
  decide

/-- The file `a` and its block of one byte, every step succeeding. -/
theorem write_success_of_complete :
    (oneFile.write ⟨true, fun _ => true, none, none⟩ oneFileEnv).1 = .success ∧
      (oneFile.write ⟨true, fun _ => true, none, none⟩ oneFileEnv).2.fs.contents (route [97]) =
        some [1] := by
  refine ⟨rfl, (write_success_iff rfl oneFile_sized ⟨true, fun _ => true, none, none⟩).mpr ?_ rfl⟩
  exact Or.inr (Or.inl ⟨rfl, ⟨[[97]], by decide, Or.inr ⟨[1], by decide⟩⟩, fun _ _ => rfl, by simp⟩)

/-- The byte cannot be inserted: the file is empty, and `SUCCESS` is reported. -/
theorem write_reports_lost_byte :
    ¬ ∀ (f : File) (e : Env) (b : ℕ) (io : WriteIo), f.mBlock = some b → f.Sized e.mem →
      (f.write io e).1 = .success →
        (f.write io e).2.fs.contents (route f.mFpath) = some (e.mem.block b) := by
  intro h
  have hlost := h oneFile oneFileEnv 0 ⟨true, fun _ => false, none, none⟩ rfl oneFile_sized rfl
  exact absurd hlost (by decide)

/-! ### Loading -/

/-- A check that stops `read` is an error. -/
theorem ne_success_of_readRequest {io : ReadIo} {f : File} {fs : Fs} {rc : Rc}
    (h : readRequest io f fs = .error rc) : rc ≠ .success := by
  unfold readRequest at h
  split at h
  · split_ifs at h <;> cases h <;> decide
  · rename_i rc' hne
    cases h
    exact hne

theorem read_eq_success_iff (f : File) (io : ReadIo) (e : Env) :
    (f.read io e).1 = .success ↔ PassesChecks io f e.fs ∧ io.raised ≠ some .afterRead := by
  unfold read
  split
  · rename_i rc hreq
    constructor
    · intro h
      exact absurd h (ne_success_of_readRequest hreq)
    · rintro ⟨hc, -⟩
      rw [(readRequest_eq_ok_iff io f e.fs _).mpr ⟨hc, rfl⟩] at hreq
      exact absurd hreq (by simp)
  · rename_i size hreq
    have hc := ((readRequest_eq_ok_iff io f e.fs size).mp hreq).1
    by_cases hr : io.raised = some .afterRead
    · simp [hr]
    · simp [hr, hc]

/-- Loading reports success exactly when nothing is thrown and `read` has no complaint. -/
theorem allocAndRead_eq_success_iff (f : File) (io : LoadIo) (e : Env) :
    (f.allocAndRead io e).1 = .success ↔
      io.alloc = .ok ∧ (PassesChecks io.read f e.fs ∧ io.read.raised ≠ some .afterRead) ∧
        io.raised = none := by
  cases halloc : io.alloc with
  | thrown afterNew badAlloc =>
    have hrc : (f.allocAndRead io e).1 ≠ .success := by
      unfold allocAndRead
      rw [halloc]
      cases afterNew <;> cases badAlloc <;> exact Rc.noConfusion
    simp [hrc]
  | ok =>
    have hread : (({ f with mBlock := some e.mem.next } : File).read io.read
        { e with mem := (e.mem.newBlock f.mBlockSize).2 }).1 = .success ↔
          PassesChecks io.read f e.fs ∧ io.read.raised ≠ some .afterRead :=
      read_eq_success_iff _ io.read _
    rw [allocAndRead_of_ok halloc e]
    cases hr : io.raised with
    | none => simpa using hread
    | some thrown => cases thrown <;> simp

/-- How many bytes of a file `read` gets into the block, when the file has `n`. -/
def ReadIo.count (io : ReadIo) (n : ℕ) : ℕ :=
  if io.tellgOk then
    match io.delivered with
    | none => n
    | some k => k
  else 0

theorem arrived_eq_take (io : ReadIo) (bytes : List Byte) :
    io.arrived (bytes.take (tellg io.tellgOk bytes).toNat) = bytes.take (io.count bytes.length) := by
  unfold ReadIo.arrived ReadIo.count tellg
  cases io.tellgOk with
  | false => cases io.delivered <;> simp
  | true => cases io.delivered <;> simp

/-- The block after a load that reports success: the bytes that arrived, then zeros, cut off at the size
the file was built with. -/
theorem block_of_allocAndRead {p : Path} {sz : ℕ} {e : Env} {bytes : List Byte} {io : LoadIo}
    (hbytes : e.fs.contents (route p) = some bytes)
    (h : ((ofPath p sz).allocAndRead io e).1 = .success) :
    let r := (ofPath p sz).allocAndRead io e
    r.2.1 = ⟨sz, p, some e.mem.next, 0⟩ ∧ r.2.2.fs = e.fs ∧
      r.2.2.mem.block e.mem.next = (bytes.take (io.read.count bytes.length)).take sz ++
        List.replicate (sz - (bytes.take (io.read.count bytes.length)).length) 0 := by
  intro r
  obtain ⟨halloc, ⟨hc, hafter⟩, hraised⟩ := (allocAndRead_eq_success_iff _ io e).mp h
  have hreq : readRequest io.read ⟨sz, p, some e.mem.next, 0⟩ e.fs =
      .ok (tellg io.read.tellgOk bytes) := by
    refine (readRequest_eq_ok_iff ..).mpr ⟨hc, ?_⟩
    rw [contentsAt, hbytes]
    rfl
  have hr : r = _ := allocAndRead_of_ok halloc e
  simp only [hraised, ofPath] at hr
  rw [hr]
  simp only [read, hreq, readBlock, contentsAt, hbytes, Option.getD_some, arrived_eq_take,
    if_neg hafter]
  by_cases hnil : bytes.take (io.read.count bytes.length) = []
  · rw [if_pos hnil, hnil]
    refine ⟨trivial, rfl, ?_⟩
    simp [Mem.newBlock]
  · rw [if_neg hnil]
    refine ⟨trivial, rfl, ?_⟩
    simp [Mem.newBlock, Mem.store, Mem.useBlock, List.drop_replicate]

/-- Nothing is thrown, and no check of `read` complains about a regular file. -/
structure LoadIo.Reports (io : LoadIo) : Prop where
  alloc : io.alloc = .ok
  status : io.read.statusOk = true
  opened : io.read.opened.good = true
  read : io.read.raised = none
  raised : io.raised = none

theorem allocAndRead_reports_iff {f : File} {e : Env} {bytes : List Byte}
    (hbytes : e.fs.contents (route f.mFpath) = some bytes) (io : LoadIo) :
    (f.allocAndRead io e).1 = .success ↔ io.Reports := by
  rw [allocAndRead_eq_success_iff]
  have hpoint : io.read.raised = none ↔
      io.read.raised ≠ some .beforeRead ∧ io.read.raised ≠ some .afterRead := by
    cases hr : io.read.raised with
    | none => simp
    | some point => cases point <;> simp
  constructor
  · rintro ⟨halloc, ⟨⟨hstatus, hgood, hbefore⟩, hafter⟩, hraised⟩
    refine ⟨halloc, ?_, hgood, hpoint.mpr ⟨hbefore, hafter⟩, hraised⟩
    by_contra hno
    rw [isR, if_neg hno] at hstatus
    exact Rc.noConfusion hstatus
  · rintro ⟨halloc, hstatus, hgood, hnone, hraised⟩
    obtain ⟨hbefore, hafter⟩ := hpoint.mp hnone
    refine ⟨halloc, ⟨⟨?_, hgood, hbefore⟩, hafter⟩, hraised⟩
    rw [hstatus]
    exact isR_of_contents hbytes

/-- A block of its size with the bytes that arrive in front is the file exactly when only zeros are
missing. -/
theorem zeros_behind_iff (bytes : List Byte) (n : ℕ) :
    (bytes.take n).take bytes.length ++ List.replicate (bytes.length - (bytes.take n).length) 0 =
      bytes ↔ ∀ c ∈ bytes.drop n, c = 0 := by
  have hlen : bytes.length - (bytes.take n).length = (bytes.drop n).length := by
    rw [List.length_take, List.length_drop]
    omega
  have htake : (bytes.take n).take bytes.length = bytes.take n :=
    List.take_of_length_le (List.length_take_le' n bytes)
  rw [hlen, htake]
  conv_lhs => rhs; rw [← List.take_append_drop n bytes]
  rw [List.append_cancel_left_eq, eq_comm, List.eq_replicate_iff]
  exact ⟨fun h => h.2, fun h => ⟨rfl, h⟩⟩

/-- **Reported loads.**  A file is built with any size from the path of a regular file and loaded.  If
`alloc_and_read` returns `SUCCESS`, its size is the length of the regular file, its block holds exactly
those bytes, and a write of it to another place that succeeds reproduces them: this is so if and only if
something is thrown or a check complains, or the size is right and no byte but zeros fails to arrive. -/
theorem allocAndRead_success_iff {p : Path} {e : Env} {bytes : List Byte}
    (hbytes : e.fs.contents (route p) = some bytes) (sz : ℕ) (io : LoadIo) :
    let r := (ofPath p sz).allocAndRead io e
    (r.1 = .success → r.2.1.mBlockSize = bytes.length ∧
        (∃ b, r.2.1.mBlock = some b ∧ r.2.2.mem.block b = bytes) ∧
        ∀ write dst l, (Call.copyTo write dst).Succeeds r.2.1.mBlockSize → Writable r.2.2.fs dst l →
          (r.2.1.copyTo write dst r.2.2).2.2.fs.contents (route dst) = some bytes) ↔
      ¬ io.Reports ∨
        (sz = bytes.length ∧ ∀ c ∈ bytes.drop (io.read.count bytes.length), c = 0) := by
  intro r
  have hreports : r.1 = .success ↔ io.Reports := allocAndRead_reports_iff (f := ofPath p sz) hbytes io
  by_cases hio : io.Reports
  · obtain ⟨hf, -, hblock⟩ := block_of_allocAndRead hbytes (hreports.mpr hio)
    have hf' : r.2.1 = ⟨sz, p, some e.mem.next, 0⟩ := hf
    constructor
    · intro h
      obtain ⟨hsize, ⟨b, hb, hheld⟩, -⟩ := h (hreports.mpr hio)
      rw [hf'] at hsize hb
      cases hb
      have hjoined := hblock.symm.trans hheld
      rw [show sz = bytes.length from hsize] at hjoined
      exact Or.inr ⟨hsize, (zeros_behind_iff bytes _).mp hjoined⟩
    · rintro (hno | ⟨hsize, hzeros⟩) -
      · exact absurd hio hno
      · have hheld : r.2.2.mem.block e.mem.next = bytes := by
          rw [show r.2.2.mem.block e.mem.next = _ from hblock, hsize]
          exact (zeros_behind_iff bytes _).mpr hzeros
        rw [hf']
        refine ⟨hsize, ⟨e.mem.next, rfl, hheld⟩, ?_⟩
        rintro write dst l ⟨hopened, hraised, hcomplete⟩ hl
        have hwrite := (write_of_block (f := ⟨sz, dst, some e.mem.next, 0⟩) rfl write r.2.2).2
        rw [hheld] at hwrite
        show (File.write write ⟨sz, dst, some e.mem.next, 0⟩ r.2.2).2.fs.contents (route dst) =
          some bytes
        rw [hwrite]
        exact (contents_writeFs_self_iff hraised hsize r.2.2.fs dst).mpr
          (Or.inl ⟨hopened, ⟨l, hl⟩, hcomplete⟩)
  · exact ⟨fun _ => Or.inl hio, fun _ h => absurd (hreports.mp h) hio⟩

/-- The file `a` of one byte, built with its size and read whole. -/
theorem allocAndRead_success_of_size :
    let r := (ofPath [97] 1).allocAndRead
      ⟨.ok, ⟨true, ⟨false, false, false⟩, true, none, none⟩, none⟩ oneFileEnv
    r.1 = .success ∧ r.2.1.mBlockSize = 1 ∧
      ∃ b, r.2.1.mBlock = some b ∧ r.2.2.mem.block b = [1] := by
  intro r
  have hbytes : oneFileEnv.fs.contents (route [97]) = some [1] := by decide
  have hzeros : ∀ c ∈ ([1] : List Byte).drop 1, c = 0 := fun c hc => absurd hc List.not_mem_nil
  obtain ⟨hsize, hblock, -⟩ := (allocAndRead_success_iff hbytes 1
    ⟨.ok, ⟨true, ⟨false, false, false⟩, true, none, none⟩, none⟩).mpr (Or.inr ⟨rfl, hzeros⟩) rfl
  exact ⟨rfl, hsize, hblock⟩

/-- The file `a` of one byte, built with the size two: a zero is taken for its second byte. -/
theorem allocAndRead_reports_other_size :
    ¬ ∀ (p : Path) (e : Env) (bytes : List Byte) (sz : ℕ) (io : LoadIo),
      e.fs.contents (route p) = some bytes → io.read.opened.good = true →
      let r := (ofPath p sz).allocAndRead io e
      r.1 = .success → r.2.1.mBlockSize = bytes.length ∧
        ∃ b, r.2.1.mBlock = some b ∧ r.2.2.mem.block b = bytes := by
  intro h
  have hsize := (h [97] oneFileEnv [1] 2
    ⟨.ok, ⟨true, ⟨false, false, false⟩, true, none, none⟩, none⟩ (by decide) rfl rfl).1
  exact absurd hsize (by decide)

end WndxSane.File
