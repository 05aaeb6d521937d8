import WndxSane.File

/-!
# What a move does to the contents

`Loaded` is the state in which `move_to` is meant to be called: the block holds the bytes of the file at
`m_fpath`.  The write of `move_to` never reports that a file could not be opened, that an insertion
failed or that the flush failed, and the old path is removed all the same; and when `dst` is the old file
under another name, the removal takes away what was just written.

* `contents_writeFs_of_ne`, `writeFs_of_not_writable`: what the write leaves alone.
* **`moveTo_keeps_contents_iff`**: for every outcome of every step, when the bytes survive a move to
  another file.
* **`moveTo_preserves_contents_iff`**: with every step succeeding, which destinations keep the bytes.
-/

namespace WndxSane.File

open FileTree

/-- The block of a file holds exactly the bytes of the regular file at its path. -/
structure Loaded (f : File) (e : Env) (bytes : List Byte) : Prop where
  block : ∃ b, f.mBlock = some b ∧ e.mem.block b = bytes
  size : f.mBlockSize = bytes.length
  file : e.fs.contents (route f.mFpath) = some bytes

/-- Every step of a move succeeds. -/
structure MoveIo.Succeeds (io : MoveIo) (size : ℕ) : Prop where
  opened : io.write.opened = true
  raised : io.write.raised = none
  complete : io.write.Complete size
  removed : io.removed = true

/-! ### The write -/

theorem writeFs_of_writable {io : WriteIo} {fs : Fs} {p : Path} {l : Loc}
    (hopened : io.opened = true) (h : Writable fs p l) (bytes : List Byte) (size : ℕ) :
    writeFs io fs p bytes size = fs.putFile l (io.output bytes size) := by
  rw [writeFs, if_pos hopened, openOut_of_writable h]

/-- A path that is not opened, or is not the path of a file, leaves the file system as it is. -/
theorem writeFs_of_not_writable {io : WriteIo} {fs : Fs} {p : Path}
    (h : io.opened = false ∨ ∀ l, ¬ Writable fs p l) (bytes : List Byte) (size : ℕ) :
    writeFs io fs p bytes size = fs := by
  unfold writeFs
  split
  · rename_i fs' l hopen
    split at hopen
    · rename_i hopened
      rcases (openOut_eq_some_iff ..).mp hopen with ⟨k, hk, -, -⟩ | ⟨-, -, hf⟩
      · rcases h with h | h
        · rw [hopened] at h
          exact Bool.noConfusion h
        · exact absurd hk (h k)
      · exact absurd hf (by simp)
    · exact absurd hopen (by simp)
  · rfl

/-- Either the write goes to a file, or it goes nowhere. -/
theorem writable_or_not (io : WriteIo) (fs : Fs) (p : Path) :
    (io.opened = true ∧ ∃ l, Writable fs p l) ∨ (io.opened = false ∨ ∀ l, ¬ Writable fs p l) := by
  by_cases h : ∃ l, Writable fs p l
  · exact (Bool.eq_false_or_eq_true io.opened).imp (fun ho => ⟨ho, h⟩) Or.inl
  · exact Or.inr (Or.inr fun l hl => h ⟨l, hl⟩)

/-- A write keeps the shape of the file system: every path resolves as before. -/
theorem sameShape_writeFs (io : WriteIo) (fs : Fs) (p : Path) (bytes : List Byte) (size : ℕ) :
    Tree.SameShape fs (writeFs io fs p bytes size) := by
  rcases writable_or_not io fs p with ⟨hopened, l, hl⟩ | hnot
  · rw [writeFs_of_writable hopened hl]
    exact hl.sameShape _
  · rw [writeFs_of_not_writable hnot]
    exact ⟨fun _ => rfl, fun _ => rfl, rfl, rfl⟩

/-- Another file keeps its contents. -/
theorem contents_writeFs_of_ne {io : WriteIo} {fs : Fs} {p q : Path} {x : List Byte}
    (hne : fs.target (route p) ≠ fs.target (route q)) (hq : fs.contents (route q) = some x)
    (bytes : List Byte) (size : ℕ) :
    (writeFs io fs p bytes size).contents (route q) = some x := by
  rcases writable_or_not io fs p with ⟨hopened, l, hl⟩ | hnot
  · have hql : fs.target (route q) ≠ some l := fun he => hne (hl.1.trans he.symm)
    rw [writeFs_of_writable hopened hl,
      Tree.contents_putFile_of_ne _ hl.isDir hl.linkAt hl.isDir_tail hql, hq]
  · rw [writeFs_of_not_writable hnot, hq]

/-- The written file has what the write got out. -/
theorem contents_writeFs {io : WriteIo} {fs : Fs} {p q : Path} {l : Loc}
    (hopened : io.opened = true) (h : Writable fs p l) (hq : fs.target (route q) = some l)
    (bytes : List Byte) (size : ℕ) :
    (writeFs io fs p bytes size).contents (route q) = some (io.output bytes size) := by
  rw [writeFs_of_writable hopened h,
    Tree.contents_putFile _ h.isDir h.linkAt h.isDir_tail hq]

/-- What a write without an exception leaves at its own path: the bytes, when it is complete, or what was
there when nothing is opened. -/
theorem contents_writeFs_self_iff {io : WriteIo} {bytes : List Byte} {size : ℕ}
    (hraised : io.raised = none) (hsize : size = bytes.length) (fs : Fs) (p : Path) :
    (writeFs io fs p bytes size).contents (route p) = some bytes ↔
      (io.opened = true ∧ (∃ l, Writable fs p l) ∧ io.Complete size) ∨
        (io.opened = false ∧ fs.contents (route p) = some bytes) := by
  rcases writable_or_not io fs p with ⟨hopened, l, hl⟩ | hnot
  · rw [contents_writeFs hopened hl hl.1, Option.some_inj, output_eq_iff hraised hsize]
    simp only [hopened, true_and, Bool.true_eq_false, false_and, or_false]
    exact ⟨fun hc => ⟨⟨l, hl⟩, hc⟩, fun hc => hc.2⟩
  · rw [writeFs_of_not_writable hnot]
    constructor
    · intro hc
      obtain ⟨l, hl, -⟩ := writable_of_contents hc
      exact Or.inr ⟨hnot.resolve_right fun hno => hno l hl, hc⟩
    · rintro (⟨ho, ⟨l, hl⟩, -⟩ | ⟨-, hc⟩)
      · rcases hnot with hno | hno
        · rw [ho] at hno
          exact Bool.noConfusion hno
        · exact absurd hl (hno l)
      · exact hc

/-! ### Moving to another file -/

/-- **Survival of the contents.**  The file at the old path holds the bytes of the block, and `dst` leads
elsewhere.  After `move_to`, the old path or `dst` holds exactly these bytes if and only if an exception
was reported, the old path could not be removed, the write to a file at `dst` was complete, or `dst`
could not be opened but had these very bytes before. -/
theorem moveTo_keeps_contents_iff {f : File} {e : Env} {bytes : List Byte} (h : Loaded f e bytes)
    (dst : Path) (hne : e.fs.target (route dst) ≠ e.fs.target (route f.mFpath)) (io : MoveIo) :
    let fs' := (f.moveTo io dst e).2.2.fs
    (fs'.contents (route f.mFpath) = some bytes ∨ fs'.contents (route dst) = some bytes) ↔
      io.write.raised.isSome = true ∨ io.removed = false ∨
        (io.write.opened = true ∧ (∃ l, Writable e.fs dst l) ∧ io.write.Complete f.mBlockSize) ∨
        (io.write.opened = false ∧ e.fs.contents (route dst) = some bytes) := by
  intro fs'
  obtain ⟨⟨b, hb, hbytes⟩, hsize, hfile⟩ := h
  have hmove := (moveTo_of_block hb io dst e).2
  rw [hbytes] at hmove
  -- the old file survives the write
  have hkept : (writeFs io.write e.fs dst bytes f.mBlockSize).contents (route f.mFpath) =
      some bytes := contents_writeFs_of_ne hne hfile bytes f.mBlockSize
  by_cases hr : io.write.raised.isSome = true
  · rw [if_pos hr] at hmove
    have hfs : fs' = writeFs io.write e.fs dst bytes f.mBlockSize := hmove.2
    rw [hfs]
    exact ⟨fun _ => Or.inl hr, fun _ => Or.inl hkept⟩
  rw [if_neg hr] at hmove
  by_cases hrem : io.removed = true
  · rw [if_pos hrem] at hmove
    have hfs : fs' = (fsRemove (writeFs io.write e.fs dst bytes f.mBlockSize) f.mFpath).2 :=
      hmove.2
    obtain ⟨k, hk, hmem, hd, hunlink⟩ := fsRemove_of_contents hkept
    obtain ⟨l₀, hl₀, hx₀⟩ := Tree.contents_eq_some_iff.mp hkept
    have hdst : k ∉ (writeFs io.write e.fs dst bytes f.mBlockSize).trail (route dst) := by
      refine Tree.entry_not_mem_trail hl₀ (Tree.isDir_eq_false_of_reg hx₀) hk fun he => hne ?_
      have hshape := sameShape_writeFs io.write e.fs dst bytes f.mBlockSize
      rw [hshape.target] at he hl₀
      rw [he, hl₀]
    -- the old path is gone, and dst has what the write left there
    rw [hfs, hunlink, Tree.contents_unlink_eq_some_iff hd, Tree.contents_unlink_eq_some_iff hd]
    have hraised : io.write.raised = none := by simpa using hr
    simp only [hmem, hdst, hr, hrem, not_true, and_false, false_or, not_false_eq_true, and_true,
      Bool.true_eq_false, Bool.false_eq_true]
    exact contents_writeFs_self_iff hraised hsize e.fs dst
  · rw [if_neg hrem] at hmove
    have hfs : fs' = writeFs io.write e.fs dst bytes f.mBlockSize := hmove.2
    rw [hfs]
    exact ⟨fun _ => Or.inr (Or.inl (Bool.not_eq_true _ ▸ hrem)), fun _ => Or.inl hkept⟩

/-- A file system with one file `a` of one byte, the byte in the first block of the heap. -/
def oneFileEnv : Env where
  fs := (Tree.root 0o755 40).putFile [[97]] [1]
  mem := ⟨fun _ => [1], 1, [.new 0], by decide⟩

/-- The file `a` of `oneFileEnv`, read into its block. -/
def oneFile : File := ⟨1, [97], some 0, 0⟩

theorem oneFile_loaded : Loaded oneFile oneFileEnv [1] :=
  ⟨⟨0, rfl, rfl⟩, rfl, by decide⟩

/-- A move of `a` to `b`, all steps succeeding, meets the condition; both paths are different files. -/
theorem moveTo_keeps_contents_of_complete :
    let io : MoveIo := ⟨⟨true, fun _ => true, none, none⟩, true⟩
    let fs' := (oneFile.moveTo io [98] oneFileEnv).2.2.fs
    fs'.contents (route [97]) = some [1] ∨ fs'.contents (route [98]) = some [1] :=
  (moveTo_keeps_contents_iff oneFile_loaded [98] (by decide) _).mpr
    (Or.inr (Or.inr (Or.inl ⟨rfl, ⟨[[98]], by decide, Or.inl (by decide)⟩, fun _ _ => rfl, by simp⟩)))

/-- When `b` cannot be opened, the move of `a` to `b` reports success and the byte is nowhere. -/
theorem moveTo_loses_contents :
    ¬ ∀ (f : File) (e : Env) (bytes : List Byte) (dst : Path) (io : MoveIo), Loaded f e bytes →
      e.fs.target (route dst) ≠ e.fs.target (route f.mFpath) →
      let fs' := (f.moveTo io dst e).2.2.fs
      fs'.contents (route f.mFpath) = some bytes ∨ fs'.contents (route dst) = some bytes := by
  intro h
  have hlost := h oneFile oneFileEnv [1] [98] ⟨⟨false, fun _ => true, none, none⟩, true⟩
    oneFile_loaded (by decide)
  revert hlost
  decide

/-! ### Moving to any path -/

/-- With every step succeeding, a move to the path of a file writes that file and removes the old
entry. -/
theorem moveTo_of_writable {f : File} {e : Env} {bytes : List Byte} {dst : Path} {l : Loc}
    (h : Loaded f e bytes) (hl : Writable e.fs dst l) {io : MoveIo}
    (hio : io.Succeeds f.mBlockSize) :
    ∃ k, e.fs.entry (route f.mFpath) = some k ∧ e.fs.isDir k = false ∧
      (f.moveTo io dst e).1 = .success ∧ (f.moveTo io dst e).2.1 = f.setFpath dst ∧
        (f.moveTo io dst e).2.2.fs = (e.fs.putFile l bytes).unlink k := by
  obtain ⟨⟨b, hb, hbytes⟩, hsize, hfile⟩ := h
  have hraised : ¬ io.write.raised.isSome = true := by simp [hio.raised]
  have hmove := moveTo_of_block hb io dst e
  simp only [hbytes, if_neg hraised, if_pos hio.removed] at hmove
  obtain ⟨hf, hrc, hfs⟩ := hmove
  have hshape := hl.sameShape bytes
  have hout : writeFs io.write e.fs dst bytes f.mBlockSize = e.fs.putFile l bytes := by
    rw [writeFs_of_writable hio.opened hl, (output_eq_iff hio.raised hsize).mpr hio.complete]
  -- writing dst keeps the bytes at the old path also when both are one file
  have hkept : (e.fs.putFile l bytes).contents (route f.mFpath) = some bytes := by
    by_cases hsame : e.fs.target (route f.mFpath) = some l
    · exact Tree.contents_putFile _ hl.isDir hl.linkAt hl.isDir_tail hsame
    · rw [Tree.contents_putFile_of_ne _ hl.isDir hl.linkAt hl.isDir_tail hsame, hfile]
  obtain ⟨k, hk, -, hd, hunlink⟩ := fsRemove_of_contents hkept
  rw [hshape.entry] at hk
  rw [hshape.dir] at hd
  exact ⟨k, hk, hd, hrc, hf, by rw [hfs, hout, hunlink]⟩

/-- **Which destinations keep the contents.**  Every step succeeds, the opening of `dst` included.  Then
the bytes are at `dst` after the move if and only if `dst` is the path of a file, not of a device, and
does not resolve through the directory entry that is removed. -/
theorem moveTo_preserves_contents_iff {f : File} {e : Env} {bytes : List Byte}
    (h : Loaded f e bytes) (dst : Path) (hopen : (openOut e.fs dst).isSome = true) (io : MoveIo)
    (hio : io.Succeeds f.mBlockSize) :
    let r := f.moveTo io dst e
    (r.1 = .success → r.2.1.mFpath = dst ∧ r.2.2.fs.contents (route dst) = some bytes) ↔
      fsStatus e.fs dst ≠ some .other ∧
        ∀ k, e.fs.entry (route f.mFpath) = some k → k ∉ e.fs.trail (route dst) := by
  intro r
  obtain ⟨⟨fs', file⟩, hfs'⟩ := Option.isSome_iff_exists.mp hopen
  rcases openOut_eq_some_iff.mp hfs' with ⟨l, hl, -, -⟩ | ⟨hother, -, -⟩
  · obtain ⟨k, hk, hd, hrc, hf, hfs⟩ := moveTo_of_writable h hl hio
    have hshape := hl.sameShape bytes
    have hdst : (e.fs.putFile l bytes).contents (route dst) = some bytes :=
      Tree.contents_putFile _ hl.isDir hl.linkAt hl.isDir_tail hl.1
    have hcut : r.2.2.fs.contents (route dst) = some bytes ↔ k ∉ e.fs.trail (route dst) := by
      rw [show r.2.2.fs = (e.fs.putFile l bytes).unlink k from hfs,
        Tree.contents_unlink_eq_some_iff (by rw [hshape.dir, hd]), hshape.trail]
      exact ⟨fun hc => hc.2, fun hc => ⟨hdst, hc⟩⟩
    constructor
    · intro hkeep
      refine ⟨hl.status_ne_other, fun k' hk' => ?_⟩
      rw [hk] at hk'
      cases hk'
      exact hcut.mp (hkeep hrc).2
    · rintro ⟨-, htrail⟩ -
      refine ⟨?_, hcut.mpr (htrail k hk)⟩
      rw [show r.2.1 = f.setFpath dst from hf, setFpath_mFpath]
  · -- a device keeps no bytes
    obtain ⟨⟨b, hb, hbytes⟩, -, hfile⟩ := h
    have hraised : ¬ io.write.raised.isSome = true := by simp [hio.raised]
    have hmove := (moveTo_of_block hb io dst e).2
    rw [if_neg hraised, if_pos hio.removed,
      writeFs_of_not_writable (Or.inr fun l hl => hl.status_ne_other hother)] at hmove
    obtain ⟨hrc, hfs⟩ := hmove
    obtain ⟨k, hk, -, hd, hunlink⟩ := fsRemove_of_contents hfile
    constructor
    · intro hkeep
      have hc : (e.fs.unlink k).contents (route dst) = some bytes := by
        rw [← hunlink, ← hfs]
        exact (hkeep hrc).2
      obtain ⟨l, hl, -⟩ :=
        writable_of_contents ((Tree.contents_unlink_eq_some_iff hd).mp hc).1
      exact absurd hother hl.status_ne_other
    · rintro ⟨hno, -⟩
      exact absurd hother hno

theorem moveTo_preserves_contents_to_new_name :
    let r := oneFile.moveTo ⟨⟨true, fun _ => true, none, none⟩, true⟩ [98] oneFileEnv
    r.1 = .success → r.2.1.mFpath = [98] ∧ r.2.2.fs.contents (route [98]) = some [1] :=
  (moveTo_preserves_contents_iff oneFile_loaded [98] (by decide) _
    ⟨rfl, rfl, ⟨fun _ _ => rfl, by simp⟩, rfl⟩).mpr (by decide)

/-- The move of `a` to `./a` reports success and the byte is gone. -/
theorem moveTo_to_itself_loses_contents :
    ¬ ∀ (f : File) (e : Env) (bytes : List Byte) (dst : Path) (io : MoveIo), Loaded f e bytes →
      (openOut e.fs dst).isSome = true → io.Succeeds f.mBlockSize →
      let r := f.moveTo io dst e
      r.1 = .success → r.2.1.mFpath = dst ∧ r.2.2.fs.contents (route dst) = some bytes := by
  intro h
  have hlost := h oneFile oneFileEnv [1] [46, 47, 97] ⟨⟨true, fun _ => true, none, none⟩, true⟩
    oneFile_loaded (by decide) ⟨rfl, rfl, ⟨fun _ _ => rfl, by simp⟩, rfl⟩
  revert hlost
  decide

/-- A symbolic link `l` to `a` leads through the entry `a` as well. -/
example : [[97]] ∈ (oneFileEnv.fs.putLink [[108]] (route [97])).trail (route [108]) := by decide

end WndxSane.File
