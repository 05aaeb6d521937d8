import WndxSane.ReportedSuccess

/-!
# Calls that fail

A load that fails has a block of zeros already, and only an exception that it handles itself releases it;
a copy or move sets the path before the write, and a write that fails leaves the path where it is.

* `mBlock_allocAndRead`, **`allocAndRead_failure_iff`**: when a load that fails leaves no block, so that
  no later copy or move takes the zeros for the file.
* `untouched_copyTo_iff`, **`copyTo_moveTo_failure_iff`**: when a copy or a move that fails leaves the
  instance and its file as they were.
-/

namespace WndxSane.File

open FileTree Transition

/-! ### Loads -/

/-- A file that pretends no contents: it has no block, and copies and moves of it, however many, report
this and change no file. -/
structure Unloaded (f : File) (e : Env) : Prop where
  mBlock : f.mBlock = none
  opBool : f.opBool = false
  calls : ∀ cs s, run Session.call ⟨f, e, []⟩ cs = some s →
    s.env.fs = e.fs ∧ ∀ rc ∈ s.codes, rc = .memoryBlockEmpty

/-- Without a block, a copy or a move does nothing but report it. -/
theorem call_of_null {s : Session} (h : s.file.mBlock = none) (c : Call) :
    s.call c = some ⟨s.file, s.env, .memoryBlockEmpty :: s.codes⟩ := by
  cases c with
  | copyTo io dst => simp only [Session.call, copyTo, h]
  | moveTo io dst => simp only [Session.call, moveTo, copyTo, h]

theorem unloaded_iff (f : File) (e : Env) : Unloaded f e ↔ f.mBlock = none := by
  refine ⟨Unloaded.mBlock, fun h => ⟨h, by rw [File.opBool, h]; rfl, fun cs s hrun => ?_⟩⟩
  have hstep : ∀ (s : Session) (c : Call) (s' : Session),
      (s.file.mBlock = none ∧ s.env.fs = e.fs ∧ ∀ rc ∈ s.codes, rc = .memoryBlockEmpty) →
        s.call c = some s' →
          s'.file.mBlock = none ∧ s'.env.fs = e.fs ∧ ∀ rc ∈ s'.codes, rc = .memoryBlockEmpty := by
    rintro s c s' ⟨hb, hfs, hcodes⟩ hcall
    rw [call_of_null hb] at hcall
    cases hcall
    refine ⟨hb, hfs, fun rc hrc => ?_⟩
    rcases List.mem_cons.mp hrc with rfl | hrc
    · rfl
    · exact hcodes rc hrc
  exact (run_invariant hstep ⟨h, rfl, fun rc hrc => absurd hrc (by simp)⟩ hrun).2

/-- The handlers release the block: those of the allocation, and that of `std::exception` behind it. -/
theorem mBlock_allocAndRead (f : File) (io : LoadIo) (e : Env) :
    (f.allocAndRead io e).2.1.mBlock = none ↔ io.alloc ≠ .ok ∨ io.raised = some .exception := by
  by_cases h : io.alloc = .ok
  · rw [allocAndRead_of_ok h]
    cases hr : io.raised with
    | none => simp [h]
    | some thrown => cases thrown <;> simp [h, destruct, cleanHeap]
  · rw [allocAndRead_of_thrown h]
    refine ⟨fun _ => Or.inl h, fun _ => ?_⟩
    cases halloc : io.alloc with
    | ok => exact absurd halloc h
    | thrown afterNew badAlloc => cases badAlloc <;> rfl

/-- **Failed loads.**  If `alloc_and_read` returns anything but `SUCCESS`, the file is left without a block
and later copies and moves of it say so: this is so if and only if the allocation threw, the handler of
`std::exception` was entered, or the load did not fail. -/
theorem allocAndRead_failure_iff (f : File) (e : Env) (io : LoadIo) :
    ((f.allocAndRead io e).1 ≠ .success →
        Unloaded (f.allocAndRead io e).2.1 (f.allocAndRead io e).2.2) ↔
      io.alloc ≠ .ok ∨ io.raised = some .exception ∨
        (io.raised = none ∧ PassesChecks io.read f e.fs ∧ io.read.raised ≠ some .afterRead) := by
  rw [unloaded_iff, mBlock_allocAndRead, ne_eq, allocAndRead_eq_success_iff]
  tauto

/-- The file `a` may not be read: its block of zeros is moved to `b`, and `a` is removed. -/
theorem allocAndRead_failure_moves_zeros :
    ¬ ∀ (f : File) (e : Env) (io : LoadIo), f.mBlock = none → (f.allocAndRead io e).1 ≠ .success →
      Unloaded (f.allocAndRead io e).2.1 (f.allocAndRead io e).2.2 := by
  intro h
  have hempty := h (ofPath [97] 1) oneFileEnv
    ⟨.ok, ⟨true, ⟨false, true, false⟩, true, none, none⟩, none⟩ rfl (by decide)
  have hfs := (hempty.calls [.moveTo ⟨⟨true, fun _ => true, none, none⟩, true⟩ [98]] _ rfl).1
  have hgone := congrArg (fun fs : Fs => fs.contents (route [97])) hfs
  exact absurd hgone (by decide)

/-! ### Copies and moves -/

/-- From `f` and `e` to `f'` and `e'` the instance is as it was, so are the bytes of its block and what is
at its path, and a move tried again removes that path. -/
structure Untouched (f : File) (e : Env) (f' : File) (e' : Env) : Prop where
  file : f' = f
  block : e'.mem.block = e.mem.block
  status : fsStatus e'.fs f.mFpath = fsStatus e.fs f.mFpath
  retry : ∀ (io : MoveIo) (dst : Path), (f'.moveTo io dst e').1 = .success → io.removed = true →
    (f'.moveTo io dst e').2.2.fs = (fsRemove (f'.copyTo io.write dst e').2.2.fs f.mFpath).2

/-- The write of a copy that fails has nothing to write, or raises no exception, or goes to the path of
the file itself and leaves there what was there. -/
def Harmless (io : WriteIo) (f : File) (dst : Path) (e : Env) : Prop :=
  ∀ b, f.mBlock = some b → io.raised = none ∨
    (dst = f.mFpath ∧ (io.opened = false ∨ (∀ l, ¬ Writable e.fs dst l) ∨
      e.fs.contents (route dst) = some (io.output (e.mem.block b) f.mBlockSize)))

/-- What a move returns is what its copy returns. -/
theorem rc_moveTo (io : MoveIo) (f : File) (dst : Path) (e : Env) :
    (f.moveTo io dst e).1 = (f.copyTo io.write dst e).1 := by
  rw [moveTo_eq]

/-- A move whose copy fails does no more. -/
theorem moveTo_of_failed {io : MoveIo} {f : File} {dst : Path} {e : Env}
    (h : (f.copyTo io.write dst e).1 ≠ .success) :
    f.moveTo io dst e = f.copyTo io.write dst e := by
  rw [moveTo_eq, if_neg fun hs => h hs.1]

/-- A move that succeeds and removes something removes the path it began with. -/
theorem moveTo_removes {io : MoveIo} {f : File} {dst : Path} {e : Env}
    (h : (f.moveTo io dst e).1 = .success) (hremoved : io.removed = true) :
    (f.moveTo io dst e).2.2.fs = (fsRemove (f.copyTo io.write dst e).2.2.fs f.mFpath).2 := by
  rw [rc_moveTo] at h
  rw [moveTo_eq, if_pos ⟨h, hremoved⟩]

/-- The status of a path after a write to it. -/
theorem fsStatus_writeFs_iff (io : WriteIo) (fs : Fs) (p : Path) (bytes : List Byte) (size : ℕ) :
    fsStatus (writeFs io fs p bytes size) p = fsStatus fs p ↔
      io.opened = false ∨ (∀ l, ¬ Writable fs p l) ∨
        fs.contents (route p) = some (io.output bytes size) := by
  rcases writable_or_not io fs p with ⟨hopened, l, hl⟩ | hnot
  · have hafter : fsStatus (writeFs io fs p bytes size) p = some (.reg (io.output bytes size)) := by
      rw [fsStatus, writeFs_of_writable hopened hl, (hl.sameShape _).target, hl.1, Option.bind_some]
      exact fs.node_putFile _ hl.isDir hl.isDir_tail
    have hbefore : fs.contents (route p) = some (io.output bytes size) ↔
        fsStatus fs p = some (.reg (io.output bytes size)) := by
      rw [Tree.contents_eq_some_iff, fsStatus, Option.bind_eq_some_iff]
    rw [hafter, hbefore, hopened]
    constructor
    · exact fun h => Or.inr (Or.inr h.symm)
    · rintro (h | h | h)
      · exact Bool.noConfusion h
      · exact absurd hl (h l)
      · exact h.symm
  · rw [writeFs_of_not_writable hnot]
    exact ⟨fun _ => hnot.imp_right Or.inl, fun _ => rfl⟩

/-- A copy that fails has set the path and written. -/
theorem untouched_copyTo_iff {f : File} {b : ℕ} (hb : f.mBlock = some b) (io : WriteIo) (dst : Path)
    (e : Env) :
    Untouched f e (f.copyTo io dst e).2.1 (f.copyTo io dst e).2.2 ↔
      dst = f.mFpath ∧ (io.opened = false ∨ (∀ l, ¬ Writable e.fs dst l) ∨
        e.fs.contents (route dst) = some (io.output (e.mem.block b) f.mBlockSize)) := by
  have hfs := (write_of_block (f := f.setFpath dst) hb io e).2
  rw [setFpath_mFpath, setFpath_mBlockSize] at hfs
  rw [copyTo_of_block hb]
  constructor
  · intro h
    have hdst : dst = f.mFpath := congrArg File.mFpath h.file
    have hstatus := h.status
    rw [hfs, ← hdst] at hstatus
    exact ⟨hdst, (fsStatus_writeFs_iff ..).mp hstatus⟩
  · rintro ⟨rfl, hsame⟩
    refine ⟨rfl, (write_mem io _ e).1, ?_, fun io' dst' h hr => moveTo_removes h hr⟩
    rw [hfs]
    exact (fsStatus_writeFs_iff ..).mpr hsame

theorem copyTo_failure_iff (f : File) (io : WriteIo) (dst : Path) (e : Env) :
    ((f.copyTo io dst e).1 ≠ .success → Untouched f e (f.copyTo io dst e).2.1 (f.copyTo io dst e).2.2) ↔
      Harmless io f dst e := by
  cases hb : f.mBlock with
  | none =>
    have hcopy : f.copyTo io dst e = (.memoryBlockEmpty, f, e) := by rw [copyTo, hb]
    rw [hcopy]
    refine ⟨fun _ b hb' => ?_, fun _ _ => ⟨rfl, rfl, rfl, fun _ _ h hr => moveTo_removes h hr⟩⟩
    rw [hb] at hb'
    exact absurd hb' (by simp)
  | some b =>
    have hrc : (f.copyTo io dst e).1 ≠ .success ↔ io.raised ≠ none := by
      rw [copyTo_of_block hb, (write_of_block (f := f.setFpath dst) hb io e).1]
      cases io.raised <;> simp
    rw [hrc, untouched_copyTo_iff hb]
    constructor
    · intro h b' hb'
      rw [hb] at hb'
      cases hb'
      by_cases hr : io.raised = none
      · exact Or.inl hr
      · exact Or.inr (h hr)
    · exact fun h hr => (h b hb).resolve_left hr

/-- **Failed copies and moves.**  If `copy_to`, or `move_to`, returns anything but `SUCCESS`, the instance,
its bytes and the file at its path are as before the call and a move tried again removes that file: this is
so if and only if the write was harmless. -/
theorem copyTo_moveTo_failure_iff (f : File) (io : MoveIo) (dst : Path) (e : Env) :
    (((f.copyTo io.write dst e).1 ≠ .success →
        Untouched f e (f.copyTo io.write dst e).2.1 (f.copyTo io.write dst e).2.2) ↔
      Harmless io.write f dst e) ∧
      (((f.moveTo io dst e).1 ≠ .success →
          Untouched f e (f.moveTo io dst e).2.1 (f.moveTo io dst e).2.2) ↔
        Harmless io.write f dst e) := by
  have hcopy := copyTo_failure_iff f io.write dst e
  refine ⟨hcopy, ?_⟩
  rw [← hcopy, rc_moveTo]
  refine forall_congr' fun h => ?_
  rw [moveTo_of_failed h]

/-- An exception of the log call after the last byte, in the move of `a` to `b`: the path is `b` now. -/
theorem moveTo_failure_changes_path :
    ¬ ∀ (f : File) (io : MoveIo) (dst : Path) (e : Env),
      ((f.copyTo io.write dst e).1 ≠ .success →
        Untouched f e (f.copyTo io.write dst e).2.1 (f.copyTo io.write dst e).2.2) ∧
        ((f.moveTo io dst e).1 ≠ .success →
          Untouched f e (f.moveTo io dst e).2.1 (f.moveTo io dst e).2.2) := by
  intro h
  have hsame := (h oneFile ⟨⟨true, fun _ => true, some 1, none⟩, true⟩ [98] oneFileEnv).2 (by decide)
  exact absurd (congrArg File.mFpath hsame.file) (by decide)

end WndxSane.File
