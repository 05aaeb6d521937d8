import WndxSane.LoggedRuns
import WndxSane.MoveContents
import WndxSane.Lib.FileTreeFrame

/-!
# The places that calls name

A call changes the file system at the locations that its paths lead to, and nowhere else: `write` at its
`m_fpath`, `copy_to` at its destination, `move_to` there and at the entry of the old path, `mkdir` at its path.
The other calls change nothing.

* `agreeOn_step`: a step leaves the other locations alone.
* **`contents_run`**: a file keeps its contents in every run that names no location on its way.
-/

namespace WndxSane

open FileTree Transition

variable {ls : List Loc}

/-! ### File systems -/

/-- A write changes the location of the file that is written. -/
theorem agreeOn_writeFs {fs : Fs} {p : Path} (h : ∀ l ∈ ls, l ∉ (fs.target (route p)).toList)
    (io : File.WriteIo) (bytes : List Byte) (size : ℕ) :
    Tree.AgreeOn ls fs (File.writeFs io fs p bytes size) := by
  rcases File.writable_or_not io fs p with ⟨hopened, l, hl⟩ | hnot
  · rw [File.writeFs_of_writable hopened hl]
    refine Tree.agreeOn_putFile fs (fun hmem => h l hmem ?_) _
    rw [hl.1]
    exact List.mem_singleton_self l
  · rw [File.writeFs_of_not_writable hnot]
    exact .refl ls fs

/-- A removal changes the entry that is removed. -/
theorem agreeOn_fsRemove {fs : Fs} {p : Path} (h : ∀ l ∈ ls, l ∉ (removedEntry fs p).toList) :
    Tree.AgreeOn ls fs (fsRemove fs p).2 := by
  unfold fsRemove
  cases hentry : removedEntry fs p with
  | none => exact .refl ls fs
  | some l =>
    have hl : l ∉ ls := by
      intro hmem
      refine h l hmem ?_
      rw [hentry]
      exact List.mem_singleton_self l
    show Tree.AgreeOn ls fs (if fs.isDir l then (!(fs.rmdir l).isDir l, fs.rmdir l)
      else ((fs.node l).isSome, fs.unlink l)).2
    split
    · exact Tree.agreeOn_rmdir fs hl
    · exact Tree.agreeOn_unlink fs hl

/-- In a file system of the same shape, the same entry is removed. -/
theorem removedEntry_of_sameShape {fs fs' : Fs} (h : Tree.SameShape fs fs') (p : Path) :
    removedEntry fs' p = removedEntry fs p := by
  simp only [removedEntry, h.entry, h.dir]

/-- `mkdir` changes the location of its path. -/
theorem agreeOn_mkdir {fs : Fs} {a : Mkdir.Args}
    (h : ∀ l ∈ ls, l ∉ (fs.target (route a.npath)).toList) (c : Mkdir.Caller) (ok : Mkdir.Pc → Bool) :
    Tree.AgreeOn ls fs (Mkdir.mkdir a c ok fs).2 := by
  have hsite : ∀ l m, Mkdir.Site a fs l → Tree.AgreeOn ls fs (fs.putDir l m) := by
    intro l m hsite
    refine Tree.agreeOn_putDir fs (fun hmem => h l hmem ?_) m
    rw [hsite.target]
    exact List.mem_singleton_self l
  rcases Mkdir.mkdir_outcomes a c ok fs with ⟨heq, -⟩ | ⟨l, heq, hl⟩ | ⟨rc, heq, -, -⟩ | ⟨l, m, heq, hl⟩
  · rw [heq]
    exact .refl ls fs
  · rw [heq]
    exact hsite l _ hl
  · rw [heq]
    exact .refl ls fs
  · rw [heq]
    exact hsite l m hl

/-! ### Calls -/

namespace File

theorem agreeOn_write {f : File} {e : Env} (h : ∀ l ∈ ls, l ∉ (e.fs.target (route f.mFpath)).toList)
    (io : WriteIo) : Tree.AgreeOn ls e.fs (f.write io e).2.fs := by
  cases hb : f.mBlock with
  | none =>
    rw [write, hb]
    exact .refl ls e.fs
  | some b =>
    rw [(write_of_block hb io e).2]
    exact agreeOn_writeFs h io _ _

theorem agreeOn_copyTo {f : File} {e : Env} {dst : Path}
    (h : ∀ l ∈ ls, l ∉ (e.fs.target (route dst)).toList) (io : WriteIo) :
    Tree.AgreeOn ls e.fs (f.copyTo io dst e).2.2.fs := by
  cases hb : f.mBlock with
  | none =>
    rw [copyTo, hb]
    exact .refl ls e.fs
  | some b =>
    rw [copyTo_of_block hb]
    exact agreeOn_write (f := f.setFpath dst) h io

/-- A copy keeps the shape of the file system. -/
theorem sameShape_copyTo (io : WriteIo) (f : File) (dst : Path) (e : Env) :
    Tree.SameShape e.fs (f.copyTo io dst e).2.2.fs := by
  cases hb : f.mBlock with
  | none =>
    rw [copyTo, hb]
    exact ⟨fun _ => rfl, fun _ => rfl, rfl, rfl⟩
  | some b =>
    rw [copyTo_of_block hb, (write_of_block (f := f.setFpath dst) hb io e).2]
    exact sameShape_writeFs ..

theorem agreeOn_moveTo {f : File} {e : Env} {dst : Path}
    (hdst : ∀ l ∈ ls, l ∉ (e.fs.target (route dst)).toList)
    (hold : ∀ l ∈ ls, l ∉ (removedEntry e.fs f.mFpath).toList) (io : MoveIo) :
    Tree.AgreeOn ls e.fs (f.moveTo io dst e).2.2.fs := by
  have hcopy := agreeOn_copyTo (f := f) hdst io.write
  rw [moveTo_eq]
  split
  · refine hcopy.trans (agreeOn_fsRemove ?_)
    rw [removedEntry_of_sameShape (sameShape_copyTo io.write f dst e)]
    exact hold
  · exact hcopy

/-- Reading changes no file. -/
theorem read_fs (io : ReadIo) (f : File) (e : Env) : (f.read io e).2.fs = e.fs := by
  unfold read
  split
  · rfl
  · simp only [readBlock]
    split
    · split <;> rfl
    · rfl

theorem allocAndRead_fs (io : LoadIo) (f : File) (e : Env) : (f.allocAndRead io e).2.2.fs = e.fs := by
  by_cases hok : io.alloc = .ok
  · rw [allocAndRead_of_ok hok]
    split <;> exact read_fs ..
  · rw [allocAndRead_of_thrown hok]

end File

/-! ### Steps and runs -/

/-- The locations that the paths of a call lead to. -/
def Action.places (w : World) : Action → List Loc
  | .write i _ => ((w.live i).bind fun f => w.env.fs.target (route f.mFpath)).toList
  | .copyTo _ _ dst => (w.env.fs.target (route dst)).toList
  | .moveTo i _ dst => (w.env.fs.target (route dst)).toList ++
      ((w.live i).bind fun f => removedEntry w.env.fs f.mFpath).toList
  | _ => []

/-- The file system after a change from outside. -/
def Action.changed (w : World) : Action → Fs
  | .outside fs => fs
  | _ => w.env.fs

/-- A call names none of the locations; a change from outside is at none of them. -/
def Action.Spares (ls : List Loc) (w : World) (a : Action) : Prop :=
  (∀ l ∈ ls, l ∉ a.places w) ∧ Tree.AgreeOn ls w.env.fs (a.changed w)

instance (ls : List Loc) (w : World) (a : Action) : Decidable (a.Spares ls w) :=
  inferInstanceAs (Decidable (_ ∧ _))

theorem Action.agreeOn_op {a : Action} {w : World} {i : ℕ} {f : File}
    {op : File → Env → File × Env} (h : a.op = some (i, op)) (hf : w.live i = some f)
    (hfree : ∀ l ∈ ls, l ∉ a.places w) : Tree.AgreeOn ls w.env.fs (op f w.env).2.fs := by
  cases a with
  | alloc j io => cases h; exact .refl ls _
  | write j io =>
    cases h
    simp only [places, hf, Option.bind_some] at hfree
    exact File.agreeOn_write hfree io
  | read j io =>
    cases h
    rw [File.read_fs]
    exact .refl ls _
  | allocAndRead j io =>
    cases h
    rw [File.allocAndRead_fs]
    exact .refl ls _
  | copyTo j io dst =>
    cases h
    exact File.agreeOn_copyTo hfree io
  | moveTo j io dst =>
    cases h
    simp only [places, hf, Option.bind_some, List.mem_append, not_or] at hfree
    exact File.agreeOn_moveTo (fun l hl => (hfree l hl).1) (fun l hl => (hfree l hl).2) io
  | cleanHeap j => cases h; exact .refl ls _
  | _ => exact absurd h (Option.some_ne_none _).symm

/-- **One step** leaves the locations alone that it does not name. -/
theorem World.agreeOn_step {w w' : World} {a : Action} (h : w.step a = some w') (hfree : a.Spares ls w) :
    Tree.AgreeOn ls w.env.fs w'.env.fs := by
  rcases step_cases h with ⟨i, f, -, -, -, rfl⟩ | ⟨i, src, f, -, -, -, rfl⟩ |
    ⟨i, src, left, f, -, -, -, rfl⟩ | ⟨i, op, f, hop, hf, rfl⟩ | ⟨i, f, -, -, rfl⟩ | ⟨fs, rfl, rfl⟩
  · exact .refl ls _
  · exact .refl ls _
  · exact .refl ls _
  · exact Action.agreeOn_op hop hf hfree.1
  · exact .refl ls _
  · exact hfree.2

namespace Prog

/-- The same of the calls of a program. -/
def Spares (ls : List Loc) (p : Prog) (s : ProgAction × Reasons) : Prop :=
  match s.1 with
  | .file a => a.Spares ls p.world
  | .mkdir a _ _ => ∀ l ∈ ls, l ∉ (p.world.env.fs.target (route a.npath)).toList
  | _ => True

instance (ls : List Loc) (p : Prog) (s : ProgAction × Reasons) : Decidable (p.Spares ls s) :=
  match s with
  | (.file a, _) => inferInstanceAs (Decidable (a.Spares ls p.world))
  | (.mkdir _ _ _, _) => inferInstanceAs (Decidable (∀ l ∈ ls, _))
  | (.isR _ _, _) => isTrue trivial
  | (.setUrgency _ _, _) => isTrue trivial

theorem agreeOn_step {p q : Prog} {s : ProgAction × Reasons} (h : p.step s = some q)
    (hfree : p.Spares ls s) : Tree.AgreeOn ls p.world.env.fs q.world.env.fs := by
  have hplain : p.world.plainStep s.1 = some q.world := by
    rw [← map_world_step, h]
    rfl
  obtain ⟨act, why⟩ := s
  cases act with
  | file a => exact World.agreeOn_step hplain hfree
  | isR statusOk fpath =>
    rw [← Option.some.inj hplain]
    exact .refl ls _
  | mkdir a c ok =>
    rw [← Option.some.inj hplain]
    exact agreeOn_mkdir hfree c ok
  | setUrgency i ll =>
    rw [← Option.some.inj hplain]
    exact .refl ls _

/-- **A file that no call names** keeps its contents: in every run that leaves the locations on the way of its
path alone, what is read under the path stays the same.  The file has no other name, as the file system has no hard
links. -/
theorem contents_run {p q : Prog} {as : List (ProgAction × Reasons)} {path : Path} {bytes : List Byte}
    (h : run step p as = some q) (hread : p.world.env.fs.contents (route path) = some bytes)
    (hfree : Guarded step (Spares (p.world.env.fs.way (route path))) p as) :
    q.world.env.fs.contents (route path) = some bytes := by
  have hagree : Tree.AgreeOn (p.world.env.fs.way (route path)) p.world.env.fs q.world.env.fs :=
    hfree.invariant (I := fun r => Tree.AgreeOn (p.world.env.fs.way (route path)) p.world.env.fs
      r.world.env.fs) (fun _ _ _ hI hstep hG => hI.trans (agreeOn_step hstep hG)) (.refl _ _) h
  exact hagree.contents hread

/-- A file `b` is made, written and moved to `c`, beside a directory `d`. -/
def otherFiles : List (ProgAction × Reasons) :=
  let why : Reasons := ⟨fun _ => ⟨2, text "No such file or directory"⟩, fun _ => text "std::exception"⟩
  let io : File.WriteIo := ⟨true, fun _ => true, none, none⟩
  [(.file (.ofPath 0 [98] 1), why), (.file (.alloc 0 .ok), why), (.file (.write 0 io), why),
    (.mkdir ⟨[100], 0o755⟩ ⟨false, 0⟩ fun _ => true, why), (.file (.moveTo 0 ⟨io, true⟩ [99]), why)]

/-- The file `a` is still there. -/
theorem contents_run_otherFiles :
    ∃ q, run step ⟨.start File.oneFileEnv.fs, []⟩ otherFiles = some q ∧
      q.world.env.fs.contents (route [97]) = some [1] := by
  have hsome : (run step ⟨.start File.oneFileEnv.fs, []⟩ otherFiles).isSome = true := by decide +kernel
  obtain ⟨q, hq⟩ := Option.isSome_iff_exists.mp hsome
  exact ⟨q, hq, contents_run hq (by decide) (by decide +kernel)⟩

end Prog

end WndxSane
