import WndxSane.MoveContents
import WndxSane.Lib.Transition

/-!
# Runs of copies and moves

A session is a file with its block loaded and the calls of `copy_to` and `move_to` made on it.  The
reference is a store: a file system and the current path, where a copy sets the contents at `dst` and
makes `dst` current, and a move also removes the path that was current.

* `allocAndRead_of_contents`: loading a regular file puts its bytes into a fresh block.
* `call_simulates`: one call does to the session what the reference does to the store.
* **`run_refines_store`**: so do all runs, and what follows for every run.
-/

namespace WndxSane.File

open FileTree Transition

/-! ### Loading -/

structure ReadIo.Succeeds (io : ReadIo) (size : ℕ) : Prop where
  status : io.statusOk = true
  opened : io.opened.good = true
  tellg : io.tellgOk = true
  delivered : ∀ k, io.delivered = some k → size ≤ k
  raised : io.raised = none

structure LoadIo.Succeeds (io : LoadIo) (size : ℕ) : Prop where
  alloc : io.alloc = .ok
  read : io.read.Succeeds size
  raised : io.raised = none

theorem isR_of_contents {fs : Fs} {p : Path} {bytes : List Byte}
    (h : fs.contents (route p) = some bytes) : isR true fs p = .success := by
  obtain ⟨l, hl, hx⟩ := (Tree.contents_eq_some_iff ..).mp h
  rw [isR, if_pos rfl, fsStatus, hl, Option.bind_some, hx]

theorem readRequest_of_contents {io : ReadIo} {f : File} {fs : Fs} {bytes : List Byte}
    (h : fs.contents (route f.mFpath) = some bytes) (hio : io.Succeeds bytes.length) :
    readRequest io f fs = .ok bytes.length := by
  have hfail : io.opened.fail = false := by
    have hgood := hio.opened
    simp only [Iostate.good, Bool.and_eq_true, Bool.not_eq_true'] at hgood
    rw [Iostate.fail, hgood.1.2, hgood.2]
    rfl
  simp only [readRequest, hio.status, isR_of_contents h, hfail, hio.opened, hio.raised, hio.tellg,
    tellg, contentsAt, h, Bool.false_eq_true, if_false, Bool.not_true, reduceCtorEq, if_true,
    Option.getD_some]

/-- **Loading.**  A file built with the length of a regular file reads it into a fresh block. -/
theorem allocAndRead_of_contents {p : Path} {e : Env} {bytes : List Byte} {io : LoadIo}
    (h : e.fs.contents (route p) = some bytes) (hio : io.Succeeds bytes.length) :
    let r := (ofPath p bytes.length).allocAndRead io e
    r.1 = .success ∧ r.2.1 = ⟨bytes.length, p, some e.mem.next, 0⟩ ∧ r.2.2.fs = e.fs ∧
      r.2.2.mem.next = e.mem.next + 1 ∧
        r.2.2.mem.block = Function.update e.mem.block e.mem.next bytes := by
  have hread := readRequest_of_contents (f := ⟨bytes.length, p, some e.mem.next, 0⟩) h hio.read
  have htake : io.read.arrived bytes = bytes := by
    unfold ReadIo.arrived
    split
    · rfl
    · rename_i k hk
      exact List.take_of_length_le (hio.read.delivered k hk)
  simp only [allocAndRead, alloc, hio.alloc, AllocIo.allocates, if_true, ofPath, Mem.newBlock, read, hread, hio.raised,
    hio.read.raised, readBlock, contentsAt, h, Option.getD_some, Int.toNat_natCast,
    List.take_length, htake, reduceCtorEq, if_false, true_and]
  by_cases hnil : bytes = []
  · rw [if_pos hnil, hnil]
    exact ⟨rfl, rfl, rfl⟩
  · rw [if_neg hnil]
    refine ⟨rfl, rfl, ?_⟩
    simp only [Mem.store, Mem.useBlock, Function.update_self, Function.update_idem,
      List.length_replicate, List.take_length, List.drop_replicate, Nat.sub_self,
      List.replicate_zero, List.append_nil]

/-! ### Sessions and the reference -/

inductive Call
  | copyTo (io : WriteIo) (dst : Path)
  | moveTo (io : MoveIo) (dst : Path)

def Call.dst : Call → Path
  | .copyTo _ dst => dst
  | .moveTo _ dst => dst

/-- Every step of the call succeeds. -/
def Call.Succeeds (size : ℕ) : Call → Prop
  | .copyTo io _ => io.opened = true ∧ io.raised = none ∧ io.Complete size
  | .moveTo io _ => io.Succeeds size

/-- A file, what it works on, and the codes its calls returned, the latest first. -/
structure Session where
  file : File
  env : Env
  codes : List Rc

def Session.call (s : Session) : Call → Option Session
  | .copyTo io dst =>
    let (rc, f, e) := s.file.copyTo io dst s.env
    some ⟨f, e, rc :: s.codes⟩
  | .moveTo io dst =>
    let (rc, f, e) := s.file.moveTo io dst s.env
    some ⟨f, e, rc :: s.codes⟩

/-- The store of the reference: files, the current path, and the places it has set or removed. -/
structure Store where
  fs : Fs
  current : Path
  touched : List Loc

/-- `fs[p] := bytes`. -/
def Store.set (u : Store) (p : Path) (bytes : List Byte) : Store :=
  match u.fs.target (route p) with
  | some l => { u with fs := u.fs.putFile l bytes, touched := l :: u.touched }
  | none => u

def Store.remove (u : Store) (p : Path) : Store :=
  match u.fs.entry (route p) with
  | some k => { u with fs := u.fs.unlink k, touched := k :: u.touched }
  | none => u

def Store.setCurrent (u : Store) (p : Path) : Store := { u with current := p }

/-- The reference. -/
def Store.call (bytes : List Byte) (u : Store) : Call → Option Store
  | .copyTo _ dst => some ((u.set dst bytes).setCurrent dst)
  | .moveTo _ dst => some (((u.set dst bytes).remove u.current).setCurrent dst)

/-- What is asked of a call: its steps succeed, and `dst` names a file, there already or to be made,
that is not the current one. -/
def Session.Asked (s : Session) (c : Call) : Prop :=
  c.Succeeds s.file.mBlockSize ∧ (∃ l, Writable s.env.fs c.dst l) ∧
    s.env.fs.target (route c.dst) ≠ s.env.fs.target (route s.file.mFpath)

/-- A session and the store of the reference after the same calls, begun with the block `b` and the
file system `fs₀`. -/
structure Simulates (bytes : List Byte) (b next : ℕ) (fs₀ : Fs) (s : Session) (u : Store) : Prop where
  fs : s.env.fs = u.fs
  current : s.file.mFpath = u.current
  size : s.file.mBlockSize = bytes.length
  block : s.file.mBlock = some b
  held : s.env.mem.block b = bytes
  next : s.env.mem.next = next
  file : s.env.fs.contents (route s.file.mFpath) = some bytes
  codes : ∀ rc ∈ s.codes, rc = .success
  frame : ∀ l, l ∉ u.touched → u.fs.node l = fs₀.node l

theorem Simulates.loaded {bytes : List Byte} {b next : ℕ} {fs₀ : Fs} {s : Session} {u : Store}
    (h : Simulates bytes b next fs₀ s u) : Loaded s.file s.env bytes :=
  ⟨⟨b, h.block, h.held⟩, h.size, h.file⟩

theorem store_set {u : Store} {p : Path} {l : Loc} (h : u.fs.target (route p) = some l)
    (bytes : List Byte) :
    u.set p bytes = { u with fs := u.fs.putFile l bytes, touched := l :: u.touched } := by
  rw [Store.set, h]

theorem store_remove {u : Store} {p : Path} {k : Loc} (h : u.fs.entry (route p) = some k) :
    u.remove p = { u with fs := u.fs.unlink k, touched := k :: u.touched } := by
  rw [Store.remove, h]

/-- A copy does to the session what the reference does. -/
theorem copyTo_simulates {bytes : List Byte} {b next : ℕ} {fs₀ : Fs} {s s' : Session} {u : Store}
    {io : WriteIo} {dst : Path} (h : Simulates bytes b next fs₀ s u)
    (hs' : s.call (.copyTo io dst) = some s') (hask : s.Asked (.copyTo io dst)) :
    ∃ u', u.call bytes (.copyTo io dst) = some u' ∧ Simulates bytes b next fs₀ s' u' := by
  obtain ⟨⟨hopened, hraised, hcomplete⟩, ⟨l, (hl : Writable s.env.fs dst l)⟩, -⟩ := hask
  obtain ⟨hrc, hfs⟩ := write_of_block (f := s.file.setFpath dst) h.block io s.env
  obtain ⟨hmem, hnext⟩ := write_mem io (s.file.setFpath dst) s.env
  have hout : io.output bytes s.file.mBlockSize = bytes :=
    (output_eq_iff hraised h.size).mpr hcomplete
  rw [setFpath_mFpath, setFpath_mBlockSize, writeFs_of_writable hopened hl, h.held, hout] at hfs
  rw [hraised, Option.isSome_none, if_neg Bool.false_ne_true] at hrc
  simp only [Session.call, copyTo_of_block h.block io dst s.env, hrc, Option.some_inj] at hs'
  have hset := store_set (u := u) (p := dst) (by rw [← h.fs]; exact hl.1) bytes
  have hdst : (s.env.fs.putFile l bytes).contents (route dst) = some bytes :=
    Tree.contents_putFile _ hl.isDir hl.linkAt hl.isDir_tail hl.1
  refine ⟨_, rfl, ?_⟩
  subst hs'
  rw [hset]
  exact
    { fs := hfs.trans (by rw [h.fs]; rfl)
      current := rfl
      size := h.size
      block := h.block
      held := (congrFun hmem b).trans h.held
      next := hnext.trans h.next
      file := (congrArg (fun t : Fs => t.contents (route dst)) hfs).trans hdst
      codes := fun rc hrc => (List.mem_cons.mp hrc).elim id (h.codes rc)
      frame := by
        intro k hk
        obtain ⟨hkl, hk⟩ := not_or.mp fun he => hk (List.mem_cons.mpr he)
        exact (Tree.node_putFile_of_ne _ _ hkl).trans (h.frame k hk) }

/-- A move does to the session what the reference does. -/
theorem moveTo_simulates {bytes : List Byte} {b next : ℕ} {fs₀ : Fs} {s s' : Session} {u : Store}
    {io : MoveIo} {dst : Path} (h : Simulates bytes b next fs₀ s u)
    (hs' : s.call (.moveTo io dst) = some s') (hask : s.Asked (.moveTo io dst)) :
    ∃ u', u.call bytes (.moveTo io dst) = some u' ∧ Simulates bytes b next fs₀ s' u' := by
  obtain ⟨hio, ⟨l, (hl : Writable s.env.fs dst l)⟩, hne⟩ := hask
  obtain ⟨k, hk, hd, hrc, hf, hfs⟩ := moveTo_of_writable h.loaded hl hio
  obtain ⟨hmem, hnext⟩ := moveTo_mem h.block io dst s.env
  have hshape := hl.sameShape bytes
  simp only [Session.call, hf, hrc, Option.some_inj] at hs'
  have hset := store_set (u := u) (p := dst) (by rw [← h.fs]; exact hl.1) bytes
  have hremove : (u.set dst bytes).remove u.current =
      { u with
        fs := (u.fs.putFile l bytes).unlink k
        touched := k :: l :: u.touched } := by
    rw [hset, store_remove]
    rw [← h.fs, ← h.current, hshape.entry, hk]
  -- dst does not pass through the removed entry, since the files are different
  have hdst : ((s.env.fs.putFile l bytes).unlink k).contents (route dst) = some bytes := by
    obtain ⟨l₀, hl₀, hx₀⟩ := (Tree.contents_eq_some_iff ..).mp h.file
    rw [Tree.contents_unlink_eq_some_iff (by rw [hshape.dir, hd]), hshape.trail]
    refine ⟨Tree.contents_putFile _ hl.isDir hl.linkAt hl.isDir_tail hl.1, ?_⟩
    exact Tree.entry_not_mem_trail hl₀ (Tree.isDir_eq_false_of_reg hx₀) hk (hl₀ ▸ hne)
  refine ⟨_, rfl, ?_⟩
  subst hs'
  rw [hremove]
  exact
    { fs := hfs.trans (by rw [h.fs]; rfl)
      current := rfl
      size := h.size
      block := h.block
      held := (congrFun hmem b).trans h.held
      next := hnext.trans h.next
      file := (congrArg (fun t : Fs => t.contents (route dst)) hfs).trans hdst
      codes := fun rc hrc => (List.mem_cons.mp hrc).elim id (h.codes rc)
      frame := by
        intro j hj
        obtain ⟨hjk, hj⟩ := not_or.mp fun he => hj (List.mem_cons.mpr he)
        obtain ⟨hjl, hj⟩ := not_or.mp fun he => hj (List.mem_cons.mpr he)
        exact (Tree.node_unlink_of_ne _ hjk).trans
          ((Tree.node_putFile_of_ne _ _ hjl).trans (h.frame j hj)) }

theorem call_simulates {bytes : List Byte} {b next : ℕ} {fs₀ : Fs} (s : Session) (u : Store)
    (c : Call) (s' : Session) (h : Simulates bytes b next fs₀ s u) (hs' : s.call c = some s')
    (hask : s.Asked c) :
    ∃ u', u.call bytes c = some u' ∧ Simulates bytes b next fs₀ s' u' := by
  cases c with
  | copyTo io dst => exact copyTo_simulates h hs' hask
  | moveTo io dst => exact moveTo_simulates h hs' hask

theorem exists_call (s : Session) (c : Call) : ∃ s', s.call c = some s' := by
  cases c <;> exact ⟨_, rfl⟩

/-! ### Equality with a fresh file -/

/-- A file freshly built from the path and the size of a regular file, and loaded, equals every loaded
file with the same bytes. -/
theorem opEq_fresh {f : File} {e : Env} {bytes : List Byte} (h : Loaded f e bytes) {io : LoadIo}
    (hio : io.Succeeds bytes.length) :
    let r := (ofPath f.mFpath bytes.length).allocAndRead io e
    r.1 = .success ∧ opEq r.2.2.mem f r.2.1 = true := by
  obtain ⟨hrc, hf, -, -, hblock⟩ := allocAndRead_of_contents h.file hio
  obtain ⟨⟨b, hb, hbytes⟩, hsize, -⟩ := h
  refine ⟨hrc, ?_⟩
  have hheld : Function.update e.mem.block e.mem.next bytes b = bytes := by
    by_cases hbn : b = e.mem.next
    · rw [hbn, Function.update_self]
    · rw [Function.update_of_ne hbn, hbytes]
  have hcmp : memcmp bytes bytes bytes.length = .eq := (memcmp_eq_iff ..).mpr rfl
  simp only [hf, opEq, opNe, hb, hblock, hheld, Function.update_self, hsize, hcmp,
    Option.isNone_some, Bool.false_or, bne_self_eq_false, Bool.not_false, Bool.true_and,
    beq_self_eq_true]

/-! ### Runs -/

/-- **Runs refine the store.**  A file built from the path and the length of a regular file and loaded,
then any run of copies and moves to other files, every step succeeding.  Every call returns `SUCCESS`.
After every prefix of the run the file system is that of the reference; the path is the current path of
the reference and has the bytes; the block is what it was; a file freshly built from the path and its size
compares equal; and every place but those of the destinations and of the entries moved from holds what it
held before.  A file has one name in all this, as the file system has no hard links. -/
theorem run_refines_store {p₀ : Path} {fs₀ : Fs} {bytes : List Byte}
    (hp₀ : fs₀.contents (route p₀) = some bytes) (mem₀ : Mem) {load : LoadIo}
    (hload : load.Succeeds bytes.length) :
    let r := (ofPath p₀ bytes.length).allocAndRead load ⟨fs₀, mem₀⟩
    let s₀ : Session := ⟨r.2.1, r.2.2, []⟩
    r.1 = .success ∧ ∀ calls, Guarded Session.call Session.Asked s₀ calls →
      ∀ pre, pre <+: calls → ∃ s u, run Session.call s₀ pre = some s ∧
        run (Store.call bytes) ⟨fs₀, p₀, []⟩ pre = some u ∧
        (∀ rc ∈ s.codes, rc = .success) ∧ s.env.fs = u.fs ∧ s.file.mFpath = u.current ∧
        u.fs.contents (route u.current) = some bytes ∧
        (∃ b, r.2.1.mBlock = some b ∧ s.file.mBlock = some b ∧ s.env.mem.block b = bytes) ∧
        (∀ fresh : LoadIo, fresh.Succeeds bytes.length → ∀ sz,
          fsFileSize s.env.fs s.file.mFpath = some sz →
          let g := (ofPath s.file.mFpath sz).allocAndRead fresh s.env
          g.1 = .success ∧ opEq g.2.2.mem s.file g.2.1 = true) ∧
        ∀ l, l ∉ u.touched → u.fs.node l = fs₀.node l := by
  intro r s₀
  obtain ⟨hrc, hf, hfs, hnext, hblock⟩ := allocAndRead_of_contents (e := ⟨fs₀, mem₀⟩) hp₀ hload
  refine ⟨hrc, fun calls hguard pre hpre => ?_⟩
  obtain ⟨rest, rfl⟩ := hpre
  have hf' : s₀.file = ⟨bytes.length, p₀, some mem₀.next, 0⟩ := hf
  have hstart : Simulates bytes mem₀.next (mem₀.next + 1) fs₀ s₀ ⟨fs₀, p₀, []⟩ :=
    { fs := hfs
      current := by rw [hf']
      size := by rw [hf']
      block := by rw [hf']
      held := by
        rw [show s₀.env.mem.block = _ from hblock]
        exact Function.update_self ..
      next := hnext
      file := by
        rw [hf', show s₀.env.fs = fs₀ from hfs]
        exact hp₀
      codes := fun rc hrc => absurd hrc List.not_mem_nil
      frame := fun l _ => rfl }
  obtain ⟨s, hs⟩ := exists_run exists_call s₀ pre
  obtain ⟨u, hu, h⟩ := run_simulates call_simulates hstart hguard.of_append hs
  refine ⟨s, u, hs, hu, h.codes, h.fs, h.current, ?_, ?_, ?_, h.frame⟩
  · rw [← h.fs, ← h.current]
    exact h.file
  · exact ⟨mem₀.next, by rw [show r.2.1 = _ from hf], h.block, h.held⟩
  · intro fresh hfresh sz hsz
    rw [fsFileSize, h.file] at hsz
    cases hsz
    exact opEq_fresh h.loaded hfresh

/-- Copying `a` to `b` and moving on to `c`, by way of the theorem: `c` has the byte. -/
theorem run_refines_store_a_b_c :
    ∃ s, run Session.call
        ⟨⟨1, [97], some 1, 0⟩, ((ofPath [97] 1).allocAndRead
          ⟨.ok, ⟨true, ⟨false, false, false⟩, true, none, none⟩, none⟩ oneFileEnv).2.2, []⟩
        [.copyTo ⟨true, fun _ => true, none, none⟩ [98],
          .moveTo ⟨⟨true, fun _ => true, none, none⟩, true⟩ [99]] = some s ∧
      s.env.fs.contents (route [99]) = some [1] := by
  have hload : LoadIo.Succeeds ⟨.ok, ⟨true, ⟨false, false, false⟩, true, none, none⟩, none⟩ 1 :=
    ⟨rfl, ⟨rfl, rfl, rfl, by simp, rfl⟩, rfl⟩
  have h := (run_refines_store (show oneFileEnv.fs.contents (route [97]) = some [1] by decide)
    oneFileEnv.mem hload).2
    [.copyTo ⟨true, fun _ => true, none, none⟩ [98],
      .moveTo ⟨⟨true, fun _ => true, none, none⟩, true⟩ [99]]
  obtain ⟨s, u, hs, hu, -, hfs, -, hcur, -⟩ := h
    (.cons rfl ⟨⟨rfl, rfl, fun _ _ => rfl, by simp⟩, ⟨[[98]], by decide, Or.inl (by decide)⟩,
      by decide⟩ <|
    .cons rfl ⟨⟨rfl, rfl, ⟨fun _ _ => rfl, by simp⟩, rfl⟩, ⟨[[99]], by decide, Or.inl (by decide)⟩,
      by decide⟩ trivial) _ List.prefix_rfl
  refine ⟨s, hs, ?_⟩
  have hu' : u.current = [99] := by
    cases hu
    rfl
  rw [hfs, ← hu']
  exact hcur

end WndxSane.File
