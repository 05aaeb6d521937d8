import WndxSane.Instances

/-!
# Sizes of blocks and bounds of reads

A block is allocated with the size its file has at that moment, and no function changes the size of a
file or the length of a block afterwards.  The count `read` asks for is the position `tellg` reports at
the end of the file on disk, which has nothing to do with either.

* `File.Keeps`: what every function of `File` does to sizes and lengths.
* **`sized_of_run`**: in every state reached, blocks have the size of the files that hold them.
* **`read_in_block_iff`**: when the count `read` asks for fits the block.
* **`block_has_size`**: a block has the size of its file, and the loops and comparisons stay inside it.
-/

namespace WndxSane

open Ownership Transition FileTree

namespace File

/-- The block of a file has been allocated, with the size the file has. -/
def Sized (f : File) (m : Mem) : Prop :=
  ∀ b, f.mBlock = some b → b < m.next ∧ (m.block b).length = f.mBlockSize

/-- From a heap to a later one: the blocks there are keep their lengths. -/
structure Grows (m m' : Mem) : Prop where
  next : m.next ≤ m'.next
  length : ∀ b < m.next, (m'.block b).length = (m.block b).length

/-- A function keeps the lengths of all blocks, and leaves its own block of the size of the file. -/
structure Keeps (f : File) (m : Mem) (f' : File) (m' : Mem) : Prop where
  grows : Grows m m'
  sized : f.Sized m → f'.Sized m'

variable {f f' f'' : File} {m m' m'' : Mem}

theorem Sized.grows (h : f.Sized m) (hg : Grows m m') : f.Sized m' := by
  intro b hb
  obtain ⟨hlt, hlen⟩ := h b hb
  exact ⟨lt_of_lt_of_le hlt hg.next, (hg.length b hlt).trans hlen⟩

theorem Keeps.comp (h : Keeps f m f' m') (h' : Keeps f' m' f'' m'') : Keeps f m f'' m'' where
  grows :=
    { next := le_trans h.grows.next h'.grows.next
      length := fun b hb =>
        (h'.grows.length b (lt_of_lt_of_le hb h.grows.next)).trans (h.grows.length b hb) }
  sized := fun hs => h'.sized (h.sized hs)

theorem keeps_same (hb : f'.mBlock = f.mBlock) (hs : f'.mBlockSize = f.mBlockSize)
    (hblock : m'.block = m.block) (hnext : m'.next = m.next) : Keeps f m f' m' where
  grows := ⟨le_of_eq hnext.symm, fun b _ => by rw [hblock]⟩
  sized := by
    intro h b hfb
    rw [hnext, hblock, hs]
    exact h b (hb ▸ hfb)

theorem keeps_new : Keeps f m { f with mBlock := some m.next } (m.newBlock f.mBlockSize).2 where
  grows :=
    { next := Nat.le_succ m.next
      length := fun b hb => by
        have hne : b ≠ m.next := by omega
        simp only [Mem.newBlock, Function.update_of_ne hne] }
  sized := by
    intro _ b hb
    cases hb
    refine ⟨Nat.lt_succ_self m.next, ?_⟩
    simp only [Mem.newBlock, Function.update_self, List.length_replicate]

theorem deleteBlock_block (m : Mem) (p : Option ℕ) :
    (m.deleteBlock p).block = m.block ∧ (m.deleteBlock p).next = m.next := by
  cases p <;> exact ⟨rfl, rfl⟩

theorem keeps_cleanHeap : Keeps f m (f.cleanHeap m).1 (f.cleanHeap m).2 where
  grows := by
    obtain ⟨hblock, hnext⟩ := deleteBlock_block m f.mBlock
    exact ⟨le_of_eq hnext.symm, fun b _ => congrArg (fun g : ℕ → List Byte => (g b).length) hblock⟩
  sized _ b hb := absurd hb (by simp [cleanHeap])

theorem keeps_destruct : Keeps f m (f.destruct m).1 (f.destruct m).2 where
  grows := keeps_cleanHeap.grows
  sized _ b hb := absurd hb (by simp [destruct, cleanHeap])

/-- Storing bytes in a block keeps its length, however many there are. -/
theorem length_store (m : Mem) (b c : ℕ) (bytes : List Byte) :
    ((m.store b bytes).block c).length = (m.block c).length := by
  by_cases hcb : c = b
  · subst hcb
    simp only [Mem.store, Function.update_self, List.length_append, List.length_take,
      List.length_drop]
    omega
  · simp only [Mem.store, Function.update_of_ne hcb]

theorem keeps_store (b : ℕ) (bytes : List Byte) : Keeps f m f (m.store b bytes) where
  grows := ⟨le_refl _, fun c _ => length_store m b c bytes⟩
  sized h c hc := ⟨(h c hc).1, (length_store m b c bytes).trans (h c hc).2⟩

theorem keeps_write (io : WriteIo) (e : Env) : Keeps f e.mem f (f.write io e).2.mem := by
  obtain ⟨hblock, hnext⟩ := write_mem io f e
  exact keeps_same rfl rfl hblock hnext

theorem keeps_copyTo (io : WriteIo) (dst : Path) (e : Env) :
    Keeps f e.mem (f.copyTo io dst e).2.1 (f.copyTo io dst e).2.2.mem := by
  cases hb : f.mBlock with
  | none =>
    rw [copyTo, hb]
    exact keeps_same rfl rfl rfl rfl
  | some b =>
    rw [copyTo_of_block hb]
    obtain ⟨hblock, hnext⟩ := write_mem io (f.setFpath dst) e
    exact keeps_same rfl rfl hblock hnext

theorem keeps_moveTo (io : MoveIo) (dst : Path) (e : Env) :
    Keeps f e.mem (f.moveTo io dst e).2.1 (f.moveTo io dst e).2.2.mem := by
  obtain ⟨hf, hm⟩ := mem_moveTo (f := f) io dst e
  rw [hf, hm]
  exact keeps_copyTo io.write dst e

theorem keeps_read (io : ReadIo) (e : Env) : Keeps f e.mem f (f.read io e).2.mem := by
  unfold read
  split
  · exact keeps_same rfl rfl rfl rfl
  · rename_i size _
    show Keeps f e.mem f (f.readBlock io size e).mem
    unfold readBlock
    simp only
    split
    · split
      · exact keeps_same rfl rfl rfl rfl
      · exact keeps_store _ _
    · exact keeps_same rfl rfl rfl rfl

theorem keeps_alloc (io : AllocIo) : Keeps f m (f.alloc io m).2.1 (f.alloc io m).2.2 := by
  cases io with
  | ok => exact keeps_new
  | thrown afterNew badAlloc =>
    cases afterNew with
    | true => cases badAlloc <;> exact keeps_new.comp keeps_destruct
    | false => cases badAlloc <;> exact keeps_destruct

theorem keeps_allocAndRead (io : LoadIo) (e : Env) :
    Keeps f e.mem (f.allocAndRead io e).2.1 (f.allocAndRead io e).2.2.mem := by
  by_cases h : io.alloc = .ok
  · have hread := keeps_read (f := { f with mBlock := some e.mem.next }) io.read
      { e with mem := (e.mem.newBlock f.mBlockSize).2 }
    have hload := (keeps_new (f := f) (m := e.mem)).comp hread
    rw [allocAndRead_of_ok h e]
    cases io.raised with
    | none => exact hload
    | some thrown =>
      cases thrown with
      | exception => exact hload.comp keeps_destruct
      | anonymous => exact hload
  · rw [allocAndRead_of_thrown h e]
    exact keeps_alloc io.alloc

end File

/-! ### Reachable states -/

namespace World

variable {w w' : World}

/-- Every live instance has no block or one of its size. -/
def Sized (w : World) : Prop := ∀ i f, w.live i = some f → f.Sized w.env.mem

theorem keeps_op {a : Action} {i : ℕ} {op : File → Env → File × Env} (hop : a.op = some (i, op))
    (f : File) (e : Env) : File.Keeps f e.mem (op f e).1 (op f e).2.mem := by
  cases a with
  | alloc k io => cases hop; exact File.keeps_alloc io
  | write k io => cases hop; exact File.keeps_write io e
  | read k io => cases hop; exact File.keeps_read io e
  | allocAndRead k io => cases hop; exact File.keeps_allocAndRead io e
  | copyTo k io dst => cases hop; exact File.keeps_copyTo io dst e
  | moveTo k io dst => cases hop; exact File.keeps_moveTo io dst e
  | cleanHeap k => cases hop; exact File.keeps_cleanHeap
  | _ => cases hop

/-- **Sizes of blocks** survive every action, copy and move construction included. -/
theorem sized_step (w : World) (a : Action) (w' : World) (hw : w.Sized) (h : w.step a = some w') :
    w'.Sized := by
  refine live_step hw h ?_ (fun f hf => hf) (fun f _ hf => hf) (fun i op hop f => ?_) fun f g hg => ?_
  · intro f hnone _ b hb
    rw [hnone] at hb
    exact absurd hb (by simp)
  · have hkeeps := keeps_op hop f w.env
    exact ⟨hkeeps.sized, fun g hg => hg.grows hkeeps.grows⟩
  · exact hg.grows (File.keeps_destruct (f := f)).grows

theorem sized_of_run {fs : Fs} {as : List Action} (h : run step (start fs) as = some w) :
    w.Sized :=
  run_invariant sized_step (fun _ _ hf => absurd hf (by simp [start])) h

end World

/-! ### The bytes `read` asks for -/

namespace File

/-- The bytes allocated behind `m_block`. -/
def capacity (f : File) (m : Mem) : ℕ :=
  match f.mBlock with
  | none => 0
  | some b => (m.block b).length

theorem capacity_of_sized {f : File} {m : Mem} (h : f.Sized m) :
    f.capacity m = if f.mBlock = none then 0 else f.mBlockSize := by
  unfold capacity
  cases hb : f.mBlock with
  | none => rfl
  | some b => exact (h b hb).2

/-- The checks of `read` before it asks for bytes. -/
def PassesChecks (io : ReadIo) (f : File) (fs : Fs) : Prop :=
  isR io.statusOk fs f.mFpath = .success ∧ io.opened.good = true ∧ io.raised ≠ some .beforeRead

theorem readRequest_eq_ok_iff (io : ReadIo) (f : File) (fs : Fs) (n : ℤ) :
    readRequest io f fs = .ok n ↔
      PassesChecks io f fs ∧ n = tellg io.tellgOk (contentsAt fs f.mFpath) := by
  unfold readRequest PassesChecks
  obtain ⟨statusOk, ⟨eof, failed, bad⟩, tellgOk, delivered, raised⟩ := io
  split
  · rename_i hr
    simp only [Iostate.fail, Iostate.good, hr, true_and]
    cases eof <;> cases failed <;> cases bad <;>
      simp only [Bool.or_self, Bool.or_true, Bool.true_or, Bool.not_true, Bool.not_false,
        Bool.and_true, Bool.and_false, Bool.false_eq_true, if_true, if_false, false_and, true_and,
        reduceCtorEq]
    split
    · rename_i hb
      simp [hb]
    · rename_i hb
      simp only [Except.ok.injEq, ne_eq, hb, not_false_eq_true, true_and]
      exact eq_comm
  · rename_i hr
    constructor
    · intro h
      exact absurd h (by simp)
    · rintro ⟨⟨hs, -⟩, -⟩
      exact absurd hs hr

/-- **Bounds of a read.**  In every state reached: the count `read` asks for, if it gets so far, is not
negative and fits the block of the file if and only if a check stops `read` before, or `tellg` works and
the file on disk is at that moment not longer than the block: than `size()`, and empty where there is no
block. -/
theorem read_in_block_iff {fs : Fs} {as : List Action} {w : World}
    (hrun : run World.step (World.start fs) as = some w) {i : ℕ} {f : File}
    (hf : w.live i = some f) (io : ReadIo) :
    (∀ n, readRequest io f w.env.fs = .ok n → 0 ≤ n ∧ n ≤ f.capacity w.env.mem) ↔
      ¬ PassesChecks io f w.env.fs ∨
        (io.tellgOk = true ∧ (contentsAt w.env.fs f.mFpath).length ≤
          if f.mBlock = none then 0 else f.mBlockSize) := by
  have hcap := capacity_of_sized (World.sized_of_run hrun i f hf)
  constructor
  · intro h
    by_cases hc : PassesChecks io f w.env.fs
    · right
      obtain ⟨hpos, hle⟩ := h _ ((readRequest_eq_ok_iff io f w.env.fs _).mpr ⟨hc, rfl⟩)
      cases hok : io.tellgOk with
      | false =>
        rw [hok] at hpos
        exact absurd hpos (by simp [tellg])
      | true =>
        rw [hok, hcap] at hle
        simp only [tellg, if_true] at hle
        exact ⟨rfl, by omega⟩
    · exact Or.inl hc
  · intro h n hn
    obtain ⟨hc, rfl⟩ := (readRequest_eq_ok_iff io f w.env.fs n).mp hn
    obtain ⟨hok, hle⟩ := h.resolve_left fun hno => hno hc
    rw [hok, hcap]
    simp only [tellg, if_true]
    exact ⟨by omega, by omega⟩

/-- The file `a` of two bytes, read into a block of its size. -/
theorem read_in_block_of_own_size :
    ∃ n, readRequest ⟨true, ⟨false, false, false⟩, true, none, none⟩ ⟨2, [97], some 0, 0⟩
      ((Tree.root 0o755 40).putFile [[97]] [1, 2]) = .ok n ∧ 0 ≤ n ∧ n ≤ 2 := by
  have hrun : run World.step (World.start ((Tree.root 0o755 40).putFile [[97]] [1, 2]))
      [.ofPath 0 [97] 2, .alloc 0 .ok] = some _ := rfl
  have hread := (read_in_block_iff hrun (i := 0) (f := ⟨2, [97], some 0, 0⟩) rfl
    ⟨true, ⟨false, false, false⟩, true, none, none⟩).mpr (Or.inr (by decide))
  exact ⟨2, by decide, hread 2 (by decide)⟩

/-- A file of two bytes is read into a block of one. -/
theorem read_past_the_block :
    ¬ ∀ (fs : Fs) (as : List Action) (w : World) (i : ℕ) (f : File) (io : ReadIo),
      run World.step (World.start fs) as = some w → w.live i = some f →
        ∀ n, readRequest io f w.env.fs = .ok n → 0 ≤ n ∧ n ≤ f.capacity w.env.mem := by
  intro h
  have hbound := h ((Tree.root 0o755 40).putFile [[97]] [1, 2])
    [.ofPath 0 [97] 1, .alloc 0 .ok] _ 0 ⟨1, [97], some 0, 0⟩
    ⟨true, ⟨false, false, false⟩, true, none, none⟩ rfl rfl 2 (by decide)
  exact absurd hbound.2 (by decide)

/-! ### The bytes `write`, `print` and `operator==` use -/

/-- The places of its block that `write` gets to, one in each round of the loop; the round that an exception
ends is one of them. -/
def writeIndices (io : WriteIo) (f : File) : List ℕ :=
  if f.mBlock = none then []
  else
    match io.raised with
    | none => List.range f.mBlockSize
    | some k => List.range (min (k + 1) f.mBlockSize)

/-- The places of both blocks that `operator==` compares, if it gets to the bytes. -/
def comparedIndices (lhs rhs : File) : List ℕ :=
  if opNe lhs rhs then [] else List.range lhs.mBlockSize

/-- The loop of `write` puts out one byte after another, from these places. -/
theorem insertAll_eq_foldl (inserted : ℕ → Bool) (bytes : List Byte) (n : ℕ) (ofs : Ofstream) :
    insertAll inserted bytes n ofs =
      (List.range n).foldl (fun ofs i => ofs.put (inserted i) (bytes.getD i 0)) ofs := by
  induction n with
  | zero => rfl
  | succ n ih => rw [insertAll, ih, List.range_succ, List.foldl_concat]

variable {f g : File} {m : Mem} {i : ℕ} {e : Env}

theorem lt_of_mem_printIndices (h : i ∈ f.printIndices) : f.mBlock ≠ none ∧ i < f.mBlockSize := by
  unfold printIndices at h
  split at h
  · exact absurd h (by simp)
  · rename_i hb
    exact ⟨hb, List.mem_range.mp h⟩

theorem lt_of_mem_writeIndices {io : WriteIo} (h : i ∈ f.writeIndices io) :
    f.mBlock ≠ none ∧ i < f.mBlockSize := by
  unfold writeIndices at h
  split at h
  · exact absurd h (by simp)
  · rename_i hb
    split at h
    · exact ⟨hb, List.mem_range.mp h⟩
    · exact ⟨hb, (lt_min_iff.mp (List.mem_range.mp h)).2⟩

/-- The rounds that `insertAll` makes for `write` are among them. -/
theorem mem_writeIndices {io : WriteIo} (hb : f.mBlock ≠ none) (hi : i < io.rounds f.mBlockSize) :
    i ∈ f.writeIndices io := by
  unfold WriteIo.rounds at hi
  rw [writeIndices, if_neg hb]
  split <;> rename_i hr
  · rw [hr] at hi
    exact List.mem_range.mpr hi
  · rw [hr] at hi
    obtain ⟨hk, hsize⟩ := lt_min_iff.mp hi
    exact List.mem_range.mpr (lt_min (Nat.lt_succ_of_lt hk) hsize)

/-- **What `write` uses of its block** is at these places: with other bytes elsewhere, it does the same. -/
theorem write_of_agree {io : WriteIo} {m' : Mem} (h : ∀ b, f.mBlock = some b → ∀ k ∈ f.writeIndices io,
      (m'.block b).getD k 0 = (e.mem.block b).getD k 0) :
    (f.write io ⟨e.fs, m'⟩).1 = (f.write io e).1 ∧
      (f.write io ⟨e.fs, m'⟩).2.fs = (f.write io e).2.fs := by
  cases hb : f.mBlock with
  | none =>
    rw [write, write, hb]
    exact ⟨rfl, rfl⟩
  | some b =>
    obtain ⟨hrc, hfs⟩ := write_of_block hb io e
    obtain ⟨hrc', hfs'⟩ := write_of_block hb io ⟨e.fs, m'⟩
    have houtput : io.output (m'.block b) f.mBlockSize = io.output (e.mem.block b) f.mBlockSize := by
      rw [WriteIo.output, WriteIo.output, insertAll_eq_foldl, insertAll_eq_foldl]
      refine congrArg _ (List.foldl_ext _ _ _ fun ofs k hk => ?_)
      have hmem := mem_writeIndices (hb ▸ Option.some_ne_none b) (List.mem_range.mp hk)
      rw [h b hb k hmem]
    rw [hrc, hrc', hfs, hfs', writeFs, writeFs, houtput]
    exact ⟨rfl, rfl⟩

/-- **What `operator==` uses of the blocks** of two files is at the places compared. -/
theorem opEq_iff_compared (hf : f.Sized m) (hg : g.Sized m) :
    opEq m f g = true ↔ opNe f g = false ∧ ∀ a b, f.mBlock = some a → g.mBlock = some b →
      ∀ k ∈ comparedIndices f g, (m.block a).getD k 0 = (m.block b).getD k 0 := by
  rw [opEq, Bool.and_eq_true, Bool.not_eq_true']
  refine and_congr_right fun hne => ?_
  rw [comparedIndices, hne, if_neg Bool.false_ne_true]
  simp only [opNe, Bool.or_eq_false_iff, Option.isNone_eq_false_iff, bne_eq_false_iff_eq] at hne
  obtain ⟨⟨ha, hb⟩, hsize⟩ := hne
  obtain ⟨a, ha⟩ := Option.isSome_iff_exists.mp ha
  obtain ⟨b, hb⟩ := Option.isSome_iff_exists.mp hb
  have hlena : (m.block a).length = f.mBlockSize := (hf a ha).2
  have hlenb : (m.block b).length = f.mBlockSize := (hg b hb).2.trans hsize.symm
  rw [ha, hb, beq_iff_eq, memcmp_eq_iff, List.take_of_length_le (le_of_eq hlena),
    List.take_of_length_le (le_of_eq hlenb)]
  constructor
  · intro heq a' b' ha' hb' k _
    cases ha'
    cases hb'
    rw [heq]
  · intro h
    refine List.ext_getElem (hlena.trans hlenb.symm) fun k hka hkb => ?_
    have hk := h a b rfl rfl k (List.mem_range.mpr (hlena ▸ hka))
    rwa [List.getD_eq_getElem?_getD, List.getD_eq_getElem?_getD, List.getElem?_eq_getElem hka,
      List.getElem?_eq_getElem hkb, Option.getD_some, Option.getD_some] at hk

theorem lt_of_mem_comparedIndices (h : i ∈ comparedIndices f g) :
    (f.mBlock ≠ none ∧ i < f.mBlockSize) ∧ g.mBlock ≠ none ∧ i < g.mBlockSize := by
  unfold comparedIndices at h
  split at h
  · exact absurd h (by simp)
  · rename_i hne
    simp only [opNe, Bool.or_eq_true, Option.isNone_iff_eq_none, bne_iff_ne, not_or, not_not] at hne
    have hi := List.mem_range.mp h
    exact ⟨⟨hne.1.1, hi⟩, hne.1.2, hne.2 ▸ hi⟩

theorem lt_capacity (hs : f.Sized m) (h : f.mBlock ≠ none ∧ i < f.mBlockSize) :
    i < f.capacity m := by
  rw [capacity_of_sized hs, if_neg h.1]
  exact h.2

/-- `print` puts out the bytes of the block. -/
theorem print_of_sized (hs : f.Sized m) {b : ℕ} (hb : f.mBlock = some b) :
    (f.print m).1 = m.block b := by
  have hprint : (f.print m).1 = f.printIndices.map fun i => (m.block b).getD i 0 := by
    rw [print, hb]
  have hindices : f.printIndices = List.range (m.block b).length := by
    rw [printIndices, hb, if_neg (Option.some_ne_none b), (hs b hb).2]
  rw [hprint, hindices]
  refine List.ext_getElem (by simp) fun i h₁ h₂ => ?_
  simp [List.getD_eq_getElem?_getD, h₂]

/-- **Sizes of blocks.**  In every state reached, a live instance has no block, or one that was allocated
with as many bytes as `size()` says; and every place that `write` or `print` gets to, or that `operator==`
compares with another live instance, is inside the block it is in.  What they do depends on no other places. -/
theorem block_has_size {fs : Fs} {as : List Action} {w : World}
    (hrun : run World.step (World.start fs) as = some w) {i : ℕ} {f : File}
    (hf : w.live i = some f) :
    (f.mBlock = none ∨ ∃ b, f.mBlock = some b ∧ b < w.env.mem.next ∧
        (w.env.mem.block b).length = f.mBlockSize) ∧
      (∀ io, (∀ k ∈ f.writeIndices io, k < f.capacity w.env.mem) ∧
        ∀ m' : Mem, (∀ b, f.mBlock = some b → ∀ k ∈ f.writeIndices io,
            (m'.block b).getD k 0 = (w.env.mem.block b).getD k 0) →
          (f.write io ⟨w.env.fs, m'⟩).1 = (f.write io w.env).1 ∧
            (f.write io ⟨w.env.fs, m'⟩).2.fs = (f.write io w.env).2.fs) ∧
      (∀ k ∈ f.printIndices, k < f.capacity w.env.mem) ∧
      ∀ j g, w.live j = some g →
        (∀ k ∈ comparedIndices f g, k < f.capacity w.env.mem ∧ k < g.capacity w.env.mem) ∧
          (opEq w.env.mem f g = true ↔ opNe f g = false ∧
            ∀ a b, f.mBlock = some a → g.mBlock = some b → ∀ k ∈ comparedIndices f g,
              (w.env.mem.block a).getD k 0 = (w.env.mem.block b).getD k 0) := by
  have hsized := World.sized_of_run hrun
  have hown := hsized i f hf
  refine ⟨?_, fun io => ⟨fun k hk => ?_, fun m' h => write_of_agree h⟩, fun k hk => ?_,
    fun j g hg => ⟨fun k hk => ?_, opEq_iff_compared hown (hsized j g hg)⟩⟩
  · cases hb : f.mBlock with
    | none => exact Or.inl rfl
    | some b => exact Or.inr ⟨b, rfl, hown b hb⟩
  · exact lt_capacity hown (lt_of_mem_writeIndices hk)
  · exact lt_capacity hown (lt_of_mem_printIndices hk)
  · obtain ⟨hlhs, hrhs⟩ := lt_of_mem_comparedIndices hk
    exact ⟨lt_capacity hown hlhs, lt_capacity (hsized j g hg) hrhs⟩

/-- A block of two bytes, and a copy of its file. -/
theorem block_has_size_of_copy :
    ∃ w, run World.step (World.start (Tree.root 0o755 40))
        [.ofPath 0 [97] 2, .alloc 0 .ok, .copyOf 1 0] = some w ∧
      w.live 1 = some ⟨2, [97], some 0, 0⟩ ∧ (w.env.mem.block 0).length = 2 := by
  refine ⟨_, rfl, rfl, ?_⟩
  obtain ⟨hblock, -⟩ := @block_has_size (Tree.root 0o755 40) [.ofPath 0 [97] 2, .alloc 0 .ok, .copyOf 1 0]
    _ rfl 1 ⟨2, [97], some 0, 0⟩ rfl
  obtain ⟨b, hb, -, hlen⟩ := hblock.resolve_left (by simp)
  cases hb
  exact hlen

end File

end WndxSane
