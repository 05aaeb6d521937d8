import WndxSane.ReportedSuccess
import WndxSane.Lib.RankedOrder

/-!
# Comparison of files

`operator!=` looks at the blocks being there and at their sizes, `operator==` at the bytes as well, so
that both are false of two files of one size with different bytes.

* **`opEq_eq_true_iff`**: `==` is equality of the contents.
* **`opNe_opEq_iff`**: for which files `!=` is the complement of `==`.
* **`comparison_sortingLaws`**: `<` and its relatives order all files by size, and `==` is equality of the
  contents compared, whatever state the files are in.
-/

namespace WndxSane.File

open RankedOrder

/-- The bytes of the block of a file. -/
def held (m : Mem) (f : File) : Option (List Byte) := f.mBlock.map m.block

/-- Both files have a block, of one size and with the same bytes. -/
structure SameContents (m : Mem) (lhs rhs : File) : Prop where
  block : lhs.mBlock ≠ none ∧ rhs.mBlock ≠ none
  size : lhs.mBlockSize = rhs.mBlockSize
  bytes : held m lhs = held m rhs

variable {m : Mem} {lhs rhs : File}

/-- `!=` is true when a block is missing or the sizes differ. -/
theorem opNe_eq_true_iff (lhs rhs : File) :
    opNe lhs rhs = true ↔
      lhs.mBlock = none ∨ rhs.mBlock = none ∨ lhs.mBlockSize ≠ rhs.mBlockSize := by
  simp only [opNe, Bool.or_eq_true, Option.isNone_iff_eq_none, bne_iff_ne, or_assoc]

/-- What `operator==` compares: the size, and as many bytes of the block. -/
def compared (m : Mem) (f : File) : Option (ℕ × List Byte) :=
  f.mBlock.map fun b => (f.mBlockSize, (m.block b).take f.mBlockSize)

theorem compared_ne_none_iff (f : File) : compared m f ≠ none ↔ f.mBlock ≠ none := by
  rw [compared, Ne, Option.map_eq_none_iff]

theorem opEq_iff_same (lhs rhs : File) : opEq m lhs rhs = true ↔ Same (compared m) lhs rhs := by
  rw [opEq, Bool.and_eq_true, Bool.not_eq_true', ← Bool.not_eq_true, opNe_eq_true_iff]
  push Not
  cases ha : lhs.mBlock with
  | none => exact ⟨fun h => absurd rfl h.1.1, fun h => absurd ha ((compared_ne_none_iff lhs).mp h.1)⟩
  | some a =>
    cases hb : rhs.mBlock with
    | none =>
      refine ⟨fun h => absurd rfl h.1.2.1, fun h => ?_⟩
      exact absurd hb ((compared_ne_none_iff rhs).mp h.symm.1)
    | some b =>
      rw [Same, compared_ne_none_iff, compared, compared, ha, hb, Option.map_some, Option.map_some,
        Option.some_inj, Prod.mk.injEq, beq_iff_eq, memcmp_eq_iff]
      constructor
      · rintro ⟨⟨-, -, hsize⟩, hbytes⟩
        exact ⟨by simp, hsize, hsize ▸ hbytes⟩
      · rintro ⟨-, hsize, hbytes⟩
        exact ⟨⟨by simp, by simp, hsize⟩, by rw [hbytes, hsize]⟩

theorem size_eq_of_same {lhs rhs : File} (h : Same (compared m) lhs rhs) :
    lhs.mBlockSize = rhs.mBlockSize := by
  obtain ⟨hne, heq⟩ := h
  cases ha : lhs.mBlock with
  | none => exact absurd (by rw [compared, ha]; rfl) hne
  | some a =>
    cases hb : rhs.mBlock with
    | none =>
      rw [compared, compared, ha, hb] at heq
      exact absurd heq (by simp)
    | some b =>
      rw [compared, compared, ha, hb, Option.map_some, Option.map_some, Option.some_inj] at heq
      exact (Prod.mk.inj heq).1

/-- For blocks that have their sizes, that is the size and all of the bytes. -/
theorem compared_of_sized {f : File} (h : f.Sized m) :
    compared m f = (held m f).map fun bytes => (f.mBlockSize, bytes) := by
  rw [compared, held, Option.map_map]
  refine Option.map_congr fun b hb => ?_
  rw [List.take_of_length_le (le_of_eq (h b hb).2)]
  rfl

/-- **Equality of the contents.** -/
theorem opEq_eq_true_iff (hl : lhs.Sized m) (hr : rhs.Sized m) :
    opEq m lhs rhs = true ↔ SameContents m lhs rhs := by
  rw [opEq_iff_same]
  constructor
  · intro h
    have hbytes : held m lhs = held m rhs := by
      have hsnd := congrArg (Option.map Prod.snd) h.2
      rw [compared_of_sized hl, compared_of_sized hr] at hsnd
      simpa [Function.comp_def] using hsnd
    exact ⟨⟨(compared_ne_none_iff lhs).mp h.1, (compared_ne_none_iff rhs).mp h.symm.1⟩,
      size_eq_of_same h, hbytes⟩
  · intro h
    refine ⟨(compared_ne_none_iff lhs).mpr h.block.1, ?_⟩
    rw [compared_of_sized hl, compared_of_sized hr, h.size, h.bytes]

/-- **Complementary operators.**  For two files whose blocks have their sizes: `!=` holds exactly when `==`
does not, and `==` exactly when the contents are the same, if and only if a block is missing, the sizes
differ, or the bytes are equal. -/
theorem opNe_opEq_iff (hl : lhs.Sized m) (hr : rhs.Sized m) :
    ((opNe lhs rhs = true ↔ ¬ opEq m lhs rhs = true) ∧
        (opEq m lhs rhs = true ↔ SameContents m lhs rhs)) ↔
      lhs.mBlock = none ∨ rhs.mBlock = none ∨ lhs.mBlockSize ≠ rhs.mBlockSize ∨
        held m lhs = held m rhs := by
  have heq := opEq_eq_true_iff hl hr
  have hne := opNe_eq_true_iff lhs rhs
  have hsame : SameContents m lhs rhs ↔ ¬ opNe lhs rhs = true ∧ held m lhs = held m rhs := by
    rw [hne]
    push Not
    exact ⟨fun h => ⟨⟨h.block.1, h.block.2, h.size⟩, h.bytes⟩,
      fun h => ⟨⟨h.1.1, h.1.2.1⟩, h.1.2.2, h.2⟩⟩
  rw [← or_assoc, ← or_assoc, or_assoc (a := lhs.mBlock = none), ← hne, and_iff_left heq, heq, hsame]
  tauto

/-- The file `a` and itself. -/
theorem opNe_opEq_self :
    (opNe oneFile oneFile = true ↔ ¬ opEq oneFileEnv.mem oneFile oneFile = true) ∧
      (opEq oneFileEnv.mem oneFile oneFile = true ↔ SameContents oneFileEnv.mem oneFile oneFile) :=
  (opNe_opEq_iff oneFile_sized oneFile_sized).mpr (Or.inr (Or.inr (Or.inr rfl)))

/-- Two blocks of one byte, a zero and a one. -/
def twoBlocks : Mem := ⟨fun b => [b.toUInt8], 2, [.new 1, .new 0], by decide⟩

/-- Two files of one byte that differ: neither operator holds. -/
theorem neither_opNe_nor_opEq :
    ¬ ∀ (m : Mem) (lhs rhs : File), lhs.Sized m → rhs.Sized m →
      (opNe lhs rhs = true ↔ ¬ opEq m lhs rhs = true) ∧
        (opEq m lhs rhs = true ↔ SameContents m lhs rhs) := by
  intro h
  have hsized : ∀ b < 2, File.Sized ⟨1, [97], some b, 0⟩ twoBlocks := by
    intro b hb c hc
    cases hc
    exact ⟨hb, rfl⟩
  have hboth := (h twoBlocks ⟨1, [97], some 0, 0⟩ ⟨1, [97], some 1, 0⟩ (hsized 0 (by decide))
    (hsized 1 (by decide))).1
  exact absurd hboth (by decide)

/-! ### Ordering -/

/-- Files of different sizes are never equal, so `<` is the order of the sizes. -/
theorem opLt_iff (lhs rhs : File) : opLt lhs rhs = true ↔ lhs.mBlockSize < rhs.mBlockSize := by
  rw [opLt, Bool.and_eq_true, decide_eq_true_eq, opNe_eq_true_iff]
  exact ⟨fun h => h.2, fun h => ⟨Or.inr (Or.inr (ne_of_lt h)), h⟩⟩

theorem opGt_iff (lhs rhs : File) : opGt lhs rhs = true ↔ rhs.mBlockSize < lhs.mBlockSize := by
  rw [opGt, Bool.and_eq_true, decide_eq_true_eq, opNe_eq_true_iff]
  exact ⟨fun h => h.2, fun h => ⟨Or.inr (Or.inr (ne_of_gt h)), h⟩⟩

/-- **Operators for sorting.**  In every state of the heap, for files with or without a block and of any
size: `<` is a strict weak order and `>` its converse, `<=` and `>=` are transitive and converse to each
other, antisymmetric up to `==`, and `==` is a partial equivalence that holds of a file and itself exactly
where it has a block. -/
theorem comparison_sortingLaws (m : Mem) :
    SortingLaws (fun a b => opLt a b = true) (fun a b => opGt a b = true)
      (fun a b => opLe m a b = true) (fun a b => opGe m a b = true) (fun a b => opEq m a b = true)
      (fun f => f.mBlock ≠ none) :=
  sortingLaws_of_rank (fun _ _ h => size_eq_of_same h) opLt_iff opGt_iff opEq_iff_same
    (fun a b => by rw [opLe, Bool.or_eq_true]) (fun a b => by rw [opGe, Bool.or_eq_true])
    (fun f => (compared_ne_none_iff f).symm)

end WndxSane.File
