import WndxSane.Instances

/-!
# Who owns the blocks

The defaulted copy and move constructors copy the pointer to the block, so that two instances own it and
both destructors delete it; and an allocation overwrites the pointer it finds, so that the block behind it
is lost.

* **`unique_ownership_iff`**: the runs in which blocks have one owner are those that copy and move only
  files without a block.
* **`no_block_lost_iff`**: without copies and moves, the runs in which no block is lost are those that
  allocate only where there is no block.
-/

namespace WndxSane.World

open Ownership Transition

variable {w w' : World}

theorem owned_start (fs : Fs) : Owned (start fs).holds (start fs).trace := owned_nil

/-! ### Unique ownership -/

theorem owned_step {a : Action} (hw : Owned w.holds w.trace) (h : w.step a = some w')
    (hun : w.Unshared a) : Owned w'.holds w'.trace := by
  obtain ⟨i, hm⟩ := step_moves False h hun False.elim
  exact Owned.moves hw hm

/-- A copy of a file with a block shares it. -/
theorem shared_of_copyOf {i src : ℕ} (h : w.step (.copyOf i src) = some w')
    (hsrc : w.holds src ≠ none) : ¬ Unique w'.holds w'.trace := by
  obtain ⟨f, hf, hw'⟩ := Option.bind_eq_some_iff.mp h
  obtain ⟨hi, rfl⟩ := construct_eq_some hw'
  rw [holds_of_live hf] at hsrc
  obtain ⟨b, hb⟩ := Option.ne_none_iff_exists'.mp hsrc
  have hne : i ≠ src := fun he => by rw [he, hf] at hi; exact absurd hi (by simp)
  refine not_unique_of_share hne (b := b) ?_ ?_
  · rw [holds_update, Function.update_self, Option.bind_some]
    exact hb
  · rw [holds_update, Function.update_of_ne hne.symm, hf, Option.bind_some, hb]

/-- A file moved from keeps its block. -/
theorem shared_of_moveOf {i src : ℕ} {left : Path} (h : w.step (.moveOf i src left) = some w')
    (hsrc : w.holds src ≠ none) : ¬ Unique w'.holds w'.trace := by
  simp only [step, Option.bind_eq_some_iff, Option.map_eq_some_iff] at h
  obtain ⟨f, hf, w₁, hw₁, rfl⟩ := h
  obtain ⟨hi, rfl⟩ := construct_eq_some hw₁
  rw [holds_of_live hf] at hsrc
  obtain ⟨b, hb⟩ := Option.ne_none_iff_exists'.mp hsrc
  have hne : i ≠ src := fun he => by rw [he, hf] at hi; exact absurd hi (by simp)
  refine not_unique_of_share hne (b := b) ?_ ?_
  · rw [holds_update, Function.update_of_ne hne]
    show (Function.update w.live i (some (File.moveOf left f).1) i).bind File.mBlock = some b
    rw [Function.update_self]
    exact hb
  · rw [holds_update, Function.update_self, Option.bind_some]
    exact hb

/-- **Unique ownership.**  In every state of a run no two instances hold one block, none holds a deleted
one, no block has been deleted twice or used after it was deleted, if and only if every file copied or
moved by a constructor in the run had no block. -/
theorem unique_ownership_iff (fs : Fs) (as : List Action) :
    Throughout step (fun w => Unique w.holds w.trace ∧ TraceSafe w.trace) (start fs) as ↔
      Guarded step Unshared (start fs) as := by
  refine throughout_iff_guarded (I := fun w => Owned w.holds w.trace)
    (fun w hw => ⟨hw.toUnique, hw.toTraceSafe⟩) ?_ ?_ (show ∀ a ∈ as, True from fun _ _ => trivial)
    (owned_start fs)
  · intro w a w' _ hw h hun
    exact owned_step hw h hun
  · rintro w a w' - - h hun ⟨hunique, -⟩
    cases a with
    | copyOf i src => exact shared_of_copyOf h hun hunique
    | moveOf i src left => exact shared_of_moveOf h hun hunique
    | _ => exact hun trivial

/-- A file with a block, its copy, and the end of both: the block is deleted twice. -/
theorem copied_block_deleted_twice :
    ¬ ∀ (fs : Fs) (as : List Action),
      Throughout step (fun w => Unique w.holds w.trace ∧ TraceSafe w.trace) (start fs) as := by
  intro h
  have hlast := (h (FileTree.Tree.root 0o755 40)
    [.ofPath 0 [97] 1, .alloc 0 .ok, .copyOf 1 0, .destruct 0, .destruct 1]).last rfl
  exact absurd hlast.2.nodup (by decide)

/-! ### Leaks -/

/-- Neither copy nor move construction. -/
def NoCopies : Action → Prop
  | .copyOf _ _ => False
  | .moveOf _ _ _ => False
  | _ => True

theorem unshared_of_noCopies {a : Action} (h : NoCopies a) (w : World) : w.Unshared a := by
  cases a with
  | copyOf i src => exact h.elim
  | moveOf i src left => exact h.elim
  | _ => trivial

/-- A call that allocates over a block loses it, whatever it does after the allocation. -/
theorem lost_of_call {i : ℕ} {op : File → Env → File × Env} (hw : Owned w.holds w.trace)
    (h : w.call i op = some w') (hi : w.holds i ≠ none)
    (hop : ∀ f, w.live i = some f →
      File.Effect False { f with mBlock := some w.env.mem.next }
        (w.env.mem.newBlock f.mBlockSize).2 (op f w.env).1 (op f w.env).2.mem) :
    ¬ NoLost w'.holds w'.trace := by
  obtain ⟨f, hf, rfl⟩ := call_eq_some h
  obtain ⟨c, hc⟩ := Option.ne_none_iff_exists'.mp hi
  have hfresh : w.env.mem.next ∉ allocated w.trace :=
    fun hmem => absurd (w.env.mem.fresh _ hmem) (lt_irrefl _)
  have hlost := hw.lost_of_take hfresh hc
  have hmoves := hop f hf (Function.update w.holds i (some w.env.mem.next)) i
    (Function.update_self ..)
  rw [Function.update_idem] at hmoves
  have hend := Lost.moves (s := (_, _)) hlost hmoves
  rw [holds_update]
  exact hend.not_noLost

theorem noLost_step {a : Action} (hl : NoLost w.holds w.trace) (h : w.step a = some w')
    (hun : w.Unshared a) (hcareful : w.Careful a) : NoLost w'.holds w'.trace := by
  obtain ⟨i, hm⟩ := step_moves True h hun fun _ => hcareful
  exact NoLost.moves hl trivial hm

theorem lost_of_not_careful {a : Action} (hw : Owned w.holds w.trace) (h : w.step a = some w')
    (hcareful : ¬ w.Careful a) : ¬ NoLost w'.holds w'.trace := by
  cases a with
  | alloc i io =>
    obtain ⟨hio, hi⟩ := Classical.not_imp.mp hcareful
    simp only [step] at h
    exact lost_of_call hw h hi fun f _ => File.effect_alloc_after_new hio
  | allocAndRead i io =>
    obtain ⟨hio, hi⟩ := Classical.not_imp.mp hcareful
    simp only [step] at h
    exact lost_of_call hw h hi fun f _ =>
      (File.effect_alloc_after_new hio).comp (File.effect_load_after_alloc io w.env)
  | _ => exact absurd trivial hcareful

/-- **No lost blocks.**  Without copy and move construction: in every state of a run each allocated block
is deleted or held by a live instance, and once all instances are destroyed each has been deleted, if and
only if every allocation that succeeded was made on an instance without a block. -/
theorem no_block_lost_iff (fs : Fs) {as : List Action} (hcopies : ∀ a ∈ as, NoCopies a) :
    (Throughout step (fun w => NoLost w.holds w.trace) (start fs) as ∧
      ∀ w, run step (start fs) as = some w → (∀ i, w.live i = none) →
        ∀ b ∈ allocated w.trace, b ∈ deleted w.trace) ↔
      Guarded step Careful (start fs) as := by
  have hiff : Throughout step (fun w => NoLost w.holds w.trace) (start fs) as ↔
      Guarded step Careful (start fs) as := by
    refine throughout_iff_guarded
      (I := fun w : World => Owned w.holds w.trace ∧ NoLost w.holds w.trace) (fun w hw => hw.2) ?_ ?_ hcopies
      ⟨owned_start fs, noLost_nil⟩
    · rintro w a w' ha ⟨hw, hl⟩ h hcareful
      have hun := unshared_of_noCopies ha w
      exact ⟨owned_step hw h hun, noLost_step hl h hun hcareful⟩
    · rintro w a w' - ⟨hw, -⟩ h hcareful
      exact lost_of_not_careful hw h hcareful
  constructor
  · intro h
    exact hiff.mp h.1
  · intro h
    have hnl := hiff.mpr h
    refine ⟨hnl, fun w hrun hdead => ?_⟩
    have hlast : NoLost w.holds w.trace := hnl.last hrun
    exact hlast.all_deleted fun i => by rw [holds, hdead i]; rfl

/-- Allocation, release and allocation again lose nothing. -/
theorem no_block_lost_after_cleanHeap :
    Throughout step (fun w => NoLost w.holds w.trace) (start (FileTree.Tree.root 0o755 40))
      [.ofPath 0 [97] 1, .alloc 0 .ok, .cleanHeap 0, .alloc 0 .ok, .destruct 0] := by
  have hcopies : ∀ a ∈ [Action.ofPath 0 [97] 1, .alloc 0 .ok, .cleanHeap 0, .alloc 0 .ok, .destruct 0],
      NoCopies a := by simp [NoCopies]
  refine ((no_block_lost_iff (FileTree.Tree.root 0o755 40) hcopies).mpr ?_).1
  exact .cons rfl trivial <| .cons rfl (fun _ => rfl) <| .cons rfl trivial <|
    .cons rfl (fun _ => rfl) <| .cons rfl trivial trivial

/-- Two allocations on one instance and its end: the first block is never deleted. -/
theorem block_lost_by_second_alloc :
    ¬ ∀ (fs : Fs) (as : List Action), (∀ a ∈ as, NoCopies a) →
      Throughout step (fun w => NoLost w.holds w.trace) (start fs) as ∧
        ∀ w, run step (start fs) as = some w → (∀ i, w.live i = none) →
          ∀ b ∈ allocated w.trace, b ∈ deleted w.trace := by
  intro h
  have hend := (h (FileTree.Tree.root 0o755 40)
    [.ofPath 0 [97] 1, .alloc 0 .ok, .alloc 0 .ok, .destruct 0] (by simp [NoCopies])).2 _ rfl
  have hdead := hend (fun i => by
    by_cases hi : i = 0
    · rw [hi]
      rfl
    · simp [Function.update_of_ne hi, start]) 0 (by decide)
  exact absurd hdead (by decide)

end WndxSane.World
