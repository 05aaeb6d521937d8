import WndxSane.Instances

/-!
# Lifetime of an instance

The handlers of `alloc` and of `alloc_and_read` call the destructor to release the block.  That also ends
the lifetime of the instance: its path is destroyed there, and once more at the end of its scope.

* `dtors_alloc`, `dtors_allocAndRead`: how often a call runs the destructor.
* **`members_destroyed_once_iff`**: the calls that leave the instance whole, and the runs in which every
  instance is destroyed once, at its end.
-/

namespace WndxSane

open Transition

namespace File

variable {f : File}

/-! ### One call -/

/-- The destructor has not run on `f'` since it was `f`, and its members are the same but for the block. -/
structure Alive (f f' : File) : Prop where
  dtors : f'.dtors = f.dtors
  mFpath : f'.mFpath = f.mFpath
  mBlockSize : f'.mBlockSize = f.mBlockSize

theorem dtors_destruct (m : Mem) : (f.destruct m).1.dtors = f.dtors + 1 := rfl

theorem dtors_alloc (io : AllocIo) (m : Mem) :
    (f.alloc io m).2.1.dtors = f.dtors + if io = .ok then 0 else 1 := by
  cases io with
  | ok => rfl
  | thrown afterNew badAlloc => cases afterNew <;> cases badAlloc <;> rfl

/-- A code of one of the handlers comes from an exception. -/
theorem alloc_code (io : AllocIo) (m : Mem) :
    ((f.alloc io m).1 = .memoryBadAlloc ∨ (f.alloc io m).1 = .critExUnhandled) ↔ io ≠ .ok := by
  cases io with
  | ok => simp [alloc]
  | thrown afterNew badAlloc => cases badAlloc <;> simp [alloc]

theorem dtors_allocAndRead (io : LoadIo) (e : Env) :
    (f.allocAndRead io e).2.1.dtors =
      f.dtors + if io.alloc = .ok ∧ io.raised ≠ some .exception then 0 else 1 := by
  by_cases h : io.alloc = .ok
  · obtain ⟨alloc, read, raised⟩ := io
    cases h
    cases raised with
    | none => rfl
    | some thrown => cases thrown <;> rfl
  · rw [allocAndRead_of_thrown h e, dtors_alloc, if_neg h, if_neg fun hok => h hok.1]

theorem not_alive_of_thrown {io : AllocIo} (m : Mem) (h : io ≠ .ok) :
    ¬ Alive f (f.alloc io m).2.1 := by
  intro halive
  have hdtors := halive.dtors
  rw [dtors_alloc, if_neg h] at hdtors
  omega

end File

/-! ### Runs -/

namespace World

variable {w w' : World}

/-- The members of every live instance are constructed, and the end of its scope is the first time that
they are destroyed. -/
def Whole (w : World) : Prop :=
  ∀ i f, w.live i = some f → f.dtors = 0 ∧ (f.destruct w.env.mem).1.dtors = 1

/-- No handler that calls the destructor is entered. -/
def Unhandled : Action → Prop
  | .alloc _ io => io = .ok
  | .allocAndRead _ io => io.alloc = .ok ∧ io.raised ≠ some .exception
  | _ => True

theorem whole_iff : w.Whole ↔ ∀ i f, w.live i = some f → f.dtors = 0 := by
  refine ⟨fun hw i f hf => (hw i f hf).1, fun hw i f hf => ⟨hw i f hf, ?_⟩⟩
  rw [File.dtors_destruct, hw i f hf]

/-- A call that enters no such handler does not run the destructor. -/
theorem dtors_op {a : Action} {i : ℕ} {op : File → Env → File × Env} (hop : a.op = some (i, op))
    (hun : Unhandled a) (f : File) (e : Env) : (op f e).1.dtors = f.dtors := by
  have hcopy : ∀ io dst, (f.copyTo io dst e).2.1.dtors = f.dtors := by
    intro io dst
    cases hb : f.mBlock with
    | none => rw [File.copyTo, hb]
    | some b => rw [File.copyTo_of_block hb]; rfl
  cases a with
  | alloc k io =>
    cases hop
    simp only [Unhandled] at hun
    show (f.alloc io e.mem).2.1.dtors = f.dtors
    rw [File.dtors_alloc, if_pos hun]
    rfl
  | write k io => cases hop; rfl
  | read k io => cases hop; rfl
  | allocAndRead k io =>
    cases hop
    simp only [Unhandled] at hun
    show (f.allocAndRead io e).2.1.dtors = f.dtors
    rw [File.dtors_allocAndRead, if_pos hun]
    rfl
  | copyTo k io dst =>
    cases hop
    exact hcopy io dst
  | moveTo k io dst =>
    cases hop
    show (f.moveTo io dst e).2.1.dtors = f.dtors
    rw [(File.mem_moveTo io dst e).1, hcopy]
  | cleanHeap k => cases hop; rfl
  | _ => cases hop

theorem whole_step {a : Action} (hw : w.Whole) (h : w.step a = some w') (hun : Unhandled a) :
    w'.Whole := by
  rw [whole_iff] at hw ⊢
  refine live_step (P := fun f _ => f.dtors = 0) hw h (fun f _ hd => hd) (fun _ _ => rfl)
    (fun _ _ hf => hf) (fun i op hop f => ⟨fun hf => ?_, fun _ hg => hg⟩) fun _ _ hg => hg
  rw [dtors_op hop hun, hf]

/-- An instance on which a call runs the destructor is not whole. -/
theorem not_whole_of_call {i : ℕ} {op : File → Env → File × Env} (h : w.call i op = some w')
    (hop : ∀ f, (op f w.env).1.dtors = f.dtors + 1) : ¬ w'.Whole := by
  obtain ⟨f, -, rfl⟩ := call_eq_some h
  intro hw
  have hzero := (hw i _ (Function.update_self ..)).1
  rw [hop f] at hzero
  omega

theorem not_whole_of_handled {a : Action} (h : w.step a = some w') (hun : ¬ Unhandled a) :
    ¬ w'.Whole := by
  cases a with
  | alloc i io =>
    simp only [step] at h
    simp only [Unhandled] at hun
    refine not_whole_of_call h fun f => ?_
    rw [File.dtors_alloc, if_neg hun]
  | allocAndRead i io =>
    simp only [step] at h
    simp only [Unhandled] at hun
    refine not_whole_of_call h fun f => ?_
    rw [File.dtors_allocAndRead, if_neg hun]
  | _ => exact absurd trivial hun

/-- **Lifetime.**  A call of `alloc`, or the allocation in a call of `alloc_and_read`, leaves the instance
alive where it returns the code of an exception only if none was thrown; and in every state of a run all
live instances are whole if and only if in the run no handler that calls the destructor was entered. -/
theorem members_destroyed_once_iff (f : File) (e : Env) (io : File.AllocIo) (load : File.LoadIo)
    (fs : Fs) (as : List Action) :
    (((f.alloc io e.mem).1 = .memoryBadAlloc ∨ (f.alloc io e.mem).1 = .critExUnhandled →
        File.Alive f (f.alloc io e.mem).2.1) ↔ io = .ok) ∧
      ((load.alloc ≠ .ok →
          (f.allocAndRead load e).1 = .memoryBadAlloc ∨ (f.allocAndRead load e).1 = .critExUnhandled →
            File.Alive f (f.allocAndRead load e).2.1) ↔ load.alloc = .ok) ∧
        (Throughout step Whole (start fs) as ↔ Guarded step (fun _ => Unhandled) (start fs) as) := by
  refine ⟨?_, ?_, ?_⟩
  · constructor
    · intro h
      by_contra hio
      exact File.not_alive_of_thrown e.mem hio (h ((File.alloc_code io e.mem).mpr hio))
    · intro hio hcode
      exact absurd hio ((File.alloc_code io e.mem).mp hcode)
  · constructor
    · intro h
      by_contra hio
      have hcall := h hio
      rw [File.allocAndRead_of_thrown hio e] at hcall
      exact File.not_alive_of_thrown e.mem hio (hcall ((File.alloc_code load.alloc e.mem).mpr hio))
    · intro hio hthrown
      exact absurd hio hthrown
  · refine throughout_iff_guarded (I := Whole) (fun w hw => hw) ?_ ?_
      (show ∀ a ∈ as, True from fun _ _ => trivial) ?_
    · exact fun w a w' _ hw h hun => whole_step hw h hun
    · exact fun w a w' _ _ h hun => not_whole_of_handled h hun
    · intro i f hf
      exact absurd hf (by simp [start])

/-- `new` throws in `alloc`, and the scope of the instance ends: its path is destroyed twice. -/
theorem members_destroyed_twice :
    ¬ ∀ (f : File) (e : Env) (io : File.AllocIo) (load : File.LoadIo) (fs : Fs) (as : List Action),
      ((f.alloc io e.mem).1 = .memoryBadAlloc ∨ (f.alloc io e.mem).1 = .critExUnhandled →
        File.Alive f (f.alloc io e.mem).2.1) ∧
      (load.alloc ≠ .ok →
        (f.allocAndRead load e).1 = .memoryBadAlloc ∨ (f.allocAndRead load e).1 = .critExUnhandled →
          File.Alive f (f.allocAndRead load e).2.1) ∧
        Throughout step Whole (start fs) as := by
  intro h
  have hlast := (h (.ofPath [97] 1) (start (FileTree.Tree.root 0o755 40)).env .ok
    ⟨.ok, ⟨true, ⟨false, false, false⟩, true, none, none⟩, none⟩ (FileTree.Tree.root 0o755 40)
    [.ofPath 0 [97] 1, .alloc 0 (.thrown false true)]).2.2.last rfl
  exact absurd (hlast 0 _ rfl).1 (by decide)

end World

end WndxSane
