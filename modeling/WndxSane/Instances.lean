import WndxSane.File
import WndxSane.Lib.Transition

/-!
# Instances

A world has any number of `File` instances, each under a name, that share the file system and the heap.
An action is one call of the public interface on one instance, with the outcomes of the system calls it
makes, or a change of the file system from outside.

* `step_cases`, `live_step`: all that a step can do, and what it keeps of the live instances.
* `File.Effect`: what a function of `File` does to the block of its instance, as moves of an owner.
* **`step_moves`**: an action is moves of one owner, unless it copies or moves a file that has a block.
-/

namespace WndxSane

open Ownership Transition

structure World where
  env : Env
  live : ℕ → Option File

/-- Instances are constructed, used and destroyed in any order. -/
inductive Action
  | ofPath (i : ℕ) (fpath : Path) (sz : ℕ)
  | ofFinfo (i : ℕ) (finfo : Finfo) (dpath : Path)
  | copyOf (i src : ℕ)
  | moveOf (i src : ℕ) (left : Path)
  | alloc (i : ℕ) (io : File.AllocIo)
  | write (i : ℕ) (io : File.WriteIo)
  | read (i : ℕ) (io : File.ReadIo)
  | allocAndRead (i : ℕ) (io : File.LoadIo)
  | copyTo (i : ℕ) (io : File.WriteIo) (dst : Path)
  | moveTo (i : ℕ) (io : File.MoveIo) (dst : Path)
  | cleanHeap (i : ℕ)
  | destruct (i : ℕ)
  | outside (fs : Fs)

/-- The call that an action makes, and the instance it makes it on. -/
def Action.op : Action → Option (ℕ × (File → Env → File × Env))
  | .alloc i io => some (i, fun f e =>
    let (_, f', m') := f.alloc io e.mem
    (f', { e with mem := m' }))
  | .write i io => some (i, fun f e => (f, (f.write io e).2))
  | .read i io => some (i, fun f e => (f, (f.read io e).2))
  | .allocAndRead i io => some (i, fun f e => (f.allocAndRead io e).2)
  | .copyTo i io dst => some (i, fun f e => (f.copyTo io dst e).2)
  | .moveTo i io dst => some (i, fun f e => (f.moveTo io dst e).2)
  | .cleanHeap i => some (i, fun f e =>
    let (f', m') := f.cleanHeap e.mem
    (f', { e with mem := m' }))
  | _ => none

namespace World

/-- No instances and no blocks yet. -/
def start (fs : Fs) : World := ⟨⟨fs, ⟨fun _ => [], 0, [], by simp [allocated]⟩⟩, fun _ => none⟩

/-- The block each instance holds. -/
def holds (w : World) (i : ℕ) : Option ℕ := (w.live i).bind File.mBlock

abbrev trace (w : World) : List (Event ℕ) := w.env.mem.trace

/-- A new instance, under a name that is free. -/
def construct (w : World) (i : ℕ) (f : File) : Option World :=
  match w.live i with
  | none => some { w with live := Function.update w.live i (some f) }
  | some _ => none

/-- A call on an instance. -/
def call (w : World) (i : ℕ) (op : File → Env → File × Env) : Option World :=
  match w.live i with
  | none => none
  | some f => some ⟨(op f w.env).2, Function.update w.live i (some (op f w.env).1)⟩

/-- The end of an instance. -/
def destroy (w : World) (i : ℕ) : Option World :=
  match w.live i with
  | none => none
  | some f =>
    some ⟨{ w.env with mem := (f.destruct w.env.mem).2 }, Function.update w.live i none⟩

def step (w : World) : Action → Option World
  | .ofPath i fpath sz => w.construct i (.ofPath fpath sz)
  | .ofFinfo i finfo dpath => (File.ofFinfo finfo dpath).bind fun f => w.construct i f
  | .copyOf i src => (w.live src).bind fun f => w.construct i f.copyOf
  | .moveOf i src left =>
    (w.live src).bind fun f =>
      let (f', old) := File.moveOf left f
      (w.construct i f').map fun w' => { w' with live := Function.update w'.live src (some old) }
  | .alloc i io => w.call i fun f e =>
    let (_, f', m') := f.alloc io e.mem
    (f', { e with mem := m' })
  | .write i io => w.call i fun f e => (f, (f.write io e).2)
  | .read i io => w.call i fun f e => (f, (f.read io e).2)
  | .allocAndRead i io => w.call i fun f e => (f.allocAndRead io e).2
  | .copyTo i io dst => w.call i fun f e => (f.copyTo io dst e).2
  | .moveTo i io dst => w.call i fun f e => (f.moveTo io dst e).2
  | .cleanHeap i => w.call i fun f e =>
    let (f', m') := f.cleanHeap e.mem
    (f', { e with mem := m' })
  | .destruct i => w.destroy i
  | .outside fs => some { w with env := { w.env with fs := fs } }

/-! ### What a step can do -/

variable {w w' : World}

theorem construct_eq_some {i : ℕ} {f : File} (h : w.construct i f = some w') :
    w.live i = none ∧ w' = { w with live := Function.update w.live i (some f) } := by
  unfold construct at h
  split at h
  · rename_i hi
    exact ⟨hi, (Option.some.inj h).symm⟩
  · exact absurd h (by simp)

theorem call_eq_some {i : ℕ} {op : File → Env → File × Env} (h : w.call i op = some w') :
    ∃ f, w.live i = some f ∧
      w' = ⟨(op f w.env).2, Function.update w.live i (some (op f w.env).1)⟩ := by
  unfold call at h
  split at h
  · exact absurd h (by simp)
  · rename_i f hf
    exact ⟨f, hf, (Option.some.inj h).symm⟩

/-- **One step.**  A new instance without a block; a copy; a move; a call; the end of an instance; a change
from outside. -/
theorem step_cases {a : Action} (h : w.step a = some w') :
    (∃ i f, w.live i = none ∧ f.mBlock = none ∧ f.dtors = 0 ∧
      w' = { w with live := Function.update w.live i (some f) }) ∨
    (∃ i src f, a = .copyOf i src ∧ w.live i = none ∧ w.live src = some f ∧
      w' = { w with live := Function.update w.live i (some f.copyOf) }) ∨
    (∃ i src left f, a = .moveOf i src left ∧ w.live i = none ∧ w.live src = some f ∧
      w' = { w with
        live := Function.update (Function.update w.live i (some (File.moveOf left f).1)) src
          (some (File.moveOf left f).2) }) ∨
    (∃ i op f, a.op = some (i, op) ∧ w.live i = some f ∧
      w' = ⟨(op f w.env).2, Function.update w.live i (some (op f w.env).1)⟩) ∨
    (∃ i f, a = .destruct i ∧ w.live i = some f ∧
      w' = ⟨{ w.env with mem := (f.destruct w.env.mem).2 }, Function.update w.live i none⟩) ∨
    (∃ fs, a = .outside fs ∧ w' = { w with env := { w.env with fs := fs } }) := by
  have hcall : ∀ i op, a.op = some (i, op) → w.call i op = some w' → ∃ i op f, a.op = some (i, op) ∧
      w.live i = some f ∧ w' = ⟨(op f w.env).2, Function.update w.live i (some (op f w.env).1)⟩ := by
    intro i op hop hw'
    obtain ⟨f, hf, rfl⟩ := call_eq_some hw'
    exact ⟨i, op, f, hop, hf, rfl⟩
  cases a with
  | ofPath i fpath sz =>
    obtain ⟨hi, rfl⟩ := construct_eq_some h
    exact Or.inl ⟨i, _, hi, rfl, rfl, rfl⟩
  | ofFinfo i finfo dpath =>
    obtain ⟨f, hf, hw'⟩ := Option.bind_eq_some_iff.mp h
    obtain ⟨name, -, rfl⟩ := Option.map_eq_some_iff.mp hf
    obtain ⟨hi, rfl⟩ := construct_eq_some hw'
    exact Or.inl ⟨i, _, hi, rfl, rfl, rfl⟩
  | copyOf i src =>
    obtain ⟨f, hf, hw'⟩ := Option.bind_eq_some_iff.mp h
    obtain ⟨hi, rfl⟩ := construct_eq_some hw'
    exact Or.inr (Or.inl ⟨i, src, f, rfl, hi, hf, rfl⟩)
  | moveOf i src left =>
    simp only [step, Option.bind_eq_some_iff, Option.map_eq_some_iff] at h
    obtain ⟨f, hf, w₁, hw₁, rfl⟩ := h
    obtain ⟨hi, rfl⟩ := construct_eq_some hw₁
    exact Or.inr (Or.inr (Or.inl ⟨i, src, left, f, rfl, hi, hf, rfl⟩))
  | destruct i =>
    simp only [step, destroy] at h
    split at h
    · exact absurd h (by simp)
    · rename_i f hf
      cases h
      exact Or.inr (Or.inr (Or.inr (Or.inr (Or.inl ⟨i, f, rfl, hf, rfl⟩))))
  | outside fs =>
    cases h
    exact Or.inr (Or.inr (Or.inr (Or.inr (Or.inr ⟨fs, rfl, rfl⟩))))
  | _ => exact Or.inr (Or.inr (Or.inr (Or.inl (hcall _ _ rfl h))))

/-- **Live instances.**  What holds of new instances, is kept by copies and moves, and is kept by every call
for the instance it is made on and for the others, holds of all live instances after a step. -/
theorem live_step {P : File → Mem → Prop} {a : Action}
    (hw : ∀ i f, w.live i = some f → P f w.env.mem) (h : w.step a = some w')
    (hnew : ∀ f : File, f.mBlock = none → f.dtors = 0 → P f w.env.mem)
    (hcopy : ∀ f : File, P f w.env.mem → P f.copyOf w.env.mem)
    (hleft : ∀ (f : File) (left : Path), P f w.env.mem → P (f.setFpath left) w.env.mem)
    (hop : ∀ i op, a.op = some (i, op) → ∀ f, (P f w.env.mem → P (op f w.env).1 (op f w.env).2.mem) ∧
      ∀ g, P g w.env.mem → P g (op f w.env).2.mem)
    (hend : ∀ f g : File, P g w.env.mem → P g (f.destruct w.env.mem).2) :
    ∀ i f, w'.live i = some f → P f w'.env.mem := by
  -- the instance that changes, and the others
  have hupdate : ∀ (live : ℕ → Option File) (i : ℕ) (o : Option File) (m : Mem),
      (∀ j g, live j = some g → P g m) → (∀ g, o = some g → P g m) →
        ∀ j g, Function.update live i o j = some g → P g m := by
    intro live i o m hlive ho j g hg
    by_cases hj : j = i
    · rw [hj, Function.update_self] at hg
      exact ho g hg
    · rw [Function.update_of_ne hj] at hg
      exact hlive j g hg
  rcases step_cases h with ⟨i, f, -, hb, hd, rfl⟩ | ⟨i, src, f, -, -, hf, rfl⟩ |
    ⟨i, src, left, f, -, -, hf, rfl⟩ | ⟨i, op, f, ha, hf, rfl⟩ | ⟨i, f, -, -, rfl⟩ | ⟨fs, -, rfl⟩
  · exact hupdate _ i _ _ hw fun g hg => Option.some.inj hg ▸ hnew f hb hd
  · exact hupdate _ i _ _ hw fun g hg => Option.some.inj hg ▸ hcopy f (hw src f hf)
  · have hfirst := hupdate _ i (some (File.moveOf left f).1) _ hw fun g hg =>
      Option.some.inj hg ▸ hcopy f (hw src f hf)
    exact hupdate _ src _ _ hfirst fun g hg => Option.some.inj hg ▸ hleft f left (hw src f hf)
  · obtain ⟨hself, hothers⟩ := hop i op ha f
    refine hupdate _ i _ _ (fun j g hg => hothers g (hw j g hg)) fun g hg => ?_
    exact Option.some.inj hg ▸ hself (hw i f hf)
  · exact hupdate _ i _ _ (fun j g hg => hend f g (hw j g hg)) fun g hg => absurd hg (by simp)
  · exact hw

end World

/-! ### What the functions of `File` do to the block -/

namespace File

/-- From a file and a heap to others, the owner of the file makes moves that end with the block of the
second file. -/
def Effect (careful : Prop) (f : File) (m : Mem) (f' : File) (m' : Mem) : Prop :=
  ∀ (holds : ℕ → Option ℕ) (i : ℕ), holds i = f.mBlock →
    Moves i careful (holds, m.trace) (Function.update holds i f'.mBlock, m'.trace)

variable {careful : Prop} {f f' f'' : File} {m m' m'' : Mem}

theorem Effect.comp (h : Effect careful f m f' m') (h' : Effect careful f' m' f'' m'') :
    Effect careful f m f'' m'' := by
  intro holds i hi
  have hgo := h' (Function.update holds i f'.mBlock) i (Function.update_self ..)
  rw [Function.update_idem] at hgo
  exact (h holds i hi).trans hgo

theorem effect_same (hb : f'.mBlock = f.mBlock) (ht : m'.trace = m.trace) :
    Effect careful f m f' m' := by
  intro holds i hi
  rw [hb, ht, ← hi, Function.update_eq_self]

theorem effect_use {b : ℕ} (h : f.mBlock = some b) (hb : f'.mBlock = f.mBlock)
    (ht : m'.trace = .use b :: m.trace) : Effect careful f m f' m' := by
  intro holds i hi
  rw [hb, ht, ← hi, Function.update_eq_self]
  exact Relation.ReflTransGen.single (.touch (hi.trans h))

theorem effect_new (hcareful : careful → f.mBlock = none) (n : ℕ) :
    Effect careful f m { f with mBlock := some m.next } (m.newBlock n).2 := by
  intro holds i hi
  refine Relation.ReflTransGen.single (.take ?_ fun hc => hi.trans (hcareful hc))
  intro hmem
  exact absurd (m.fresh _ hmem) (lt_irrefl _)

theorem effect_cleanHeap : Effect careful f m (f.cleanHeap m).1 (f.cleanHeap m).2 := by
  cases hb : f.mBlock with
  | none => exact effect_same hb.symm (by rw [cleanHeap, hb]; rfl)
  | some b =>
    intro holds i hi
    rw [cleanHeap, hb]
    exact Relation.ReflTransGen.single (.free (hi.trans hb))

theorem effect_destruct : Effect careful f m (f.destruct m).1 (f.destruct m).2 := effect_cleanHeap

theorem effect_write (io : WriteIo) (e : Env) (hb : f'.mBlock = f.mBlock) :
    Effect careful f e.mem f' (f.write io e).2.mem := by
  unfold write
  split
  · exact effect_same hb rfl
  · rename_i b hfb
    simp only
    split
    · exact effect_same hb rfl
    · exact effect_use hfb hb rfl

theorem effect_copyTo (io : WriteIo) (dst : Path) (e : Env) :
    Effect careful f e.mem (f.copyTo io dst e).2.1 (f.copyTo io dst e).2.2.mem := by
  cases hb : f.mBlock with
  | none =>
    rw [copyTo, hb]
    exact effect_same rfl rfl
  | some b =>
    rw [copyTo_of_block hb]
    have h : Effect careful f e.mem (f.setFpath dst) e.mem := effect_same rfl rfl
    exact h.comp (effect_write io e rfl)

theorem mem_moveTo (io : MoveIo) (dst : Path) (e : Env) :
    (f.moveTo io dst e).2.1 = (f.copyTo io.write dst e).2.1 ∧
      (f.moveTo io dst e).2.2.mem = (f.copyTo io.write dst e).2.2.mem := by
  rw [moveTo_eq]
  refine ⟨rfl, ?_⟩
  split
  · rfl
  · rfl

theorem effect_moveTo (io : MoveIo) (dst : Path) (e : Env) :
    Effect careful f e.mem (f.moveTo io dst e).2.1 (f.moveTo io dst e).2.2.mem := by
  obtain ⟨hf, hm⟩ := mem_moveTo (f := f) io dst e
  rw [hf, hm]
  exact effect_copyTo io.write dst e

theorem effect_read (io : ReadIo) (e : Env) : Effect careful f e.mem f (f.read io e).2.mem := by
  unfold read
  split
  · exact effect_same rfl rfl
  · rename_i size _
    show Effect careful f e.mem f (f.readBlock io size e).mem
    unfold readBlock
    simp only
    split
    · rename_i b hb
      split
      · exact effect_same rfl rfl
      · exact effect_use hb rfl rfl
    · exact effect_same rfl rfl

/-- What `alloc` does once `new` has succeeded. -/
theorem effect_alloc_after_new {io : AllocIo} (hio : io.allocates = true) :
    Effect careful { f with mBlock := some m.next } (m.newBlock f.mBlockSize).2
      (f.alloc io m).2.1 (f.alloc io m).2.2 := by
  cases io with
  | ok => exact effect_same rfl rfl
  | thrown afterNew badAlloc =>
    cases hio
    cases badAlloc <;> exact effect_destruct

theorem effect_alloc {io : AllocIo} (hcareful : careful → io.allocates = true → f.mBlock = none) :
    Effect careful f m (f.alloc io m).2.1 (f.alloc io m).2.2 := by
  by_cases hio : io.allocates = true
  · exact (effect_new (fun hc => hcareful hc hio) _).comp (effect_alloc_after_new hio)
  · cases io with
    | ok => exact absurd rfl hio
    | thrown afterNew badAlloc =>
      cases (Bool.not_eq_true _).mp hio
      cases badAlloc <;> exact effect_destruct

/-- What `alloc_and_read` does after the allocation. -/
theorem effect_load_after_alloc (io : LoadIo) (e : Env) :
    Effect careful (f.alloc io.alloc e.mem).2.1 (f.alloc io.alloc e.mem).2.2
      (f.allocAndRead io e).2.1 (f.allocAndRead io e).2.2.mem := by
  obtain ⟨_, read, raised⟩ := io
  unfold allocAndRead
  split
  · rename_i f₁ m₁ heq
    rw [heq]
    have hread : Effect careful f₁ m₁ f₁ (f₁.read read { e with mem := m₁ }).2.mem :=
      effect_read read { e with mem := m₁ }
    cases raised with
    | none => exact hread
    | some thrown =>
      cases thrown with
      | exception => exact hread.comp effect_destruct
      | anonymous => exact hread
  · rename_i rc f₁ m₁ _ heq
    rw [heq]
    exact effect_same rfl rfl

theorem effect_allocAndRead {io : LoadIo} (e : Env)
    (hcareful : careful → io.alloc.allocates = true → f.mBlock = none) :
    Effect careful f e.mem (f.allocAndRead io e).2.1 (f.allocAndRead io e).2.2.mem :=
  (effect_alloc hcareful).comp (effect_load_after_alloc io e)

end File

/-! ### Actions as moves of owners -/

namespace World

variable {careful : Prop} {w w' : World}

/-- Only files without a block are copied or moved by the defaulted constructors. -/
def Unshared (w : World) : Action → Prop
  | .copyOf _ src => w.holds src = none
  | .moveOf _ src _ => w.holds src = none
  | _ => True

/-- Where an allocation succeeds, the instance has no block. -/
def Careful (w : World) : Action → Prop
  | .alloc i io => io.allocates = true → w.holds i = none
  | .allocAndRead i io => io.alloc.allocates = true → w.holds i = none
  | _ => True

theorem holds_of_live {i : ℕ} {f : File} (h : w.live i = some f) : w.holds i = f.mBlock := by
  rw [holds, h, Option.bind_some]

theorem holds_update (e : Env) (live : ℕ → Option File) (i : ℕ) (o : Option File) :
    holds ⟨e, Function.update live i o⟩ =
      Function.update (fun j => (live j).bind File.mBlock) i (o.bind File.mBlock) := by
  funext j
  show (Function.update live i o j).bind File.mBlock = _
  by_cases hj : j = i
  · rw [hj, Function.update_self, Function.update_self]
  · rw [Function.update_of_ne hj, Function.update_of_ne hj]

/-- A new instance without a block. -/
theorem holds_new {i : ℕ} {f : File} (hi : w.live i = none) (hf : f.mBlock = none) :
    holds { w with live := Function.update w.live i (some f) } = w.holds := by
  rw [holds_update, Option.bind_some, hf]
  have hnone : w.holds i = none := by rw [holds, hi]; rfl
  rw [← hnone]
  exact Function.update_eq_self i w.holds

/-- What a call does to the block of its instance. -/
theorem effect_op {a : Action} {i : ℕ} {op : File → Env → File × Env} (hop : a.op = some (i, op))
    {f : File} (hf : w.live i = some f) (hcareful : careful → w.Careful a) :
    File.Effect careful f w.env.mem (op f w.env).1 (op f w.env).2.mem := by
  cases a with
  | alloc k io =>
    cases hop
    refine File.effect_alloc fun hc hio => ?_
    rw [← holds_of_live hf]
    exact hcareful hc hio
  | write k io =>
    cases hop
    exact File.effect_write io w.env rfl
  | read k io =>
    cases hop
    exact File.effect_read io w.env
  | allocAndRead k io =>
    cases hop
    refine File.effect_allocAndRead w.env fun hc hio => ?_
    rw [← holds_of_live hf]
    exact hcareful hc hio
  | copyTo k io dst =>
    cases hop
    exact File.effect_copyTo io dst w.env
  | moveTo k io dst =>
    cases hop
    exact File.effect_moveTo io dst w.env
  | cleanHeap k =>
    cases hop
    exact File.effect_cleanHeap
  | _ => cases hop

theorem moves_of_holds (h : w'.holds = w.holds) (he : w'.trace = w.trace) :
    ∃ i, Moves i careful (w.holds, w.trace) (w'.holds, w'.trace) := by
  rw [h, he]
  exact ⟨0, .refl⟩

/-- **Every action is moves of one owner**, who takes blocks with care where the action does, unless a
file with a block is copied or moved. -/
theorem step_moves (careful : Prop) {a : Action} (h : w.step a = some w') (hun : w.Unshared a)
    (hcareful : careful → w.Careful a) :
    ∃ i, Moves i careful (w.holds, w.trace) (w'.holds, w'.trace) := by
  rcases step_cases h with ⟨i, f, hi, hb, -, rfl⟩ | ⟨i, src, f, rfl, hi, hf, rfl⟩ |
    ⟨i, src, left, f, rfl, hi, hf, rfl⟩ | ⟨i, op, f, hop, hf, rfl⟩ | ⟨i, f, -, hf, rfl⟩ | ⟨fs, -, rfl⟩
  · exact moves_of_holds (holds_new hi hb) rfl
  · exact moves_of_holds (holds_new hi ((holds_of_live hf).symm.trans hun)) rfl
  · -- the new instance, and the old one with another path, have no block
    have hb : f.mBlock = none := (holds_of_live hf).symm.trans hun
    have hnew := holds_new (f := (File.moveOf left f).1) hi hb
    refine moves_of_holds ?_ rfl
    rw [holds_update, Option.bind_some, show (File.moveOf left f).2.mBlock = w.holds src by
      rw [holds_of_live hf]; rfl, ← hnew]
    exact Function.update_eq_self src _
  · refine ⟨i, ?_⟩
    rw [holds_update]
    exact effect_op hop hf hcareful w.holds i (holds_of_live hf)
  · refine ⟨i, ?_⟩
    rw [holds_update]
    exact File.effect_destruct w.holds i (holds_of_live hf)
  · exact moves_of_holds rfl rfl

end World

end WndxSane
