import WndxSane.FileSystem
import WndxSane.Lib.Transition
import Mathlib.Algebra.Order.BigOperators.Group.Finset
import Mathlib.Data.Fintype.Basic

/-!
# `file::mkdir`, called by several processes

`mkdir` asks whether the directory is there, then whether anything is there, then creates it and sets its
permissions; each of these is one call on a file system that other processes change in between.  The
program counter `Mkdir.Pc` stands before the next call.

* `Site.next_before`, `Site.next_after`: what each call does before one process has made the directory,
  and after.
* `OnTime`: what holds in an interleaving while no process has come too late.
* **`all_succeed_iff`**: the interleavings in which every process succeeds are those in which no process
  asks whether the path exists, or tries to create it, when it does.
-/

namespace WndxSane.Mkdir

open FileTree PathGrammar Transition

/-! ### The function -/

/-- The arguments that all the calls have in common. -/
structure Args where
  dpath : Path
  perms : Perms

/-- A process that calls `mkdir`. -/
structure Caller where
  force : Bool
  umask : Perms

def Args.npath (a : Args) : Path := trim a.dpath

def Args.parentDir (a : Args) : Path := parentPath a.npath

/-- The next call `mkdir` makes, or the code it has returned. -/
inductive Pc
  | isDirectory
  | exists'
  | createDirectory
  | permissions
  | remove
  | canonical
  | done (rc : Rc)
  deriving DecidableEq

/-- The next call of one process and what it does to the file system.  A call that is not `ok` fails for
a reason of its own. -/
def next (a : Args) (c : Caller) (ok : Bool) (fs : Fs) : Pc → Pc × Fs
  | .isDirectory =>
    if ok && fsIsDirectory fs a.npath then
      -- the access rights of the directory are not validated, also not by force
      if c.force then (.done .success, fs) else (.done .success, fs)
    else (.exists', fs)
  | .exists' =>
    if ok && fsExists fs a.npath then (.canonical, fs) else (.createDirectory, fs)
  | .createDirectory =>
    match if ok then fsCreateDirectory c.umask fs a.npath a.parentDir else none with
    | some fs' => (.permissions, fs')
    | none => (.done .fileMkdirGenericErro, fs)
  | .permissions =>
    match if ok then fsPermissions fs a.npath a.perms else none with
    | some fs' => (.done .success, fs')
    | none => (.remove, fs)
  | .remove =>
    if ok && (fsRemove fs a.npath).1 then (.done .fileRmDirEmptySuccess, (fsRemove fs a.npath).2)
    else (.done .fileRmDirPermsErro, fs)
  | .canonical =>
    if ok && (fsCanonical fs a.npath).isSome then (.done .filePathUnexpectedErro, fs)
    else (.done .filePathCanonicalErro, fs)
  | .done rc => (.done rc, fs)

/-! ### Processes -/

/-- Processes that share a file system. -/
structure State (n : ℕ) where
  fs : Fs
  pc : Fin n → Pc

/-- Every process calls `mkdir` anew. -/
def start (n : ℕ) (fs : Fs) : State n := ⟨fs, fun _ => .isDirectory⟩

/-- The process `i` makes its next call, which fails only for what it finds at the path. -/
def step {n : ℕ} (a : Args) (callers : Fin n → Caller) (s : State n) (i : Fin n) : Option (State n) :=
  match s.pc i with
  | .done _ => none
  | pc =>
    let (pc', fs') := next a (callers i) true s.fs pc
    some ⟨fs', Function.update s.pc i pc'⟩

/-- The process does not ask whether the path exists, or try to create it, when it exists. -/
def NotTooLate {n : ℕ} (a : Args) (s : State n) (i : Fin n) : Prop :=
  s.pc i = .exists' ∨ s.pc i = .createDirectory → fsExists s.fs a.npath = false

instance {n : ℕ} (a : Args) (s : State n) (i : Fin n) : Decidable (NotTooLate a s i) :=
  inferInstanceAs (Decidable (_ → _))

/-- `p` does not exist, and its parent is a path to a directory. -/
structure Fresh (a : Args) (fs : Fs) : Prop where
  parent : a.parentDir ≠ []
  directory : fsIsDirectory fs a.parentDir = true
  missing : fsExists fs a.npath = false

/-! ### The directory before and after it is made -/

/-- The place where the directory will be. -/
structure Site (a : Args) (fs : Fs) (l : Loc) : Prop where
  entry : fs.entry (route a.npath) = some l
  target : fs.target (route a.npath) = some l
  free : fs.node l = none
  parent : ∃ m, fsStatus fs a.parentDir = some (.dir m)
  above : fs.isDir l.tail = true

theorem isDirectory_iff {fs : Fs} {p : Path} :
    fsIsDirectory fs p = true ↔ ∃ d, fs.target (route p) = some d ∧ fs.isDir d = true := by
  unfold fsIsDirectory fsStatus Tree.isDir
  cases fs.target (route p) with
  | none => simp
  | some d => simp

theorem dir_of_isDir {fs : Fs} {d : Loc} (h : fs.isDir d = true) :
    ∃ m, fs.node d = some (.dir m) := by
  unfold Tree.isDir at h
  cases hn : fs.node d with
  | none => rw [hn] at h; exact Bool.noConfusion h
  | some x => cases x <;> simp_all [Node.isDir]

/-- A fresh path with not even a symbolic link at it has a place for its directory. -/
theorem Fresh.site {a : Args} {fs : Fs} (h : Fresh a fs) (hfree : fs.lstat (route a.npath) = none) :
    names a.dpath ≠ [] ∧ ∃ l, Site a fs l := by
  obtain ⟨d, hd, hdir⟩ := (isDirectory_iff ..).mp h.directory
  have hnames : names a.dpath ≠ [] := by
    intro hn
    have hnil : names a.npath = [] := (names_trim a.dpath).trans hn
    have hpar : a.parentDir = a.npath := by rw [Args.parentDir, parentPath, if_pos hnil]
    rw [hpar] at hd
    exact Tree.lstat_ne_none_of_target hd hdir hfree
  refine ⟨hnames, ?_⟩
  have hfile : filename a.npath ≠ [] := by
    rw [Ne, filename_eq_nil_iff, Args.npath, endsInSep_trim hnames]
    rintro (hnil | hfalse)
    · refine hnames ?_
      rw [← names_trim a.dpath, hnil, names_nil]
    · exact Bool.noConfusion hfalse
  obtain ⟨cs, habs, hcomps, hlen⟩ := route_parentPath hfile h.parent
  obtain ⟨n, hn, hnode⟩ := Tree.free_entry_of_parent habs hcomps hlen hd hdir hfree
  have hlink : fs.linkAt (n :: d) = none := by rw [Tree.linkAt, hnode]; rfl
  obtain ⟨m, hm⟩ := dir_of_isDir hdir
  exact ⟨n :: d, Tree.entry_of_parent habs hn hd hdir,
    Tree.target_append habs hn hd (.name hdir hlink .stop), hnode,
    ⟨m, by rw [fsStatus, hd, Option.bind_some, hm]⟩, hdir⟩

/-- Before the directory is made. -/
theorem Site.before {a : Args} {fs : Fs} {l : Loc} (h : Site a fs l) (umask : Perms) :
    fsIsDirectory fs a.npath = false ∧ fsExists fs a.npath = false ∧
      ∃ m, fsCreateDirectory umask fs a.npath a.parentDir = some (fs.putDir l m) := by
  have hstatus : fsStatus fs a.npath = none := by rw [fsStatus, h.target, Option.bind_some, h.free]
  obtain ⟨m, hm⟩ := h.parent
  refine ⟨by rw [fsIsDirectory, hstatus]; rfl, by rw [fsExists, hstatus]; rfl,
    m &&& ~~~umask, ?_⟩
  rw [fsCreateDirectory, hm]
  simp only [h.entry, h.free, Option.isSome_none, Bool.false_eq_true, if_false]

/-- What the status of the path is once the directory is made. -/
theorem Site.status_putDir {a : Args} {fs : Fs} {l : Loc} (h : Site a fs l) (m : Perms) :
    fsStatus (fs.putDir l m) a.npath = some (.dir m) := by
  rw [fsStatus, Tree.target_putDir m h.free h.above h.target, Option.bind_some,
    Tree.node_putDir fs m (Or.inl h.free) h.above]

/-- After the directory is made: it is there and cannot be made again, and its permissions can be set. -/
theorem Site.after {a : Args} {fs : Fs} {l : Loc} (h : Site a fs l) (m umask : Perms) :
    fsIsDirectory (fs.putDir l m) a.npath = true ∧ fsExists (fs.putDir l m) a.npath = true ∧
      fsCreateDirectory umask (fs.putDir l m) a.npath a.parentDir = none ∧
        fsPermissions (fs.putDir l m) a.npath a.perms = some (fs.putDir l a.perms) := by
  have hstatus := h.status_putDir m
  have hnode : (fs.putDir l m).node l = some (.dir m) := Tree.node_putDir fs m (Or.inl h.free) h.above
  refine ⟨by rw [fsIsDirectory, hstatus]; rfl, by rw [fsExists, hstatus]; rfl, ?_, ?_⟩
  · unfold fsCreateDirectory
    split
    · rw [Tree.entry_putDir m h.free h.above h.entry]
      simp [hnode]
    · rfl
  · simp only [fsPermissions, Tree.target_putDir m h.free h.above h.target, hnode,
      Tree.putDir_putDir fs m a.perms h.free h.above]

/-- The directory is at `p` itself, with or without separators after it. -/
theorem Site.status_dpath {a : Args} {fs : Fs} {l : Loc} (h : Site a fs l)
    (hn : names a.dpath ≠ []) (m : Perms) :
    fsStatus (fs.putDir l m) a.dpath = some (.dir m) := by
  have hnode : (fs.putDir l m).node l = some (.dir m) := Tree.node_putDir fs m (Or.inl h.free) h.above
  have htarget := Tree.target_putDir m h.free h.above h.target
  have hdir : (fs.putDir l m).isDir l = true := by rw [Tree.isDir, hnode]; rfl
  rcases route_trim hn with hroute | ⟨habs, hcomps, -⟩
  · rw [fsStatus, hroute, show trim a.dpath = a.npath from rfl, htarget, Option.bind_some, hnode]
  · rw [fsStatus, Tree.target_append habs hcomps htarget (.dot hdir .stop), Option.bind_some, hnode]

/-- A symbolic link that leads nowhere: the path does not exist, and cannot be made a directory. -/
theorem Fresh.next_of_link {a : Args} {fs : Fs} (h : Fresh a fs) (hlink : fs.lstat (route a.npath) ≠ none)
    (c : Caller) :
    next a c true fs .isDirectory = (.exists', fs) ∧ next a c true fs .exists' = (.createDirectory, fs) ∧
      next a c true fs .createDirectory = (.done .fileMkdirGenericErro, fs) := by
  have hstatus : fsStatus fs a.npath = none := Option.not_isSome_iff_eq_none.mp (by
    rw [← fsExists, h.missing]
    exact Bool.false_ne_true)
  have hdir : fsIsDirectory fs a.npath = false := by rw [fsIsDirectory, hstatus]; rfl
  have hcreate : fsCreateDirectory c.umask fs a.npath a.parentDir = none := by
    unfold Tree.lstat at hlink
    split at hlink
    · obtain ⟨x, hx⟩ := Option.ne_none_iff_exists'.mp hlink
      obtain ⟨l, hl, hnode⟩ := Option.bind_eq_some_iff.mp hx
      unfold fsCreateDirectory
      split
      · simp [hl, hnode]
      · rfl
    · exact absurd hstatus hlink
  refine ⟨?_, ?_, ?_⟩
  · simp [next, hdir]
  · simp [next, h.missing]
  · simp [next, hcreate]

/-- The calls before the directory is made. -/
theorem Site.next_before {a : Args} {fs : Fs} {l : Loc} (h : Site a fs l) (c : Caller) :
    next a c true fs .isDirectory = (.exists', fs) ∧ next a c true fs .exists' = (.createDirectory, fs) ∧
      ∃ m, next a c true fs .createDirectory = (.permissions, fs.putDir l m) := by
  obtain ⟨hdir, hexists, m, hcreate⟩ := h.before c.umask
  refine ⟨?_, ?_, m, ?_⟩
  · simp [next, hdir]
  · simp [next, hexists]
  · simp [next, hcreate]

/-- The calls after the directory is made. -/
theorem Site.next_after {a : Args} {fs : Fs} {l : Loc} (h : Site a fs l) (m : Perms) (c : Caller) :
    next a c true (fs.putDir l m) .isDirectory = (.done .success, fs.putDir l m) ∧
      next a c true (fs.putDir l m) .exists' = (.canonical, fs.putDir l m) ∧
      next a c true (fs.putDir l m) .createDirectory = (.done .fileMkdirGenericErro, fs.putDir l m) ∧
      next a c true (fs.putDir l m) .permissions = (.done .success, fs.putDir l a.perms) := by
  obtain ⟨hdir, hexists, hcreate, hperms⟩ := h.after m c.umask
  refine ⟨?_, ?_, ?_, ?_⟩
  · simp [next, hdir]
  · simp [next, hexists]
  · simp [next, hcreate]
  · simp [next, hperms]

/-! ### All interleavings -/

variable {n : ℕ} {a : Args} {callers : Fin n → Caller} {fs : Fs} {l : Loc} {s t : State n} {i : Fin n}

/-- Before its `create_directory`, or at it. -/
def Pc.Early (pc : Pc) : Prop := pc = .isDirectory ∨ pc = .exists' ∨ pc = .createDirectory

/-- Nobody has made the directory, or one process has; the others have not seen it too late. -/
def OnTime (a : Args) (fs : Fs) (l : Loc) (s : State n) : Prop :=
  (s.fs = fs ∧ ∀ i, (s.pc i).Early) ∨
    ∃ m j, s.fs = fs.putDir l m ∧
      (s.pc j = .permissions ∨ (s.pc j = .done .success ∧ m = a.perms)) ∧
      ∀ i, i ≠ j → (s.pc i).Early ∨ s.pc i = .done .success

/-- Has returned something else than `SUCCESS`, or will. -/
def Pc.Late (pc : Pc) : Prop := pc = .canonical ∨ ∃ rc, rc ≠ .success ∧ pc = .done rc

/-- One process has seen the directory too late. -/
def TooLate (s : State n) : Prop := ∃ i, (s.pc i).Late

/-- A step is taken by a process that has not returned. -/
theorem step_eq_some (h : step a callers s i = some t) :
    (∀ rc, s.pc i ≠ .done rc) ∧
      t = ⟨(next a (callers i) true s.fs (s.pc i)).2,
        Function.update s.pc i (next a (callers i) true s.fs (s.pc i)).1⟩ := by
  unfold step at h
  split at h
  · exact absurd h (by simp)
  · rename_i hno
    cases h
    exact ⟨fun rc hrc => hno rc hrc, rfl⟩

/-- A step taken in time. -/
theorem OnTime.step (hsite : Site a fs l) (h : OnTime a fs l s) (hst : step a callers s i = some t)
    (hG : NotTooLate a s i) : OnTime a fs l t := by
  obtain ⟨hno, rfl⟩ := step_eq_some hst
  rcases h with ⟨hfs, hearly⟩ | ⟨m, j, hfs, hj, hothers⟩
  · obtain ⟨hdir, hexists, m, hcreate⟩ := hsite.next_before (callers i)
    have hupdate : ∀ pc : Pc, pc.Early → ∀ k, (Function.update s.pc i pc k).Early := fun pc hpc =>
      (Function.forall_update_iff _ fun _ (pc : Pc) => pc.Early).mpr ⟨hpc, fun k _ => hearly k⟩
    rw [hfs]
    rcases hearly i with hi | hi | hi
    · rw [hi, hdir]
      exact Or.inl ⟨rfl, hupdate _ (Or.inr (Or.inl rfl))⟩
    · rw [hi, hexists]
      exact Or.inl ⟨rfl, hupdate _ (Or.inr (Or.inr rfl))⟩
    · rw [hi, hcreate]
      refine Or.inr ⟨m, i, rfl, Or.inl (Function.update_self ..), fun k hk => Or.inl ?_⟩
      show (Function.update s.pc i .permissions k).Early
      rw [Function.update_of_ne hk]
      exact hearly k
  · obtain ⟨hdir, -, -, hperms⟩ := hsite.next_after m (callers i)
    have hexists : fsExists s.fs a.npath = true := by
      rw [hfs]
      exact (hsite.after m 0).2.1
    rw [hfs]
    by_cases hij : i = j
    · subst hij
      rcases hj with hj | ⟨hj, -⟩
      · -- the process that made the directory sets its permissions
        rw [hj, hperms]
        refine Or.inr ⟨a.perms, i, rfl, Or.inr ⟨Function.update_self .., rfl⟩, fun k hk => ?_⟩
        show (Function.update s.pc i (.done .success) k).Early ∨
          Function.update s.pc i (.done .success) k = .done .success
        rw [Function.update_of_ne hk]
        exact hothers k hk
      · exact absurd hj (hno _)
    · have hpc : s.pc i = .isDirectory := by
        rcases hothers i hij with (hi | hi | hi) | hi
        · exact hi
        · exact absurd hexists (by rw [hG (Or.inl hi)]; exact Bool.false_ne_true)
        · exact absurd hexists (by rw [hG (Or.inr hi)]; exact Bool.false_ne_true)
        · exact absurd hi (hno _)
      rw [hpc, hdir]
      refine Or.inr ⟨m, j, rfl, ?_, fun k hk => ?_⟩
      · show (Function.update s.pc i (.done .success) j = .permissions ∨
          (Function.update s.pc i (.done .success) j = .done .success ∧ m = a.perms))
        rw [Function.update_of_ne (Ne.symm hij)]
        exact hj
      · show (Function.update s.pc i (.done .success) k).Early ∨
          Function.update s.pc i (.done .success) k = .done .success
        by_cases hki : k = i
        · rw [hki, Function.update_self]
          exact Or.inr rfl
        · rw [Function.update_of_ne hki]
          exact hothers k hk

/-- A step taken too late. -/
theorem OnTime.step_late (hsite : Site a fs l) (h : OnTime a fs l s)
    (hst : Mkdir.step a callers s i = some t) (hG : ¬ NotTooLate a s i) : TooLate t := by
  obtain ⟨hno, rfl⟩ := step_eq_some hst
  obtain ⟨hpc, hexists⟩ : (s.pc i = .exists' ∨ s.pc i = .createDirectory) ∧
      fsExists s.fs a.npath = true := by
    simpa [NotTooLate] using hG
  rcases h with ⟨hfs, -⟩ | ⟨m, j, hfs, -, -⟩
  · rw [hfs, (hsite.before 0).2.1] at hexists
    exact Bool.noConfusion hexists
  · obtain ⟨-, hexists', hcreate, -⟩ := hsite.next_after m (callers i)
    refine ⟨i, ?_⟩
    show (Function.update s.pc i _ i).Late
    rw [Function.update_self, hfs]
    rcases hpc with hi | hi
    · rw [hi, hexists']
      exact Or.inl rfl
    · rw [hi, hcreate]
      exact Or.inr ⟨_, by decide, rfl⟩

/-- What was too late stays so. -/
theorem TooLate.step (h : TooLate s) (hst : Mkdir.step a callers s i = some t) : TooLate t := by
  obtain ⟨hno, rfl⟩ := step_eq_some hst
  obtain ⟨k, hk⟩ := h
  refine ⟨k, ?_⟩
  show (Function.update s.pc i _ k).Late
  by_cases hki : k = i
  · subst hki
    rcases hk with hk | ⟨rc, -, hk⟩
    · rw [Function.update_self, hk, next]
      right
      split
      · exact ⟨_, by decide, rfl⟩
      · exact ⟨_, by decide, rfl⟩
    · exact absurd hk (hno rc)
  · rw [Function.update_of_ne hki]
    exact hk

/-- At the end of an interleaving in time, all have succeeded. -/
theorem OnTime.all_succeed (hsite : Site a fs l) (hnames : names a.dpath ≠ []) (hn : 0 < n)
    (h : OnTime a fs l s) (hdone : ∀ i, ∃ rc, s.pc i = .done rc) :
    (∀ i, s.pc i = .done .success) ∧ fsStatus s.fs a.dpath = some (.dir a.perms) := by
  have hnotEarly : ∀ i, ¬ (s.pc i).Early := by
    intro i
    obtain ⟨rc, hrc⟩ := hdone i
    rw [hrc]
    rintro (h | h | h) <;> cases h
  rcases h with ⟨-, hearly⟩ | ⟨m, j, hfs, hj, hothers⟩
  · exact absurd (hearly ⟨0, hn⟩) (hnotEarly _)
  · obtain ⟨hsuccess, rfl⟩ : s.pc j = .done .success ∧ m = a.perms := by
      refine hj.resolve_left fun hperm => ?_
      obtain ⟨rc, hrc⟩ := hdone j
      rw [hperm] at hrc
      cases hrc
    refine ⟨fun i => ?_, by rw [hfs, hsite.status_dpath hnames]⟩
    by_cases hij : i = j
    · rw [hij, hsuccess]
    · exact (hothers i hij).resolve_left (hnotEarly i)

theorem TooLate.not_all_succeed (h : TooLate s) : ¬ ∀ i, s.pc i = .done .success := by
  intro hall
  obtain ⟨i, hcan | ⟨rc, hne, hrc⟩⟩ := h
  · rw [hall i] at hcan
    cases hcan
  · rw [hall i] at hrc
    cases hrc
    exact hne rfl

/-- With a symbolic link at the path, nobody makes a directory. -/
def NoneMade (fs : Fs) (s : State n) : Prop :=
  s.fs = fs ∧ ∀ i, (s.pc i).Early ∨ s.pc i = .done .fileMkdirGenericErro

theorem NoneMade.step (hfresh : Fresh a fs) (hlink : fs.lstat (route a.npath) ≠ none)
    (h : NoneMade fs s) (hst : Mkdir.step a callers s i = some t) : NoneMade fs t := by
  obtain ⟨hno, rfl⟩ := step_eq_some hst
  obtain ⟨hdir, hexists, hcreate⟩ := hfresh.next_of_link hlink (callers i)
  obtain ⟨hfs, hpcs⟩ := h
  have hupdate : ∀ pc : Pc, pc.Early ∨ pc = .done .fileMkdirGenericErro → ∀ k,
      (Function.update s.pc i pc k).Early ∨
        Function.update s.pc i pc k = .done .fileMkdirGenericErro := fun pc hpc =>
    (Function.forall_update_iff _ fun _ (pc : Pc) => pc.Early ∨ pc = .done .fileMkdirGenericErro).mpr
      ⟨hpc, fun k _ => hpcs k⟩
  rw [hfs]
  rcases hpcs i with (hi | hi | hi) | hi
  · rw [hi, hdir]
    exact ⟨rfl, hupdate _ (Or.inl (Or.inr (Or.inl rfl)))⟩
  · rw [hi, hexists]
    exact ⟨rfl, hupdate _ (Or.inl (Or.inr (Or.inr rfl)))⟩
  · rw [hi, hcreate]
    exact ⟨rfl, hupdate _ (Or.inr rfl)⟩
  · exact absurd hi (hno _)

/-- A process that cannot go on has returned. -/
theorem exists_done (h : step a callers s i = none) : ∃ rc, s.pc i = .done rc := by
  unfold step at h
  split at h
  · exact ⟨_, by assumption⟩
  · exact absurd h (by simp)

/-- How many calls are left, at most. -/
def Pc.rank : Pc → ℕ
  | .isDirectory => 5
  | .exists' => 4
  | .createDirectory => 3
  | .permissions => 2
  | .remove => 1
  | .canonical => 1
  | .done _ => 0

theorem rank_next (a : Args) (c : Caller) (ok : Bool) (fs : Fs) (pc : Pc) (h : ∀ rc, pc ≠ .done rc) :
    (next a c ok fs pc).1.rank < pc.rank := by
  cases pc with
  | isDirectory | exists' | remove | canonical =>
    simp only [next]
    split_ifs <;> simp [Pc.rank]
  | createDirectory | permissions =>
    simp only [next]
    split <;> simp [Pc.rank]
  | done rc => exact absurd rfl (h rc)

/-- Every interleaving ends: all the calls together take at most five steps each. -/
theorem length_add_rank_le {as : List (Fin n)} (hrun : run (step a callers) s as = some t) :
    as.length + ∑ i, (t.pc i).rank ≤ ∑ i, (s.pc i).rank := by
  induction as generalizing s with
  | nil =>
    cases hrun
    simp
  | cons i as ih =>
    obtain ⟨u, hu, hrest⟩ := run_cons_some hrun
    obtain ⟨hno, rfl⟩ := step_eq_some hu
    have hlt : ∑ k, (Function.update s.pc i (next a (callers i) true s.fs (s.pc i)).1 k).rank <
        ∑ k, (s.pc k).rank := by
      apply Finset.sum_lt_sum
      · intro k _
        by_cases hk : k = i
        · subst hk
          rw [Function.update_self]
          exact le_of_lt (rank_next a (callers k) true s.fs (s.pc k) hno)
        · rw [Function.update_of_ne hk]
      · refine ⟨i, Finset.mem_univ i, ?_⟩
        rw [Function.update_self]
        exact rank_next a (callers i) true s.fs (s.pc i) hno
    have hle : as.length + ∑ k, (t.pc k).rank ≤
        ∑ k, (Function.update s.pc i (next a (callers i) true s.fs (s.pc i)).1 k).rank := ih hrest
    rw [List.length_cons]
    omega

/-- **Concurrent calls.**  Let `n > 0` processes call `mkdir` on one path that does not exist, in a
directory that does, and let them go on, in any order, until they all have returned.  Then all return
`SUCCESS` and leave a directory with the permissions asked for, if and only if there was not even a
symbolic link at the path and no process asked whether the path exists, or tried to create it, after
another one had made it. -/
theorem all_succeed_iff (hn : 0 < n) (hfresh : Fresh a fs) {as : List (Fin n)}
    (hrun : run (step a callers) (start n fs) as = some t) (hend : ∀ i, step a callers t i = none) :
    ((∀ i, t.pc i = .done .success) ∧ fsStatus t.fs a.dpath = some (.dir a.perms)) ↔
      fs.lstat (route a.npath) = none ∧
        Guarded (step a callers) (NotTooLate a) (start n fs) as := by
  by_cases hfree : fs.lstat (route a.npath) = none
  · obtain ⟨hnames, l, hsite⟩ := hfresh.site hfree
    have hstart : OnTime a fs l (start n fs) := Or.inl ⟨rfl, fun i => Or.inl rfl⟩
    rcases guarded_or_broken (G := NotTooLate a) (fun _ _ _ h hst hG => h.step hsite hst hG)
      (fun _ _ _ h hst hG => h.step_late hsite hst hG) (fun _ _ _ h hst => h.step hst)
      hstart hrun with ⟨hG, honTime⟩ | ⟨hG, hlate⟩
    · exact ⟨fun _ => ⟨hfree, hG⟩,
        fun _ => honTime.all_succeed hsite hnames hn fun i => exists_done (hend i)⟩
    · exact ⟨fun h => absurd h.1 hlate.not_all_succeed, fun h => absurd h.2 hG⟩
  · refine ⟨fun h => ?_, fun h => absurd h.1 hfree⟩
    have hstart : NoneMade fs (start n fs) := ⟨rfl, fun i => Or.inl (Or.inl rfl)⟩
    obtain ⟨-, hpcs⟩ := run_invariant (fun _ _ _ h hst => NoneMade.step hfresh hfree h hst) hstart hrun
    rcases hpcs ⟨0, hn⟩ with (hi | hi | hi) | hi <;> rw [h.1] at hi <;> cases hi

/-- Two processes make `/d`; the second asks for the directory after the first has made it. -/
theorem all_succeed_in_turn :
    ∃ t, run (step ⟨[47, 100], 0o777⟩ fun _ => ⟨false, 0o022⟩) (start 2 (Tree.root 0o755 40))
        [0, 0, 0, 1, 0] = some t ∧
      (∀ i, t.pc i = .done .success) ∧ fsStatus t.fs [47, 100] = some (.dir 0o777) := by
  have hfresh : Fresh ⟨[47, 100], 0o777⟩ (Tree.root 0o755 40) := ⟨by decide, by decide, by decide⟩
  have hrun : run (step ⟨[47, 100], 0o777⟩ fun _ => ⟨false, 0o022⟩) (start 2 (Tree.root 0o755 40))
      [0, 0, 0, 1, 0] = some _ := rfl
  exact ⟨_, hrun, (all_succeed_iff (by decide) hfresh hrun (Fin.forall_fin_two.mpr ⟨rfl, rfl⟩)).mpr
    (by decide)⟩

/-- Two processes make `/d`: both see that nothing is there, and one of them fails. -/
theorem one_of_two_fails :
    ¬ ∀ (n : ℕ) (a : Args) (callers : Fin n → Caller) (fs : Fs) (as : List (Fin n)) (t : State n),
      0 < n → Fresh a fs → fs.lstat (route a.npath) = none →
        run (step a callers) (start n fs) as = some t → (∀ i, step a callers t i = none) →
          (∀ i, t.pc i = .done .success) ∧ fsStatus t.fs a.dpath = some (.dir a.perms) := by
  intro h
  have hone := h 2 ⟨[47, 100], 0o777⟩ (fun _ => ⟨false, 0o022⟩) (Tree.root 0o755 40)
    [0, 1, 0, 1, 0, 1, 0] _ (by decide) ⟨by decide, by decide, by decide⟩ (by decide) rfl
    (Fin.forall_fin_two.mpr ⟨rfl, rfl⟩)
  exact absurd (hone.1 1) (by decide)

end WndxSane.Mkdir
