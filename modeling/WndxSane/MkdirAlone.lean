import WndxSane.Mkdir

/-!
# `file::mkdir`, called by one process

With nobody else at the file system, `mkdir` runs from its first call to its return; `ok` says which of
its calls do not fail for a reason of their own.

* `mkdir_eq_iterate`: the function and the program counter of the interleavings agree.
* `mkdir_outcomes`: the ways out of the function, with what each has done.
* **`mkdir_all_or_nothing`**: what the codes mean for the file system, and that a second call finds
  everything done.
-/

namespace WndxSane.Mkdir

open FileTree PathGrammar

/-- `file::mkdir`. -/
def mkdir (a : Args) (c : Caller) (ok : Pc → Bool) (fs : Fs) : Rc × Fs :=
  if ok .isDirectory && fsIsDirectory fs a.npath then
    -- the access rights of the directory are not validated, also not by force
    if c.force then (.success, fs) else (.success, fs)
  else if !(ok .exists' && fsExists fs a.npath) then
    match if ok .createDirectory then fsCreateDirectory c.umask fs a.npath a.parentDir else none with
    | some fs₁ =>
      match if ok .permissions then fsPermissions fs₁ a.npath a.perms else none with
      | some fs₂ => (.success, fs₂)
      | none =>
        if ok .remove && (fsRemove fs₁ a.npath).1 then
          (.fileRmDirEmptySuccess, (fsRemove fs₁ a.npath).2)
        else (.fileRmDirPermsErro, fs₁)
    | none => (.fileMkdirGenericErro, fs)
  else if ok .canonical && (fsCanonical fs a.npath).isSome then (.filePathUnexpectedErro, fs)
  else (.filePathCanonicalErro, fs)

variable {a : Args} {c : Caller} {ok : Pc → Bool} {fs fs' : Fs} {l : Loc}

/-- **One process.**  The function returns what its calls, made one after another, lead to. -/
theorem mkdir_eq_iterate (a : Args) (c : Caller) (ok : Pc → Bool) (fs : Fs) :
    (fun s : Pc × Fs => next a c (ok s.1) s.2 s.1)^[5] (.isDirectory, fs) =
      (.done (mkdir a c ok fs).1, (mkdir a c ok fs).2) := by
  simp only [Function.iterate_succ, Function.iterate_zero, Function.comp_apply, id_eq, mkdir]
  by_cases hdir : (ok .isDirectory && fsIsDirectory fs a.npath) = true
  · simp only [next, hdir, if_true, ite_self]
  by_cases hex : (ok .exists' && fsExists fs a.npath) = true
  · by_cases hcan : (ok .canonical && (fsCanonical fs a.npath).isSome) = true <;>
      simp [next, hdir, hex, hcan]
  cases hcreate : (if ok .createDirectory then fsCreateDirectory c.umask fs a.npath a.parentDir
    else none) with
  | none => simp [next, hdir, hex, hcreate]
  | some fs₁ =>
    cases hperms : (if ok .permissions then fsPermissions fs₁ a.npath a.perms else none) with
    | some fs₂ => simp [next, hdir, hex, hcreate, hperms]
    | none =>
      by_cases hrm : (ok .remove && (fsRemove fs₁ a.npath).1) = true <;>
        simp [next, hdir, hex, hcreate, hperms, hrm]

/-! ### The new directory -/

/-- `create_directory` makes a directory at a site. -/
theorem site_of_create {umask : Perms}
    (h : fsCreateDirectory umask fs a.npath a.parentDir = some fs') :
    ∃ l m, Site a fs l ∧ fs' = fs.putDir l m := by
  unfold fsCreateDirectory at h
  split at h
  · rename_i mode hparent
    split at h
    · rename_i l hentry
      split_ifs at h with hnode
      cases h
      have hfree : fs.node l = none := Option.not_isSome_iff_eq_none.mp hnode
      have hlink : fs.linkAt l = none := by rw [Tree.linkAt, hfree]; rfl
      exact ⟨l, _, ⟨hentry, Tree.target_of_entry hentry hlink, hfree, ⟨mode, hparent⟩,
        Tree.isDir_tail_of_entry hentry⟩, rfl⟩
    · exact absurd h (by simp)
  · exact absurd h (by simp)

/-- Removing the directory that was made restores the file system. -/
theorem Site.remove (h : Site a fs l) (m : Perms) :
    fsRemove (fs.putDir l m) a.npath = (true, fs) := by
  have hnode : (fs.putDir l m).node l = some (.dir m) := Tree.node_putDir fs m (Or.inl h.free) h.above
  have hdir : (fs.putDir l m).isDir l = true := by rw [Tree.isDir, hnode]; rfl
  have hgone : fs.isDir l = false := by rw [Tree.isDir, h.free]; rfl
  have hentry := Tree.entry_putDir m h.free h.above h.entry
  simp only [fsRemove, removedEntry, endsInSep_of_entry hentry, Bool.false_eq_true, if_false, hentry,
    hdir, if_true, Tree.rmdir_putDir m h.free h.above, hgone, Bool.not_false]

/-- The only difference is a new empty directory, of mode `m`, at the path. -/
structure Made (a : Args) (m : Perms) (fs fs' : Fs) (l : Loc) : Prop where
  free : fs.node l = none
  target : fs'.target (route a.npath) = some l
  node : fs'.node l = some (.dir m)
  empty : ∀ n, fs'.node (n :: l) = none
  others : ∀ k, k ≠ l → fs'.node k = fs.node k
  cwd : fs'.cwd = fs.cwd
  maxLinks : fs'.maxLinks = fs.maxLinks

theorem Site.made (h : Site a fs l) (m : Perms) : Made a m fs (fs.putDir l m) l where
  free := h.free
  target := Tree.target_putDir m h.free h.above h.target
  node := Tree.node_putDir fs m (Or.inl h.free) h.above
  empty n := by
    rw [Tree.node_putDir_of_ne fs m (List.cons_ne_self n l)]
    exact Tree.node_below h.free n
  others k hk := Tree.node_putDir_of_ne fs m hk
  cwd := Tree.cwd_putDir fs l m
  maxLinks := Tree.maxLinks_putDir fs l m

theorem Made.isDirectory {m : Perms} (h : Made a m fs fs' l) : fsIsDirectory fs' a.npath = true :=
  (isDirectory_iff ..).mpr ⟨l, h.target, by rw [Tree.isDir, h.node]; rfl⟩

/-! ### All or nothing -/

/-- The ways out of `mkdir`. -/
theorem mkdir_outcomes (a : Args) (c : Caller) (ok : Pc → Bool) (fs : Fs) :
    (mkdir a c ok fs = (.success, fs) ∧ fsIsDirectory fs a.npath = true) ∨
      (∃ l, mkdir a c ok fs = (.success, fs.putDir l a.perms) ∧ Site a fs l) ∨
      (∃ rc, mkdir a c ok fs = (rc, fs) ∧ rc ≠ .success ∧ rc ≠ .fileRmDirPermsErro) ∨
      ∃ l m, mkdir a c ok fs = (.fileRmDirPermsErro, fs.putDir l m) ∧ Site a fs l := by
  unfold mkdir
  split
  · rename_i hdir
    refine Or.inl ⟨by rw [ite_self], ?_⟩
    exact (Bool.and_eq_true_iff.mp hdir).2
  split
  · split
    · rename_i fs₁ hcreate
      split_ifs at hcreate
      obtain ⟨l, m, hsite, rfl⟩ := site_of_create hcreate
      split
      · -- the permissions are set
        rename_i fs₂ hperms
        split_ifs at hperms
        rw [(hsite.after m 0).2.2.2] at hperms
        cases hperms
        exact Or.inr (Or.inl ⟨l, rfl, hsite⟩)
      · split_ifs
        · -- they are not, and the directory is removed again
          rw [hsite.remove]
          exact Or.inr (Or.inr (Or.inl ⟨_, rfl, by decide, by decide⟩))
        · exact Or.inr (Or.inr (Or.inr ⟨l, m, rfl, hsite⟩))
    · exact Or.inr (Or.inr (Or.inl ⟨_, rfl, by decide, by decide⟩))
  · split_ifs
    · exact Or.inr (Or.inr (Or.inl ⟨_, rfl, by decide, by decide⟩))
    · exact Or.inr (Or.inr (Or.inl ⟨_, rfl, by decide, by decide⟩))

/-- A call that finds the directory is done. -/
theorem mkdir_of_isDirectory (hdir : fsIsDirectory fs a.npath = true)
    (hok : ok .isDirectory = true) : mkdir a c ok fs = (.success, fs) := by
  rw [mkdir, hok, hdir, Bool.and_self, if_pos rfl, ite_self]

/-- **All or nothing.**  For every file system, all arguments and whichever calls fail: after `SUCCESS` the
path is a directory, either one that was there and is unchanged, or a new and empty one with exactly the
permissions asked for; after `FILE_RM_DIR_PERMS_ERRO` a new and empty directory is the only difference;
after any other code there is none; and after `SUCCESS` a second call, whose first query does not fail,
returns `SUCCESS` and changes nothing. -/
theorem mkdir_all_or_nothing (a : Args) (c : Caller) (ok : Pc → Bool) (fs : Fs) :
    let r := mkdir a c ok fs
    (r.1 = .success → fsIsDirectory r.2 a.npath = true ∧
        ((fsIsDirectory fs a.npath = true ∧ r.2 = fs) ∨ ∃ l, Made a a.perms fs r.2 l)) ∧
      (r.1 = .fileRmDirPermsErro → ∃ m l, Made a m fs r.2 l) ∧
      (r.1 ≠ .success → r.1 ≠ .fileRmDirPermsErro → r.2 = fs) ∧
      (r.1 = .success → ∀ c' ok', ok' .isDirectory = true → mkdir a c' ok' r.2 = (.success, r.2)) := by
  intro r
  rcases mkdir_outcomes a c ok fs with ⟨h, hdir⟩ | ⟨l, h, hsite⟩ | ⟨rc, h, hne, hne'⟩ | ⟨l, m, h, hsite⟩
  · rw [show r = _ from h]
    exact ⟨fun _ => ⟨hdir, Or.inl ⟨hdir, rfl⟩⟩, fun he => Rc.noConfusion he, fun _ _ => rfl,
      fun _ _ _ hok => mkdir_of_isDirectory hdir hok⟩
  · rw [show r = _ from h]
    have hmade := hsite.made a.perms
    exact ⟨fun _ => ⟨hmade.isDirectory, Or.inr ⟨l, hmade⟩⟩, fun he => Rc.noConfusion he,
      fun he => absurd rfl he, fun _ _ _ hok => mkdir_of_isDirectory hmade.isDirectory hok⟩
  · rw [show r = _ from h]
    exact ⟨fun he => absurd he hne, fun he => absurd he hne', fun _ _ => rfl, fun he => absurd he hne⟩
  · rw [show r = _ from h]
    exact ⟨fun he => Rc.noConfusion he, fun _ => ⟨m, l, hsite.made m⟩, fun _ he => absurd rfl he,
      fun he => Rc.noConfusion he⟩

end WndxSane.Mkdir
