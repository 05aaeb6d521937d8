import WndxSane.Lib.FileTree

/-!
# Names, entries and updates of a file tree

`target` is what a pathname resolves to, symbolic links followed to the end; `entry` is the directory
entry it names, its last component not followed (what removing or creating acts on); `trail` lists the
locations resolving it looks up.  The updates are total: one that POSIX would refuse leaves the tree.

* `SameShape`: trees with the same directories and links resolve every pathname alike, whatever their
  files hold.
  The updates of regular files keep the shape.
-/

namespace FileTree

variable {N D M : Type*} [DecidableEq N]

/-- The contents of a regular file. -/
def Node.data : Node N D M → Option D
  | .reg x => some x
  | _ => none

omit [DecidableEq N] in
theorem Node.data_eq_some_iff {x : Node N D M} {a : D} : x.data = some a ↔ x = .reg a := by
  cases x <;> simp [Node.data]

namespace Tree

/-- Resolve a pathname; the empty pathname names nothing. -/
def resolve (t : Tree N D M) (r : Route N) : Option (List N × List (List N)) :=
  if r.abs = false ∧ r.comps = [] then none else walk t t.maxLinks (r.base t.cwd) r.comps

/-- The location a pathname leads to, symbolic links followed. -/
def target (t : Tree N D M) (r : Route N) : Option (List N) := (t.resolve r).map Prod.fst

/-- The locations looked up by name when a pathname is resolved. -/
def trail (t : Tree N D M) (r : Route N) : List (List N) := ((t.resolve r).map Prod.snd).getD []

/-- The directory entry a pathname names: its last name in the directory the rest leads to. -/
def entry (t : Tree N D M) (r : Route N) : Option (List N) :=
  match r.comps.getLast? with
  | some (.name n) =>
    (walk t t.maxLinks (r.base t.cwd) r.comps.dropLast).bind fun (d, _) =>
      if t.isDir d then some (n :: d) else none
  | _ => none

/-- The node a pathname names, a symbolic link at its end not followed. -/
def lstat (t : Tree N D M) (r : Route N) : Option (Node N D M) :=
  match r.comps.getLast? with
  | some (.name _) => (t.entry r).bind t.node
  | _ => (t.target r).bind t.node

/-- The contents of the regular file a pathname leads to. -/
def contents (t : Tree N D M) (r : Route N) : Option D :=
  (t.target r).bind fun l => (t.node l).bind Node.data

/-! ### Updates -/

/-- Put a node where no directory is, below a directory. -/
def insertNode (t : Tree N D M) (l : List N) (x : Node N D M)
    (h : t.isDir l = false ∧ t.isDir l.tail = true) : Tree N D M where
  nodes := t.nodes.insert l x
  cwd := t.cwd
  maxLinks := t.maxLinks
  root_dir := by
    have hne : ([] : List N) ≠ l := fun he => by rw [← he, isDir_root] at h; exact Bool.noConfusion h.1
    rw [Finmap.lookup_insert_of_ne _ hne]
    exact t.root_dir
  parent_dir := by
    intro k hk hne
    have hup : t.isDir k.tail = true := by
      by_cases hkl : k = l
      · rw [hkl]
        exact h.2
      · rw [Finmap.mem_keys, Finmap.mem_insert] at hk
        exact t.parent_dir k (Finmap.mem_keys.mpr (hk.resolve_left hkl)) hne
    have htl : k.tail ≠ l := fun he => by rw [he, h.1] at hup; exact Bool.noConfusion hup
    rw [Finmap.lookup_insert_of_ne _ htl]
    exact hup

/-- Write a regular file: create it or replace its contents. -/
def putFile (t : Tree N D M) (l : List N) (x : D) : Tree N D M :=
  if h : t.isDir l = false ∧ t.isDir l.tail = true then t.insertNode l (.reg x) h else t

/-- Make a symbolic link. -/
def putLink (t : Tree N D M) (l : List N) (r : Route N) : Tree N D M :=
  if h : t.isDir l = false ∧ t.isDir l.tail = true then t.insertNode l (.link r) h else t

/-- Remove an entry that is no directory. -/
def unlink (t : Tree N D M) (l : List N) : Tree N D M :=
  if h : t.isDir l = false then
    { nodes := t.nodes.erase l
      cwd := t.cwd
      maxLinks := t.maxLinks
      root_dir := by
        have hne : ([] : List N) ≠ l := fun he => by rw [← he, isDir_root] at h; exact Bool.noConfusion h
        rw [Finmap.lookup_erase_ne hne]
        exact t.root_dir
      parent_dir := by
        intro k hk hne
        rw [Finmap.mem_keys, Finmap.mem_erase] at hk
        have hup : t.isDir k.tail = true := t.parent_dir k (Finmap.mem_keys.mpr hk.2) hne
        have htl : k.tail ≠ l := fun he => by rw [he, h] at hup; exact Bool.noConfusion hup
        rw [Finmap.lookup_erase_ne htl]
        exact hup }
  else t

/-- Make a directory where nothing is, or change the mode of one. -/
def putDir (t : Tree N D M) (l : List N) (mode : M) : Tree N D M :=
  if h : (t.node l = none ∨ t.isDir l = true) ∧ t.isDir l.tail = true then
    { nodes := t.nodes.insert l (.dir mode)
      cwd := t.cwd
      maxLinks := t.maxLinks
      root_dir := by
        by_cases hl : ([] : List N) = l
        · rw [← hl, Finmap.lookup_insert]
          rfl
        · rw [Finmap.lookup_insert_of_ne _ hl]
          exact t.root_dir
      parent_dir := by
        intro k hk hne
        by_cases htl : k.tail = l
        · rw [htl, Finmap.lookup_insert]
          rfl
        · rw [Finmap.lookup_insert_of_ne _ htl]
          by_cases hkl : k = l
          · rw [hkl]
            exact h.2
          · rw [Finmap.mem_keys, Finmap.mem_insert] at hk
            exact t.parent_dir k (Finmap.mem_keys.mpr (hk.resolve_left hkl)) hne }
  else t

/-- Remove a directory that has no entries; the root directory stays. -/
def rmdir (t : Tree N D M) (l : List N) : Tree N D M :=
  if h : l ≠ [] ∧ ∀ k ∈ t.nodes.keys, k ≠ [] → k.tail ≠ l then
    { nodes := t.nodes.erase l
      cwd := t.cwd
      maxLinks := t.maxLinks
      root_dir := by
        rw [Finmap.lookup_erase_ne (Ne.symm h.1)]
        exact t.root_dir
      parent_dir := by
        intro k hk hne
        rw [Finmap.mem_keys, Finmap.mem_erase] at hk
        have hmem := Finmap.mem_keys.mpr hk.2
        rw [Finmap.lookup_erase_ne (h.2 k hmem hne)]
        exact t.parent_dir k hmem hne }
  else t

/-! ### What an update changes -/

theorem node_putFile_of_ne (t : Tree N D M) {l k : List N} (x : D) (h : k ≠ l) :
    (t.putFile l x).node k = t.node k := by
  unfold putFile
  split
  · exact Finmap.lookup_insert_of_ne _ h
  · rfl

theorem node_putFile (t : Tree N D M) {l : List N} (x : D) (h : t.isDir l = false)
    (hp : t.isDir l.tail = true) : (t.putFile l x).node l = some (.reg x) := by
  rw [putFile, dif_pos ⟨h, hp⟩]
  exact Finmap.lookup_insert _

theorem node_unlink_of_ne (t : Tree N D M) {l k : List N} (h : k ≠ l) :
    (t.unlink l).node k = t.node k := by
  unfold unlink
  split
  · exact Finmap.lookup_erase_ne h
  · rfl

theorem node_unlink (t : Tree N D M) {l : List N} (h : t.isDir l = false) :
    (t.unlink l).node l = none := by
  rw [unlink, dif_pos h]
  exact Finmap.lookup_erase _ _

theorem node_putDir_of_ne (t : Tree N D M) {l k : List N} (m : M) (h : k ≠ l) :
    (t.putDir l m).node k = t.node k := by
  unfold putDir
  split
  · exact Finmap.lookup_insert_of_ne _ h
  · rfl

theorem node_putDir (t : Tree N D M) {l : List N} (m : M)
    (h : t.node l = none ∨ t.isDir l = true) (hp : t.isDir l.tail = true) :
    (t.putDir l m).node l = some (.dir m) := by
  rw [putDir, dif_pos ⟨h, hp⟩]
  exact Finmap.lookup_insert _

@[simp] theorem cwd_putFile (t : Tree N D M) (l : List N) (x : D) : (t.putFile l x).cwd = t.cwd := by
  unfold putFile; split <;> rfl

@[simp] theorem maxLinks_putFile (t : Tree N D M) (l : List N) (x : D) :
    (t.putFile l x).maxLinks = t.maxLinks := by
  unfold putFile; split <;> rfl

@[simp] theorem cwd_unlink (t : Tree N D M) (l : List N) : (t.unlink l).cwd = t.cwd := by
  unfold unlink; split <;> rfl

@[simp] theorem maxLinks_unlink (t : Tree N D M) (l : List N) :
    (t.unlink l).maxLinks = t.maxLinks := by
  unfold unlink; split <;> rfl

@[simp] theorem cwd_putDir (t : Tree N D M) (l : List N) (m : M) : (t.putDir l m).cwd = t.cwd := by
  unfold putDir; split <;> rfl

@[simp] theorem maxLinks_putDir (t : Tree N D M) (l : List N) (m : M) :
    (t.putDir l m).maxLinks = t.maxLinks := by
  unfold putDir; split <;> rfl

/-- Writing a file twice leaves what was written last. -/
theorem putFile_putFile (t : Tree N D M) (l : List N) (x y : D) :
    (t.putFile l x).putFile l y = t.putFile l y := by
  by_cases h : t.isDir l = false ∧ t.isDir l.tail = true
  · have hl : (t.putFile l x).isDir l = false := isDir_eq_false_of_reg (t.node_putFile x h.1 h.2)
    have hne : l.tail ≠ l := by
      intro he
      have hp := h.2
      rw [he, h.1] at hp
      exact Bool.noConfusion hp
    have hp : (t.putFile l x).isDir l.tail = true := by
      rw [isDir, t.node_putFile_of_ne x hne]
      exact h.2
    have hx : (t.putFile l x).nodes = t.nodes.insert l (.reg x) := by
      rw [putFile, dif_pos h]
      rfl
    have hy : t.putFile l y = t.insertNode l (.reg y) h := dif_pos h
    have hxy : (t.putFile l x).putFile l y = (t.putFile l x).insertNode l (.reg y) ⟨hl, hp⟩ :=
      dif_pos ⟨hl, hp⟩
    rw [hy, hxy]
    ext1
    · simp only [insertNode, hx, Finmap.insert_insert]
    · exact t.cwd_putFile l x
    · exact t.maxLinks_putFile l x
  · have hx : t.putFile l x = t := by rw [putFile, dif_neg h]
    rw [hx]

/-- Making a directory and then changing its mode makes it with that mode. -/
theorem putDir_putDir (t : Tree N D M) {l : List N} (m m' : M) (h : t.node l = none)
    (hp : t.isDir l.tail = true) : (t.putDir l m).putDir l m' = t.putDir l m' := by
  have hnode : (t.putDir l m).node l = some (.dir m) := t.node_putDir m (Or.inl h) hp
  have hdir : (t.putDir l m).isDir l = true := by
    rw [isDir, hnode]
    rfl
  have htail : (t.putDir l m).isDir l.tail = true := by
    by_cases htl : l.tail = l
    · rw [htl, hdir]
    · rw [isDir, t.node_putDir_of_ne m htl]
      exact hp
  have hm : (t.putDir l m).nodes = t.nodes.insert l (.dir m) := by
    rw [putDir, dif_pos ⟨Or.inl h, hp⟩]
  have hm' : (t.putDir l m').nodes = t.nodes.insert l (.dir m') := by
    rw [putDir, dif_pos ⟨Or.inl h, hp⟩]
  ext1
  · rw [putDir, dif_pos ⟨Or.inr hdir, htail⟩, hm']
    simp only [hm, Finmap.insert_insert]
  · simp only [cwd_putDir]
  · simp only [maxLinks_putDir]

theorem isDir_of_node_eq {t t' : Tree N D M} {k : List N} (h : t'.node k = t.node k) :
    t'.isDir k = t.isDir k := by
  rw [isDir, isDir, h]

theorem linkAt_of_node_eq {t t' : Tree N D M} {k : List N} (h : t'.node k = t.node k) :
    t'.linkAt k = t.linkAt k := by
  rw [linkAt, linkAt, h]

/-! ### Trees of the same shape -/

/-- The same directories and the same symbolic links at the same places. -/
structure SameShape (t t' : Tree N D M) : Prop where
  dir : ∀ l, t'.isDir l = t.isDir l
  link : ∀ l, t'.linkAt l = t.linkAt l
  cwd : t'.cwd = t.cwd
  maxLinks : t'.maxLinks = t.maxLinks

theorem SameShape.symm {t t' : Tree N D M} (h : SameShape t t') : SameShape t' t :=
  ⟨fun l => (h.dir l).symm, fun l => (h.link l).symm, h.cwd.symm, h.maxLinks.symm⟩

theorem SameShape.walk {t t' : Tree N D M} (h : SameShape t t') (b : ℕ) (d : List N)
    (cs : List (Comp N)) : FileTree.walk t' b d cs = FileTree.walk t b d cs := by
  have key : ∀ {u u' : Tree N D M}, SameShape u u' → ∀ v,
      FileTree.walk u b d cs = some v → FileTree.walk u' b d cs = some v := by
    intro u u' hu v hv
    rw [walk_eq_some_iff] at hv ⊢
    exact hv.transfer (fun l hl => by rw [hu.dir, hl]) fun l _ => hu.link l
  cases hv : FileTree.walk t b d cs with
  | some v => exact key h v hv
  | none =>
    cases hv' : FileTree.walk t' b d cs with
    | none => rfl
    | some v => rw [key h.symm v hv'] at hv; exact absurd hv (by simp)

theorem SameShape.resolve {t t' : Tree N D M} (h : SameShape t t') (r : Route N) :
    t'.resolve r = t.resolve r := by
  rw [Tree.resolve, Tree.resolve, h.walk, h.cwd, h.maxLinks]

theorem SameShape.target {t t' : Tree N D M} (h : SameShape t t') (r : Route N) :
    t'.target r = t.target r := by
  rw [Tree.target, Tree.target, h.resolve]

theorem SameShape.trail {t t' : Tree N D M} (h : SameShape t t') (r : Route N) :
    t'.trail r = t.trail r := by
  rw [Tree.trail, Tree.trail, h.resolve]

theorem SameShape.entry {t t' : Tree N D M} (h : SameShape t t') (r : Route N) :
    t'.entry r = t.entry r := by
  simp only [Tree.entry, h.walk, h.cwd, h.maxLinks, h.dir]

/-- Writing a regular file, over none or over another, keeps the shape. -/
theorem sameShape_putFile (t : Tree N D M) {l : List N} (x : D) (h : t.isDir l = false)
    (hl : t.linkAt l = none) (hp : t.isDir l.tail = true) : SameShape t (t.putFile l x) where
  dir k := by
    by_cases hk : k = l
    · rw [hk, h, isDir_eq_false_of_reg (t.node_putFile x h hp)]
    · exact isDir_of_node_eq (t.node_putFile_of_ne x hk)
  link k := by
    by_cases hk : k = l
    · rw [hk, hl, linkAt_eq_none_of_reg (t.node_putFile x h hp)]
    · exact linkAt_of_node_eq (t.node_putFile_of_ne x hk)
  cwd := t.cwd_putFile l x
  maxLinks := t.maxLinks_putFile l x

end Tree

end FileTree
