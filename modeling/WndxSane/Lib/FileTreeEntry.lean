import WndxSane.Lib.FileTreeUpdate

/-!
# Entries, aliases and removal

Two pathnames may lead to one file in many ways: other spellings, `.` and `..`, symbolic links.  What
decides whether removing one of them takes the file from the other is not whether they resolve to the
same file but whether resolving the other passes through the removed directory entry.

* `exists_entry`: a pathname of anything but a directory names an entry, and looks it up.
* **`target_of_entry_mem_trail`**: a pathname whose resolution passes through the entry of a file
  resolves to that same file.
* **`contents_unlink_eq_some_iff`**: removing an entry cuts off exactly the pathnames that pass through
  it.
* `entry_of_parent`, **`free_entry_of_parent`**: a name in the directory a parent path leads to.
-/

namespace FileTree.Tree

variable {N D M : Type*} [DecidableEq N] {t : Tree N D M}

theorem resolve_eq_some_iff {r : Route N} {e : List N} {tr : List (List N)} :
    t.resolve r = some (e, tr) ↔
      ¬ (r.abs = false ∧ r.comps = []) ∧ Walk t t.maxLinks (r.base t.cwd) r.comps tr e := by
  unfold resolve
  split
  · rename_i h
    exact ⟨fun h' => absurd h' (by simp), fun h' => absurd h h'.1⟩
  · rename_i h
    rw [walk_eq_some_iff]
    exact ⟨fun h' => ⟨h, h'⟩, fun h' => h'.2⟩

theorem target_eq_some_iff {r : Route N} {e : List N} :
    t.target r = some e ↔ t.resolve r = some (e, t.trail r) := by
  unfold target trail
  cases h : t.resolve r with
  | none => simp
  | some v => simp [Prod.ext_iff]

theorem walk_of_target {r : Route N} {e : List N} (h : t.target r = some e) :
    Walk t t.maxLinks (r.base t.cwd) r.comps (t.trail r) e :=
  ((resolve_eq_some_iff ..).mp ((target_eq_some_iff ..).mp h)).2

/-- What a pathname leads to has a directory above it. -/
theorem isDir_tail_of_target {r : Route N} {y : List N} (h : t.target r = some y) :
    t.isDir y.tail = true := by
  refine (walk_of_target h).isDir_tail ?_
  cases hc : r.comps with
  | cons c cs => exact Or.inl (List.cons_ne_nil c cs)
  | nil =>
    have hne := ((resolve_eq_some_iff ..).mp ((target_eq_some_iff ..).mp h)).1
    have hbase : r.base t.cwd = [] := by
      cases hr : r.abs with
      | false => exact absurd ⟨hr, hc⟩ hne
      | true => rw [Route.base, if_pos hr]
    rw [hbase]
    exact Or.inr t.isDir_root

/-- Resolving the path of anything but a directory looks that thing up. -/
theorem target_mem_trail {r : Route N} {y : List N} (h : t.target r = some y)
    (hy : t.isDir y = false) : y ∈ t.trail r := by
  have hw := walk_of_target h
  refine (hw.mem_trail hy).resolve_right fun heq => ?_
  -- nothing but the root directory or the working directory is where a route starts
  have hne := ((resolve_eq_some_iff ..).mp ((target_eq_some_iff ..).mp h)).1
  rw [← heq] at hw
  have hcs := (hw.eq_of_not_dir hy).1
  have hbase : r.base t.cwd = [] := by
    cases hr : r.abs with
    | false => exact absurd ⟨hr, hcs⟩ hne
    | true => rw [Route.base, if_pos hr]
  rw [heq, hbase, t.isDir_root] at hy
  exact Bool.noConfusion hy

theorem contents_eq_some_iff {r : Route N} {x : D} :
    t.contents r = some x ↔ ∃ l, t.target r = some l ∧ t.node l = some (.reg x) := by
  simp only [contents, Option.bind_eq_some_iff, Node.data_eq_some_iff]
  constructor
  · rintro ⟨l, hl, y, hy, rfl⟩
    exact ⟨l, hl, hy⟩
  · rintro ⟨l, hl, hx⟩
    exact ⟨l, hl, _, hx, rfl⟩

theorem entry_eq_some_iff {r : Route N} {l : List N} :
    t.entry r = some l ↔ ∃ xs n m tr, r.comps = xs ++ [Comp.name n] ∧ l = n :: m ∧ t.isDir m = true ∧
      Walk t t.maxLinks (r.base t.cwd) xs tr m := by
  unfold entry
  rcases List.eq_nil_or_concat r.comps with hnil | ⟨xs, c, hc⟩
  · simp [hnil]
  · rw [List.concat_eq_append] at hc
    rw [hc, List.getLast?_append_of_ne_nil _ (List.cons_ne_nil c []), List.dropLast_concat]
    constructor
    · intro h
      cases c with
      | dot => exact absurd h (by simp)
      | dotdot => exact absurd h (by simp)
      | name n =>
        simp only [List.getLast?_singleton, Option.bind_eq_some_iff] at h
        obtain ⟨⟨m, tr⟩, hw, hl⟩ := h
        by_cases hm : t.isDir m = true
        · rw [if_pos hm] at hl
          cases hl
          exact ⟨xs, n, m, tr, rfl, rfl, hm, (walk_eq_some_iff ..).mp hw⟩
        · rw [if_neg hm] at hl
          exact absurd hl (by simp)
    · rintro ⟨ys, n, m, tr, hys, rfl, hm, hw⟩
      obtain ⟨rfl, hcn⟩ := List.append_inj' hys rfl
      cases hcn
      simp only [List.getLast?_singleton, (walk_eq_some_iff ..).mpr hw, Option.bind_some, if_pos hm]

/-- **Entries exist.**  A pathname that leads to anything but a directory ends in a name; the entry it
names is looked up on the way and is either the file itself or a symbolic link. -/
theorem exists_entry {r : Route N} {y : List N} (h : t.target r = some y)
    (hy : t.isDir y = false) :
    ∃ l, t.entry r = some l ∧ l ∈ t.trail r ∧ t.isDir l = false ∧ (t.linkAt l = none → l = y) := by
  have hw := walk_of_target h
  rcases List.eq_nil_or_concat r.comps with hnil | ⟨xs, c, hc⟩
  · -- only the root directory is named by no component
    have hres := ((resolve_eq_some_iff ..).mp ((target_eq_some_iff ..).mp h)).1
    rw [hnil] at hw
    have habs : r.abs = true := by
      cases hr : r.abs with
      | false => exact absurd ⟨hr, hnil⟩ hres
      | true => rfl
    have hyroot : y = [] := by
      obtain ⟨-, hyb⟩ := hw.det (.stop : Walk t 0 (r.base t.cwd) [] [] (r.base t.cwd))
      rw [hyb, Route.base, if_pos habs]
    rw [hyroot, isDir_root] at hy
    exact Bool.noConfusion hy
  · rw [List.concat_eq_append] at hc
    obtain ⟨m, tr₁, tr₂, b', h₁, h₂, htr⟩ := hw.split hc
    cases h₂ with
    | dot hd h₂ => cases h₂; rw [hd] at hy; exact Bool.noConfusion hy
    | dotdot hd h₂ => cases h₂; rw [isDir_tail hd] at hy; exact Bool.noConfusion hy
    | @name _ _ n _ tr' _ hd hl h₂ =>
      cases h₂
      refine ⟨n :: m, (entry_eq_some_iff ..).mpr ⟨xs, n, m, tr₁, hc, rfl, hd, h₁⟩, ?_, hy, fun _ => rfl⟩
      rw [htr]
      exact List.mem_append_right _ List.mem_cons_self
    | @link _ _ n _ tr' _ r' hd hl h₂ =>
      refine ⟨n :: m, (entry_eq_some_iff ..).mpr ⟨xs, n, m, tr₁, hc, rfl, hd, h₁⟩, ?_, ?_, ?_⟩
      · rw [htr]
        exact List.mem_append_right _ List.mem_cons_self
      · cases hdir : t.isDir (n :: m) with
        | false => rfl
        | true => rw [linkAt_eq_none_of_isDir hdir] at hl; exact absurd hl (by simp)
      · intro hnone
        rw [hl] at hnone
        exact absurd hnone (by simp)

/-- **Passing through an entry.**  A pathname whose resolution looks up the entry that another one
names, of anything but a directory, leads where the other leads. -/
theorem target_of_entry_mem_trail {r s : Route N} {y l e : List N} (hr : t.target r = some y)
    (hy : t.isDir y = false) (hl : t.entry r = some l) (hmem : l ∈ t.trail s)
    (hs : t.target s = some e) : e = y := by
  obtain ⟨xs, n, m, tr, hxs, rfl, -, hw⟩ := (entry_eq_some_iff ..).mp hl
  obtain ⟨m', tr₁, tr₂, b₁, h₁, h₂, -⟩ := (walk_of_target hr).split hxs
  obtain ⟨-, rfl⟩ := hw.det h₁
  obtain ⟨n', m', rest, tr₃, b₂, heq, hat⟩ := (walk_of_target hs).at_probe hmem
  obtain ⟨rfl, rfl⟩ := List.cons.inj heq
  obtain ⟨z, tr₄, tr₅, b₃, h₃, h₄, -⟩ := hat.split (show _ = [.name n] ++ rest from rfl)
  obtain ⟨-, rfl⟩ := h₂.det h₃
  exact (h₄.eq_of_not_dir hy).2

/-! ### Writing a file -/

/-- The pathnames of a written file have what was written. -/
theorem contents_putFile {r : Route N} {l : List N} (x : D) (hd : t.isDir l = false)
    (hl : t.linkAt l = none) (hp : t.isDir l.tail = true) (h : t.target r = some l) :
    (t.putFile l x).contents r = some x := by
  rw [contents, (sameShape_putFile t x hd hl hp).target, h, Option.bind_some,
    t.node_putFile x hd hp]
  rfl

/-- The pathnames of other files have what they had. -/
theorem contents_putFile_of_ne {r : Route N} {l : List N} (x : D) (hd : t.isDir l = false)
    (hl : t.linkAt l = none) (hp : t.isDir l.tail = true) (h : t.target r ≠ some l) :
    (t.putFile l x).contents r = t.contents r := by
  rw [contents, (sameShape_putFile t x hd hl hp).target, contents]
  cases ht : t.target r with
  | none => rfl
  | some k =>
    have hk : k ≠ l := fun he => h (he ▸ ht)
    rw [Option.bind_some, Option.bind_some, t.node_putFile_of_ne x hk]

/-! ### Removing an entry -/

theorem isDir_unlink {l : List N} (hd : t.isDir l = false) (k : List N) :
    (t.unlink l).isDir k = t.isDir k := by
  by_cases hk : k = l
  · rw [hk, hd, isDir, node_unlink t hd]
    rfl
  · exact isDir_of_node_eq (t.node_unlink_of_ne hk)

/-- A pathname that does not pass through a removed entry resolves as before. -/
theorem target_unlink_of_not_mem {r : Route N} {e l : List N} (hd : t.isDir l = false)
    (hl : l ∉ t.trail r) (h : t.target r = some e) : (t.unlink l).target r = some e := by
  have hw := walk_of_target h
  have hne := ((resolve_eq_some_iff ..).mp ((target_eq_some_iff ..).mp h)).1
  have hw' : Walk (t.unlink l) t.maxLinks (r.base t.cwd) r.comps (t.trail r) e := by
    refine hw.transfer (fun k hk => by rw [isDir_unlink hd, hk]) fun k hk => ?_
    have hkl : k ≠ l := fun he => hl (he ▸ hk)
    exact linkAt_of_node_eq (t.node_unlink_of_ne hkl)
  have hres : (t.unlink l).resolve r = some (e, t.trail r) := by
    rw [resolve_eq_some_iff, cwd_unlink, maxLinks_unlink]
    exact ⟨hne, hw'⟩
  rw [target, hres]
  rfl

/-- **Removal cuts off.**  A pathname that passes through a removed entry leads to no file any more. -/
theorem contents_unlink_of_mem {r : Route N} {e l : List N} (hd : t.isDir l = false)
    (hl : l ∈ t.trail r) (h : t.target r = some e) : (t.unlink l).contents r = none := by
  have hgone : (t.unlink l).node l = none := node_unlink t hd
  cases ht : (t.unlink l).target r with
  | none => rw [contents, ht]; rfl
  | some e' =>
    have hw' := walk_of_target ht
    rw [cwd_unlink] at hw'
    have he : e' = l := by
      refine (walk_of_target h).blocked hl ?_ ?_ ?_ hw'
      · rw [isDir_unlink hd, hd]
      · rw [linkAt, hgone]
        rfl
      · intro k hk
        exact linkAt_of_node_eq (t.node_unlink_of_ne hk)
    rw [contents, ht, he, Option.bind_some, hgone]
    rfl

theorem contents_unlink_of_not_mem {r : Route N} {x : D} {l : List N} (hd : t.isDir l = false)
    (hl : l ∉ t.trail r) (h : t.contents r = some x) : (t.unlink l).contents r = some x := by
  obtain ⟨k, hk, hx⟩ := (contents_eq_some_iff ..).mp h
  have hkl : k ≠ l := fun he => hl (he ▸ target_mem_trail hk (isDir_eq_false_of_reg hx))
  refine (contents_eq_some_iff ..).mpr ⟨k, target_unlink_of_not_mem hd hl hk, ?_⟩
  rw [t.node_unlink_of_ne hkl, hx]

/-- Removal adds no contents. -/
theorem contents_of_contents_unlink {r : Route N} {x : D} {l : List N} (hd : t.isDir l = false)
    (h : (t.unlink l).contents r = some x) : t.contents r = some x := by
  obtain ⟨k, hk, hx⟩ := (contents_eq_some_iff ..).mp h
  have hkl : k ≠ l := by
    intro he
    rw [he, node_unlink t hd] at hx
    exact absurd hx (by simp)
  have hw := walk_of_target hk
  have hne := ((resolve_eq_some_iff ..).mp ((target_eq_some_iff ..).mp hk)).1
  rw [maxLinks_unlink, cwd_unlink] at hw
  have hl : l ∉ (t.unlink l).trail r := by
    intro hl
    -- a route that looks up the removed entry ends there, where nothing is any more
    have hgone : (t.unlink l).linkAt l = none := by
      rw [linkAt, node_unlink t hd]
      rfl
    exact hkl (hw.blocked hl (by rw [isDir_unlink hd, hd]) hgone (fun _ _ => rfl) hw)
  have hw' : Walk t t.maxLinks (r.base t.cwd) r.comps ((t.unlink l).trail r) k := by
    refine hw.transfer (fun j hj => by rw [← hj, isDir_unlink hd]) fun j hj => ?_
    have hjl : j ≠ l := fun he => hl (he ▸ hj)
    exact (linkAt_of_node_eq (t.node_unlink_of_ne hjl)).symm
  have hres : t.resolve r = some (k, (t.unlink l).trail r) := (resolve_eq_some_iff ..).mpr ⟨hne, hw'⟩
  refine (contents_eq_some_iff ..).mpr ⟨k, ?_, ?_⟩
  · rw [target, hres]
    rfl
  · rw [← t.node_unlink_of_ne hkl, hx]

/-- **Removal and contents.**  After an entry is removed, a pathname has the contents it had if and only
if its resolution did not pass through the entry. -/
theorem contents_unlink_eq_some_iff {r : Route N} {x : D} {l : List N} (hd : t.isDir l = false) :
    (t.unlink l).contents r = some x ↔ t.contents r = some x ∧ l ∉ t.trail r := by
  constructor
  · intro h
    have hbefore := contents_of_contents_unlink hd h
    obtain ⟨e, he, -⟩ := (contents_eq_some_iff ..).mp hbefore
    refine ⟨hbefore, fun hl => ?_⟩
    rw [contents_unlink_of_mem hd hl he] at h
    exact absurd h (by simp)
  · rintro ⟨h, hl⟩
    exact contents_unlink_of_not_mem hd hl h

/-- A pathname of another file does not pass through the entry of a file. -/
theorem entry_not_mem_trail {r s : Route N} {y l : List N} (hr : t.target r = some y)
    (hy : t.isDir y = false) (hl : t.entry r = some l) (hs : t.target s ≠ some y) :
    l ∉ t.trail s := by
  intro hmem
  cases hts : t.target s with
  | none =>
    have hres : t.resolve s = none := Option.map_eq_none_iff.mp hts
    rw [trail, hres] at hmem
    exact absurd hmem (by simp)
  | some e =>
    have he := target_of_entry_mem_trail hr hy hl hmem hts
    rw [hts, he] at hs
    exact hs rfl

/-! ### Creating an entry -/

/-- A pathname that leads to a directory names something also when a link at its end is not followed. -/
theorem lstat_ne_none_of_target {r : Route N} {d : List N} (h : t.target r = some d)
    (hd : t.isDir d = true) : t.lstat r ≠ none := by
  have hnode := node_ne_none_of_isDir hd
  unfold lstat
  split
  · rename_i n hlast
    obtain ⟨xs, hxs⟩ := List.getLast?_eq_some_iff.mp hlast
    obtain ⟨m, tr₁, tr₂, b', h₁, h₂, -⟩ := (walk_of_target h).split hxs
    have hm : t.isDir m = true := by cases h₂ <;> assumption
    have hentry : t.entry r = some (n :: m) := (entry_eq_some_iff ..).mpr ⟨xs, n, m, tr₁, hxs, rfl, hm, h₁⟩
    rw [hentry, Option.bind_some]
    cases h₂ with
    | name _ _ h₂ => cases h₂; exact hnode
    | link _ hl _ =>
      intro hn
      rw [linkAt, hn] at hl
      exact absurd hl (by simp)
  · rw [h]
    exact hnode

theorem isDir_putDir {k l : List N} (m : M) (hl : t.node l = none) (hp : t.isDir l.tail = true) :
    (t.putDir l m).isDir k = true ↔ t.isDir k = true ∨ k = l := by
  by_cases hk : k = l
  · have hnode : (t.putDir l m).node l = some (.dir m) := t.node_putDir m (Or.inl hl) hp
    rw [hk, isDir, hnode]
    exact ⟨fun _ => Or.inr rfl, fun _ => rfl⟩
  · rw [isDir_of_node_eq (t.node_putDir_of_ne m hk)]
    exact ⟨Or.inl, fun h => h.resolve_right hk⟩

theorem linkAt_putDir {l : List N} (m : M) (hl : t.node l = none) (hp : t.isDir l.tail = true)
    (k : List N) : (t.putDir l m).linkAt k = t.linkAt k := by
  by_cases hk : k = l
  · have hnode : (t.putDir l m).node l = some (.dir m) := t.node_putDir m (Or.inl hl) hp
    rw [hk, linkAt, linkAt, hnode, hl]
    rfl
  · exact linkAt_of_node_eq (t.node_putDir_of_ne m hk)

/-- What resolves still does when a directory is made where nothing was. -/
theorem walk_putDir {b : ℕ} {d e l : List N} {cs : List (Comp N)} {tr : List (List N)} (m : M)
    (hl : t.node l = none) (hp : t.isDir l.tail = true) (h : Walk t b d cs tr e) :
    Walk (t.putDir l m) b d cs tr e :=
  h.transfer (fun _ hk => (isDir_putDir m hl hp).mpr (Or.inl hk)) fun k _ => linkAt_putDir m hl hp k

theorem target_putDir {r : Route N} {e l : List N} (m : M) (hl : t.node l = none)
    (hp : t.isDir l.tail = true) (h : t.target r = some e) : (t.putDir l m).target r = some e := by
  have hne := ((resolve_eq_some_iff ..).mp ((target_eq_some_iff ..).mp h)).1
  have hres : (t.putDir l m).resolve r = some (e, t.trail r) := by
    rw [resolve_eq_some_iff, cwd_putDir, maxLinks_putDir]
    exact ⟨hne, walk_putDir m hl hp (walk_of_target h)⟩
  rw [target, hres]
  rfl

theorem entry_putDir {r : Route N} {e l : List N} (m : M) (hl : t.node l = none)
    (hp : t.isDir l.tail = true) (h : t.entry r = some e) : (t.putDir l m).entry r = some e := by
  obtain ⟨xs, n, d, tr, hxs, rfl, hd, hw⟩ := (entry_eq_some_iff ..).mp h
  refine (entry_eq_some_iff ..).mpr ⟨xs, n, d, tr, hxs, rfl, (isDir_putDir m hl hp).mpr (Or.inl hd), ?_⟩
  rw [cwd_putDir, maxLinks_putDir]
  exact walk_putDir m hl hp hw

/-- An entry that is no symbolic link is what its pathname leads to. -/
theorem target_of_entry {r : Route N} {l : List N} (h : t.entry r = some l)
    (hl : t.linkAt l = none) : t.target r = some l := by
  obtain ⟨xs, n, m, tr, hxs, rfl, hd, hw⟩ := (entry_eq_some_iff ..).mp h
  have hres : t.resolve r = some (n :: m, tr ++ [n :: m]) := by
    rw [resolve_eq_some_iff, hxs]
    exact ⟨by simp, hw.snoc (.name hd hl .stop)⟩
  rw [target, hres]
  rfl

theorem isDir_tail_of_entry {r : Route N} {l : List N} (h : t.entry r = some l) :
    t.isDir l.tail = true := by
  obtain ⟨-, n, m, -, -, rfl, hd, -⟩ := (entry_eq_some_iff ..).mp h
  exact hd

/-- Nothing is below a place where nothing is. -/
theorem node_below {l : List N} (h : t.node l = none) (n : N) : t.node (n :: l) = none := by
  by_contra hn
  exact node_ne_none_of_isDir (isDir_tail_of_node hn (List.cons_ne_nil n l)) h

/-- Making a directory where nothing was, and removing it, changes nothing. -/
theorem rmdir_putDir {l : List N} (m : M) (hl : t.node l = none) (hp : t.isDir l.tail = true) :
    (t.putDir l m).rmdir l = t := by
  have hne : l ≠ [] := fun he => node_ne_none_of_isDir t.isDir_root (he ▸ hl)
  have hnodes : (t.putDir l m).nodes = t.nodes.insert l (.dir m) := by
    rw [putDir, dif_pos ⟨Or.inl hl, hp⟩]
  have hempty : ∀ k ∈ (t.putDir l m).nodes.keys, k ≠ [] → k.tail ≠ l := by
    intro k hk hknil htail
    have hkl : k ≠ l := by
      intro he
      have hlen := congrArg List.length (htail.trans he.symm)
      rw [List.length_tail] at hlen
      have := List.length_pos_iff.mpr hknil
      omega
    rw [hnodes, Finmap.mem_keys, Finmap.mem_insert] at hk
    refine absurd hl (node_ne_none_of_isDir (htail ▸ isDir_tail_of_node ?_ hknil))
    exact Option.isSome_iff_ne_none.mp (Finmap.lookup_isSome.mpr (hk.resolve_left hkl))
  have hrm : ((t.putDir l m).rmdir l).nodes = (t.putDir l m).nodes.erase l := by
    rw [rmdir, dif_pos ⟨hne, hempty⟩]
  ext1
  · rw [hrm, hnodes]
    refine Finmap.ext_lookup fun k => ?_
    by_cases hk : k = l
    · rw [hk, Finmap.lookup_erase]
      exact hl.symm
    · rw [Finmap.lookup_erase_ne hk, Finmap.lookup_insert_of_ne _ hk]
  · rw [rmdir, dif_pos ⟨hne, hempty⟩]
    exact t.cwd_putDir l m
  · rw [rmdir, dif_pos ⟨hne, hempty⟩]
    exact t.maxLinks_putDir l m

/-- A pathname with one component after another pathname, which needs no symbolic link. -/
theorem target_append {r s : Route N} {c : Comp N} {d e : List N} {tr : List (List N)}
    (habs : r.abs = s.abs) (hcomps : r.comps = s.comps ++ [c]) (hs : t.target s = some d)
    (hc : Walk t 0 d [c] tr e) : t.target r = some e := by
  have hbase : r.base t.cwd = s.base t.cwd := by rw [Route.base, Route.base, habs]
  have hres : t.resolve r = some (e, t.trail s ++ tr) := by
    rw [resolve_eq_some_iff, hbase, hcomps]
    exact ⟨by simp, (walk_of_target hs).snoc hc⟩
  rw [target, hres]
  rfl

/-- A `.` after a pathname asks for a directory there. -/
theorem target_append_dot {r s : Route N} {d : List N} (habs : r.abs = s.abs)
    (hcomps : r.comps = s.comps ++ [Comp.dot]) (hs : s.comps ≠ []) :
    t.target r = some d ↔ t.target s = some d ∧ t.isDir d = true := by
  constructor
  · intro h
    obtain ⟨m, tr₁, tr₂, b', h₁, h₂, -⟩ := (walk_of_target h).split hcomps
    cases h₂ with
    | dot hd h₂ =>
      cases h₂
      have hbase : s.base t.cwd = r.base t.cwd := by rw [Route.base, Route.base, habs]
      have hres : t.resolve s = some (d, tr₁) := by
        rw [resolve_eq_some_iff, hbase]
        exact ⟨fun hnil => hs hnil.2, h₁⟩
      exact ⟨by rw [target, hres]; rfl, hd⟩
  · rintro ⟨h, hd⟩
    exact target_append habs hcomps h (.dot hd .stop)

/-- The name after a parent path that leads to a directory is an entry of that directory. -/
theorem entry_of_parent {r s : Route N} {n : N} {d : List N} (habs : r.abs = s.abs)
    (hcomps : r.comps = s.comps ++ [Comp.name n]) (hs : t.target s = some d) (hd : t.isDir d = true) :
    t.entry r = some (n :: d) := by
  have hbase : r.base t.cwd = s.base t.cwd := by rw [Route.base, Route.base, habs]
  refine (entry_eq_some_iff ..).mpr ⟨s.comps, n, d, t.trail s, hcomps, rfl, hd, ?_⟩
  rw [hbase]
  exact walk_of_target hs

/-- **Names that are free.**  Below a parent path that leads to a directory, a pathname of one component
more that names nothing ends in a name, and that name is free in the directory. -/
theorem free_entry_of_parent {r s : Route N} {cs : List (Comp N)} {d : List N}
    (habs : r.abs = s.abs) (hcomps : r.comps = s.comps ++ cs) (hlen : cs.length ≤ 1)
    (hs : t.target s = some d) (hd : t.isDir d = true) (hr : t.lstat r = none) :
    ∃ n, r.comps = s.comps ++ [Comp.name n] ∧ t.node (n :: d) = none := by
  match cs, hlen with
  | [], _ =>
    have hrs : t.target r = some d := by
      rw [List.append_nil] at hcomps
      have hsame : r = s := by
        cases r
        cases s
        simp_all
      rw [hsame, hs]
    exact absurd hr (lstat_ne_none_of_target hrs hd)
  | [.dot], _ =>
    exact absurd hr (lstat_ne_none_of_target (target_append habs hcomps hs (.dot hd .stop)) hd)
  | [.dotdot], _ =>
    exact absurd hr
      (lstat_ne_none_of_target (target_append habs hcomps hs (.dotdot hd .stop)) (isDir_tail hd))
  | [.name n], _ =>
    refine ⟨n, hcomps, ?_⟩
    have hentry := entry_of_parent habs hcomps hs hd
    have hlast : r.comps.getLast? = some (.name n) := by rw [hcomps, List.getLast?_concat]
    rw [lstat, hlast] at hr
    simpa [hentry] using hr

end FileTree.Tree
