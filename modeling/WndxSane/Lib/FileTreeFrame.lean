import WndxSane.Lib.FileTreeEntry

/-!
# Trees that agree on some locations

What an update leaves alone is every location but its own.  The other way round, a pathname resolves alike in
two trees that agree on where it starts and on the locations looked up on its way.

* `agreeOn_putFile`, `agreeOn_unlink`, `agreeOn_putDir`, `agreeOn_rmdir`: the updates.
* **`AgreeOn.contents`**: what can be read under a pathname depends on the locations on its way alone.
-/

namespace FileTree.Tree

variable {N D M : Type*} [DecidableEq N] {t t' u : Tree N D M} {ls : List (List N)} {l : List N}

/-- The same nodes at the locations of a list, and the same start for relative pathnames. -/
structure AgreeOn (ls : List (List N)) (t t' : Tree N D M) : Prop where
  node : ∀ l ∈ ls, t'.node l = t.node l
  cwd : t'.cwd = t.cwd
  maxLinks : t'.maxLinks = t.maxLinks

instance [DecidableEq D] [DecidableEq M] (ls : List (List N)) (t t' : Tree N D M) :
    Decidable (AgreeOn ls t t') :=
  decidable_of_iff ((∀ l ∈ ls, t'.node l = t.node l) ∧ t'.cwd = t.cwd ∧ t'.maxLinks = t.maxLinks)
    ⟨fun h => ⟨h.1, h.2.1, h.2.2⟩, fun h => ⟨h.node, h.cwd, h.maxLinks⟩⟩

theorem AgreeOn.refl (ls : List (List N)) (t : Tree N D M) : AgreeOn ls t t :=
  ⟨fun _ _ => rfl, rfl, rfl⟩

theorem AgreeOn.trans (h : AgreeOn ls t t') (h' : AgreeOn ls t' u) : AgreeOn ls t u where
  node l hl := (h'.node l hl).trans (h.node l hl)
  cwd := h'.cwd.trans h.cwd
  maxLinks := h'.maxLinks.trans h.maxLinks

/-! ### Updates -/

theorem agreeOn_putFile (t : Tree N D M) (h : l ∉ ls) (x : D) : AgreeOn ls t (t.putFile l x) where
  node _ hk := t.node_putFile_of_ne x (ne_of_mem_of_not_mem hk h)
  cwd := t.cwd_putFile l x
  maxLinks := t.maxLinks_putFile l x

theorem agreeOn_unlink (t : Tree N D M) (h : l ∉ ls) : AgreeOn ls t (t.unlink l) where
  node _ hk := t.node_unlink_of_ne (ne_of_mem_of_not_mem hk h)
  cwd := t.cwd_unlink l
  maxLinks := t.maxLinks_unlink l

theorem agreeOn_putDir (t : Tree N D M) (h : l ∉ ls) (m : M) : AgreeOn ls t (t.putDir l m) where
  node _ hk := t.node_putDir_of_ne m (ne_of_mem_of_not_mem hk h)
  cwd := t.cwd_putDir l m
  maxLinks := t.maxLinks_putDir l m

theorem agreeOn_rmdir (t : Tree N D M) (h : l ∉ ls) : AgreeOn ls t (t.rmdir l) := by
  unfold rmdir
  split
  · exact ⟨fun _ hk => Finmap.lookup_erase_ne (ne_of_mem_of_not_mem hk h), rfl, rfl⟩
  · exact .refl ls t

/-! ### Pathnames -/

/-- A walk through locations that two trees agree on, from a place that is a directory in the second if it is
one in the first. -/
theorem walk_of_agree {b : ℕ} {d e : List N} {cs : List (Comp N)} {tr : List (List N)}
    (h : Walk t b d cs tr e) (hstart : t.isDir d = true → t'.isDir d = true)
    (htrail : ∀ l ∈ tr, t'.node l = t.node l) : Walk t' b d cs tr e := by
  induction h with
  | stop => exact .stop
  | dot hd _ ih => exact .dot (hstart hd) (ih hstart htrail)
  | dotdot hd _ ih => exact .dotdot (hstart hd) (ih (fun _ => isDir_tail (hstart hd)) htrail)
  | name hd hn _ ih =>
    have hnode := htrail _ List.mem_cons_self
    refine .name (hstart hd) ((linkAt_of_node_eq hnode).trans hn) (ih (fun hdir => ?_) fun l hl => ?_)
    · rw [isDir_of_node_eq hnode, hdir]
    · exact htrail l (List.mem_cons_of_mem _ hl)
  | @link _ d n r _ _ _ hd hn _ ih =>
    have hnode := htrail _ List.mem_cons_self
    refine .link (hstart hd) ((linkAt_of_node_eq hnode).trans hn) (ih (fun hdir => ?_) fun l hl => ?_)
    · rw [Route.base]
      split
      · exact t'.isDir_root
      · exact hstart hd
    · exact htrail l (List.mem_cons_of_mem _ hl)

/-- The locations on the way of a pathname: where it starts, and what is looked up. -/
def way (t : Tree N D M) (r : Route N) : List (List N) := r.base t.cwd :: t.trail r

/-- **What can be read** under a pathname depends on the locations on its way alone. -/
theorem AgreeOn.contents {r : Route N} {x : D} (h : AgreeOn (t.way r) t t')
    (hx : t.contents r = some x) : t'.contents r = some x := by
  obtain ⟨l, hl, hreg⟩ := (contents_eq_some_iff ..).mp hx
  have htrail : ∀ k ∈ t.trail r, t'.node k = t.node k := fun k hk =>
    h.node k (List.mem_cons_of_mem _ hk)
  obtain ⟨hne, hwalk⟩ := (resolve_eq_some_iff ..).mp ((target_eq_some_iff ..).mp hl)
  have hwalk' := walk_of_agree hwalk (fun hdir => (isDir_of_node_eq (h.node _ List.mem_cons_self)).trans hdir)
    htrail
  rw [← h.cwd, ← h.maxLinks] at hwalk'
  have hl' : t'.target r = some l := by
    rw [target, (resolve_eq_some_iff ..).mpr ⟨hne, hwalk'⟩]
    rfl
  refine (contents_eq_some_iff ..).mpr ⟨l, hl', ?_⟩
  rw [htrail l (target_mem_trail hl (isDir_eq_false_of_reg hreg)), hreg]

end FileTree.Tree
