import Mathlib.Data.Finmap
import Mathlib.Tactic.Common

/-!
# A POSIX file tree and pathname resolution

Locations are the places of a finite tree, written as the list of names from the inside out; the nodes
are regular files, directories, symbolic links and everything else.  A pathname is a *route*: a flag for
the root directory and a list of components `.`, `..` and names.  `walk` resolves a route one component
after another as POSIX does, following symbolic links (at most `maxLinks` of them), `..` being the
physical parent; beside the location it returns every location it looked up by name.  A last component
that names nothing is a location without a node, where a file may be created.

* `Walk` is the same resolution as a relation; `walk_eq_some_iff` connects the two.
* **`Walk.det`**: what a route leads to does not depend on the budget it is resolved with.
* **`Walk.split`**: resolving a route is resolving its front and going on from there.
* `Walk.eq_foldl`: where no symbolic link is met, the components say where a route leads.
-/

namespace FileTree

variable {N D M : Type*}

/-- A component of a pathname. -/
inductive Comp (N : Type*) where
  | dot
  | dotdot
  | name (n : N)
  deriving DecidableEq

/-- A pathname, parsed: relative or from the root directory, and its components. -/
structure Route (N : Type*) where
  abs : Bool
  comps : List (Comp N)
  deriving DecidableEq

/-- What may stand at a location: a regular file, a directory with its mode, a symbolic link, or
another kind of file (a device, a pipe, a socket). -/
inductive Node (N D M : Type*) where
  | reg (data : D)
  | dir (mode : M)
  | link (target : Route N)
  | other
  deriving DecidableEq

def Node.isDir : Node N D M → Bool
  | .dir _ => true
  | _ => false

def Node.target : Node N D M → Option (Route N)
  | .link r => some r
  | _ => none

/-- A file tree: every node but the root has a directory above it. -/
@[ext] structure Tree (N D M : Type*) [DecidableEq N] where
  nodes : Finmap fun _ : List N => Node N D M
  cwd : List N
  maxLinks : ℕ
  root_dir : (nodes.lookup []).any Node.isDir = true
  parent_dir : ∀ l ∈ nodes.keys, l ≠ [] → (nodes.lookup l.tail).any Node.isDir = true

variable [DecidableEq N]

namespace Tree

/-- The tree of a root directory alone. -/
def root (mode : M) (maxLinks : ℕ) : Tree N D M where
  nodes := Finmap.singleton [] (.dir mode)
  cwd := []
  maxLinks := maxLinks
  root_dir := by rw [Finmap.lookup_singleton_eq]; rfl
  parent_dir := by
    intro l hl hne
    rw [Finmap.keys_singleton, Finset.mem_singleton] at hl
    exact absurd hl hne

def node (t : Tree N D M) (l : List N) : Option (Node N D M) := t.nodes.lookup l

def isDir (t : Tree N D M) (l : List N) : Bool := (t.node l).any Node.isDir

/-- The symbolic link at a location, if there is one. -/
def linkAt (t : Tree N D M) (l : List N) : Option (Route N) := (t.node l).bind Node.target

theorem isDir_root (t : Tree N D M) : t.isDir [] = true := t.root_dir

theorem isDir_tail_of_node {t : Tree N D M} {l : List N} (h : t.node l ≠ none) (hl : l ≠ []) :
    t.isDir l.tail = true := by
  refine t.parent_dir l ?_ hl
  rw [Finmap.mem_keys, ← Finmap.lookup_isSome]
  exact Option.isSome_iff_ne_none.mpr h

theorem node_ne_none_of_isDir {t : Tree N D M} {l : List N} (h : t.isDir l = true) :
    t.node l ≠ none := by
  intro hn
  rw [isDir, hn] at h
  exact Bool.noConfusion h

theorem isDir_tail {t : Tree N D M} {l : List N} (h : t.isDir l = true) :
    t.isDir l.tail = true := by
  cases l with
  | nil => exact h
  | cons n d => exact isDir_tail_of_node (node_ne_none_of_isDir h) (List.cons_ne_nil n d)

theorem linkAt_eq_none_of_isDir {t : Tree N D M} {l : List N} (h : t.isDir l = true) :
    t.linkAt l = none := by
  unfold isDir at h
  unfold linkAt
  cases hn : t.node l with
  | none => rfl
  | some x => cases x <;> simp_all [Node.isDir, Node.target]

theorem isDir_eq_false_of_reg {t : Tree N D M} {l : List N} {x : D}
    (h : t.node l = some (.reg x)) : t.isDir l = false := by
  rw [isDir, h]
  rfl

theorem linkAt_eq_none_of_reg {t : Tree N D M} {l : List N} {x : D}
    (h : t.node l = some (.reg x)) : t.linkAt l = none := by
  rw [linkAt, h]
  rfl

end Tree

/-- Where a route starts, given the directory it is relative to. -/
def Route.base (r : Route N) (d : List N) : List N := if r.abs then [] else d

/-- One pass over the components of a route; `follow` goes on at a symbolic link. -/
def walkFrom (t : Tree N D M)
    (follow : List N → List (Comp N) → Option (List N × List (List N))) :
    List N → List (Comp N) → Option (List N × List (List N))
  | d, [] => some (d, [])
  | d, .dot :: rest => if t.isDir d then walkFrom t follow d rest else none
  | d, .dotdot :: rest => if t.isDir d then walkFrom t follow d.tail rest else none
  | d, .name n :: rest =>
    if t.isDir d then
      (match t.linkAt (n :: d) with
        | some r => follow (r.base d) (r.comps ++ rest)
        | none => walkFrom t follow (n :: d) rest).map fun (e, tr) => (e, (n :: d) :: tr)
    else none

/-- Resolution with a budget of symbolic links: the location a route leads to, and the locations
looked up by name on the way. -/
def walk (t : Tree N D M) : ℕ → List N → List (Comp N) → Option (List N × List (List N))
  | 0 => walkFrom t fun _ _ => none
  | b + 1 => walkFrom t (walk t b)

/-- Resolution as a relation. -/
inductive Walk (t : Tree N D M) : ℕ → List N → List (Comp N) → List (List N) → List N → Prop
  | stop {b d} : Walk t b d [] [] d
  | dot {b d rest tr e} (hd : t.isDir d = true) (h : Walk t b d rest tr e) :
      Walk t b d (.dot :: rest) tr e
  | dotdot {b d rest tr e} (hd : t.isDir d = true) (h : Walk t b d.tail rest tr e) :
      Walk t b d (.dotdot :: rest) tr e
  | name {b d n rest tr e} (hd : t.isDir d = true) (hl : t.linkAt (n :: d) = none)
      (h : Walk t b (n :: d) rest tr e) : Walk t b d (.name n :: rest) ((n :: d) :: tr) e
  | link {b d n rest tr e r} (hd : t.isDir d = true) (hl : t.linkAt (n :: d) = some r)
      (h : Walk t b (r.base d) (r.comps ++ rest) tr e) :
      Walk t (b + 1) d (.name n :: rest) ((n :: d) :: tr) e

/-- One pass agrees with the relation when its continuation does. -/
theorem walkFrom_eq_some_iff {t : Tree N D M}
    {follow : List N → List (Comp N) → Option (List N × List (List N))} {b : ℕ}
    (hlink : ∀ d n rest r tr e, t.isDir d = true → t.linkAt (n :: d) = some r →
      (follow (r.base d) (r.comps ++ rest) = some (e, tr) ↔
        Walk t b d (.name n :: rest) ((n :: d) :: tr) e)) :
    ∀ (cs : List (Comp N)) (d : List N) (tr : List (List N)) (e : List N),
      walkFrom t follow d cs = some (e, tr) ↔ Walk t b d cs tr e := by
  intro cs
  induction cs with
  | nil =>
    intro d tr e
    constructor
    · intro h
      cases h
      exact .stop
    · intro h
      cases h
      rfl
  | cons c rest ih =>
    intro d tr e
    by_cases hd : t.isDir d = true
    · cases c with
      | dot =>
        rw [walkFrom, if_pos hd, ih]
        exact ⟨.dot hd, fun h => by cases h with | dot _ h => exact h⟩
      | dotdot =>
        rw [walkFrom, if_pos hd, ih]
        exact ⟨.dotdot hd, fun h => by cases h with | dotdot _ h => exact h⟩
      | name n =>
        rw [walkFrom, if_pos hd]
        simp only [Option.map_eq_some_iff, Prod.exists, Prod.mk.injEq]
        cases hl : t.linkAt (n :: d) with
        | none =>
          constructor
          · rintro ⟨e', tr', hw, rfl, rfl⟩
            exact .name hd hl ((ih (n :: d) tr' e').mp hw)
          · intro h
            cases h with
            | name _ _ h => exact ⟨e, _, (ih (n :: d) _ e).mpr h, rfl, rfl⟩
            | link _ hl' _ => rw [hl] at hl'; exact absurd hl' (by simp)
        | some r =>
          constructor
          · rintro ⟨e', tr', hw, rfl, rfl⟩
            exact (hlink d n rest r tr' e' hd hl).mp hw
          · intro h
            cases h with
            | name _ hl' _ => rw [hl] at hl'; exact absurd hl' (by simp)
            | link _ hl' hw =>
              exact ⟨e, _, (hlink d n rest r _ e hd hl).mpr (.link hd hl' hw), rfl, rfl⟩
    · constructor
      · intro h
        cases c <;> simp [walkFrom, hd] at h
      · intro h
        cases h <;> exact absurd ‹_› hd

/-- **The function and the relation agree.** -/
theorem walk_eq_some_iff (t : Tree N D M) (b : ℕ) (d : List N) (cs : List (Comp N))
    (tr : List (List N)) (e : List N) : walk t b d cs = some (e, tr) ↔ Walk t b d cs tr e := by
  induction b generalizing d cs tr e with
  | zero =>
    refine walkFrom_eq_some_iff ?_ cs d tr e
    intro d n rest r tr e _ hl
    constructor
    · intro h
      exact absurd h (by simp)
    · intro h
      cases h with
      | name _ hl' _ => rw [hl] at hl'; exact absurd hl' (by simp)
  | succ b ih =>
    refine walkFrom_eq_some_iff ?_ cs d tr e
    intro d n rest r tr e hd hl
    rw [ih]
    constructor
    · intro h
      exact .link hd hl h
    · intro h
      cases h with
      | name _ hl' _ => rw [hl] at hl'; exact absurd hl' (by simp)
      | link _ hl' h =>
        rw [hl] at hl'
        cases hl'
        exact h

/-! ### What a route leads to -/

theorem Walk.more_links {t : Tree N D M} {b b' : ℕ} {d e : List N} {cs : List (Comp N)}
    {tr : List (List N)} (h : Walk t b d cs tr e) (hb : b ≤ b') : Walk t b' d cs tr e := by
  induction h generalizing b' with
  | stop => exact .stop
  | dot hd _ ih => exact .dot hd (ih hb)
  | dotdot hd _ ih => exact .dotdot hd (ih hb)
  | name hd hl _ ih => exact .name hd hl (ih hb)
  | link hd hl _ ih =>
    obtain ⟨c, rfl⟩ : ∃ c, b' = c + 1 := ⟨b' - 1, by omega⟩
    exact .link hd hl (ih (by omega))

/-- **Determinism.**  A route leads to one location, along one trail, whatever the budgets. -/
theorem Walk.det {t : Tree N D M} {b b' : ℕ} {d e e' : List N} {cs : List (Comp N)}
    {tr tr' : List (List N)} (h : Walk t b d cs tr e) (h' : Walk t b' d cs tr' e') :
    tr = tr' ∧ e = e' := by
  induction h generalizing b' tr' with
  | stop => cases h'; exact ⟨rfl, rfl⟩
  | dot _ _ ih => cases h' with | dot _ h' => exact ih h'
  | dotdot _ _ ih => cases h' with | dotdot _ h' => exact ih h'
  | name _ hl _ ih =>
    cases h' with
    | name _ _ h' =>
      obtain ⟨rfl, rfl⟩ := ih h'
      exact ⟨rfl, rfl⟩
    | link _ hl' _ => rw [hl] at hl'; exact absurd hl' (by simp)
  | link _ hl _ ih =>
    cases h' with
    | name _ hl' _ => rw [hl] at hl'; exact absurd hl' (by simp)
    | link _ hl' h' =>
      rw [hl] at hl'
      cases hl'
      obtain ⟨rfl, rfl⟩ := ih h'
      exact ⟨rfl, rfl⟩

/-- **Splitting a route.**  The front of a resolved route resolves, and the rest goes on from there. -/
theorem Walk.split {t : Tree N D M} {b : ℕ} {d e : List N} {cs xs ys : List (Comp N)}
    {tr : List (List N)} (h : Walk t b d cs tr e) (hcs : cs = xs ++ ys) :
    ∃ m tr₁ tr₂ b', Walk t b d xs tr₁ m ∧ Walk t b' m ys tr₂ e ∧ tr = tr₁ ++ tr₂ := by
  induction h generalizing xs with
  | @stop b d =>
    obtain ⟨rfl, rfl⟩ : xs = [] ∧ ys = [] := by simpa using hcs
    exact ⟨d, [], [], b, .stop, .stop, rfl⟩
  | @dot b d rest tr e hd h ih =>
    cases xs with
    | nil => exact ⟨d, [], tr, b, .stop, by rw [← List.nil_append ys, ← hcs]; exact .dot hd h, rfl⟩
    | cons x xs =>
      obtain ⟨rfl, hrest⟩ := List.cons.inj hcs
      obtain ⟨m, tr₁, tr₂, b', h₁, h₂, htr⟩ := ih hrest
      exact ⟨m, tr₁, tr₂, b', .dot hd h₁, h₂, htr⟩
  | @dotdot b d rest tr e hd h ih =>
    cases xs with
    | nil =>
      exact ⟨d, [], tr, b, .stop, by rw [← List.nil_append ys, ← hcs]; exact .dotdot hd h, rfl⟩
    | cons x xs =>
      obtain ⟨rfl, hrest⟩ := List.cons.inj hcs
      obtain ⟨m, tr₁, tr₂, b', h₁, h₂, htr⟩ := ih hrest
      exact ⟨m, tr₁, tr₂, b', .dotdot hd h₁, h₂, htr⟩
  | @name b d n rest tr e hd hl h ih =>
    cases xs with
    | nil =>
      exact ⟨d, [], (n :: d) :: tr, b, .stop,
        by rw [← List.nil_append ys, ← hcs]; exact .name hd hl h, rfl⟩
    | cons x xs =>
      obtain ⟨rfl, hrest⟩ := List.cons.inj hcs
      obtain ⟨m, tr₁, tr₂, b', h₁, h₂, htr⟩ := ih hrest
      exact ⟨m, (n :: d) :: tr₁, tr₂, b', .name hd hl h₁, h₂, by rw [htr, List.cons_append]⟩
  | @link b d n rest tr e r hd hl h ih =>
    cases xs with
    | nil =>
      exact ⟨d, [], (n :: d) :: tr, b + 1, .stop,
        by rw [← List.nil_append ys, ← hcs]; exact .link hd hl h, rfl⟩
    | cons x xs =>
      obtain ⟨rfl, hrest⟩ := List.cons.inj hcs
      obtain ⟨m, tr₁, tr₂, b', h₁, h₂, htr⟩ := ih
        (show r.comps ++ rest = (r.comps ++ xs) ++ ys by rw [List.append_assoc, hrest]; rfl)
      exact ⟨m, (n :: d) :: tr₁, tr₂, b', .link hd hl h₁, h₂, by rw [htr, List.cons_append]⟩

/-- A route extended by one component that needs no symbolic link. -/
theorem Walk.snoc {t : Tree N D M} {b : ℕ} {d m e : List N} {xs : List (Comp N)} {c : Comp N}
    {tr tr₂ : List (List N)} (h : Walk t b d xs tr m) (hc : Walk t 0 m [c] tr₂ e) :
    Walk t b d (xs ++ [c]) (tr ++ tr₂) e := by
  induction h with
  | stop => exact hc.more_links (Nat.zero_le _)
  | dot hd _ ih => exact .dot hd (ih hc)
  | dotdot hd _ ih => exact .dotdot hd (ih hc)
  | name hd hl _ ih => exact .name hd hl (ih hc)
  | link hd hl _ ih =>
    have hgo := ih hc
    rw [List.append_assoc] at hgo
    exact .link hd hl hgo

/-- A route extended by the names of directories, one in the other. -/
theorem Walk.down {t : Tree N D M} {b : ℕ} {d m : List N} {xs : List (Comp N)} {tr : List (List N)}
    (h : Walk t b d xs tr m) (ns : List N) (hdir : ∀ pre, pre <+: ns → t.isDir (pre.reverse ++ m) = true) :
    ∃ tr', Walk t b d (xs ++ ns.map .name) tr' (ns.reverse ++ m) := by
  induction ns using List.reverseRecOn with
  | nil => exact ⟨tr, by simpa using h⟩
  | append_singleton ns n ih =>
    obtain ⟨tr', hwalk⟩ := ih fun pre hpre => hdir pre (hpre.trans (List.prefix_append ns [n]))
    have hup : t.isDir (ns.reverse ++ m) = true := hdir ns (List.prefix_append ns [n])
    have hn : t.isDir (n :: (ns.reverse ++ m)) = true := by
      simpa using hdir (ns ++ [n]) List.prefix_rfl
    have hstep : Walk t 0 (ns.reverse ++ m) [.name n] [n :: (ns.reverse ++ m)] (n :: (ns.reverse ++ m)) :=
      .name hup (Tree.linkAt_eq_none_of_isDir hn) .stop
    refine ⟨tr' ++ [n :: (ns.reverse ++ m)], ?_⟩
    rw [List.map_append, ← List.append_assoc xs, List.reverse_append]
    exact hwalk.snoc hstep

/-- Nothing but a directory is walked through. -/
theorem Walk.eq_of_not_dir {t : Tree N D M} {b : ℕ} {d e : List N} {cs : List (Comp N)}
    {tr : List (List N)} (h : Walk t b d cs tr e) (hd : t.isDir d = false) : cs = [] ∧ e = d := by
  cases h with
  | stop => exact ⟨rfl, rfl⟩
  | dot hd' _ => rw [hd] at hd'; exact Bool.noConfusion hd'
  | dotdot hd' _ => rw [hd] at hd'; exact Bool.noConfusion hd'
  | name hd' _ _ => rw [hd] at hd'; exact Bool.noConfusion hd'
  | link hd' _ _ => rw [hd] at hd'; exact Bool.noConfusion hd'

/-- Where a route leads, there is a directory above. -/
theorem Walk.isDir_tail {t : Tree N D M} {b : ℕ} {d e : List N} {cs : List (Comp N)}
    {tr : List (List N)} (h : Walk t b d cs tr e) (hd : cs ≠ [] ∨ t.isDir d.tail = true) :
    t.isDir e.tail = true := by
  induction h with
  | stop => exact hd.resolve_left fun hne => hne rfl
  | dot hd' _ ih => exact ih (Or.inr (Tree.isDir_tail hd'))
  | dotdot hd' _ ih => exact ih (Or.inr (Tree.isDir_tail (Tree.isDir_tail hd')))
  | name hd' _ _ ih => exact ih (Or.inr hd')
  | @link _ d _ _ _ _ r hd' _ _ ih =>
    refine ih (Or.inr ?_)
    unfold Route.base
    split
    · exact t.isDir_root
    · exact Tree.isDir_tail hd'

/-- What is no directory is reached by looking it up. -/
theorem Walk.mem_trail {t : Tree N D M} {b : ℕ} {d e : List N} {cs : List (Comp N)}
    {tr : List (List N)} (h : Walk t b d cs tr e) (he : t.isDir e = false) :
    e ∈ tr ∨ e = d := by
  induction h with
  | stop => exact Or.inr rfl
  | dot _ _ ih => exact ih he
  | dotdot hd _ ih =>
    refine (ih he).imp id fun heq => ?_
    rw [heq, Tree.isDir_tail hd] at he
    exact Bool.noConfusion he
  | name _ _ _ ih =>
    refine Or.inl ((ih he).elim (List.mem_cons_of_mem _) fun heq => ?_)
    rw [heq]
    exact List.mem_cons_self
  | link hd _ _ ih =>
    refine Or.inl ((ih he).elim (List.mem_cons_of_mem _) fun heq => ?_)
    -- the base of a link is a directory
    rw [heq, Route.base] at he
    split at he
    · rw [t.isDir_root] at he
      exact Bool.noConfusion he
    · rw [hd] at he
      exact Bool.noConfusion he

/-- A location looked up on the way was looked up by its name in its directory. -/
theorem Walk.at_probe {t : Tree N D M} {b : ℕ} {d e l : List N} {cs : List (Comp N)}
    {tr : List (List N)} (h : Walk t b d cs tr e) (hl : l ∈ tr) :
    ∃ n m rest tr' b', l = n :: m ∧ Walk t b' m (.name n :: rest) tr' e := by
  induction h with
  | stop => exact absurd hl (by simp)
  | dot _ _ ih => exact ih hl
  | dotdot _ _ ih => exact ih hl
  | name hd hn h ih =>
    rcases List.mem_cons.mp hl with rfl | hl
    · exact ⟨_, _, _, _, _, rfl, .name hd hn h⟩
    · exact ih hl
  | link hd hn h ih =>
    rcases List.mem_cons.mp hl with rfl | hl
    · exact ⟨_, _, _, _, _, rfl, .link hd hn h⟩
    · exact ih hl

/-! ### Without symbolic links -/

/-- Where a component leads from a location that is no symbolic link. -/
def descend (d : List N) : Comp N → List N
  | .dot => d
  | .dotdot => d.tail
  | .name n => n :: d

/-- No symbolic link is among the places that components lead to one after another. -/
def Tree.LinkFree (t : Tree N D M) (d : List N) (cs : List (Comp N)) : Prop :=
  ∀ pre, pre <+: cs → t.linkAt (pre.foldl descend d) = none

theorem Tree.LinkFree.tail {t : Tree N D M} {d : List N} {c : Comp N} {cs : List (Comp N)}
    (h : t.LinkFree d (c :: cs)) : t.LinkFree (descend d c) cs :=
  fun pre hpre => h (c :: pre) (List.cons_prefix_cons.mpr ⟨rfl, hpre⟩)

/-- **Without symbolic links**, a route leads where its components say. -/
theorem Walk.eq_foldl {t : Tree N D M} {b : ℕ} {d e : List N} {cs : List (Comp N)} {tr : List (List N)}
    (h : Walk t b d cs tr e) (hfree : t.LinkFree d cs) : e = cs.foldl descend d := by
  induction h with
  | stop => rfl
  | dot _ _ ih => exact ih hfree.tail
  | dotdot _ _ ih => exact ih hfree.tail
  | name _ _ _ ih => exact ih hfree.tail
  | @link _ d n rest _ _ _ _ hl _ _ =>
    have hnone : t.linkAt (n :: d) = none := hfree [.name n] (List.cons_prefix_cons.mpr ⟨rfl, List.nil_prefix⟩)
    rw [hl] at hnone
    exact absurd hnone (Option.some_ne_none _)

/-! ### Two trees -/

/-- **Transfer.**  A route resolves alike in a tree that has at least the same directories and the same
symbolic links at the locations looked up. -/
theorem Walk.transfer {t t' : Tree N D M} {b : ℕ} {d e : List N} {cs : List (Comp N)}
    {tr : List (List N)} (h : Walk t b d cs tr e)
    (hdir : ∀ l, t.isDir l = true → t'.isDir l = true)
    (hlink : ∀ l ∈ tr, t'.linkAt l = t.linkAt l) : Walk t' b d cs tr e := by
  induction h with
  | stop => exact .stop
  | dot hd _ ih => exact .dot (hdir _ hd) (ih hlink)
  | dotdot hd _ ih => exact .dotdot (hdir _ hd) (ih hlink)
  | name hd hl _ ih =>
    refine .name (hdir _ hd) ?_ (ih fun l hl => hlink l (List.mem_cons_of_mem _ hl))
    rw [hlink _ List.mem_cons_self, hl]
  | link hd hl _ ih =>
    refine .link (hdir _ hd) ?_ (ih fun l hl => hlink l (List.mem_cons_of_mem _ hl))
    rw [hlink _ List.mem_cons_self, hl]

/-- **Blocking.**  Once a location on the trail holds neither a directory nor a link any more, and all
other links are as they were, the route leads nowhere else than there. -/
theorem Walk.blocked {t t' : Tree N D M} {b b' : ℕ} {d e e' l : List N} {cs : List (Comp N)}
    {tr tr' : List (List N)} (h : Walk t b d cs tr e) (hl : l ∈ tr)
    (hdir : t'.isDir l = false) (hgone : t'.linkAt l = none)
    (hlink : ∀ x, x ≠ l → t'.linkAt x = t.linkAt x) (h' : Walk t' b' d cs tr' e') : e' = l := by
  induction h generalizing b' tr' with
  | stop => exact absurd hl (by simp)
  | dot _ _ ih => cases h' with | dot _ h' => exact ih hl h'
  | dotdot _ _ ih => cases h' with | dotdot _ h' => exact ih hl h'
  | @name _ d n rest _ _ _ hn _ ih =>
    by_cases hx : n :: d = l
    · cases h' with
      | name _ _ h' => exact (h'.eq_of_not_dir (hx ▸ hdir)).2.trans hx
      | link _ hl' _ => rw [hx, hgone] at hl'; exact absurd hl' (by simp)
    · have hmem := (List.mem_cons.mp hl).resolve_left (Ne.symm hx)
      cases h' with
      | name _ _ h' => exact ih hmem h'
      | link _ hl' _ => rw [hlink _ hx, hn] at hl'; exact absurd hl' (by simp)
  | @link _ d n rest _ _ r _ hn _ ih =>
    by_cases hx : n :: d = l
    · cases h' with
      | name _ _ h' => exact (h'.eq_of_not_dir (hx ▸ hdir)).2.trans hx
      | link _ hl' _ => rw [hx, hgone] at hl'; exact absurd hl' (by simp)
    · have hmem := (List.mem_cons.mp hl).resolve_left (Ne.symm hx)
      cases h' with
      | name _ hl' _ => rw [hlink _ hx, hn] at hl'; exact absurd hl' (by simp)
      | link _ hl' h' =>
        rw [hlink _ hx, hn] at hl'
        cases hl'
        exact ih hmem h'

end FileTree
