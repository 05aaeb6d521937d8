import WndxSane.FinfoPath
import WndxSane.MoveContents

/-!
# Names received from elsewhere

The constructor from a `Finfo` appends the name in it to a directory path, as it stands.

* `LeadsTo`: the path, by what the name is.
* `WritesInside`: what a write to the path may change.
* **`ofFinfo_lexically_normal`**: the file built has such a path, and is written there.
-/

namespace WndxSane.File

open PathGrammar PathAlphabet LexicalNormal FileTree

/-! ### Paths -/

/-- Where the path `p` lies that is made of a directory and a name: names are taken one after another on top of
those of the directory, `..` taking away the last one left. -/
structure LeadsTo (dpath : Path) (name : List Byte) (p : Path) : Prop where
  path : p = append dpath name
  absolute : isAbsolute name = true → p = name
  empty : name = [] → SamePlace (normal dpath) (normal p)
  relative : isAbsolute name = false → (normal p).abs = (normal dpath).abs ∧
    (normal p).names =
      ((names name).foldl (pushName (normal dpath).abs) (normal dpath).names.reverse).reverse
  /-- With a `..` in front for each of the last names of the directory, what is left of the directory counts. -/
  climbing : ∀ up down rest, isAbsolute name = false → (normal dpath).names = up ++ down → dotdot ∉ down →
    names name = List.replicate down.length dotdot ++ rest → (∀ n ∈ rest, LexicalNormal.Plain n) →
      (normal p).names = up ++ rest
  /-- A name that does not leave by `..` is below the directory. -/
  contained : isAbsolute name = false → dotdot ∉ (normal name).names →
    (normal p).abs = (normal dpath).abs ∧ (normal p).names = (normal dpath).names ++ (normal name).names
  child : ∀ x, isAbsolute name = false → (normal name).names = [x] → x ≠ dotdot →
    DirectChild (normal dpath) (normal p)

/-- As many `..` as there are names take these away. -/
theorem foldl_dotdot {abs : Bool} {down st : List (List Byte)} (h : dotdot ∉ down) :
    (List.replicate down.length dotdot).foldl (pushName abs) (down ++ st) = st := by
  induction down with
  | nil => rfl
  | cons top rest ih =>
    have htop : top ≠ dotdot := fun heq => h (heq ▸ List.mem_cons_self)
    rw [List.length_cons, List.replicate_succ, List.foldl_cons, List.cons_append, pushName_dotdot_cons,
      if_neg htop]
    exact ih fun hmem => h (List.mem_cons_of_mem top hmem)

theorem foldl_plain {abs : Bool} {ns : List (List Byte)} (h : ∀ n ∈ ns, LexicalNormal.Plain n)
    (st : List (List Byte)) : ns.foldl (pushName abs) st = ns.reverse ++ st := by
  induction ns generalizing st with
  | nil => rfl
  | cons n ns ih =>
    rw [List.foldl_cons, pushName_plain (h n List.mem_cons_self),
      ih fun m hm => h m (List.mem_cons_of_mem n hm), List.reverse_cons, List.append_assoc]
    rfl

theorem leadsTo_append (dpath : Path) (name : List Byte) : LeadsTo dpath name (append dpath name) := by
  have hrelative : isAbsolute name = false →
      (normal (append dpath name)).abs = (normal dpath).abs ∧ (normal (append dpath name)).names =
        ((names name).foldl (pushName (normal dpath).abs) (normal dpath).names.reverse).reverse := by
    intro habs
    refine ⟨isAbsolute_append_of_relative dpath habs, ?_⟩
    simp only [normal, isAbsolute_append_of_relative dpath habs, names_append_of_relative habs,
      List.foldl_append, List.reverse_reverse]
  refine
    { path := rfl
      absolute := fun habs => by rw [append, if_pos habs]
      empty := ?_
      relative := hrelative
      climbing := ?_
      contained := fun habs hdd => normal_append_of_contained dpath habs hdd
      child := ?_ }
  · rintro rfl
    have hnil : (normal ([] : Path)).names = [] := rfl
    obtain ⟨habs, hnames⟩ := normal_append_of_contained dpath (s := []) rfl (by simp [hnil])
    exact ⟨habs, by rw [hnames, hnil, List.append_nil]⟩
  · intro up down rest habs hd hdd hname hplain
    have hlen : down.length = down.reverse.length := List.length_reverse.symm
    rw [(hrelative habs).2, hd, hname, List.foldl_append, List.reverse_append, hlen,
      foldl_dotdot (by rwa [List.mem_reverse]), foldl_plain hplain, List.reverse_append,
      List.reverse_reverse, List.reverse_reverse]
  · intro x habs hx hdd
    have hmem : x ∈ (normal name).names := by
      rw [hx]
      exact List.mem_cons_self
    have hplain : LexicalNormal.Plain x := (eq_dotdot_or_plain_of_mem_normal hmem).resolve_left hdd
    have hcont : dotdot ∉ (normal name).names := by
      rw [hx, List.mem_singleton]
      exact Ne.symm hdd
    obtain ⟨hA, hN⟩ := normal_append_of_contained dpath habs hcont
    exact ⟨hA, x, hplain, by rw [hN, hx]⟩

/-! ### Locations -/

/-- Contained names lead to the same place in the file tree as in the text of a path. -/
theorem foldl_descend_of_contained (ns st : List Path) (d : Loc) (h : dotdot ∉ ns.foldl (pushName false) st) :
    (ns.map toComp).foldl descend (st ++ d) = ns.foldl (pushName false) st ++ d := by
  induction ns generalizing st with
  | nil => rfl
  | cons n ns ih =>
    rw [List.foldl_cons] at h ⊢
    rw [List.map_cons, List.foldl_cons, ← ih _ h]
    congr 1
    by_cases hdot : n = [dot]
    · simp only [toComp, pushName, if_pos hdot, descend]
    · by_cases hdd : n = dotdot
      · cases st with
        | nil =>
          -- a `..` on the empty stack is kept for good
          refine absurd (dotdot_mem_foldl ?_) h
          simp [pushName, hdd]
        | cons top rest =>
          have hcomp : toComp n = .dotdot := by rw [toComp, if_neg hdot, if_pos hdd]
          rw [hcomp, hdd, pushName_dotdot_cons]
          by_cases ht : top = dotdot
          · refine absurd (dotdot_mem_foldl ?_) h
            simp [pushName, hdd, ht]
          · rw [if_neg ht]
            rfl
      · have hcomp : toComp n = .name n := by rw [toComp, if_neg hdot, if_neg hdd]
        simp only [hcomp, pushName, if_neg hdot, if_neg hdd, descend, List.cons_append]

/-- How the operating system resolves a name after a directory. -/
theorem route_append {dpath : Path} {name : List Byte} (hne : dpath ≠ []) (hend : endsInSep dpath = false)
    (hnul : 0 ∉ dpath) (hname : 0 ∉ name) (habs : isAbsolute name = false) :
    (route (append dpath name)).abs = (route dpath).abs ∧ ∃ final : List (Comp Path),
      (final = [] ∨ final = [.dot]) ∧
        (route (append dpath name)).comps =
          (route dpath).comps ++ ((names name).map toComp ++ final) := by
  have hfile : filename dpath ≠ [] := by
    rw [Ne, filename_eq_nil_iff, not_or, hend]
    exact ⟨hne, Bool.false_ne_true⟩
  have happ : append dpath name = dpath ++ sep :: name := by
    rw [append, if_neg (by rw [habs]; exact Bool.false_ne_true), if_neg hfile]
  have hcstr : cstr (append dpath name) = append dpath name := by
    refine cstr_of_not_mem ?_
    rw [happ, List.mem_append, List.mem_cons]
    exact not_or.mpr ⟨hnul, not_or.mpr ⟨by decide, hname⟩⟩
  have hroute : route dpath = ⟨isAbsolute dpath, (names dpath).map toComp⟩ := by
    rw [route, cstr_of_not_mem hnul, strRoute, hend]
    simp
  rw [hroute, route, hcstr, strRoute]
  refine ⟨isAbsolute_append_of_relative dpath habs,
    if names (append dpath name) ≠ [] ∧ endsInSep (append dpath name) then [.dot] else [], ?_, ?_⟩
  · split
    · exact Or.inr rfl
    · exact Or.inl rfl
  · rw [names_append_of_relative habs, List.map_append, List.append_assoc]

/-- Where no symbolic link is met, a contained name leads below the directory. -/
theorem target_append_of_contained {fs : Fs} {dpath : Path} {name : List Byte} {l : Loc} (hne : dpath ≠ [])
    (hend : endsInSep dpath = false) (hnul : 0 ∉ dpath) (hname : 0 ∉ name) (habs : isAbsolute name = false)
    (hcont : dotdot ∉ (normal name).names)
    (hfree : ∀ d, fs.target (route dpath) = some d → fs.LinkFree d ((names name).map toComp))
    (h : fs.target (route (append dpath name)) = some l) :
    ∃ d, fs.target (route dpath) = some d ∧ l = (normal name).names.reverse ++ d := by
  obtain ⟨hrabs, final, hfinal, hcomps⟩ := route_append hne hend hnul hname habs
  have hbase : (route dpath).base fs.cwd = (route (append dpath name)).base fs.cwd := by
    rw [Route.base, Route.base, hrabs]
  obtain ⟨d, tr, _, _, hdir, hrest, -⟩ := (Tree.walk_of_target h).split hcomps
  obtain ⟨m, _, _, _, hdown, hlast, -⟩ := hrest.split rfl
  have hd : fs.target (route dpath) = some d := by
    have hres : fs.resolve (route dpath) = some (d, tr) := by
      rw [Tree.resolve_eq_some_iff, hbase]
      refine ⟨fun hnil => ?_, hdir⟩
      rw [route, cstr_of_not_mem hnul, strRoute] at hnil
      have hnames : names dpath = [] := by
        simpa using (List.append_eq_nil_iff.mp hnil.2).1
      rw [isAbsolute_of_names hnames hne] at hnil
      exact Bool.noConfusion hnil.1
    rw [Tree.target, hres]
    rfl
  refine ⟨d, hd, ?_⟩
  have hm : m = (normal name).names.reverse ++ d := by
    have hfold : dotdot ∉ (names name).foldl (pushName false) [] := by
      simpa [normal, habs] using hcont
    rw [hdown.eq_foldl (hfree d hd), ← List.nil_append d, foldl_descend_of_contained _ _ _ hfold]
    simp [normal, habs]
  rw [← hm]
  rcases hfinal with rfl | rfl
  · cases hlast
    rfl
  · cases hlast with
    | dot _ hstop =>
      cases hstop
      rfl

/-! ### Writes -/

/-- A location that a write changes is the one that the path leads to. -/
theorem writable_of_changed {f : File} {io : WriteIo} {e : Env} {l : Loc}
    (h : (f.write io e).2.fs.node l ≠ e.fs.node l) : Writable e.fs f.mFpath l := by
  cases hb : f.mBlock with
  | none =>
    rw [write, hb] at h
    exact absurd rfl h
  | some b =>
    rw [(write_of_block hb io e).2] at h
    rcases writable_or_not io e.fs f.mFpath with ⟨hopened, k, hk⟩ | hnot
    · rw [writeFs_of_writable hopened hk] at h
      by_cases hlk : l = k
      · rw [hlk]
        exact hk
      · exact absurd (Tree.node_putFile_of_ne e.fs _ hlk) h
    · rw [writeFs_of_not_writable hnot] at h
      exact absurd rfl h

/-- What an allocation and a write may change: with a name that does not leave by `..`, in a directory, and where
the name meets no symbolic link, the one place below the directory that the normal form of the name says. -/
def WritesInside (dpath : Path) (name : List Byte) (f : File) : Prop :=
  ∀ (a : AllocIo) (m : Mem) (io : WriteIo) (fs : Fs) (l : Loc),
    dpath ≠ [] → endsInSep dpath = false → (0 ∉ dpath ∨ fsIsDirectory fs dpath = true) →
    isAbsolute name = false → dotdot ∉ (normal name).names →
    (∀ d, fs.target (route dpath) = some d → fs.LinkFree d ((names name).map toComp)) →
    ((f.alloc a m).2.1.write io ⟨fs, (f.alloc a m).2.2⟩).2.fs.node l ≠ fs.node l →
      ∃ d, fs.target (route dpath) = some d ∧ l = (normal name).names.reverse ++ d

theorem writesInside_append {dpath : Path} {name : List Byte} {f : File} (hpath : f.mFpath = append dpath name)
    (hname : 0 ∉ name) : WritesInside dpath name f := by
  intro a m io fs l hne hend hdir habs hcont hfree hchanged
  have hw : Writable fs (append dpath name) l := by
    have hwrite := writable_of_changed hchanged
    rwa [mFpath_alloc, hpath] at hwrite
  by_cases hnul : 0 ∈ dpath
  · -- the system sees the directory alone, which cannot be written
    have hisdir := hdir.resolve_left fun hnot => hnot hnul
    have hroute : route (append dpath name) = route dpath := by
      rw [append, if_neg (by rw [habs]; exact Bool.false_ne_true)]
      split
      · rw [route, route, cstr_append_of_mem hnul]
      · rw [route, route, cstr_append_of_mem hnul]
    have htarget : fs.target (route dpath) = some l := by
      rw [← hroute]
      exact hw.1
    rw [fsIsDirectory, fsStatus, htarget] at hisdir
    have hfalse := hw.isDir
    rw [Tree.isDir] at hfalse
    exact absurd hisdir (by simpa using hfalse)
  · exact target_append_of_contained hne hend hnul hname habs hcont hfree hw.1

/-- **Where a received name leads.**  The name in a `Finfo` is appended to the directory as it stands.  An empty
name leads to the directory itself, an absolute one wherever it says, and one with `..` up from the directory.  A
name that does not leave by `..` leads below the directory, to a direct child when its normal form is one name;
and a write changes nothing but the file there, unless it meets a symbolic link. -/
theorem ofFinfo_lexically_normal {finfo : Finfo} {name : List Byte} (hname : stringOf finfo.mFname = some name)
    (dpath : Path) :
    ∃ f, ofFinfo finfo dpath = some f ∧ LeadsTo dpath name f.mFpath ∧ WritesInside dpath name f := by
  have hnul : 0 ∉ name := by
    rw [stringOf] at hname
    split at hname
    · cases hname
      intro hmem
      simpa using List.mem_takeWhile_imp hmem
    · exact absurd hname (Option.some_ne_none _).symm
  refine ⟨⟨finfo.mBlockSize, append dpath name, none, 0⟩, ?_, leadsTo_append dpath name,
    writesInside_append rfl hnul⟩
  rw [ofFinfo, hname]
  rfl

/-- A `Finfo` with the given name, zeros after it. -/
def finfoOf (name : List Byte) : Finfo := ⟨0, Vector.ofFn fun i => name.getD i 0⟩

/-- The name `./x` in the directory `d`. -/
theorem ofFinfo_lexically_normal_dot :
    ∃ f, ofFinfo (finfoOf [46, 47, 120]) [100] = some f ∧
      DirectChild (normal ([100] : Path)) (normal f.mFpath) := by
  obtain ⟨f, hf, hleads, -⟩ := ofFinfo_lexically_normal
    (show stringOf (finfoOf [46, 47, 120]).mFname = some [46, 47, 120] by decide) [100]
  exact ⟨f, hf, hleads.child [120] (by decide) (by decide) (by decide)⟩

/-- A directory `d` with a symbolic link `x` to `/t/y`. -/
def linkedOut : Fs :=
  (((Tree.root 0o755 40).putDir [[100]] 0o755).putDir [[116]] 0o755).putLink [[120], [100]]
    ⟨true, [.name [116], .name [121]]⟩

/-- The name `../x` leads out of the directory `d`; and the name `x` leads to a direct child of it, while what is
written is the file that a symbolic link there leads to. -/
theorem ofFinfo_leaves_directory :
    (¬ ∀ (finfo : Finfo) (name : List Byte) (dpath : Path), stringOf finfo.mFname = some name →
      dpath ≠ [] → endsInSep dpath = false → ∃ f, ofFinfo finfo dpath = some f ∧
        (DirectChild (normal dpath) (normal f.mFpath) ∨
          (name = [] ∧ SamePlace (normal dpath) (normal f.mFpath)))) ∧
    ¬ ∀ (finfo : Finfo) (name : List Byte) (dpath : Path) (f : File), stringOf finfo.mFname = some name →
      dpath ≠ [] → endsInSep dpath = false → ofFinfo finfo dpath = some f →
      DirectChild (normal dpath) (normal f.mFpath) →
      ∀ (a : AllocIo) (m : Mem) (io : WriteIo) (fs : Fs) (l : Loc), fsIsDirectory fs dpath = true →
        ((f.alloc a m).2.1.write io ⟨fs, (f.alloc a m).2.2⟩).2.fs.node l ≠ fs.node l →
          ∃ d, fs.target (route dpath) = some d ∧ d <:+ l := by
  refine ⟨fun h => ?_, fun h => ?_⟩
  · obtain ⟨f, hf, hout⟩ := h (finfoOf [46, 46, 47, 120]) [46, 46, 47, 120] [100] (by decide)
      (by decide) (by decide)
    have hf' : f.mFpath = [100, 47, 46, 46, 47, 120] := by
      have hstring : stringOf (finfoOf [46, 46, 47, 120]).mFname = some [46, 46, 47, 120] := by decide
      rw [ofFinfo, hstring] at hf
      cases hf
      decide
    rw [hf'] at hout
    rcases hout with ⟨-, n, -, hn⟩ | ⟨hname, -⟩
    · have hlen : (normal ([100, 47, 46, 46, 47, 120] : Path)).names.length =
          (normal ([100] : Path)).names.length + 1 := by
        rw [hn, List.length_append]
        rfl
      exact absurd hlen (by decide)
    · exact absurd hname (by decide)
  · have hchild : DirectChild (normal ([100] : Path)) (normal ([100, 47, 120] : Path)) :=
      ⟨by decide, [120], by decide, by decide⟩
    obtain ⟨d, hd, hsuffix⟩ := h (finfoOf [120]) [120] [100] ⟨0, [100, 47, 120], none, 0⟩ (by decide)
      (by decide) (by decide) (by decide) hchild .ok ⟨fun _ => [], 0, [], by decide⟩
      ⟨true, fun _ => true, none, none⟩ linkedOut [[121], [116]] (by decide) (by decide)
    have hdir : linkedOut.target (route [100]) = some [[100]] := by decide
    rw [hdir] at hd
    cases hd
    exact absurd hsuffix (by decide)

end WndxSane.File
