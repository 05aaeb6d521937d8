import WndxSane.LogText
import WndxSane.LoggedRuns

/-!
# Reading the log of a run

The messages of `file.cpp` are readable when the texts that come from outside, paths and error messages, have
no line ends in them, and no bracket where they begin a line.

* `Logged.readable_write`, …: the messages of each function.
* `Prog.readable_run`: the messages of a run.
* **`Prog.log_read_back`**: the text on `stderr` is that of one list of records.
* **`Prog.failure_read_back`**: whether anything failed in a run is seen from the text on `stderr`.
-/

namespace WndxSane

open Format Records Transition

/-! ### Texts -/

instance (b : Bool) (a : List Byte) : Decidable (Plain b a) := inferInstanceAs (Decidable (_ ∧ _))

theorem plain_false {a : List Byte} : Plain false a ↔ newline ∉ a := by simp [Inline]

theorem Plain.inside {b : Bool} {a : List Byte} (h : Plain b a) : Plain false a := (plain_false ..).mpr h.1

theorem plain_text {b : Bool} {s : String} {cs : List Char} (hs : s = String.ofList cs)
    (hcs : Plain b (cs.map ascii)) : Plain b (text s) := by
  rwa [text, hs, String.toList_ofList]

@[simp] theorem Rc.plain_format (b : Bool) (rc : Rc) : Plain b rc.format := by
  cases rc <;> exact plain_text rfl ⟨by decide, fun _ => by decide⟩

@[simp] theorem LL.plain_format (b : Bool) (ll : LL) : Plain b ll.format := by
  unfold LL.format
  split_ifs <;> exact plain_text rfl ⟨by decide, fun _ => by decide⟩

/-- A string literal in parts. -/
theorem append_ofList {s t : String} {cs ds : List Char} (hs : s = String.ofList cs)
    (ht : t = String.ofList ds) : s ++ t = String.ofList (cs ++ ds) := by
  rw [hs, ht, String.ofList_append]

theorem plain_decimal (b : Bool) (n : ℕ) : Plain b (decimal n) := by
  have hdigit : ∀ c ∈ decimal n, c ≠ newline ∧ c ≠ bracket := by
    intro c hc
    have hrange := digit_of_mem_decimal hc
    constructor <;> (rintro rfl; revert hrange; decide)
  exact ⟨fun h => (hdigit _ h).1 rfl, fun _ h => (hdigit _ (List.mem_of_mem_head? h)).2 rfl⟩

@[simp] theorem plain_decimalInt (b : Bool) (n : ℤ) : Plain b (decimalInt n) := by
  cases n with
  | ofNat n => exact plain_decimal b n
  | negSucc n =>
    refine ⟨?_, fun _ h => absurd (Option.some.inj h) (by decide)⟩
    exact List.not_mem_cons_of_ne_of_not_mem (by decide) (plain_decimal b (n + 1)).1

theorem File.plain_format {f : File} (h : newline ∉ f.mFpath) : Plain false f.format := by
  have hformat : f.format = text "[" ++ (decimal f.mBlockSize ++ (text "] " ++ f.mFpath)) := by
    simp [File.format, fmt, parse, render, Piece.map, text, List.leftpad]
  rw [plain_false, hformat]
  simp only [List.mem_append, not_or]
  exact ⟨by decide, (plain_decimal false _).1, by decide, h⟩

/-! ### Paths -/

namespace File

variable {f : File}

theorem mFpath_allocAndRead (io : LoadIo) (e : Env) : (f.allocAndRead io e).2.1.mFpath = f.mFpath := by
  have halloc := mFpath_alloc (f := f) io.alloc e.mem
  unfold allocAndRead
  generalize f.alloc io.alloc e.mem = r at halloc ⊢
  obtain ⟨rc, f₁, m₁⟩ := r
  cases rc with
  | success =>
    simp only
    split
    · exact halloc
    · exact halloc
    · exact halloc
  | _ => exact halloc

theorem plain_copyTo (hf : Plain false f.mFpath) {dst : Path} (hdst : Plain false dst) (io : WriteIo)
    (e : Env) : Plain false (f.copyTo io dst e).2.1.mFpath := by
  unfold copyTo
  cases f.mBlock with
  | none => exact hf
  | some b => exact hdst

theorem plain_moveTo (hf : Plain false f.mFpath) {dst : Path} (hdst : Plain false dst) (io : MoveIo)
    (e : Env) : Plain false (f.moveTo io dst e).2.1.mFpath := by
  rw [(mem_moveTo io dst e).1]
  exact plain_copyTo hf hdst io.write e

end File

/-- The reasons the system gives have no line ends; a text that begins a line begins with no bracket. -/
structure Reasons.Tame (why : Reasons) : Prop where
  message : ∀ line, Plain false (why.ec line).message
  what : ∀ line, Plain true (why.what line)

/-! ### The messages of `file.cpp` -/

namespace Logged

variable {α β : Type}

/-- The messages can be read back. -/
def Readable (x : Logged α) : Prop := ∀ c ∈ x.calls, c.Readable

theorem readable_pure (a : α) : (pure a : Logged α).Readable := fun _ h => absurd h List.not_mem_nil

theorem readable_bind {x : Logged α} {g : α → Logged β} (hx : x.Readable) (hg : (g x.value).Readable) :
    (x >>= g).Readable := by
  intro c hc
  rw [calls_bind] at hc
  rcases List.mem_append.mp hc with hc | hc
  · exact hx c hc
  · exact hg c hc

theorem readable_wndxLog {line : ℕ} {ll : LL} {s : String} {cs : List Char} {args : List (List Byte)}
    (bs : List Bool) (hll : ll.Named) (hs : s = String.ofList cs) (hcs : fieldsOf cs = some bs)
    (hargs : List.Forall₂ Plain bs args) :
    (wndxLog line ll s args).Readable := by
  intro c hc
  rw [calls_wndxLog] at hc
  rw [List.mem_singleton.mp hc]
  exact readable_fmt bs hll hs hcs hargs

variable {why : Reasons}

theorem readable_isR (hwhy : why.Tame) (statusOk : Bool) (fs : Fs) {fpath : Path}
    (hpath : Plain false fpath) : (isR why statusOk fs fpath).Readable := by
  have hfn : Plain false (text "file::is_r()") := plain_text rfl (by decide)
  unfold isR
  cases (if statusOk then fsStatus fs fpath else none) with
  | none =>
    refine readable_bind (readable_wndxLog [false, false, false, false] (by decide) rfl (by decide) ?_)
      (readable_pure _)
    simp [hfn, hpath, hwhy.message 20]
  | some node =>
    cases node
    all_goals
      refine readable_bind (readable_wndxLog [false, false] (by decide) rfl (by decide) ?_) (readable_pure _)
      simp [hfn, hpath]

theorem readable_mkdir (hwhy : why.Tame) {a : Mkdir.Args} (c : Mkdir.Caller) (ok : Mkdir.Pc → Bool)
    {fs : Fs} (hpath : Plain true a.npath)
    (hreal : ∀ realpath, fsCanonical fs a.npath = some realpath → Plain false (locPath realpath)) :
    (mkdir why a c ok fs).Readable := by
  have hfn : Plain false (text "file::mkdir()") := plain_text rfl (by decide)
  unfold mkdir
  split
  · refine readable_bind (readable_wndxLog [false] (by decide) rfl (by decide) ?_) ?_
    · simp [hfn]
    · split <;> exact readable_pure _
  split
  · cases (if ok .createDirectory then fsCreateDirectory c.umask fs a.npath a.parentDir else none) with
    | none =>
      refine readable_bind (readable_wndxLog [false, true, false, false, false] (by decide)
        (append_ofList (append_ofList (append_ofList rfl rfl) rfl) rfl) (by decide +kernel) ?_)
        (readable_pure _)
      simp [hfn, hpath, hpath.inside, hwhy.message 83]
    | some fs₁ =>
      simp only
      cases (if ok .permissions then fsPermissions fs₁ a.npath a.perms else none) with
      | some fs₂ =>
        refine readable_bind (readable_wndxLog [false] (by decide) rfl (by decide) ?_) (readable_pure _)
        simp [hfn]
      | none =>
        refine readable_bind (readable_wndxLog [false] (by decide) rfl (by decide) ?_) ?_
        · simp [hfn]
        split
        · refine readable_bind (readable_wndxLog [false] (by decide) rfl (by decide) ?_) (readable_pure _)
          simp [hfn]
        · refine readable_bind (readable_wndxLog [false, false, false, false] (by decide) (append_ofList
            (append_ofList (append_ofList (append_ofList rfl rfl) rfl) rfl) rfl) (by decide +kernel) ?_)
            (readable_pure _)
          simp [hfn, hpath.inside, hwhy.message 72]
  · cases hcanonical : (if ok .canonical then fsCanonical fs a.npath else none) with
    | none =>
      refine readable_bind (readable_wndxLog [false, false, false, false] (by decide) rfl (by decide) ?_)
        (readable_pure _)
      simp [hfn, hpath.inside, hwhy.message 94]
    | some realpath =>
      refine readable_bind (readable_wndxLog [false, false] (by decide) rfl (by decide) ?_) (readable_pure _)
      split at hcanonical
      · simp [hfn, hreal realpath hcanonical]
      · exact absurd hcanonical (by simp)

theorem readable_ofPath {fpath : Path} (hpath : Plain false fpath) (sz : ℕ) :
    (ofPath fpath sz).Readable := by
  have hctor : Plain false ctor := plain_text rfl (by decide)
  refine readable_bind (readable_wndxLog [false, false] (by decide) rfl (by decide) ?_) (readable_pure _)
  simp [hctor, File.plain_format (f := .ofPath fpath sz) hpath.1]

theorem readable_ofFinfo {finfo : Finfo} {dpath : Path} {x : Logged File}
    (h : ofFinfo finfo dpath = some x) (hpath : Plain false x.value.mFpath) : x.Readable := by
  have hctor : Plain false ctor := plain_text rfl (by decide)
  obtain ⟨f, -, rfl⟩ := Option.map_eq_some_iff.mp h
  refine readable_bind (readable_wndxLog [false, false] (by decide) rfl (by decide) ?_) (readable_pure _)
  simp [hctor, File.plain_format (f := f) hpath.1]

theorem readable_alloc (hwhy : why.Tame) (io : File.AllocIo) (f : File) (m : Mem) :
    (alloc why io f m).Readable := by
  have hfn : Plain false (text "File::heap_alloc()") := plain_text rfl (by decide)
  unfold alloc
  cases io with
  | ok =>
    refine readable_bind (readable_wndxLog [false] (by decide) rfl (by decide) ?_) (readable_pure _)
    simp [hfn]
  | thrown afterNew badAlloc =>
    cases badAlloc with
    | true =>
      refine readable_bind (readable_wndxLog [false, false, true] (by decide) rfl (by decide) ?_)
        (readable_pure _)
      simp [hfn, hwhy.what 166]
    | false =>
      refine readable_bind (readable_wndxLog [false, false, true] (by decide) rfl (by decide) ?_)
        (readable_pure _)
      simp [hfn, hwhy.what 170]

theorem readable_write (hwhy : why.Tame) (io : File.WriteIo) {f : File} (hf : Plain false f.mFpath)
    (e : Env) : (write why io f e).Readable := by
  have hfn : Plain false (text "File::write()") := plain_text rfl (by decide)
  unfold write
  cases f.mBlock with
  | none =>
    refine readable_bind (readable_wndxLog [false, false] (by decide) rfl (by decide) ?_) (readable_pure _)
    simp [hfn]
  | some b =>
    simp only
    split
    · refine readable_bind (readable_wndxLog [false, false, true] (by decide) rfl (by decide) ?_)
        (readable_pure _)
      simp [hfn, hwhy.what 207]
    · refine readable_bind (readable_wndxLog [false, false] (by decide) rfl (by decide) ?_)
        (readable_pure _)
      simp [hfn, hf]

theorem readable_read (hwhy : why.Tame) (io : File.ReadIo) {f : File} (hf : Plain false f.mFpath)
    (e : Env) : (read why io f e).Readable := by
  have hfn : Plain false (text "File::fcontent()") := plain_text rfl (by decide)
  have hcode : ∀ (line : ℕ) (rc : Rc), (wndxLog line .ERRO "{} {}\n"
      [text "File::fcontent()", rc.format]).Readable := by
    intro line rc
    refine readable_wndxLog [false, false] (by decide) rfl (by decide) ?_
    simp [hfn]
  unfold read
  refine readable_bind (readable_isR hwhy _ _ hf) ?_
  cases (isR why io.statusOk e.fs f.mFpath).value with
  | success =>
    simp only
    split
    · exact readable_bind (hcode _ _) (readable_pure _)
    split
    · exact readable_bind (hcode _ _) (readable_pure _)
    split
    · refine readable_bind (readable_wndxLog [false, false, true] (by decide) rfl (by decide) ?_)
        (readable_pure _)
      simp [hfn, hwhy.what 240]
    · refine readable_bind (readable_wndxLog [false] (by decide) rfl (by decide) ?_) (readable_pure _)
      simp [hfn]
  | _ => exact readable_pure _

theorem readable_allocAndRead (hwhy : why.Tame) (io : File.LoadIo) {f : File}
    (hf : Plain false f.mFpath) (e : Env) : (allocAndRead why io f e).Readable := by
  have hfn : Plain false (text "File::read_to_block()") := plain_text rfl (by decide)
  have hbad : Plain true (text "THIS IS VERY BAD!") := plain_text rfl (by decide)
  have hpath : Plain false (f.alloc io.alloc e.mem).2.1.mFpath := by rwa [File.mFpath_alloc]
  unfold allocAndRead
  refine readable_bind (readable_alloc hwhy _ _ _) ?_
  rw [value_alloc]
  generalize f.alloc io.alloc e.mem = r at hpath ⊢
  obtain ⟨rc, f₁, m₁⟩ := r
  have hf₁ : Plain false f₁.mFpath := hpath
  cases rc with
  | success =>
    refine readable_bind (readable_read hwhy _ hf₁ _) ?_
    obtain ⟨rc, e₂⟩ := (read why io.read f₁ { e with mem := m₁ }).value
    cases io.raised with
    | none =>
      simp only
      split
      · refine readable_bind (readable_wndxLog [false, false] (by decide) rfl (by decide) ?_)
          (readable_pure _)
        simp [hfn]
      · refine readable_bind (readable_wndxLog [false, false] (by decide) rfl (by decide) ?_)
          (readable_pure _)
        simp [hfn, hf₁]
    | some thrown =>
      cases thrown with
      | exception =>
        refine readable_bind (readable_wndxLog [false, false, true] (by decide) rfl (by decide) ?_)
          (readable_pure _)
        simp [hfn, hwhy.what 261]
      | anonymous =>
        refine readable_bind (readable_wndxLog [false, true] (by decide) rfl (by decide) ?_)
          (readable_pure _)
        simp [hbad]
  | _ => exact readable_pure _

theorem readable_copyTo (hwhy : why.Tame) (io : File.WriteIo) (f : File) {dst : Path}
    (hdst : Plain false dst) (e : Env) : (copyTo why io f dst e).Readable := by
  have hfn : Plain false (text "File::copy_to()") := plain_text rfl (by decide)
  unfold copyTo
  cases f.mBlock with
  | none =>
    refine readable_bind (readable_wndxLog [false, false] (by decide) rfl (by decide) ?_) (readable_pure _)
    simp [hfn]
  | some b =>
    refine readable_bind (readable_write hwhy io (f := f.setFpath dst) hdst e) ?_
    obtain ⟨rc, e'⟩ := (write why io (f.setFpath dst) e).value
    simp only
    split
    · refine readable_bind (readable_wndxLog [false, false] (by decide) rfl (by decide) ?_)
        (readable_pure _)
      simp [hfn]
    · refine readable_bind (readable_wndxLog [false, false] (by decide) rfl (by decide) ?_)
        (readable_pure _)
      simp [hfn, hdst]

theorem readable_moveTo (hwhy : why.Tame) (io : File.MoveIo) {f : File} (hf : Plain false f.mFpath)
    {dst : Path} (hdst : Plain false dst) (e : Env) : (moveTo why io f dst e).Readable := by
  have hfn : Plain false (text "File::move_to()") := plain_text rfl (by decide)
  have hcopied := File.plain_copyTo hf hdst io.write e
  unfold moveTo
  refine readable_bind (readable_copyTo hwhy _ _ hdst _) ?_
  rw [value_copyTo]
  generalize f.copyTo io.write dst e = r at hcopied ⊢
  obtain ⟨rc, f', e'⟩ := r
  have hf' : Plain false f'.mFpath := hcopied
  cases rc with
  | success =>
    have hdone : (wndxLog 306 .DBUG "{} SUCCESS : {}\n" [text "File::move_to()", f'.mFpath]).Readable := by
      refine readable_wndxLog [false, false] (by decide) rfl (by decide) ?_
      simp [hfn, hf']
    simp only
    split
    · refine readable_bind (readable_wndxLog [false, false] (by decide) rfl (by decide) ?_)
        (readable_bind hdone (readable_pure _))
      simp [hwhy.message 301]
    · refine readable_bind (readable_wndxLog [false] (by decide) rfl (by decide) ?_)
        (readable_bind hdone (readable_pure _))
      simp [hf]
  | _ =>
    refine readable_bind (readable_wndxLog [false, false] (by decide) rfl (by decide) ?_)
      (readable_pure _)
    simp [hfn]

end Logged

/-! ### Runs -/

/-- The paths an action brings in have no line ends. -/
def Action.Tame : Action → Prop
  | .ofPath _ fpath _ => Plain false fpath
  | .ofFinfo _ finfo dpath => newline ∉ finfo.mFname.toList ∧ Plain false dpath
  | .moveOf _ _ left => Plain false left
  | .copyTo _ _ dst => Plain false dst
  | .moveTo _ _ dst => Plain false dst
  | _ => True

/-- The paths of the live instances have no line ends. -/
def World.Tame (w : World) : Prop := ∀ i f, w.live i = some f → Plain false f.mFpath

theorem plain_ofFinfo {finfo : Finfo} {dpath : Path} {f : File} (h : File.ofFinfo finfo dpath = some f)
    (hname : newline ∉ finfo.mFname.toList) (hpath : Plain false dpath) : Plain false f.mFpath := by
  obtain ⟨name, hname', rfl⟩ := Option.map_eq_some_iff.mp h
  have hcut : newline ∉ name := by
    unfold File.stringOf at hname'
    split at hname'
    · rw [← Option.some.inj hname']
      exact fun h => hname ((List.takeWhile_prefix _).subset h)
    · exact absurd hname' (by simp)
  rw [plain_false]
  show newline ∉ PathGrammar.append dpath name
  unfold PathGrammar.append
  split
  · exact hcut
  split
  · exact List.mem_append.not.mpr (not_or.mpr ⟨hpath.1, hcut⟩)
  · exact List.mem_append.not.mpr (not_or.mpr ⟨hpath.1, List.not_mem_cons_of_ne_of_not_mem (by decide) hcut⟩)

namespace World

variable {w w' : World}

/-- The path of the instance a call is made on. -/
theorem plain_op {a : Action} {i : ℕ} {op : File → Env → File × Env} (h : a.op = some (i, op))
    (ha : a.Tame) {f : File} (hf : Plain false f.mFpath) (e : Env) : Plain false (op f e).1.mFpath := by
  cases a with
  | alloc j io => cases h; exact (File.mFpath_alloc (f := f) io e.mem).symm ▸ hf
  | write j io => cases h; exact hf
  | read j io => cases h; exact hf
  | allocAndRead j io => cases h; exact (File.mFpath_allocAndRead (f := f) io e).symm ▸ hf
  | copyTo j io dst => cases h; exact File.plain_copyTo hf ha io e
  | moveTo j io dst => cases h; exact File.plain_moveTo hf ha io e
  | cleanHeap j => cases h; exact hf
  | _ => cases h

theorem Tame.update {live : ℕ → Option File} (h : ∀ i f, live i = some f → Plain false f.mFpath) (i : ℕ)
    {o : Option File} (ho : ∀ f, o = some f → Plain false f.mFpath) :
    ∀ j f, Function.update live i o j = some f → Plain false f.mFpath := by
  intro j f hj
  rw [Function.update_apply] at hj
  split at hj
  · exact ho f hj
  · exact h j f hj

/-- Actions that bring in no line ends. -/
theorem Tame.step {a : Action} (hw : w.Tame) (ha : a.Tame) (h : w.step a = some w') : w'.Tame := by
  cases hop : a.op with
  | some p =>
    obtain ⟨i, op⟩ := p
    rw [step_of_op hop] at h
    obtain ⟨f, hf, rfl⟩ := call_eq_some h
    exact Tame.update hw i fun g hg => Option.some.inj hg ▸ plain_op hop ha (hw i f hf) w.env
  | none =>
    cases a with
    | ofPath i fpath sz =>
      obtain ⟨-, rfl⟩ := construct_eq_some h
      exact Tame.update hw i fun g hg => Option.some.inj hg ▸ ha
    | ofFinfo i finfo dpath =>
      obtain ⟨f, hf, hw'⟩ := Option.bind_eq_some_iff.mp h
      obtain ⟨-, rfl⟩ := construct_eq_some hw'
      exact Tame.update hw i fun g hg => Option.some.inj hg ▸ plain_ofFinfo hf ha.1 ha.2
    | copyOf i src =>
      obtain ⟨f, hf, hw'⟩ := Option.bind_eq_some_iff.mp h
      obtain ⟨-, rfl⟩ := construct_eq_some hw'
      exact Tame.update hw i fun g hg => Option.some.inj hg ▸ hw src f hf
    | moveOf i src left =>
      simp only [World.step, Option.bind_eq_some_iff, Option.map_eq_some_iff] at h
      obtain ⟨f, hf, w₁, hw₁, rfl⟩ := h
      obtain ⟨-, rfl⟩ := construct_eq_some hw₁
      refine Tame.update (Tame.update hw i fun g hg => ?_) src fun g hg => ?_
      · exact Option.some.inj hg ▸ hw src f hf
      · exact Option.some.inj hg ▸ ha
    | destruct i =>
      simp only [World.step, destroy] at h
      split at h
      · exact absurd h (by simp)
      · cases h
        exact Tame.update hw i fun g hg => absurd hg (by simp)
    | outside fs =>
      cases h
      exact hw
    | _ => exact absurd hop (by simp [Action.op])

/-- The messages of a call. -/
theorem readable_loggedOp {why : Reasons} (hwhy : why.Tame) {a : Action} {i : ℕ}
    {op : File → Env → Logged (Option Rc × File × Env)} (h : a.loggedOp why = some (i, op)) (ha : a.Tame)
    {f : File} (hf : Plain false f.mFpath) (e : Env) : (op f e).Readable := by
  cases a with
  | alloc j io =>
    cases h
    exact Logged.readable_bind (Logged.readable_alloc hwhy io f e.mem) (Logged.readable_pure _)
  | write j io =>
    cases h
    exact Logged.readable_bind (Logged.readable_write hwhy io hf e) (Logged.readable_pure _)
  | read j io =>
    cases h
    exact Logged.readable_bind (Logged.readable_read hwhy io hf e) (Logged.readable_pure _)
  | allocAndRead j io =>
    cases h
    exact Logged.readable_bind (Logged.readable_allocAndRead hwhy io hf e) (Logged.readable_pure _)
  | copyTo j io dst =>
    cases h
    exact Logged.readable_bind (Logged.readable_copyTo hwhy io f ha e) (Logged.readable_pure _)
  | moveTo j io dst =>
    cases h
    exact Logged.readable_bind (Logged.readable_moveTo hwhy io hf ha e) (Logged.readable_pure _)
  | cleanHeap j => cases h; exact Logged.readable_pure _
  | _ => cases h

/-- The messages of a step. -/
theorem readable_loggedStep {why : Reasons} (hwhy : why.Tame) {a : Action} (hw : w.Tame) (ha : a.Tame)
    {x : Logged (Option Rc × World)} (h : w.loggedStep why a = some x) : x.Readable := by
  cases hop : a.loggedOp why with
  | some p =>
    obtain ⟨i, op⟩ := p
    simp only [loggedStep, hop] at h
    obtain ⟨f, hf, rfl⟩ := Option.map_eq_some_iff.mp h
    exact Logged.readable_bind (readable_loggedOp hwhy hop ha (hw i f hf) w.env) (Logged.readable_pure _)
  | none =>
    simp only [loggedStep, hop] at h
    cases a with
    | ofPath i fpath sz =>
      obtain ⟨w', -, rfl⟩ := Option.map_eq_some_iff.mp h
      exact Logged.readable_bind (Logged.readable_ofPath ha sz) (Logged.readable_pure _)
    | ofFinfo i finfo dpath =>
      obtain ⟨y, hy, hw'⟩ := Option.bind_eq_some_iff.mp h
      obtain ⟨w', -, rfl⟩ := Option.map_eq_some_iff.mp hw'
      have hpath : Plain false y.value.mFpath := by
        obtain ⟨f, hf, rfl⟩ := Option.map_eq_some_iff.mp hy
        exact plain_ofFinfo hf ha.1 ha.2
      exact Logged.readable_bind (Logged.readable_ofFinfo hy hpath) (Logged.readable_pure _)
    | _ =>
      obtain ⟨w', -, rfl⟩ := Option.map_eq_some_iff.mp h
      exact Logged.readable_pure _

end World

namespace Prog

/-- The texts that a step brings in are tame: a path given to `mkdir` begins with no bracket either, and the
path that it stands for has no line ends. -/
def Tame (p : Prog) (s : ProgAction × Reasons) : Prop :=
  s.2.Tame ∧ match s.1 with
    | .file a => a.Tame
    | .isR _ fpath => Plain false fpath
    | .mkdir a _ _ => Plain true a.npath ∧
      ∀ realpath, fsCanonical p.world.env.fs a.npath = some realpath → Plain false (locPath realpath)
    | .setUrgency _ _ => True

/-- The paths of the instances have no line ends, and the messages so far can be read back. -/
structure Readable (p : Prog) : Prop where
  world : p.world.Tame
  made : ∀ a ∈ p.made, a.call.2.Readable

theorem readable_start {w : World} (hw : w.Tame) : Readable ⟨w, []⟩ :=
  ⟨hw, fun _ h => absurd h List.not_mem_nil⟩

theorem readable_step {p q : Prog} {s : ProgAction × Reasons} (hp : p.Readable) (h : p.step s = some q)
    (hs : p.Tame s) : q.Readable := by
  obtain ⟨act, why⟩ := s
  obtain ⟨⟨rc, q'⟩, hcall, rfl⟩ := Option.map_eq_some_iff.mp h
  obtain ⟨hwhy, hact⟩ := hs
  have hlog : ∀ {α : Type} {x : Logged α}, x.Readable →
      ∀ a ∈ p.made ++ onLogG x.calls, a.call.2.Readable := by
    intro α x hx a ha
    rcases List.mem_append.mp ha with ha | ha
    · exact hp.made a ha
    · obtain ⟨c, hc, rfl⟩ := List.mem_map.mp ha
      exact hx c hc
  cases act with
  | file a =>
    obtain ⟨x, hx, hq⟩ := Option.map_eq_some_iff.mp hcall
    cases hq
    refine ⟨?_, hlog (World.readable_loggedStep hwhy hp.world hact hx)⟩
    have hstep : p.world.step a = some x.value.2 := by
      rw [← World.value_loggedStep why, hx]
      rfl
    exact hp.world.step hact hstep
  | isR statusOk fpath =>
    cases hcall
    exact ⟨hp.world, hlog (Logged.readable_isR hwhy _ _ hact)⟩
  | mkdir a c ok =>
    cases hcall
    exact ⟨hp.world, hlog (Logged.readable_mkdir hwhy c ok hact.1 hact.2)⟩
  | setUrgency i ll =>
    cases hcall
    refine ⟨hp.world, fun a ha => ?_⟩
    rcases List.mem_append.mp ha with ha | ha
    · exact hp.made a ha
    · rw [List.mem_singleton.mp ha]
      refine readable_fmt [false] (by decide) rfl (by decide) ?_
      simp

/-- The messages of a run. -/
theorem readable_run {p q : Prog} {as : List (ProgAction × Reasons)} (hp : p.Readable)
    (has : Guarded step Tame p as) (h : run step p as = some q) : q.Readable :=
  has.invariant (fun _ _ _ hI hstep hG => readable_step hI hstep hG) hp h

/-- **Reading the log of a run.**  Two runs, with tame texts and names of source files without quotes and line ends,
that write the same text to `stderr` put out the same records, as far as records are shown; and where nothing
urgent is held back, something has failed in the one if and only if something has in the other. -/
theorem log_read_back {name : Source → List Byte} (hname : Quotable name) {u u' : Loggers} {w w' : World}
    {q q' : Prog} {as as' : List (ProgAction × Reasons)} (hw : w.Tame) (hw' : w'.Tame)
    (has : Guarded step Tame ⟨w, []⟩ as) (has' : Guarded step Tame ⟨w', []⟩ as')
    (h : run step ⟨w, []⟩ as = some q) (h' : run step ⟨w', []⟩ as' = some q')
    (htext : stderr name (printed u q.made) = stderr name (printed u' q'.made)) :
    (printed u q.made).map (LogCall.seen name) = (printed u' q'.made).map (LogCall.seen name) ∧
      ((u logG).value ≤ LL.ERRO.value → (u' logG).value ≤ LL.ERRO.value → KeepsBelow .ERRO as →
        KeepsBelow .ERRO as' → (Guarded step Smooth ⟨w, []⟩ as ↔ Guarded step Smooth ⟨w', []⟩ as')) := by
  have hreadable : ∀ {u : Loggers} {q : Prog}, q.Readable → ∀ c ∈ printed u q.made, c.Readable := by
    intro u q hq c hc
    obtain ⟨a, ha, rfl⟩ := mem_printed hc
    exact hq.made a ha
  have hseen := (stderr_eq_iff hname (hreadable (readable_run (readable_start hw) has h))
    (hreadable (readable_run (readable_start hw') has' h'))).mp htext
  refine ⟨hseen, fun hu hu' hkeeps hkeeps' => ?_⟩
  have hmade := keepsBelow_run h hkeeps fun a ha => absurd ha List.not_mem_nil
  have hmade' := keepsBelow_run h' hkeeps' fun a ha => absurd ha List.not_mem_nil
  rw [← not_iff_not, ← urgent_run_iff h (urgent_nil _), ← urgent_run_iff h' (urgent_nil _), calls, calls,
    ← urgent_printed_iff hu hmade, ← urgent_printed_iff hu' hmade']
  exact urgent_iff_of_seen hseen

theorem tame_writeUnloaded (i : ℕ) (p : Prog) : Guarded step Tame p (writeUnloaded i) := by
  refine fun t _ => ⟨⟨⟨fun _ => ?_, fun _ => ?_⟩, ?_⟩, fun t' _ =>
    ⟨⟨⟨fun _ => ?_, fun _ => ?_⟩, trivial⟩, trivial⟩⟩
  · exact plain_text rfl (by decide)
  · exact plain_text rfl (by decide)
  · show Plain false [97]
    decide
  · exact plain_text rfl (by decide)
  · exact plain_text rfl (by decide)

theorem log_read_back_write :
    ∃ q q', run step ⟨.start (FileTree.Tree.root 0o755 40), []⟩ (writeUnloaded 0) = some q ∧
      run step ⟨.start (FileTree.Tree.root 0o755 40), []⟩ (writeUnloaded 1) = some q' ∧
        (printed (fun _ => .DBUG) q.made).map (LogCall.seen fun _ => text "file.cpp") =
          (printed (fun _ => .DBUG) q'.made).map (LogCall.seen fun _ => text "file.cpp") := by
  have hquotable : ascii '"' ∉ text "file.cpp" ∧ newline ∉ text "file.cpp" := by decide
  have hname : Quotable fun _ => text "file.cpp" := fun _ => hquotable
  have hstart : (World.start (FileTree.Tree.root 0o755 40)).Tame := fun _ _ h =>
    absurd h (by simp [World.start])
  refine ⟨_, _, rfl, rfl, ?_⟩
  exact (log_read_back hname hstart hstart (tame_writeUnloaded 0 _) (tame_writeUnloaded 1 _) rfl rfl rfl).1

end Prog

end WndxSane
