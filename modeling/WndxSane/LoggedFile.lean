import WndxSane.Logger
import WndxSane.MkdirAlone
import WndxSane.File
import Mathlib.Control.Monad.Writer

/-!
# The functions of `file.cpp` with their log calls

Each function once more, as the source has it, with the calls of `WNDX_LOG` it makes on the way.  A macro
call over several lines is on the line it begins on.  A log call that throws in a `try` block is one of the
exceptions the outcomes of a function speak of; it leaves no record.  Outside of `try` blocks log calls are taken
not to throw.

* `Logged.value_write`, …: without the log calls, these are the functions of `File` and `Mkdir`.
* **`Logged.alarm_write`**, …: a function logs an `ERRO` or a `CRIT` exactly when it returns something else than
  `SUCCESS`, but for a move, which also does when the old file could not be removed.
-/

namespace WndxSane

open FileTree PathGrammar PathAlphabet

/-! ### Texts -/

/-- `fmt::formatter<rc>::format`. -/
def Rc.format : Rc → List Byte
  | .success => text "SUCCESS"
  | .failure => text "FAILURE"
  | .dummyFixme => text "DUMMY_FIXME"
  | .init => text "INIT"
  | .memoryBlockEmpty => text "MEMORY_BLOCK_EMPTY"
  | .memoryBadAlloc => text "MEMORY_BAD_ALLOC"
  | .fileFixme => text "FILE_FIXME"
  | .fileSpecial => text "FILE_SPECIAL"
  | .fileStatusGenericErro => text "FILE_STATUS_GENERIC_ERRO"
  | .fileMkdirGenericErro => text "FILE_MKDIR_GENERIC_ERRO"
  | .filePathCanonicalErro => text "FILE_PATH_CANONICAL_ERRO"
  | .fileRmDirEmptySuccess => text "FILE_RM_DIR_EMPTY_SUCCESS"
  | .fileRmDirPermsErro => text "FILE_RM_DIR_PERMS_ERRO"
  | .filePathUnexpectedErro => text "FILE_PATH_UNEXPECTED_ERRO"
  | .fsCtorErro => text "FS_CTOR_ERRO"
  | .fsOpenErro => text "FS_OPEN_ERRO"
  | .fsIoUnavailable => text "FS_IO_UNAVAILABLE"
  | .unixSockMakeErro => text "UNIX_SOCK_MAKE_ERRO"
  | .unixSockAddrErro => text "UNIX_SOCK_ADDR_ERRO"
  | .unixSockBindErro => text "UNIX_SOCK_BIND_ERRO"
  | .unixSockLstnErro => text "UNIX_SOCK_LSTN_ERRO"
  | .unixSockConnErro => text "UNIX_SOCK_CONN_ERRO"
  | .unixSockSendErro => text "UNIX_SOCK_SEND_ERRO"
  | .unixSockRecvErro => text "UNIX_SOCK_RECV_ERRO"
  | .warnCmdFileReq => text "No files were provided"
  | .erroCmdOpt => text "Fail during parsing of the cmd options"
  | .critExFixme => text "FIXME DUMMY exception"
  | .critExUnhandled => text "UNHANDLED std::exception"
  | .critExAnonymous => text "UNHANDLED anonymous exception"

/-- `fmt::formatter<File>::format`. -/
def File.format (f : File) : List Byte := fmt "[{}] {}" [decimal f.mBlockSize, f.mFpath]

/-- `fmt::formatter<Finfo>::format`; without a terminator the name is read out of its bounds. -/
def Finfo.format (f : Finfo) : Option (List Byte) :=
  (File.stringOf f.mFname).map fun mFname => fmt "[{}] {}" [decimal f.mBlockSize, mFname]

structure ErrorCode where
  value : ℤ
  message : List Byte

/-- The reasons the system gives: the error code and the text of the exception at the log call of each line. -/
structure Reasons where
  ec : ℕ → ErrorCode
  what : ℕ → List Byte

/-- The path of a place, as `fs::canonical` returns it. -/
def locPath (l : Loc) : Path := sep :: List.intercalate [sep] l.reverse

/-! ### Functions that log -/

/-- What a function returns, and the log calls it makes. -/
abbrev Logged := Writer (List LogCall)

namespace Logged

variable {α β : Type}

def value (x : Logged α) : α := (Id.run (WriterT.run x)).1

def calls (x : Logged α) : List LogCall := (Id.run (WriterT.run x)).2

/-- `WNDX_LOG` in `file.cpp`. -/
def wndxLog (line : ℕ) (ll : LL) (s : String) (args : List (List Byte)) : Logged PUnit :=
  tell [⟨.fileCpp, line, ll, fmt s args⟩]

@[simp] theorem value_pure (a : α) : (pure a : Logged α).value = a := rfl

@[simp] theorem calls_pure (a : α) : (pure a : Logged α).calls = [] := rfl

@[simp] theorem value_bind (x : Logged α) (g : α → Logged β) : (x >>= g).value = (g x.value).value := rfl

@[simp] theorem calls_bind (x : Logged α) (g : α → Logged β) :
    (x >>= g).calls = x.calls ++ (g x.value).calls := rfl

@[simp] theorem calls_wndxLog (line : ℕ) (ll : LL) (s : String) (args : List (List Byte)) :
    (wndxLog line ll s args).calls = [⟨.fileCpp, line, ll, fmt s args⟩] := rfl

/-- `is_r`. -/
def isR (why : Reasons) (statusOk : Bool) (fs : Fs) (fpath : Path) : Logged Rc := do
  let fn := text "file::is_r()"
  match if statusOk then fsStatus fs fpath else none with
  | none =>
    wndxLog 20 .CRIT "{} {} fs::status error v:{} m:{}\n"
      [fn, fpath, decimalInt (why.ec 20).value, (why.ec 20).message]
    return .fileStatusGenericErro
  | some (.reg _) =>
    wndxLog 28 .INFO "{} is a regular file: {}\n" [fn, fpath]
    return .success
  | some _ =>
    wndxLog 25 .ERRO "{} is NOT a regular file: {}\n" [fn, fpath]
    return .fileSpecial

/-- `mkdir`. -/
def mkdir (why : Reasons) (a : Mkdir.Args) (c : Mkdir.Caller) (ok : Mkdir.Pc → Bool) (fs : Fs) :
    Logged (Rc × Fs) := do
  let fn := text "file::mkdir()"
  if ok .isDirectory && fsIsDirectory fs a.npath then
    wndxLog 47 .DBUG "{} Directory exist, and will be used as is\n" [fn]
    if c.force then return (.success, fs) else return (.success, fs)
  else if !(ok .exists' && fsExists fs a.npath) then
    match if ok .createDirectory then fsCreateDirectory c.umask fs a.npath a.parentDir else none with
    | some fs₁ =>
      match if ok .permissions then fsPermissions fs₁ a.npath a.perms else none with
      | some fs₂ =>
        wndxLog 56 .NTFY "{} Created new directory with requested access permissions.\n" [fn]
        return (.success, fs₂)
      | none =>
        wndxLog 61 .ERRO "{} Created new directory, but failed to set requested perms.\n" [fn]
        if ok .remove && (fsRemove fs₁ a.npath).1 then
          wndxLog 66 .NTFY "{} Removed empty directory created with incorrect perms.\n" [fn]
          return (.fileRmDirEmptySuccess, (fsRemove fs₁ a.npath).2)
        else
          wndxLog 72 .CRIT ("{} {}\n^ failed to remove this dir\n" ++
              "that was created with incorrect access rights.\n" ++
              "Because of the perms, do it yourself manually!\n" ++
              "Additionally take a look at the origin of the error:\n" ++ "v:{} m:{}\n")
            [fn, a.npath, decimalInt (why.ec 72).value, (why.ec 72).message]
          return (.fileRmDirPermsErro, fs₁)
    | none =>
      wndxLog 83 .CRIT ("{} If your intent was to make this dir under current cwd:\n" ++
          "{}\n^ precede your path with './' i.e. ./{}\n" ++
          "Additionally take a look at the origin of the error:\n" ++
          "fs::create_directory error:\nv:{} m:{}\n")
        [fn, a.npath, a.npath, decimalInt (why.ec 83).value, (why.ec 83).message]
      return (.fileMkdirGenericErro, fs)
  else
    match if ok .canonical then fsCanonical fs a.npath else none with
    | none =>
      wndxLog 94 .CRIT "{} {}\n^ canonical path error:\nv:{} m:{}\n"
        [fn, a.npath, decimalInt (why.ec 94).value, (why.ec 94).message]
      return (.filePathCanonicalErro, fs)
    | some realpath =>
      wndxLog 98 .CRIT "{} {}\n^ path cannot be used as the new directory!\n" [fn, locPath realpath]
      return (.filePathUnexpectedErro, fs)

def ctor : List Byte := text "ctor - File instance"

/-- `File(fs::path, size_t)`. -/
def ofPath (fpath : Path) (sz : ℕ) : Logged File := do
  let f := File.ofPath fpath sz
  wndxLog 112 .DBUG "{} from file & size:\n\t{}\n" [ctor, f.format]
  return f

/-- `File(Finfo const&, fs::path const&)`. -/
def ofFinfo (finfo : Finfo) (dpath : Path) : Option (Logged File) :=
  (File.ofFinfo finfo dpath).map fun f => do
    wndxLog 119 .DBUG "{} from Finfo & dir path:\n\t{}\n" [ctor, f.format]
    return f

/-- `alloc`. -/
def alloc (why : Reasons) (io : File.AllocIo) (f : File) (m : Mem) : Logged (Rc × File × Mem) := do
  let fn := text "File::heap_alloc()"
  let (f', m') :=
    if io.allocates then
      let (b, m') := m.newBlock f.mBlockSize
      ({ f with mBlock := some b }, m')
    else (f, m)
  match io with
  | .ok =>
    wndxLog 164 .DBUG "{}\n" [fn]
    return (.success, f', m')
  | .thrown _ true =>
    wndxLog 166 .ERRO "{} {}\n{}\n" [fn, Rc.memoryBadAlloc.format, why.what 166]
    return (.memoryBadAlloc, f'.destruct m')
  | .thrown _ false =>
    wndxLog 170 .CRIT "{} {}\n{}\n" [fn, Rc.critExUnhandled.format, why.what 170]
    return (.critExUnhandled, f'.destruct m')

/-- `write`. -/
def write (why : Reasons) (io : File.WriteIo) (f : File) (e : Env) : Logged (Rc × Env) := do
  let fn := text "File::write()"
  match f.mBlock with
  | none =>
    wndxLog 181 .CRIT "{} {}\n" [fn, Rc.memoryBlockEmpty.format]
    return (.memoryBlockEmpty, e)
  | some b =>
    let (fs, ofs) := Ofstream.open io.opened e.fs f.mFpath
    let n := io.rounds f.mBlockSize
    let ofs' := File.insertAll io.inserted (e.mem.block b) n ofs
    let mem := if n = 0 then e.mem else e.mem.useBlock b
    if io.raised.isSome then
      wndxLog 207 .CRIT "{} {}\n{}\n" [fn, Rc.critExUnhandled.format, why.what 207]
      return (.critExUnhandled, ⟨ofs'.close io.flushed fs, mem⟩)
    else
      wndxLog 205 .STAT "{} SUCCESS:\n\t{}\n" [fn, f.mFpath]
      return (.success, ⟨ofs'.close io.flushed fs, mem⟩)

/-- `read`. -/
def read (why : Reasons) (io : File.ReadIo) (f : File) (e : Env) : Logged (Rc × Env) := do
  let fn := text "File::fcontent()"
  match ← isR why io.statusOk e.fs f.mFpath with
  | .success =>
    if io.opened.fail then
      wndxLog 223 .ERRO "{} {}\n" [fn, Rc.fsCtorErro.format]
      return (.fsCtorErro, e)
    else if io.opened.fail then
      wndxLog 227 .ERRO "{} {}\n" [fn, Rc.fsOpenErro.format]
      return (.fsOpenErro, e)
    else if !io.opened.good then
      wndxLog 231 .ERRO "{} {}\n" [fn, Rc.fsIoUnavailable.format]
      return (.fsIoUnavailable, e)
    else
      let size := File.tellg io.tellgOk (File.contentsAt e.fs f.mFpath)
      let e' := if io.raised = some .beforeRead then e else f.readBlock io size e
      if io.raised.isSome then
        wndxLog 240 .CRIT "{} {}\n{}\n" [fn, Rc.critExUnhandled.format, why.what 240]
        return (.critExUnhandled, e')
      else
        wndxLog 238 .INFO "{} SUCCESS\n" [fn]
        return (.success, e')
  | rc => return (rc, e)

/-- `alloc_and_read`. -/
def allocAndRead (why : Reasons) (io : File.LoadIo) (f : File) (e : Env) : Logged (Rc × File × Env) := do
  let fn := text "File::read_to_block()"
  match ← alloc why io.alloc f e.mem with
  | (.success, f₁, m₁) =>
    let (rc, e₂) ← read why io.read f₁ { e with mem := m₁ }
    match io.raised with
    | none =>
      if rc ≠ .success then
        wndxLog 256 .ERRO "{} -> {}\n" [fn, rc.format]
        return (rc, f₁, e₂)
      else
        wndxLog 259 .DBUG "{} SUCCESS : {}\n" [fn, f₁.mFpath]
        return (.success, f₁, e₂)
    | some .exception =>
      wndxLog 261 .CRIT "{} {}\n{}\n" [fn, Rc.critExUnhandled.format, why.what 261]
      let (f₂, m₂) := f₁.destruct e₂.mem
      return (.critExUnhandled, f₂, { e₂ with mem := m₂ })
    | some .anonymous =>
      wndxLog 265 .CRIT "{} occurred but was caught!\n{}\n"
        [Rc.critExAnonymous.format, text "THIS IS VERY BAD!"]
      return (.critExAnonymous, f₁, e₂)
  | (rc, f₁, m₁) => return (rc, f₁, { e with mem := m₁ })

/-- `copy_to`. -/
def copyTo (why : Reasons) (io : File.WriteIo) (f : File) (dst : Path) (e : Env) :
    Logged (Rc × File × Env) := do
  let fn := text "File::copy_to()"
  match f.mBlock with
  | none =>
    wndxLog 276 .ERRO "{} {}\n" [fn, Rc.memoryBlockEmpty.format]
    return (.memoryBlockEmpty, f, e)
  | some _ =>
    let f' := f.setFpath dst
    let (rc, e') ← write why io f' e
    if rc ≠ .success then
      wndxLog 282 .ERRO "{} -> {}\n" [fn, rc.format]
      return (rc, f', e')
    else
      wndxLog 285 .DBUG "{} SUCCESS : {}\n" [fn, f'.mFpath]
      return (.success, f', e')

/-- `move_to`. -/
def moveTo (why : Reasons) (io : File.MoveIo) (f : File) (dst : Path) (e : Env) :
    Logged (Rc × File × Env) := do
  let fn := text "File::move_to()"
  let oldFpath := f.mFpath
  match ← copyTo why io.write f dst e with
  | (.success, f', e') =>
    if !io.removed then
      wndxLog 301 .ERRO "[FAIL] fs::remove(old_fpath, ec) -> v:{} m:{}\n"
        [decimalInt (why.ec 301).value, (why.ec 301).message]
    else
      wndxLog 304 .DBUG "[ OK ] fs::remove(\"{}\")\n" [oldFpath]
    wndxLog 306 .DBUG "{} SUCCESS : {}\n" [fn, f'.mFpath]
    return (.success, f', if io.removed then { e' with fs := (fsRemove e'.fs oldFpath).2 } else e')
  | (rc, f', e') =>
    wndxLog 295 .ERRO "{} -> {}\n" [fn, rc.format]
    return (rc, f', e')

/-! ### Without the log calls -/

variable (why : Reasons)

theorem value_isR (statusOk : Bool) (fs : Fs) (fpath : Path) :
    (isR why statusOk fs fpath).value = File.isR statusOk fs fpath := by
  unfold isR File.isR
  cases (if statusOk then fsStatus fs fpath else none) with
  | none => rfl
  | some node => cases node <;> rfl

theorem value_mkdir (a : Mkdir.Args) (c : Mkdir.Caller) (ok : Mkdir.Pc → Bool) (fs : Fs) :
    (mkdir why a c ok fs).value = Mkdir.mkdir a c ok fs := by
  unfold mkdir Mkdir.mkdir
  split
  · cases c.force <;> rfl
  split
  · cases (if ok .createDirectory then fsCreateDirectory c.umask fs a.npath a.parentDir else none) with
    | none => rfl
    | some fs₁ =>
      simp only
      cases (if ok .permissions then fsPermissions fs₁ a.npath a.perms else none) with
      | some fs₂ => rfl
      | none => cases (ok .remove && (fsRemove fs₁ a.npath).1) <;> rfl
  · cases ok .canonical with
    | false => rfl
    | true =>
      cases fsCanonical fs a.npath with
      | none => rfl
      | some realpath => rfl

theorem value_alloc (io : File.AllocIo) (f : File) (m : Mem) :
    (alloc why io f m).value = f.alloc io m := by
  cases io with
  | ok => rfl
  | thrown afterNew badAlloc => cases badAlloc <;> rfl

theorem value_write (io : File.WriteIo) (f : File) (e : Env) :
    (write why io f e).value = f.write io e := by
  unfold write File.write
  cases f.mBlock with
  | none => rfl
  | some b => cases io.raised <;> rfl

theorem value_read (io : File.ReadIo) (f : File) (e : Env) :
    (read why io f e).value = f.read io e := by
  obtain ⟨statusOk, opened, tellgOk, delivered, raised⟩ := io
  unfold read File.read File.readRequest
  rw [value_bind, value_isR]
  cases File.isR statusOk e.fs f.mFpath with
  | success =>
    by_cases hfail : opened.fail = true
    · simp only [hfail, if_true]
      rfl
    · by_cases hgood : opened.good = true
      · cases raised with
        | none => simp [hfail, hgood]
        | some point => cases point <;> simp [hfail, hgood]
      · simp [hfail, hgood]
  | _ => rfl

theorem value_copyTo (io : File.WriteIo) (f : File) (dst : Path) (e : Env) :
    (copyTo why io f dst e).value = f.copyTo io dst e := by
  unfold copyTo File.copyTo
  cases f.mBlock with
  | none => rfl
  | some b =>
    simp only [value_bind, value_write]
    cases (f.setFpath dst).write io e with
    | mk rc e' => cases rc <;> rfl

theorem value_moveTo (io : File.MoveIo) (f : File) (dst : Path) (e : Env) :
    (moveTo why io f dst e).value = f.moveTo io dst e := by
  unfold moveTo File.moveTo
  rw [value_bind, value_copyTo]
  obtain ⟨rc, f', e'⟩ := f.copyTo io.write dst e
  cases rc with
  | success => cases io.removed <;> rfl
  | _ => rfl

theorem value_allocAndRead (io : File.LoadIo) (f : File) (e : Env) :
    (allocAndRead why io f e).value = f.allocAndRead io e := by
  unfold allocAndRead File.allocAndRead
  rw [value_bind, value_alloc]
  obtain ⟨rc, f₁, m₁⟩ := f.alloc io.alloc e.mem
  cases rc with
  | success =>
    simp only [value_bind, value_read]
    obtain ⟨rc, e₂⟩ := f₁.read io.read { e with mem := m₁ }
    cases io.raised with
    | none => cases rc <;> rfl
    | some thrown => cases thrown <;> rfl
  | _ => rfl

/-! ### Alarms -/

theorem alarm_isR (statusOk : Bool) (fs : Fs) (fpath : Path) :
    Urgent .ERRO (isR why statusOk fs fpath).calls ↔ File.isR statusOk fs fpath ≠ .success := by
  rw [← value_isR why]
  unfold isR
  cases (if statusOk then fsStatus fs fpath else none) with
  | none => simp [LL.ERRO, LL.CRIT]
  | some node => cases node <;> simp [LL.ERRO, LL.INFO]

theorem alarm_mkdir (a : Mkdir.Args) (c : Mkdir.Caller) (ok : Mkdir.Pc → Bool) (fs : Fs) :
    Urgent .ERRO (mkdir why a c ok fs).calls ↔ (Mkdir.mkdir a c ok fs).1 ≠ .success := by
  rw [← value_mkdir why]
  unfold mkdir
  split
  · cases c.force <;> simp [LL.ERRO, LL.DBUG]
  split
  · cases (if ok .createDirectory then fsCreateDirectory c.umask fs a.npath a.parentDir else none) with
    | none => simp [LL.ERRO, LL.CRIT]
    | some fs₁ =>
      simp only
      cases (if ok .permissions then fsPermissions fs₁ a.npath a.perms else none) with
      | some fs₂ => simp [LL.ERRO, LL.NTFY]
      | none => cases (ok .remove && (fsRemove fs₁ a.npath).1) <;> simp [LL.ERRO]
  · cases (if ok .canonical then fsCanonical fs a.npath else none) <;> simp [LL.ERRO, LL.CRIT]

theorem alarm_alloc (io : File.AllocIo) (f : File) (m : Mem) :
    Urgent .ERRO (alloc why io f m).calls ↔ (f.alloc io m).1 ≠ .success := by
  rw [← value_alloc why]
  cases io with
  | ok => simp [alloc, LL.ERRO, LL.DBUG]
  | thrown afterNew badAlloc => cases badAlloc <;> simp [alloc, LL.ERRO, LL.CRIT]

theorem alarm_write (io : File.WriteIo) (f : File) (e : Env) :
    Urgent .ERRO (write why io f e).calls ↔ (f.write io e).1 ≠ .success := by
  rw [← value_write why]
  unfold write
  cases f.mBlock with
  | none => simp [LL.ERRO, LL.CRIT]
  | some b => cases io.raised <;> simp [LL.ERRO, LL.CRIT, LL.STAT]

theorem alarm_read (io : File.ReadIo) (f : File) (e : Env) :
    Urgent .ERRO (read why io f e).calls ↔ (f.read io e).1 ≠ .success := by
  rw [← value_read why]
  have hisR := alarm_isR why io.statusOk e.fs f.mFpath
  unfold read
  rw [calls_bind, value_bind, urgent_append, hisR, value_isR]
  cases File.isR io.statusOk e.fs f.mFpath with
  | success =>
    simp only
    split_ifs <;> simp [LL.ERRO, LL.CRIT, LL.INFO]
  | _ => simp

theorem alarm_copyTo (io : File.WriteIo) (f : File) (dst : Path) (e : Env) :
    Urgent .ERRO (copyTo why io f dst e).calls ↔ (f.copyTo io dst e).1 ≠ .success := by
  rw [← value_copyTo why]
  unfold copyTo
  cases f.mBlock with
  | none => simp [LL.ERRO]
  | some b =>
    have hwrite := alarm_write why io (f.setFpath dst) e
    simp only [calls_bind, value_bind, urgent_append, hwrite, value_write]
    split_ifs with h
    · simp [h]
    · simp [h, LL.ERRO, LL.DBUG]

/-- A move also logs an `ERRO` when only the removal of the old file fails. -/
theorem alarm_moveTo (io : File.MoveIo) (f : File) (dst : Path) (e : Env) :
    Urgent .ERRO (moveTo why io f dst e).calls ↔ (f.moveTo io dst e).1 ≠ .success ∨ io.removed = false := by
  have hcopy := alarm_copyTo why io.write f dst e
  rw [← value_moveTo why]
  unfold moveTo
  rw [calls_bind, value_bind, urgent_append, hcopy, value_copyTo]
  obtain ⟨rc, f', e'⟩ := f.copyTo io.write dst e
  cases rc with
  | success => cases io.removed <;> simp [LL.ERRO, LL.DBUG]
  | _ => simp

theorem alarm_allocAndRead (io : File.LoadIo) (f : File) (e : Env) :
    Urgent .ERRO (allocAndRead why io f e).calls ↔ (f.allocAndRead io e).1 ≠ .success := by
  rw [← value_allocAndRead why]
  have halloc := alarm_alloc why io.alloc f e.mem
  unfold allocAndRead
  rw [calls_bind, value_bind, urgent_append, halloc, value_alloc]
  obtain ⟨rc, f₁, m₁⟩ := f.alloc io.alloc e.mem
  cases rc with
  | success =>
    have hread := alarm_read why io.read f₁ { e with mem := m₁ }
    simp only [calls_bind, value_bind, urgent_append, hread, value_read]
    obtain ⟨rc, e₂⟩ := f₁.read io.read { e with mem := m₁ }
    cases io.raised with
    | none =>
      simp only
      split_ifs with h
      · simp [h]
      · simp [LL.ERRO, LL.DBUG, h]
    | some thrown => cases thrown <;> simp [LL.ERRO, LL.CRIT]
  | _ => simp

end Logged

end WndxSane
