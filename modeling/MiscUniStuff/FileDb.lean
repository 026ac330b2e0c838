import MiscUniStuff.Host

/-! `file_db.c`: the scan of a directory that makes the file database, with the file system
it asks. -/
namespace MiscUniStuff
namespace Pingu

/-- `g_string_append`. -/
def CString.append (s t : CString) : CString where
  bytes := s.bytes ++ t.bytes
  noNul := by
    rw [List.mem_append]
    exact fun h => h.elim s.noNul t.noNul

/-- `g_string_truncate`. -/
def CString.truncate (s : CString) (len : ℕ) : CString where
  bytes := s.bytes.take len
  noNul h := s.noNul (List.mem_of_mem_take h)

/-- The string `"/"`. -/
def slash : CString := ⟨[0x2F],by decide⟩

/-- A name in a directory as a path. -/
def CString.join (dirname name : CString) : CString := (dirname.append slash).append name

/-- The first character is a dot. -/
def CString.Hidden (s : CString) : Prop := s.bytes.head? = some 0x2E

instance (s : CString) : Decidable s.Hidden :=
  inferInstanceAs (Decidable (s.bytes.head? = some 0x2E))

/-- What `S_ISDIR` and `S_ISREG` tell apart. -/
inductive FileType
  | directory | regular | other
  deriving DecidableEq

/-- `struct stat`. -/
structure Stat where
  mode : FileType
  size : ℕ
  deriving DecidableEq

/-- An open file: its bytes, and whether an error stops reading them. -/
structure Stream where
  bytes : List UInt8
  failed : Bool

/-- What the calls with a path return, `none` when they fail. The names are in the order
of `readdir`. -/
structure FileSystem where
  stat : CString → Option Stat
  opendir : CString → Option (List CString)
  fopen : CString → Option Stream

/-- What an MD5 sum is computed by. -/
abbrev Digest := List UInt8 → { md5sum : List UInt8 // md5sum.length = 16 }

/-- A scan returns with the list it has made, or it has ended the program. -/
inductive Scan
  | exited
  | returned (filenametomd5 : List FileData)
  deriving DecidableEq

section Functions
variable (fs : FileSystem) (md5 : Digest)

/-- `md5_stream`. -/
def md5Stream (stream : Stream) : Option { md5sum : List UInt8 // md5sum.length = 16 } :=
  if stream.failed then none else some (md5 stream.bytes)

/-- `get_md5sum_file`; it exits where this is `none`. -/
def getMd5sumFile (filename : CString) : Option { md5sum : List UInt8 // md5sum.length = 16 } :=
  match fs.fopen filename with
  | none => none
  | some fp => md5Stream md5 fp

/-- The loop of `recurse_md5` over the names that are left. The result of `stat` is not
looked at, so `buf` is what it was when `stat` fails. -/
def readLoop (recurseMd5 : CString → List FileData → Option Scan) (len : ℕ) :
    List CString → CString → Stat → List FileData → Option Scan
  | [], _, _, filenametomd5 => some (.returned filenametomd5)
  | name::names, bar, buf, filenametomd5 =>
    if name.Hidden then readLoop recurseMd5 len names bar buf filenametomd5
    else
      let bar := bar.append name
      let buf := (fs.stat bar).getD buf
      match buf.mode with
      | .directory =>
        match recurseMd5 bar filenametomd5 with
        | some (.returned filenametomd5) =>
          readLoop recurseMd5 len names (bar.truncate len) buf filenametomd5
        | result => result
      | .regular =>
        match getMd5sumFile fs md5 bar with
        | some foo =>
          let f : FileData := ⟨bar,name,foo.1,buf.size,foo.2⟩
          readLoop recurseMd5 len names (bar.truncate len) buf (filenametomd5 ++ [f])
        | none => some .exited
      | .other => readLoop recurseMd5 len names (bar.truncate len) buf filenametomd5

/-- `recurse_md5`, down to a depth. The variable `buf` of a call holds anything at first. -/
def recurseMd5 (junk : CString → Stat) : ℕ → CString → List FileData → Option Scan
  | 0, _, _ => none
  | depth+1, dirname, filenametomd5 =>
    let bar := dirname.append slash
    match fs.opendir dirname with
    | none => some (.returned filenametomd5)
    | some names =>
      readLoop fs md5 (recurseMd5 junk depth) bar.strlen names bar (junk dirname) filenametomd5

end Functions

/-- The variables of `file_db.c`. -/
structure FileDb where
  lastupdate : ℤ
  filenametomd5 : List FileData

/-- `create_filenametomd5` when the directory has been changed at `mtime`; `none` when the
program has been ended. -/
def createFilenametomd5 (fs : FileSystem) (md5 : Digest) (junk : CString → Stat) (depth : ℕ)
    (directory : CString) (mtime : ℤ) (db : FileDb) : Option (Option FileDb) :=
  if mtime ≠ db.lastupdate ∨ db.lastupdate = 0 then
    -- the old list is freed before the scan
    (recurseMd5 fs md5 junk depth directory []).map fun
      | .exited => none
      | .returned filenametomd5 => some ⟨mtime,filenametomd5⟩
  else some (some db)

/-! ### One round of the loop -/

theorem CString.append_eq_join (dirname name : CString) :
    (dirname.append slash).append name = dirname.join name := rfl

theorem CString.truncate_append (s t : CString) : (s.append t).truncate s.strlen = s := by
  simp [append,truncate,strlen]

/-- The path in the buffer is the directory again after every name. -/
theorem CString.truncate_join (dirname name : CString) :
    (dirname.join name).truncate (dirname.append slash).strlen = dirname.append slash :=
  truncate_append _ _

/-- What the loop does after a subdirectory. -/
def afterDirectory (k : List FileData → Option Scan) : Option Scan → Option Scan
  | some (.returned filenametomd5) => k filenametomd5
  | result => result

/-- The loop at the beginning of a round. -/
def scanNames (fs : FileSystem) (md5 : Digest) (recurse : CString → List FileData → Option Scan)
    (dirname : CString) (names : List CString) (buf : Stat) (db : List FileData) : Option Scan :=
  readLoop fs md5 recurse (dirname.append slash).strlen names (dirname.append slash) buf db

section Rounds
variable {fs : FileSystem} {md5 : Digest} {recurse : CString → List FileData → Option Scan}
  {dirname name : CString} {names : List CString} {buf buf' : Stat} {db : List FileData}

theorem recurseMd5_directory {junk : CString → Stat} (h : fs.opendir dirname = some names)
    (depth : ℕ) : recurseMd5 fs md5 junk (depth+1) dirname db =
      scanNames fs md5 (recurseMd5 fs md5 junk depth) dirname names (junk dirname) db := by
  simp only [recurseMd5,h,scanNames]

/-- Directories that `opendir` cannot open are passed over. -/
theorem recurseMd5_noDirectory {junk : CString → Stat} (h : fs.opendir dirname = none)
    (depth : ℕ) : recurseMd5 fs md5 junk (depth+1) dirname db = some (.returned db) := by
  simp only [recurseMd5,h]

theorem scanNames_hidden (h : name.Hidden) :
    scanNames fs md5 recurse dirname (name::names) buf db =
      scanNames fs md5 recurse dirname names buf db := by
  rw [scanNames,readLoop,if_pos h,scanNames]

theorem scanNames_directory (h : ¬name.Hidden)
    (hbuf : (fs.stat (dirname.join name)).getD buf = buf') (hmode : buf'.mode = .directory) :
    scanNames fs md5 recurse dirname (name::names) buf db =
      afterDirectory (scanNames fs md5 recurse dirname names buf')
        (recurse (dirname.join name) db) := by
  rw [scanNames,readLoop,if_neg h]
  simp only [CString.append_eq_join,hbuf,hmode,CString.truncate_join]
  rfl

theorem scanNames_regular (h : ¬name.Hidden)
    (hbuf : (fs.stat (dirname.join name)).getD buf = buf') (hmode : buf'.mode = .regular) :
    scanNames fs md5 recurse dirname (name::names) buf db =
      match getMd5sumFile fs md5 (dirname.join name) with
      | some foo => scanNames fs md5 recurse dirname names buf'
          (db ++ [⟨dirname.join name,name,foo.1,buf'.size,foo.2⟩])
      | none => some .exited := by
  rw [scanNames,readLoop,if_neg h]
  simp only [CString.append_eq_join,hbuf,hmode,CString.truncate_join,scanNames]

theorem scanNames_other (h : ¬name.Hidden)
    (hbuf : (fs.stat (dirname.join name)).getD buf = buf') (hmode : buf'.mode = .other) :
    scanNames fs md5 recurse dirname (name::names) buf db =
      scanNames fs md5 recurse dirname names buf' db := by
  rw [scanNames,readLoop,if_neg h]
  simp only [CString.append_eq_join,hbuf,hmode,CString.truncate_join,scanNames]

end Rounds

end Pingu
end MiscUniStuff
