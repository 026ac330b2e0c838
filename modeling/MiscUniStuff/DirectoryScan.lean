import MiscUniStuff.FileDb

/-! What a scan of a directory finds, for the tree of files that the directory holds. -/
namespace MiscUniStuff
namespace Pingu

/-- The entries of a directory in the order of `readdir`, with those of its subdirectories.
`stat` fails on an entry that is missing. -/
inductive Listing
  | nil
  | file (name : CString) (size : ℕ) (content : List UInt8) (rest : Listing)
  | dir (name : CString) (sub rest : Listing)
  | other (name : CString) (rest : Listing)
  | missing (name : CString) (rest : Listing)

/-- A regular file of a tree: the directories it is in, from the root on, and what it is. -/
structure TreeFile where
  dirs : List CString
  name : CString
  size : ℕ
  content : List UInt8

namespace TreeFile

/-- No component of the path starts with a dot. -/
def Visible (f : TreeFile) : Prop := ∀ name ∈ f.dirs ++ [f.name], ¬name.Hidden

instance (f : TreeFile) : Decidable f.Visible :=
  inferInstanceAs (Decidable (∀ name ∈ f.dirs ++ [f.name], ¬name.Hidden))

/-- The entry of the database for a file in the tree of a directory. -/
def entry (md5 : Digest) (root : CString) (f : TreeFile) : FileData where
  fullfilename := (f.dirs.foldl CString.join root).join f.name
  filename := f.name
  md5sum := (md5 f.content).1
  filesize := f.size
  md5_length := (md5 f.content).2

/-- The file as seen from the directory above. -/
def within (dir : CString) (f : TreeFile) : TreeFile := { f with dirs := dir::f.dirs }

theorem visible_within {dir : CString} {f : TreeFile} :
    (f.within dir).Visible ↔ ¬dir.Hidden ∧ f.Visible := by
  simp only [Visible,within,List.cons_append,List.forall_mem_cons]

end TreeFile

namespace Listing

def names : Listing → List CString
  | nil => []
  | file name _ _ rest => name::rest.names
  | dir name _ rest => name::rest.names
  | other name rest => name::rest.names
  | missing name rest => name::rest.names

/-- All regular files, depth first. -/
def files : Listing → List TreeFile
  | nil => []
  | file name size content rest => ⟨[],name,size,content⟩::rest.files
  | dir name sub rest => sub.files.map (TreeFile.within name) ++ rest.files
  | other _ rest => rest.files
  | missing _ rest => rest.files

/-- The entries of the database for the visible files. -/
def database (md5 : Digest) (root : CString) (tree : Listing) : List FileData :=
  (tree.files.filter fun f => f.Visible).map (TreeFile.entry md5 root)

/-- Every `stat` succeeds. -/
def Complete : Listing → Prop
  | nil => True
  | file _ _ _ rest => rest.Complete
  | dir _ sub rest => sub.Complete ∧ rest.Complete
  | other _ rest => rest.Complete
  | missing _ _ => False

/-- The tree without the entries that are missing. -/
def prune : Listing → Listing
  | nil => nil
  | file name size content rest => file name size content rest.prune
  | dir name sub rest => dir name sub.prune rest.prune
  | other name rest => other name rest.prune
  | missing _ rest => rest.prune

/-- How deep calls of `recurse_md5` are nested in that for the directory itself. -/
def depth : Listing → ℕ
  | nil => 0
  | file _ _ _ rest => rest.depth
  | dir _ sub rest => max (sub.depth+1) rest.depth
  | other _ rest => rest.depth
  | missing _ rest => max 1 rest.depth

/-- What the file system returns for the entries of a directory. Nothing is asked about
those that start with a dot. -/
def Entries (fs : FileSystem) : CString → Listing → Prop
  | _, nil => True
  | dirname, file name size content rest =>
    (¬name.Hidden → fs.stat (dirname.join name) = some ⟨.regular,size⟩ ∧
      fs.fopen (dirname.join name) = some ⟨content,false⟩) ∧ Entries fs dirname rest
  | dirname, dir name sub rest =>
    (¬name.Hidden → (∃ size, fs.stat (dirname.join name) = some ⟨.directory,size⟩) ∧
      fs.opendir (dirname.join name) = some sub.names ∧ Entries fs (dirname.join name) sub) ∧
    Entries fs dirname rest
  | dirname, other name rest =>
    (¬name.Hidden → ∃ size, fs.stat (dirname.join name) = some ⟨.other,size⟩) ∧
    Entries fs dirname rest
  | dirname, missing name rest =>
    (¬name.Hidden → fs.stat (dirname.join name) = none ∧
      fs.opendir (dirname.join name) = none) ∧ Entries fs dirname rest

/-- The directory holds this tree. -/
def Holds (fs : FileSystem) (root : CString) (tree : Listing) : Prop :=
  fs.opendir root = some tree.names ∧ Entries fs root tree

/-- The type that `recurse_md5` takes the next entry for, if `stat` fails on it. -/
def nextType (name : CString) (type last : FileType) : FileType := if name.Hidden then last else type

/-- No missing entry is taken for a regular file: none comes after a regular file with only
other missing ones between, and none comes before all other entries where `buf` says by
chance that it is one. Only entries that do not start with a dot count. -/
def Harmless (junk : CString → Stat) : CString → FileType → Listing → Prop
  | _, _, nil => True
  | dirname, last, file name _ _ rest => Harmless junk dirname (nextType name .regular last) rest
  | dirname, last, dir name sub rest =>
    (¬name.Hidden → Harmless junk (dirname.join name) (junk (dirname.join name)).mode sub) ∧
    Harmless junk dirname (nextType name .directory last) rest
  | dirname, last, other name rest => Harmless junk dirname (nextType name .other last) rest
  | dirname, last, missing name rest =>
    (¬name.Hidden → last ≠ .regular) ∧ Harmless junk dirname last rest

/-! ### The tree and its files -/

section Files
variable {md5 : Digest} {root name : CString} {size : ℕ} {content : List UInt8} {rest sub : Listing}

theorem database_file (h : ¬name.Hidden) : (file name size content rest).database md5 root =
    ⟨root.join name,name,(md5 content).1,size,(md5 content).2⟩ :: rest.database md5 root := by
  have hvisible : (⟨[],name,size,content⟩ : TreeFile).Visible := by simpa [TreeFile.Visible] using h
  simp only [database,files,List.filter_cons,hvisible,decide_true,if_true,List.map_cons]
  rfl

theorem database_file_hidden (h : name.Hidden) :
    (file name size content rest).database md5 root = rest.database md5 root := by
  have hhidden : ¬(⟨[],name,size,content⟩ : TreeFile).Visible := by simpa [TreeFile.Visible] using h
  simp only [database,files,List.filter_cons,hhidden,decide_false,Bool.false_eq_true,if_false]

theorem database_dir (h : ¬name.Hidden) : (dir name sub rest).database md5 root =
    sub.database md5 (root.join name) ++ rest.database md5 root := by
  have hfilter : ((sub.files.map (TreeFile.within name)).filter fun f => f.Visible) =
      (sub.files.filter fun f => f.Visible).map (TreeFile.within name) := by
    rw [List.filter_map]
    congr 1
    refine List.filter_congr fun f _ => ?_
    simp [TreeFile.visible_within,h]
  simp only [database,files,List.filter_append,List.map_append,hfilter,List.map_map]
  rfl

theorem database_dir_hidden (h : name.Hidden) :
    (dir name sub rest).database md5 root = rest.database md5 root := by
  have hfilter : ((sub.files.map (TreeFile.within name)).filter fun f => f.Visible) = [] := by
    simp [TreeFile.visible_within,h]
  simp only [database,files,List.filter_append,hfilter,List.nil_append]

@[simp] theorem database_other : (other name rest).database md5 root = rest.database md5 root := rfl

@[simp] theorem database_missing :
    (missing name rest).database md5 root = rest.database md5 root := rfl

theorem files_prune (tree : Listing) : tree.prune.files = tree.files := by
  induction tree with
  | nil => rfl
  | file name size content rest ih => simp [prune,files,ih]
  | dir name sub rest ihsub ih => simp [prune,files,ihsub,ih]
  | other name rest ih => simp [prune,files,ih]
  | missing name rest ih => simp [prune,files,ih]

theorem database_prune (md5 : Digest) (root : CString) (tree : Listing) :
    tree.prune.database md5 root = tree.database md5 root := by
  rw [database,files_prune,database]

theorem complete_prune (tree : Listing) : tree.prune.Complete := by
  induction tree with
  | nil => trivial
  | file name size content rest ih => exact ih
  | dir name sub rest ihsub ih => exact ⟨ihsub,ih⟩
  | other name rest ih => exact ih
  | missing name rest ih => exact ih

theorem depth_prune (tree : Listing) : tree.prune.depth ≤ tree.depth := by
  induction tree with
  | nil => exact le_rfl
  | file name size content rest ih => exact ih
  | dir name sub rest ihsub ih => exact max_le_max (by omega) ih
  | other name rest ih => exact ih
  | missing name rest ih => exact ih.trans (le_max_right 1 _)

theorem Complete.harmless {tree : Listing} (h : tree.Complete) (junk : CString → Stat)
    (dirname : CString) (last : FileType) : tree.Harmless junk dirname last := by
  induction tree generalizing dirname last with
  | nil => trivial
  | file name size content rest ih => exact ih h _ _
  | dir name sub rest ihsub ih => exact ⟨fun _ => ihsub h.1 _ _,ih h.2 _ _⟩
  | other name rest ih => exact ih h _ _
  | missing name rest ih => exact h.elim

end Files
/-! ### What the loop makes of a tree -/

/-- The result of a scan, from a list on: if nothing disturbs it, these entries are
appended; otherwise the program has ended, or there are more of them. -/
structure Scanned (result : Option Scan) (db added : List FileData) (undisturbed : Prop) : Prop where
  appended : undisturbed → result = some (.returned (db ++ added))
  length : ∀ db', result = some (.returned db') → db.length+added.length ≤ db'.length
  exact : ∀ db', result = some (.returned db') → db'.length = db.length+added.length → undisturbed

section Scans
variable {fs : FileSystem} {md5 : Digest} {junk : CString → Stat} {r result : Option Scan}
  {db added added₁ added₂ : List FileData} {p q : Prop}

theorem Scanned.returned (db added : List FileData) :
    Scanned (some (.returned (db ++ added))) db added True where
  appended _ := rfl
  length db' h := by
    simp only [Option.some.injEq,Scan.returned.injEq] at h
    simp [← h]
  exact _ _ _ := trivial

/-- The scan of a subdirectory, and that of the entries after it. -/
theorem Scanned.afterDirectory {k : List FileData → Option Scan} (h₁ : Scanned r db added₁ p)
    (h₂ : ∀ db₁, Scanned (k db₁) db₁ added₂ q) :
    Scanned (afterDirectory k r) db (added₁ ++ added₂) (p ∧ q) := by
  have hsplit : ∀ db', Pingu.afterDirectory k r = some (.returned db') →
      ∃ db₁, r = some (.returned db₁) ∧ k db₁ = some (.returned db') := by
    intro db' hresult
    cases r with
    | none => simp [Pingu.afterDirectory] at hresult
    | some scan =>
      cases scan with
      | exited => simp [Pingu.afterDirectory] at hresult
      | returned db₁ => exact ⟨db₁,rfl,hresult⟩
  refine ⟨fun ⟨hp,hq⟩ => ?_,fun db' hresult => ?_,fun db' hresult hlen => ?_⟩
  · have hsecond := (h₂ (db ++ added₁)).appended hq
    rw [h₁.appended hp,Pingu.afterDirectory,hsecond,List.append_assoc]
  · obtain ⟨db₁,hr,hk⟩ := hsplit db' hresult
    have hfirst := h₁.length db₁ hr
    have hsecond := (h₂ db₁).length db' hk
    rw [List.length_append]
    omega
  · obtain ⟨db₁,hr,hk⟩ := hsplit db' hresult
    have hfirst := h₁.length db₁ hr
    have hsecond := (h₂ db₁).length db' hk
    rw [List.length_append] at hlen
    exact ⟨h₁.exact db₁ hr (by omega),(h₂ db₁).exact db' hk (by omega)⟩

/-- The scan after a file. -/
theorem Scanned.cons {f : FileData} (h : Scanned result (db ++ [f]) added p) :
    Scanned result db (f::added) p := by
  have hlen : (db ++ [f]).length+added.length = db.length+(f::added).length := by
    rw [List.length_append,List.length_singleton,List.length_cons]
    omega
  refine ⟨fun hp => ?_,fun db' hr => hlen ▸ h.length db' hr,fun db' hr heq => ?_⟩
  · rw [h.appended hp,List.append_assoc,List.singleton_append]
  · exact h.exact db' hr (hlen ▸ heq)

theorem Scanned.congr (h : Scanned result db added p) (hpq : p ↔ q) : Scanned result db added q where
  appended hq := h.appended (hpq.mpr hq)
  length := h.length
  exact db' hr hlen := hpq.mp (h.exact db' hr hlen)

/-- A missing entry that is taken for a regular file ends the program or is appended. -/
theorem Scanned.disturbed {f : FileData} (h : Scanned result (db ++ [f]) added p) :
    Scanned result db added False where
  appended hfalse := hfalse.elim
  length db' hr := by
    have hlen := h.length db' hr
    rw [List.length_append,List.length_singleton] at hlen
    omega
  exact db' hr heq := by
    have hlen := h.length db' hr
    rw [List.length_append,List.length_singleton] at hlen
    omega

theorem Scanned.exited : Scanned (some .exited) db added False where
  appended hfalse := hfalse.elim
  length db' hr := by simp at hr
  exact db' hr := by simp at hr

/-- The scan of a directory, from some of its entries on. -/
theorem scanned_entries (tree : Listing) {depth : ℕ} {dirname : CString} {buf : Stat}
    {db : List FileData} (h : tree.Entries fs dirname) (hdepth : tree.depth ≤ depth) :
    Scanned (scanNames fs md5 (recurseMd5 fs md5 junk depth) dirname tree.names buf db)
      db (tree.database md5 dirname) (tree.Harmless junk dirname buf.mode) := by
  induction tree generalizing depth dirname buf db with
  | nil =>
    have hdone := Scanned.returned db []
    rwa [List.append_nil] at hdone
  | file name size content rest ih =>
    obtain ⟨hentry,hrest⟩ := h
    by_cases hhidden : name.Hidden
    · rw [names,scanNames_hidden hhidden,database_file_hidden hhidden,Harmless,nextType,
        if_pos hhidden]
      exact ih hrest hdepth
    · obtain ⟨hstat,hopen⟩ := hentry hhidden
      have hbuf : (fs.stat (dirname.join name)).getD buf = ⟨.regular,size⟩ := by rw [hstat]; rfl
      have hsum : getMd5sumFile fs md5 (dirname.join name) = some (md5 content) := by
        simp [getMd5sumFile,hopen,md5Stream]
      rw [names,scanNames_regular hhidden hbuf rfl,hsum,database_file hhidden,Harmless,nextType,
        if_neg hhidden]
      exact (ih hrest hdepth).cons
  | dir name sub rest ihsub ih =>
    obtain ⟨hentry,hrest⟩ := h
    have hrestDepth : rest.depth ≤ depth := (le_max_right _ _).trans hdepth
    have hsubDepth : sub.depth+1 ≤ depth := (le_max_left _ _).trans hdepth
    by_cases hhidden : name.Hidden
    · have hharmless : (dir name sub rest).Harmless junk dirname buf.mode ↔
          rest.Harmless junk dirname buf.mode := by
        simp [Harmless,nextType,hhidden]
      rw [names,scanNames_hidden hhidden,database_dir_hidden hhidden,hharmless]
      exact ih hrest hrestDepth
    · obtain ⟨⟨size,hstat⟩,hopen,hsub⟩ := hentry hhidden
      have hbuf : (fs.stat (dirname.join name)).getD buf = ⟨.directory,size⟩ := by rw [hstat]; rfl
      have hharmless : (dir name sub rest).Harmless junk dirname buf.mode ↔
          sub.Harmless junk (dirname.join name) (junk (dirname.join name)).mode ∧
            rest.Harmless junk dirname .directory := by
        simp [Harmless,nextType,hhidden]
      obtain ⟨depth,rfl⟩ : ∃ d, depth = d+1 := ⟨depth-1,by omega⟩
      rw [names,scanNames_directory hhidden hbuf rfl,recurseMd5_directory hopen,
        database_dir hhidden,hharmless]
      exact (ihsub hsub (by omega)).afterDirectory fun db₁ => ih hrest hrestDepth
  | other name rest ih =>
    obtain ⟨hentry,hrest⟩ := h
    by_cases hhidden : name.Hidden
    · rw [names,scanNames_hidden hhidden,database_other,Harmless,nextType,if_pos hhidden]
      exact ih hrest hdepth
    · obtain ⟨size,hstat⟩ := hentry hhidden
      have hbuf : (fs.stat (dirname.join name)).getD buf = ⟨.other,size⟩ := by rw [hstat]; rfl
      rw [names,scanNames_other hhidden hbuf rfl,database_other,Harmless,nextType,if_neg hhidden]
      exact ih hrest hdepth
  | missing name rest ih =>
    obtain ⟨hentry,hrest⟩ := h
    have hrestDepth : rest.depth ≤ depth := (le_max_right _ _).trans hdepth
    rw [names,database_missing,Harmless]
    by_cases hhidden : name.Hidden
    · rw [scanNames_hidden hhidden]
      exact (ih hrest hrestDepth).congr (by simp [hhidden])
    · obtain ⟨hstat,hopen⟩ := hentry hhidden
      have hbuf : (fs.stat (dirname.join name)).getD buf = buf := by rw [hstat]; rfl
      cases hmode : buf.mode with
      | directory =>
        -- it is taken for a directory, which cannot be opened
        have hone : 1 ≤ depth := (le_max_left 1 _).trans hdepth
        obtain ⟨depth,rfl⟩ : ∃ d, depth = d+1 := ⟨depth-1,by omega⟩
        rw [scanNames_directory hhidden hbuf hmode,recurseMd5_noDirectory hopen,← hmode]
        exact (ih hrest hrestDepth).congr (by simp [hmode])
      | regular =>
        have hfalse : False ↔ (¬name.Hidden → FileType.regular ≠ .regular) ∧
            rest.Harmless junk dirname .regular := by
          simp [hhidden]
        rw [scanNames_regular hhidden hbuf hmode]
        cases getMd5sumFile fs md5 (dirname.join name) with
        | none => exact Scanned.exited.congr hfalse
        | some foo => exact (ih hrest hrestDepth).disturbed.congr hfalse
      | other =>
        rw [scanNames_other hhidden hbuf hmode,← hmode]
        exact (ih hrest hrestDepth).congr (by simp [hmode])

/-- The scan of a directory from any list on. -/
theorem scanned_recurse {tree : Listing} {root : CString} (h : tree.Holds fs root) {depth : ℕ}
    (hdepth : tree.depth < depth) (db : List FileData) :
    Scanned (recurseMd5 fs md5 junk depth root db) db (tree.database md5 root)
      (tree.Harmless junk root (junk root).mode) := by
  obtain ⟨hopen,hentries⟩ := h
  obtain ⟨depth,rfl⟩ : ∃ d, depth = d+1 := ⟨depth-1,by omega⟩
  rw [recurseMd5_directory hopen]
  exact scanned_entries tree hentries (Nat.lt_succ_iff.mp hdepth)

end Scans

section Directories
variable {fs fs' : FileSystem} {md5 : Digest} {junk junk' : CString → Stat} {root : CString}
  {tree : Listing}

/-- A scan of a directory in which every entry can be read appends the visible files. -/
theorem scan_finds_files (h : tree.Holds fs root) (hcomplete : tree.Complete) (depth : ℕ)
    (hdepth : tree.depth < depth) (db : List FileData) :
    recurseMd5 fs md5 junk depth root db = some (.returned (db ++ tree.database md5 root)) :=
  (scanned_recurse h hdepth db).appended (hcomplete.harmless junk root _)

/-- Entries that are missing do not show in the scan of a directory if and only if none of
them is taken for a regular file. -/
theorem scan_ignores_missing_iff (h : tree.Holds fs root) (h' : tree.prune.Holds fs' root)
    (depth : ℕ) (hdepth : tree.depth < depth) (db : List FileData) :
    (∃ db', recurseMd5 fs md5 junk depth root db = some (.returned db') ∧
      recurseMd5 fs' md5 junk' depth root db = some (.returned db')) ↔
      tree.Harmless junk root (junk root).mode := by
  have hscan : Scanned (recurseMd5 fs md5 junk depth root db) db _ _ := scanned_recurse h hdepth db
  have hpruned : recurseMd5 fs' md5 junk' depth root db =
      some (.returned (db ++ tree.database md5 root)) := by
    have hscan' : Scanned (recurseMd5 fs' md5 junk' depth root db) db _ _ :=
      scanned_recurse h' ((depth_prune tree).trans_lt hdepth) db
    rw [hscan'.appended ((complete_prune tree).harmless junk' root _),database_prune]
  constructor
  · rintro ⟨db',hdb,hdb'⟩
    rw [hpruned,Option.some.injEq,Scan.returned.injEq] at hdb'
    exact hscan.exact db' hdb (by rw [← hdb',List.length_append])
  · intro hharmless
    exact ⟨_,hscan.appended hharmless,hpruned⟩

/-- After an update of the directory the database holds its visible files, whatever it held
before. -/
theorem createFilenametomd5_database (h : tree.Holds fs root) (hcomplete : tree.Complete)
    {depth : ℕ} (hdepth : tree.depth < depth) {mtime : ℤ} {db : FileDb}
    (hmtime : mtime ≠ db.lastupdate) : createFilenametomd5 fs md5 junk depth root mtime db =
      some (some ⟨mtime,tree.database md5 root⟩) := by
  have hscan : Scanned (recurseMd5 fs md5 junk depth root []) [] _ _ := scanned_recurse h hdepth []
  simp [createFilenametomd5,hmtime,hscan.appended (hcomplete.harmless junk root _)]

end Directories
end Listing

/-- The directory `d` holds the regular file `d/a`; `readdir` gives these names. -/
def share (names : List CString) : FileSystem where
  stat path := if path.bytes = [0x64,0x2F,0x61] then some ⟨.regular,3⟩ else none
  opendir path := if path.bytes = [0x64] then some names else none
  fopen path := if path.bytes = [0x64,0x2F,0x61] then some ⟨[1,2,3],false⟩ else none

/-- A stand-in for MD5. -/
def zeroDigest : Digest := fun _ => ⟨List.replicate 16 0,rfl⟩

def fileA : CString := ⟨[0x61],by decide⟩

def linkB : CString := ⟨[0x62],by decide⟩

def rootD : CString := ⟨[0x64],by decide⟩

/-- The regular file alone. -/
def single : Listing := .file fileA 3 [1,2,3] .nil

theorem holds_single : single.Holds (share [fileA]) rootD := ⟨rfl,fun _ => ⟨rfl,rfl⟩,trivial⟩

def hiddenA : CString := ⟨[0x2E,0x61],by decide⟩

def dirC : CString := ⟨[0x63],by decide⟩

/-- The directory `d` holds the file `.a`, the directory `c` with another file `a`, and the
file `a`. -/
def nestedShare : FileSystem where
  stat path :=
    if path.bytes = [0x64,0x2F,0x63] then some ⟨.directory,0⟩
    else if path.bytes = [0x64,0x2F,0x63,0x2F,0x61] then some ⟨.regular,2⟩
    else if path.bytes = [0x64,0x2F,0x61] then some ⟨.regular,3⟩
    else none
  opendir path :=
    if path.bytes = [0x64] then some [hiddenA,dirC,fileA]
    else if path.bytes = [0x64,0x2F,0x63] then some [fileA]
    else none
  fopen path :=
    if path.bytes = [0x64,0x2F,0x63,0x2F,0x61] then some ⟨[4,5],false⟩
    else if path.bytes = [0x64,0x2F,0x61] then some ⟨[1,2,3],false⟩
    else none

def nested : Listing := .file hiddenA 0 [] (.dir dirC (.file fileA 2 [4,5] .nil) single)

theorem holds_nested : nested.Holds nestedShare rootD := by
  refine ⟨rfl,fun h => absurd (by decide) h,fun _ => ⟨⟨0,rfl⟩,rfl,?_⟩,fun _ => ⟨rfl,rfl⟩,trivial⟩
  exact ⟨fun _ => ⟨rfl,rfl⟩,trivial⟩

/-- The file behind the subdirectory is looked for in `d` again, and the hidden one nowhere. -/
theorem scan_finds_files_nested :
    recurseMd5 nestedShare zeroDigest (fun _ => ⟨.other,0⟩) 2 rootD [] =
      some (.returned (nested.database zeroDigest rootD)) ∧
    (nested.database zeroDigest rootD).map (fun f => (f.fullfilename.bytes,f.filesize)) =
      [([0x64,0x2F,0x63,0x2F,0x61],2),([0x64,0x2F,0x61],3)] := by
  refine ⟨Listing.scan_finds_files holds_nested ?_ 2 (by decide) [],by decide⟩
  exact ⟨trivial,trivial⟩

/-- A link to nowhere before the file. -/
theorem scan_ignores_missing_first : ∃ db',
    recurseMd5 (share [linkB,fileA]) zeroDigest (fun _ => ⟨.other,0⟩) 2 rootD [] =
      some (.returned db') ∧
    recurseMd5 (share [fileA]) zeroDigest (fun _ => ⟨.other,0⟩) 2 rootD [] =
      some (.returned db') := by
  have h : (Listing.missing linkB single).Holds (share [linkB,fileA]) rootD :=
    ⟨rfl,fun _ => ⟨rfl,rfl⟩,fun _ => ⟨rfl,rfl⟩,trivial⟩
  refine (Listing.scan_ignores_missing_iff h holds_single 2 (by decide) []).mpr ?_
  exact ⟨fun _ => by decide,trivial⟩

/-- A link to nowhere after it ends the program. -/
theorem scan_exits : ¬∀ (fs fs' : FileSystem) (md5 : Digest) (junk junk' : CString → Stat)
    (root : CString) (tree : Listing), tree.Holds fs root → tree.prune.Holds fs' root →
    ∃ depth db', recurseMd5 fs md5 junk depth root [] = some (.returned db') ∧
      recurseMd5 fs' md5 junk' depth root [] = some (.returned db') := by
  intro h
  have hlast : (Listing.file fileA 3 [1,2,3] (.missing linkB .nil)).Holds (share [fileA,linkB])
      rootD := ⟨rfl,fun _ => ⟨rfl,rfl⟩,fun _ => ⟨rfl,rfl⟩,trivial⟩
  obtain ⟨depth,db',hdb,-⟩ := h (share [fileA,linkB]) (share [fileA]) zeroDigest
    (fun _ => ⟨.other,0⟩) (fun _ => ⟨.other,0⟩) rootD _ hlast holds_single
  cases depth with
  | zero => simp [recurseMd5] at hdb
  | succ depth =>
    have hexit : recurseMd5 (share [fileA,linkB]) zeroDigest (fun _ => ⟨.other,0⟩) (depth+1) rootD [] =
        some .exited := rfl
    simp [hexit] at hdb

end Pingu
end MiscUniStuff
