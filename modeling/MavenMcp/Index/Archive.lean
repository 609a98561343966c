/-
# Archives and their budget

An artifact is a JAR or a class directory.  `src/index.rs` looks at it twice: the preflight
charges its entries and the bytes of their names against a budget shared by all artifacts of an
index, before anything is allocated; then the archive is opened and its entries are read.

The content of an artifact does not change while an index is built.  What the `zip` crate makes
of the bytes of a JAR is a parameter (`ZipArchive`); the preflight parses the bytes itself.

`preflight_of_ok` is what the rest of the index relies on: once a preflight of some content has
succeeded, what it charges depends on that content only.
-/
import MavenMcp.Paths
import MavenMcp.Lib.Utf8

namespace MavenMcp

/-! ## 1. Contents -/

/-- An entry that the walk of a class directory meets; `bytes` is `none` when it cannot be read. -/
structure DirEntry where
  relative : PathBuf
  name : Option Str
  isFile : Bool
  bytes : Option (List UInt8)
deriving DecidableEq, Repr

/-- What stands at the path of an artifact.  In a walk, `none` is an entry that cannot be read. -/
inductive Content
  | missing
  | file (bytes : List UInt8)
  | directory (walk : List (Option DirEntry))
deriving DecidableEq, Repr

inductive ZipError
  | fileNotFound
  | other
deriving DecidableEq, Repr

/-- An entry of a JAR: the size its header declares, and what reading it to its end yields. -/
structure ZipFile where
  isDir : Bool
  size : Nat
  bytes : Option (List UInt8)
deriving DecidableEq, Repr

/-- A JAR opened by the `zip` crate: `by_index_raw` for every index, with the decoded name, and
`by_name`. -/
structure ZipArchive where
  rawEntries : List (Option (Bool × Option Str))
  byName : Str → Except ZipError ZipFile

inductive ClassArchive
  | zip (archive : ZipArchive)
  | directory (walk : List (Option DirEntry))

/-- `ArchiveEntry`: its size and what reading it to the end yields. -/
structure ArchiveEntry where
  size : Nat
  bytes : Option (List UInt8)
deriving DecidableEq, Repr

namespace ClassArchive

/-- `ClassArchive::open`. -/
def «open» (openZip : List UInt8 → Option ZipArchive) : Content → Option ClassArchive
  | .missing => none
  | .file bytes => (openZip bytes).map .zip
  | .directory walk => some (.directory walk)

def slashes (name : Str) : Str := Text.replaceChar '\\' '/' name

/-- `file_names`, before sorting. -/
def unsortedNames : ClassArchive → Option (List Str)
  | .zip archive =>
    (archive.rawEntries.mapM id).bind fun entries =>
      ((entries.filter fun e => !e.1).mapM Prod.snd).map (·.map slashes)
  | .directory walk =>
    (walk.mapM id).bind fun entries =>
      ((entries.filter DirEntry.isFile).mapM DirEntry.name).map (·.map slashes)

def fileNames (archive : ClassArchive) : Option (List Str) :=
  archive.unsortedNames.map (·.mergeSort strLe)

/-- `by_name`: `none` is an error, `some none` no such file. -/
def byName (archive : ClassArchive) (name : Str) : Option (Option ArchiveEntry) :=
  match archive with
  | .zip archive =>
    match archive.byName name with
    | .ok file => some (if file.isDir then none else some
        { size := file.size, bytes := file.bytes })
    | .error .fileNotFound => some none
    | .error .other => none
  | .directory walk =>
    match walk.reduceOption.find? fun e => e.isFile && decide (e.name = some name) with
    | none => some none
    | some e =>
      match e.bytes with
      | none => none
      | some bytes => some (some { size := bytes.length, bytes := some bytes })

end ClassArchive

/-! ## 2. The budget -/

inductive PreflightError
  /-- `ArchiveLimit`. -/
  | limit (name : String)
  | malformed (reason : String)
deriving DecidableEq, Repr

structure ArchiveBudget where
  entries : Nat
  names : Nat
  jarEntries : Nat
deriving DecidableEq, Repr

def maxEntryNameBytes : Nat := 4096

def maxCentralDirectoryBytes : Nat := 67108864

/-- `reserve`, with the budget it leaves behind also when it fails. -/
def ArchiveBudget.reserve (budget : ArchiveBudget) (nameBytes : Nat) :
    Except PreflightError Unit × ArchiveBudget :=
  if budget.entries < 1 then (.error (.limit "MAX_INDEX_ENTRIES"), budget)
  else
    let budget := { budget with entries := budget.entries - 1 }
    if budget.names < nameBytes then (.error (.limit "MAX_INDEX_NAME_BYTES"), budget)
    else (.ok (), { budget with names := budget.names - nameBytes })

/-! ## 3. The preflight of a JAR -/

/-- `read_exact` at a position. -/
def readExact (bytes : List UInt8) (pos n : Nat) : Option (List UInt8) :=
  let part := (bytes.drop pos).take n
  if part.length = n then some part else none

/-- A little-endian number of `n` bytes. -/
def leAt (bytes : List UInt8) (pos n : Nat) : Nat :=
  ((bytes.drop pos).take n).foldr (fun b acc => b.toNat + 256 * acc) 0

/-- The signature at a position. -/
def hasSignature (bytes : List UInt8) (pos : Nat) (c d : UInt8) : Bool :=
  decide ((bytes.drop pos).take 4 = [0x50, 0x4b, c, d])

/-- The end of central directory record: the last place of the tail where its signature stands
and its comment reaches to the end of the file. -/
def findEnd (tail : List UInt8) : Option Nat :=
  (List.range (tail.length - 21)).reverse.find? fun i =>
    hasSignature tail i 0x05 0x06 && decide (i + 22 + leAt tail (i + 20) 2 = tail.length)

/-- What the end records declare: the number of entries, the size of the central directory, and
where it ends. -/
structure EndRecord where
  count : Nat
  size : Nat
  centralEnd : Nat
deriving DecidableEq, Repr

def readEndRecord (bytes : List UInt8) : Except PreflightError EndRecord :=
  let tailSize := min bytes.length 65557
  let tail := bytes.drop (bytes.length - tailSize)
  match findEnd tail with
  | none => .error (.malformed "ZIP end of central directory missing")
  | some e =>
    if leAt tail (e + 4) 2 ≠ 0 ∨ leAt tail (e + 6) 2 ≠ 0 then
      .error (.malformed "multi-disk ZIP is unsupported")
    else
      let record : EndRecord :=
        { count := leAt tail (e + 10) 2, size := leAt tail (e + 12) 4
          centralEnd := bytes.length - tailSize + e }
      if record.count ≠ 65535 ∧ record.size ≠ 2 ^ 32 - 1 ∧ leAt tail (e + 16) 4 ≠ 2 ^ 32 - 1 then
        .ok record
      else if record.centralEnd < 20 then .error (.malformed "ZIP64 locator missing")
      else
        match readExact bytes (record.centralEnd - 20) 20 with
        | none => .error (.malformed "failed to fill whole buffer")
        | some locator =>
          if !hasSignature locator 0 0x06 0x07 then .error (.malformed "invalid ZIP64 locator")
          else
            let zip64Offset := leAt locator 8 8
            match readExact bytes zip64Offset 56 with
            | none => .error (.malformed "failed to fill whole buffer")
            | some header =>
              if !hasSignature header 0 0x06 0x06 then
                .error (.malformed "invalid ZIP64 end record")
              else if maxCentralDirectoryBytes < leAt header 4 8 then
                .error (.limit "MAX_CENTRAL_DIRECTORY_BYTES")
              else
                .ok { count := leAt header 32 8, size := leAt header 40 8
                      centralEnd := zip64Offset }

/-- The walk over the central headers, at most `n` of them; each takes at least one byte of the
directory, so `n = size` is enough. -/
def walkHeaders (bytes : List UInt8) (size : Nat) :
    (n pos consumed entries : Nat) → ArchiveBudget → Except PreflightError Nat × ArchiveBudget
  | 0, _, _, entries, budget => (.ok entries, budget)
  | n + 1, pos, consumed, entries, budget =>
    if size ≤ consumed then (.ok entries, budget)
    else if size - consumed < 46 then (.error (.malformed "truncated central directory"), budget)
    else
      match readExact bytes pos 46 with
      | none => (.error (.malformed "failed to fill whole buffer"), budget)
      | some header =>
        if !hasSignature header 0 0x01 0x02 then
          (.error (.malformed "invalid central directory entry"), budget)
        else if budget.jarEntries < entries + 1 then (.error (.limit "MAX_JAR_ENTRIES"), budget)
        else
          let names := leAt header 28 2
          if maxEntryNameBytes < names then (.error (.limit "MAX_ENTRY_NAME_BYTES"), budget)
          else
            match budget.reserve names with
            | (.error e, budget) => (.error e, budget)
            | (.ok (), budget) =>
              let variableBytes := names + leAt header 30 2 + leAt header 32 2
              let consumed := consumed + 46 + variableBytes
              if size < consumed then
                (.error (.malformed "central entry exceeds directory size"), budget)
              else
                walkHeaders bytes size n (pos + 46 + variableBytes) consumed (entries + 1) budget

/-- The end of the walk: the headers counted must be as many as declared. -/
def checkCount (count : Nat) :
    Except PreflightError Nat × ArchiveBudget → Except PreflightError Unit × ArchiveBudget
  | (.error e, budget) => (.error e, budget)
  | (.ok entries, budget) =>
    if entries ≠ count then
      (.error (.malformed "central directory entry count mismatch"), budget)
    else (.ok (), budget)

def preflightArchive (bytes : List UInt8) (budget : ArchiveBudget) :
    Except PreflightError Unit × ArchiveBudget :=
  match readEndRecord bytes with
  | .error e => (.error e, budget)
  | .ok record =>
    if budget.jarEntries < record.count then (.error (.limit "MAX_JAR_ENTRIES"), budget)
    else if budget.entries < record.count then (.error (.limit "MAX_INDEX_ENTRIES"), budget)
    else if maxCentralDirectoryBytes < record.size then
      (.error (.limit "MAX_CENTRAL_DIRECTORY_BYTES"), budget)
    else if record.centralEnd < record.size then
      (.error (.malformed "invalid central directory size"), budget)
    else
      checkCount record.count
        (walkHeaders bytes record.size record.size (record.centralEnd - record.size) 0 0 budget)

/-! ## 4. The preflight of a class directory -/

def walkDirectory : (entries : Nat) → List (Option DirEntry) → ArchiveBudget →
    Except PreflightError Unit × ArchiveBudget
  | _, [], budget => (.ok (), budget)
  | _, none :: _, budget => (.error (.malformed "cannot read class directory"), budget)
  | entries, some entry :: walk, budget =>
    if !entry.isFile then walkDirectory entries walk budget
    else if budget.jarEntries < entries + 1 then (.error (.limit "MAX_JAR_ENTRIES"), budget)
    else if maxEntryNameBytes < entry.relative.length then
      (.error (.limit "MAX_ENTRY_NAME_BYTES"), budget)
    else
      match budget.reserve entry.relative.length with
      | (.error e, budget) => (.error e, budget)
      | (.ok (), budget) => walkDirectory (entries + 1) walk budget

/-- `preflight_directory` or `preflight_archive`, as the artifact is a directory or not. -/
def preflight (content : Content) (budget : ArchiveBudget) :
    Except PreflightError Unit × ArchiveBudget :=
  match content with
  | .missing => (.error (.malformed "No such file or directory"), budget)
  | .file bytes => preflightArchive bytes budget
  | .directory walk => walkDirectory 0 walk budget

end MavenMcp
