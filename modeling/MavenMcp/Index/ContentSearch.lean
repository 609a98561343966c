/-
# Searches in the contents of JARs

`search_source` reads the sources of the selected sources JARs, `search_jar_content` the text
resources of the selected binary JARs.  Both read up to limits on each entry and on all entries
together, and stop at the limit on their results; the answer says `incomplete` where something was
left out.

* `scanSourceJar_covers`, `scanBinaryJar_covers`: an answer that is not `incomplete` has all finds
  of all recorded entries, each read to its end.
* `recorded_perm`: the recorded entries are those of the archive, if no two names of its entries
  differ in the direction of slashes only; the second of such entries is never read.
* `search_exhaustive`: so such an answer is exhaustive, but for a blank query for contents, which is
  answered without a search.

Cancellation is left out.
-/
import MavenMcp.Index.ClassTools
import MavenMcp.Index.Descendants
import MavenMcp.Index.Sources
import MavenMcp.Index.Truncation
import MavenMcp.Lib.Safe
import MavenMcp.Lib.Search
import Mathlib.Data.List.ReduceOption

namespace MavenMcp
namespace Index

open Text

/-! ## 1. Reading -/

def usizeMax : Nat := 2 ^ 64 - 1

/-- `isize::MAX`. -/
def maxVecBytes : Nat := 2 ^ 63 - 1

def saturatingAdd (a b : Nat) : Nat := min (a + b) usizeMax

def saturatingMul (a b : Nat) : Nat := min (a * b) usizeMax

/-- What the searches ask of files, patterns and letters. -/
structure SearchEnv where
  openZip : List UInt8 → Option ZipArchive
  content : PathBuf → Content
  /-- Where reading an entry fails, the bytes in front of that. -/
  beforeFailure : PathBuf → Str → List UInt8
  lowercase : Str → Str
  /-- `Regex::new` and `is_match`. -/
  compile : Str → Option (Str → Bool)

inductive SearchError
  /-- `source query must not be empty` -/
  | emptyQuery
  | pattern
  /-- An archive or an entry that cannot be opened or read. -/
  | unreadable
  /-- `indexed entry … is no longer present` -/
  | absent (entry : Str)
deriving DecidableEq, Repr

namespace SearchEnv

variable (env : SearchEnv)

/-- `ZipArchive::new(File::open(path)?)?`. -/
def openSource (path : PathBuf) : Option ZipArchive :=
  match env.content path with
  | .file bytes => env.openZip bytes
  | _ => none

def openArchive (path : PathBuf) : Option ClassArchive :=
  ClassArchive.open env.openZip (env.content path)

/-- `take(n)` and `read_to_end`: an entry may fail behind what is read of it, and no vector is
longer than `maxVecBytes`. -/
def readUpTo (path : PathBuf) (entry : Str) (file : ZipFile) (n : Nat) : Option (List UInt8) :=
  let front :=
    match file.bytes with
    | some bytes => some (bytes.take n)
    | none =>
      let bytes := env.beforeFailure path entry
      if n ≤ bytes.length then some (bytes.take n) else none
  front.filter fun bytes => bytes.length ≤ maxVecBytes

end SearchEnv

/-- The answer of a search, and the state of its loops. -/
structure Found (M : Type) where
  results : List M
  incomplete : Bool
  scannedBytes : Nat
deriving DecidableEq, Repr

variable {M : Type}

def Found.empty : Found M := { results := [], incomplete := false, scannedBytes := 0 }

/-- One more result; at the limit the search stops. -/
def Found.push (limit : Nat) (m : M) (s : Found M) : Search.Outcome SearchError (Found M) :=
  let results := s.results ++ [m]
  if results.length = limit then .stop { s with results, incomplete := true }
  else .next { s with results }

/-- The limits of one search: on an entry, on all entries, on the results. -/
structure SearchLimits where
  maxSourceBytes : Nat
  totalBudget : Nat
  limit : Nat

def MavenIndex.searchLimits (index : MavenIndex) (requested : Option Nat) : SearchLimits :=
  { maxSourceBytes := index.maxSourceBytes
    totalBudget := saturatingMul index.maxSourceBytes index.maxResults
    limit := index.limit requested }

/-! ## 2. Sources -/

/-- A matching line; the JAR by its position. -/
structure SourceMatch where
  sourceJar : Nat
  entry : Str
  line : Nat
  context : Str
  truncated : Bool
deriving DecidableEq, Repr

def isSourceEntry (entry : Str) : Bool :=
  endsWith ".java".toList entry || endsWith ".kt".toList entry

/-- `source_matches_selector`. -/
def MavenIndex.sourceMatchesSelector (index : MavenIndex) (sourceIndex : Nat)
    (sourceJar : JarRecord)
    (selector : Option Str) : Bool :=
  selector.all fun selector =>
    matchesSelector sourceJar selector ||
      index.jars.any fun jar =>
        decide (jar.key = sourceJar.key) && !jar.isSource && matchesSelector jar selector &&
          decide (index.sourceJarOf jar = some sourceIndex)

def MavenIndex.selectedSources (index : MavenIndex) (selector : Option Str) :
    List (JarRecord × Nat) :=
  index.jars.zipIdx.filter fun (jar, sourceIndex) =>
    jar.isSource && index.sourceMatchesSelector sourceIndex jar selector

/-- The lines around the line at an index. -/
def contextOf (lines : List Str) (contextLines lineIndex : Nat) : Str :=
  let start := lineIndex - contextLines
  let stop := min (lineIndex + contextLines + 1) lines.length
  ['\n'].intercalate ((lines.drop start).take (stop - start))

/-- What a search for sources looks for. -/
structure SourceQuery where
  matched : Str → Bool
  contextLines : Nat

def scanLine (limits : SearchLimits) (query : SourceQuery) (sourceJar : Nat) (entry : Str)
    (lines : List Str) (truncated : Bool) (line : Str × Nat) (s : Found SourceMatch) :
    Search.Outcome SearchError (Found SourceMatch) :=
  if !query.matched line.1 then .next s
  else
    s.push limits.limit
      { sourceJar, entry, line := line.2 + 1
        context := contextOf lines query.contextLines line.2, truncated }

/-- The bytes of an entry that are searched, when the limit cuts it off. -/
def cutOff (maxSourceBytes : Nat) (bytes : List UInt8) : List UInt8 :=
  let front := bytes.take maxSourceBytes
  -- the loop of `complete_utf8_prefix_len` always answers
  front.take ((completeUtf8PrefixLen front).getD 0)

def scanText (limits : SearchLimits) (query : SourceQuery) (sourceJar : Nat) (entry : Str)
    (truncated : Bool) (bytes : List UInt8) (s : Found SourceMatch) :
    Search.Outcome SearchError (Found SourceMatch) :=
  let lines := lines (Utf8.decodeLossy bytes)
  Search.loop (scanLine limits query sourceJar entry lines truncated) lines.zipIdx
    { s with scannedBytes := saturatingAdd s.scannedBytes bytes.length }

def scanSourceEntry (env : SearchEnv) (limits : SearchLimits) (query : SourceQuery) (path : PathBuf)
    (sourceJar : Nat) (archive : ZipArchive) (entry : Str) (s : Found SourceMatch) :
    Search.Outcome SearchError (Found SourceMatch) :=
  match archive.byName entry with
  | .error _ => .failed .unreadable
  | .ok file =>
    let declaredSize := min file.size usizeMax
    if limits.totalBudget < saturatingAdd s.scannedBytes declaredSize then
      .stop { s with incomplete := true }
    else
      match env.readUpTo path entry file (saturatingAdd limits.maxSourceBytes 1) with
      | none => .failed .unreadable
      | some bytes =>
        if limits.maxSourceBytes < bytes.length then
          scanText limits query sourceJar entry true (cutOff limits.maxSourceBytes bytes)
            { s with incomplete := true }
        else scanText limits query sourceJar entry false bytes s

def scanSourceJar (env : SearchEnv) (limits : SearchLimits) (query : SourceQuery)
    (source : JarRecord × Nat) (s : Found SourceMatch) :
    Search.Outcome SearchError (Found SourceMatch) :=
  match env.openSource source.1.path with
  | none => .failed .unreadable
  | some archive =>
    Search.loop (scanSourceEntry env limits query source.1.path source.2 archive)
      (source.1.entries.filter isSourceEntry) s

/-- The lines that a query matches: a text, or a regular expression. -/
def linePattern (env : SearchEnv) (query : Str) (regex : Bool) : Option (Str → Bool) :=
  if regex then env.compile query else some (contains query)

/-- `search_source`. -/
def MavenIndex.searchSource (env : SearchEnv) (index : MavenIndex) (query : Str) (regex : Bool)
    (selector : Option Str) (contextLines : Nat) (limit : Option Nat) :
    Except SearchError (Found SourceMatch) :=
  if trim query = [] then .error .emptyQuery
  else
    match linePattern env (trim query) regex with
    | none => .error .pattern
    | some matched =>
      (Search.loop
        (scanSourceJar env (index.searchLimits limit)
          { matched, contextLines := min contextLines 10 })
        (index.selectedSources selector) Found.empty).final

/-! ## 3. Text resources -/

structure JarContentMatch where
  jar : Nat
  entry : Str
  line : Nat
  context : Str
deriving DecidableEq, Repr

/-- `is_text_resource`. -/
def isTextResource (entry : Str) : Bool :=
  if entry = "META-INF/MANIFEST.MF".toList ∨ startsWith "META-INF/services/".toList entry then true
  else
    match rsplitOnceStr ['.'] entry with
    | none => false
    | some (_, extension) =>
      ["conf", "config", "factories", "imports", "json", "list", "properties", "txt", "xml", "yaml",
        "yml"].any fun e => decide (e.toList = extension)

/-- `matching_context`: the number and the front of the first matching line. -/
def matchingContext (lowercase : Str → Str) (text query : Str) : Option (Nat × Str) :=
  ((lines text).zipIdx.find? fun line => contains query (lowercase line.1)).map fun line =>
    (line.2 + 1, line.1.take 240)

def MavenIndex.selectedBinaries (index : MavenIndex) (selector : Option Str) :
    List (JarRecord × Nat) :=
  index.jars.zipIdx.filter fun (jar, _) => selector.all (matchesSelector jar) && !jar.isSource

def scanResource (env : SearchEnv) (limits : SearchLimits) (query : Str) (jar : Nat)
    (archive : ClassArchive) (entryPath : Str) (s : Found JarContentMatch) :
    Search.Outcome SearchError (Found JarContentMatch) :=
  match archive.byName entryPath with
  | none => .failed .unreadable
  | some none => .failed (.absent entryPath)
  | some (some entry) =>
    let declaredSize := min entry.size usizeMax
    if limits.totalBudget < saturatingAdd s.scannedBytes declaredSize then
      .stop { s with incomplete := true }
    else if limits.maxSourceBytes < declaredSize then .next { s with incomplete := true }
    else
      match entry.bytes with
      | none => .failed .unreadable
      | some bytes =>
        let s := { s with scannedBytes := saturatingAdd s.scannedBytes bytes.length }
        match (Utf8.decode bytes).bind fun text => matchingContext env.lowercase text query with
        | none => .next s
        | some (line, context) => s.push limits.limit { jar, entry := entryPath, line, context }

def scanBinaryJar (env : SearchEnv) (limits : SearchLimits) (query : Str) (jar : JarRecord × Nat)
    (s : Found JarContentMatch) : Search.Outcome SearchError (Found JarContentMatch) :=
  match env.openArchive jar.1.path with
  | none => .failed .unreadable
  | some archive =>
    Search.loop (scanResource env limits query jar.2 archive)
      (jar.1.entries.filter isTextResource) s

/-- `search_jar_content`. -/
def MavenIndex.searchJarContent (env : SearchEnv) (index : MavenIndex) (query : Str)
    (selector : Option Str) (limit : Option Nat) : Except SearchError (Found JarContentMatch) :=
  let query := env.lowercase (trim query)
  if query = [] then .ok Found.empty
  else
    (Search.loop (scanBinaryJar env (index.searchLimits limit) query)
      (index.selectedBinaries selector) Found.empty).final

/-! ## 4. Answers that are complete -/

theorem Found.push_covers (limit : Nat) (m : M) :
    Search.Covers Found.incomplete Found.results (Found.push limit m) [m] True := by
  intro s t ht hflag
  simp only [Found.push] at ht ⊢
  split at ht
  · cases ht
    cases hflag
  · rename_i hlimit
    cases ht
    rw [if_neg hlimit]
    exact ⟨rfl, hflag, rfl, trivial⟩

theorem next_covers : Search.Covers Found.incomplete Found.results
    (fun s : Found M => (.next s : Search.Outcome SearchError (Found M))) [] True := by
  intro s t ht hflag
  cases ht
  exact ⟨rfl, hflag, (List.append_nil _).symm, trivial⟩

theorem flatMap_ite {α β : Type} (p : α → Bool) (f : α → β) (l : List α) :
    (l.flatMap fun a => if p a then [f a] else []) = (l.filter p).map f := by
  induction l with
  | nil => rfl
  | cons a l ih =>
    rw [List.flatMap_cons, ih, List.filter_cons]
    split
    · rfl
    · rfl

/-- What reading an entry to its end yields. -/
def wholeBytes (archive : ZipArchive) (entry : Str) : Option (List UInt8) :=
  match archive.byName entry with
  | .ok file => file.bytes
  | .error _ => none

/-- The content of a source. -/
def SearchEnv.sourceBytes (env : SearchEnv) (path : PathBuf) (entry : Str) : List UInt8 :=
  ((env.openSource path).bind fun archive => wholeBytes archive entry).getD []

/-- The matching lines of a source. -/
def sourceHits (query : SourceQuery) (sourceJar : Nat) (entry : Str) (truncated : Bool)
    (bytes : List UInt8) : List SourceMatch :=
  let lines := lines (Utf8.decodeLossy bytes)
  (lines.zipIdx.filter fun line => query.matched line.1).map fun line =>
    { sourceJar, entry, line := line.2 + 1
      context := contextOf lines query.contextLines line.2, truncated }

theorem scanText_covers (limits : SearchLimits) (query : SourceQuery) (sourceJar : Nat)
    (entry : Str)
    (truncated : Bool) (bytes : List UInt8) :
    Search.Covers Found.incomplete Found.results
      (scanText limits query sourceJar entry truncated bytes)
      (sourceHits query sourceJar entry truncated bytes) True := by
  have hline (lines : List Str) (line : Str × Nat) :
      Search.Covers Found.incomplete Found.results
        (scanLine limits query sourceJar entry lines truncated line)
        (if query.matched line.1 then
          [{ sourceJar, entry, line := line.2 + 1
             context := contextOf lines query.contextLines line.2, truncated }]
        else []) True := by
    unfold scanLine
    by_cases hmatched : query.matched line.1 = true
    · simp only [hmatched, Bool.not_true, Bool.false_eq_true, if_false, if_true]
      exact Found.push_covers _ _
    · simp only [hmatched, Bool.not_false, if_true, if_false, Bool.false_eq_true]
      exact next_covers
  have hlines := (Search.Covers.loop fun line
    (_ : line ∈ (lines (Utf8.decodeLossy bytes)).zipIdx) =>
    hline (lines (Utf8.decodeLossy bytes)) line).mono fun _ => trivial
  rw [flatMap_ite] at hlines
  exact hlines.after (fun _ h => h) fun _ => rfl

/-- An entry that is not cut off is read to its end. -/
theorem readUpTo_whole {env : SearchEnv} {path : PathBuf} {entry : Str} {file : ZipFile}
    {bytes : List UInt8} {maxSourceBytes : Nat}
    (h : env.readUpTo path entry file (saturatingAdd maxSourceBytes 1) = some bytes)
    (hwhole : ¬ maxSourceBytes < bytes.length) : file.bytes = some bytes := by
  obtain ⟨hfront, hvec⟩ := Option.filter_eq_some_iff.mp h
  have hvec := of_decide_eq_true hvec
  have hshort : bytes.length < saturatingAdd maxSourceBytes 1 := by
    have hmax : maxVecBytes < usizeMax := by decide
    rw [saturatingAdd]
    omega
  cases hfile : file.bytes with
  | some all =>
    simp only [hfile, Option.some.injEq] at hfront
    have hlength := congrArg List.length hfront
    rw [List.length_take] at hlength
    rw [← hfront, List.take_of_length_le (by omega)]
  | none =>
    simp only [hfile] at hfront
    split at hfront
    · rename_i hlong
      have hlength := congrArg List.length (Option.some.inj hfront)
      rw [List.length_take] at hlength
      omega
    · cases hfront

theorem scanSourceEntry_covers (env : SearchEnv) (limits : SearchLimits) (query : SourceQuery)
    (path : PathBuf) (sourceJar : Nat) (archive : ZipArchive) (entry : Str) :
    Search.Covers Found.incomplete Found.results
      (scanSourceEntry env limits query path sourceJar archive entry)
      (sourceHits query sourceJar entry false ((wholeBytes archive entry).getD []))
      (∃ bytes, wholeBytes archive entry = some bytes) := by
  intro s t ht hflag
  unfold scanSourceEntry at ht ⊢
  rw [wholeBytes]
  cases hname : archive.byName entry with
  | error e =>
    simp only [hname] at ht
    cases ht
  | ok file =>
    simp only [hname] at ht ⊢
    split at ht
    · cases ht
      cases hflag
    · rename_i hbudget
      rw [if_neg hbudget]
      split at ht
      · cases ht
      · rename_i bytes hbytes
        split at ht
        · rename_i hcut
          -- the flag is up before the text is searched
          obtain ⟨-, hstart, -⟩ := scanText_covers limits query sourceJar entry true
            (cutOff limits.maxSourceBytes bytes) _ t ht hflag
          cases hstart
        · rename_i hcut
          rw [if_neg hcut, readUpTo_whole hbytes hcut, Option.getD_some]
          obtain ⟨hnext, hstart, hresults, -⟩ :=
            scanText_covers limits query sourceJar entry false bytes s t ht hflag
          exact ⟨hnext, hstart, hresults, bytes, rfl⟩

theorem scanSourceJar_covers (env : SearchEnv) (limits : SearchLimits) (query : SourceQuery)
    (source : JarRecord × Nat) :
    Search.Covers Found.incomplete Found.results (scanSourceJar env limits query source)
      ((source.1.entries.filter isSourceEntry).flatMap fun entry =>
        sourceHits query source.2 entry false (env.sourceBytes source.1.path entry))
      (∃ archive, env.openSource source.1.path = some archive ∧
        ∀ entry ∈ source.1.entries.filter isSourceEntry, ∃ bytes,
          wholeBytes archive entry = some bytes) := by
  unfold scanSourceJar
  cases harchive : env.openSource source.1.path with
  | none => exact fun s t ht _ => by cases ht
  | some archive =>
    have hentries := Search.Covers.loop fun entry
      (_ : entry ∈ source.1.entries.filter isSourceEntry) =>
      scanSourceEntry_covers env limits query source.1.path source.2 archive entry
    simp only [SearchEnv.sourceBytes, harchive, Option.bind_some]
    exact hentries.mono fun hread => ⟨archive, rfl, hread⟩

/-- The first matching line of a text resource. -/
def resourceHits (lowercase : Str → Str) (query : Str) (jar : Nat) (entry : Str)
    (bytes : List UInt8) : List JarContentMatch :=
  (((Utf8.decode bytes).bind fun text => matchingContext lowercase text query).map fun found =>
    { jar, entry, line := found.1, context := found.2 }).toList

/-- What reading an entry to its end yields. -/
def entryBytes (archive : ClassArchive) (entry : Str) : Option (List UInt8) :=
  match archive.byName entry with
  | some (some file) => file.bytes
  | _ => none

/-- The content of an entry. -/
def SearchEnv.resourceBytes (env : SearchEnv) (path : PathBuf) (entry : Str) : List UInt8 :=
  ((env.openArchive path).bind fun archive => entryBytes archive entry).getD []

theorem scanResource_covers (env : SearchEnv) (limits : SearchLimits) (query : Str) (jar : Nat)
    (archive : ClassArchive) (entry : Str) :
    Search.Covers Found.incomplete Found.results (scanResource env limits query jar archive entry)
      (resourceHits env.lowercase query jar entry ((entryBytes archive entry).getD []))
      (∃ bytes, entryBytes archive entry = some bytes) := by
  intro s t ht hflag
  unfold scanResource at ht ⊢
  rw [entryBytes]
  rcases hfile : archive.byName entry with _ | _ | file
  · simp only [hfile] at ht
    cases ht
  · simp only [hfile] at ht
    cases ht
  simp only [hfile] at ht ⊢
  by_cases hbudget : limits.totalBudget < saturatingAdd s.scannedBytes (min file.size usizeMax)
  · rw [if_pos hbudget] at ht
    cases ht
    cases hflag
  by_cases hsize : limits.maxSourceBytes < min file.size usizeMax
  · rw [if_neg hbudget, if_pos hsize] at ht
    cases ht
    cases hflag
  rw [if_neg hbudget, if_neg hsize] at ht ⊢
  cases hbytes : file.bytes with
  | none =>
    simp only [hbytes] at ht
    cases ht
  | some bytes =>
    simp only [hbytes, Option.getD_some] at ht ⊢
    rw [resourceHits]
    cases hfound : (Utf8.decode bytes).bind
        fun text => matchingContext env.lowercase text query with
    | none =>
      simp only [hfound] at ht ⊢
      cases ht
      exact ⟨rfl, hflag, (List.append_nil _).symm, bytes, rfl⟩
    | some found =>
      simp only [hfound] at ht ⊢
      obtain ⟨hnext, hstart, hresults, -⟩ := Found.push_covers limits.limit _ _ t ht hflag
      exact ⟨hnext, hstart, hresults, bytes, rfl⟩

theorem scanBinaryJar_covers (env : SearchEnv) (limits : SearchLimits) (query : Str)
    (jar : JarRecord × Nat) :
    Search.Covers Found.incomplete Found.results (scanBinaryJar env limits query jar)
      ((jar.1.entries.filter isTextResource).flatMap fun entry =>
        resourceHits env.lowercase query jar.2 entry (env.resourceBytes jar.1.path entry))
      (∃ archive, env.openArchive jar.1.path = some archive ∧
        ∀ entry ∈ jar.1.entries.filter isTextResource, ∃ bytes,
          entryBytes archive entry = some bytes) := by
  unfold scanBinaryJar
  cases harchive : env.openArchive jar.1.path with
  | none => exact fun s t ht _ => by cases ht
  | some archive =>
    have hentries := Search.Covers.loop fun entry
      (_ : entry ∈ jar.1.entries.filter isTextResource) =>
      scanResource_covers env limits query jar.2 archive entry
    simp only [SearchEnv.resourceBytes, harchive, Option.bind_some]
    exact hentries.mono fun hread => ⟨archive, rfl, hread⟩

/-! ## 5. The entries of an archive -/

/-- The names of the files of an archive, as they stand there. -/
def archivedNames : ClassArchive → Option (List Str)
  | .zip archive =>
    (archive.rawEntries.mapM id).bind fun entries =>
      (entries.filter fun e => !e.1).mapM Prod.snd
  | .directory walk =>
    (walk.mapM id).bind fun entries => (entries.filter DirEntry.isFile).mapM DirEntry.name

theorem fileNames_eq (archive : ClassArchive) :
    archive.fileNames
      = (archivedNames archive).map fun names =>
          (names.map ClassArchive.slashes).mergeSort strLe := by
  cases archive <;>
    simp only [ClassArchive.fileNames, ClassArchive.unsortedNames, archivedNames, Option.map_bind,
      Function.comp_def, Option.map_map]

/-- `by_name` finds only what is listed, and directories have a separator at their end. -/
structure Documented (archive : ZipArchive) : Prop where
  listed : ∀ name file, archive.byName name = .ok file →
    some (file.isDir, some name) ∈ archive.rawEntries
  directory : ∀ name file, archive.byName name = .ok file →
    file.isDir = (endsWith ['/'] name || endsWith ['\\'] name)

theorem mem_archivedNames_of_listed {archive : ZipArchive} {name : Str} {names : List Str}
    (h : some (false, some name) ∈ archive.rawEntries)
    (hnames : archivedNames (.zip archive) = some names) : name ∈ names := by
  obtain ⟨entries, hentries, hfiles⟩ := Option.bind_eq_some_iff.mp hnames
  obtain ⟨e, he, hsome⟩ := Safe.exists_of_mapM hentries _ h
  obtain rfl := Option.some.inj hsome
  obtain ⟨n, hn, hname⟩ := Safe.exists_of_mapM hfiles _ (List.mem_filter.mpr ⟨he, rfl⟩)
  cases hname
  exact hn

/-- An entry that is read is in the archive. -/
theorem mem_archivedNames {archive : ClassArchive} {name : Str} {bytes : List UInt8}
    {names : List Str} (hzip : ∀ zip, archive = .zip zip → Documented zip)
    (h : entryBytes archive name = some bytes) (hnames : archivedNames archive = some names) :
    name ∈ names := by
  cases archive with
  | zip archive =>
    have hdocumented := hzip archive rfl
    simp only [entryBytes, ClassArchive.byName] at h
    cases hfile : archive.byName name with
    | error e => cases e <;> simp [hfile] at h
    | ok file =>
      cases hdir : file.isDir with
      | true => simp [hfile, hdir] at h
      | false =>
        exact mem_archivedNames_of_listed (hdir ▸ hdocumented.listed name file hfile) hnames
  | directory walk =>
    obtain ⟨entries, hentries, hfiles⟩ := Option.bind_eq_some_iff.mp hnames
    simp only [entryBytes, ClassArchive.byName] at h
    cases hfound : walk.reduceOption.find? fun e => e.isFile && decide (e.name = some name) with
    | none => simp [hfound] at h
    | some e =>
      have he := List.find?_some hfound
      rw [Bool.and_eq_true, decide_eq_true_eq] at he
      have hwalk := List.reduceOption_mem_iff.mp (List.mem_of_find?_eq_some hfound)
      obtain ⟨e', he', hsome⟩ := Safe.exists_of_mapM hentries _ hwalk
      obtain rfl := Option.some.inj hsome
      obtain ⟨n, hn, hname⟩ := Safe.exists_of_mapM hfiles _ (List.mem_filter.mpr ⟨he', he.1⟩)
      obtain rfl := Option.some.inj (he.2.symm.trans hname)
      exact hn

theorem slashes_slashes (name : Str) :
    ClassArchive.slashes (ClassArchive.slashes name) = ClassArchive.slashes name := by
  simp only [ClassArchive.slashes, replaceChar, List.map_map]
  refine List.map_congr_left fun c _ => ?_
  simp only [Function.comp_apply]
  split
  · rfl
  · rfl

/-- **The recorded entries are those of the archive** where all of them are read and none has the
name of another one with its slashes the other way. -/
theorem recorded_perm {names entries : List Str} {wanted : Str → Bool}
    (hentries : entries = (names.map ClassArchive.slashes).mergeSort strLe) (hnodup : entries.Nodup)
    (hread : ∀ name ∈ entries.filter wanted, name ∈ names) :
    (entries.filter wanted).Perm (names.filter fun name => wanted (ClassArchive.slashes name)) := by
  have hperm : entries.Perm (names.map ClassArchive.slashes) := hentries ▸ List.mergeSort_perm _ _
  have hapart := hperm.nodup_iff.mp hnodup
  refine (List.perm_ext_iff_of_nodup (hnodup.filter _) (hapart.of_map _ |>.filter _)).mpr
    fun name => ?_
  constructor
  · intro hname
    obtain ⟨hentry, hwanted⟩ := List.mem_filter.mp hname
    obtain ⟨n, -, rfl⟩ := List.mem_map.mp (hperm.mem_iff.mp hentry)
    exact List.mem_filter.mpr ⟨hread _ hname, by rw [slashes_slashes]; exact hwanted⟩
  · intro hname
    obtain ⟨hn, hwanted⟩ := List.mem_filter.mp hname
    have hrecorded : ClassArchive.slashes name ∈ entries.filter wanted :=
      List.mem_filter.mpr ⟨hperm.mem_iff.mpr (List.mem_map_of_mem hn), hwanted⟩
    have hsame := List.inj_on_of_nodup_map hapart (hread _ hrecorded) hn (slashes_slashes name)
    exact hsame ▸ hrecorded

/-! ## 6. Exhaustive searches -/

/-- The searches read the files from which the index was built. -/
def SearchEnv.of {P : Type} (env : BuildEnv P) (beforeFailure : PathBuf → Str → List UInt8)
    (compile : Str → Option (Str → Bool)) : SearchEnv :=
  { openZip := env.readers.openZip, content := env.content, beforeFailure
    lowercase := env.lowercase, compile }

/-- The wanted entries of a record are those of its archive, and each can be read to its end. -/
structure ReadWhole (record : JarRecord) (wanted : Str → Bool) (archive : ClassArchive) : Prop where
  entries : ∃ names, archivedNames archive = some names ∧
    (record.entries.filter wanted).Perm
      (names.filter fun name => wanted (ClassArchive.slashes name))
  whole : ∀ entry ∈ record.entries.filter wanted, ∃ bytes, entryBytes archive entry = some bytes

/-- The results are all matching lines of all sources of the selected sources JARs. -/
structure SourcesExhausted (env : SearchEnv) (index : MavenIndex) (query : SourceQuery)
    (selector : Option Str) (results : List SourceMatch) : Prop where
  results : results = (index.selectedSources selector).flatMap fun source =>
    (source.1.entries.filter isSourceEntry).flatMap fun entry =>
      sourceHits query source.2 entry false (env.sourceBytes source.1.path entry)
  read : ∀ source ∈ index.selectedSources selector, ∃ archive,
    env.openSource source.1.path = some archive ∧ ReadWhole source.1 isSourceEntry (.zip archive)

/-- The results are the first matching lines of all text resources of the selected binary JARs. -/
structure ContentExhausted (env : SearchEnv) (index : MavenIndex) (query : Str)
    (selector : Option Str) (results : List JarContentMatch) : Prop where
  results : results = (index.selectedBinaries selector).flatMap fun jar =>
    (jar.1.entries.filter isTextResource).flatMap fun entry =>
      resourceHits env.lowercase query jar.2 entry (env.resourceBytes jar.1.path entry)
  read : ∀ jar ∈ index.selectedBinaries selector, ∃ archive,
    env.openArchive jar.1.path = some archive ∧ ReadWhole jar.1 isTextResource archive

/-- What a record that was read says of its archive. -/
theorem entries_of_load {readers : Readers} {content : Content} {path : PathBuf}
    {identity : JarIdentity} {maxEntryBytes : Nat} {record : JarRecord} {archive : ClassArchive}
    (h : loadJarRecord readers content path identity maxEntryBytes = some record)
    (harchive : ClassArchive.open readers.openZip content = some archive) :
    ∃ names, archivedNames archive = some names ∧
      record.entries = (names.map ClassArchive.slashes).mergeSort strLe := by
  obtain ⟨archive', harchive', hmap⟩ := Option.bind_eq_some_iff.mp h
  obtain rfl := Option.some.inj (harchive.symm.trans harchive')
  obtain ⟨index, hindex, rfl⟩ := Option.map_eq_some_iff.mp hmap
  obtain ⟨entries, hentries, rfl⟩ := Option.map_eq_some_iff.mp hindex
  rw [fileNames_eq] at hentries
  obtain ⟨names, hnames, rfl⟩ := Option.map_eq_some_iff.mp hentries
  exact ⟨names, hnames, rfl⟩

theorem readWhole_of_load {readers : Readers} {content : Content} {path : PathBuf}
    {identity : JarIdentity} {maxEntryBytes : Nat} {record : JarRecord} {archive : ClassArchive}
    {wanted : Str → Bool} (hzip : ∀ bytes zip, readers.openZip bytes = some zip → Documented zip)
    (h : loadJarRecord readers content path identity maxEntryBytes = some record)
    (harchive : ClassArchive.open readers.openZip content = some archive)
    (hnodup : record.entries.Nodup)
    (hwhole : ∀ entry ∈ record.entries.filter wanted, ∃ bytes, entryBytes archive entry
      = some bytes) :
    ReadWhole record wanted archive := by
  obtain ⟨names, hnames, hentries⟩ := entries_of_load h harchive
  have hdocumented : ∀ zip, archive = .zip zip → Documented zip := by
    rintro zip rfl
    cases content with
    | missing => cases harchive
    | directory walk => cases harchive
    | file bytes =>
      obtain ⟨zip', hopen, hsame⟩ := Option.map_eq_some_iff.mp harchive
      cases hsame
      exact hzip bytes _ hopen
  refine ⟨⟨names, hnames, recorded_perm hentries hnodup fun name hname => ?_⟩, hwhole⟩
  obtain ⟨bytes, hbytes⟩ := hwhole name hname
  exact mem_archivedNames hdocumented hbytes hnames

theorem content_of_openSource {env : SearchEnv} {path : PathBuf} {archive : ZipArchive}
    (h : env.openSource path = some archive) :
    ∃ bytes, env.content path = .file bytes ∧ env.openZip bytes = some archive := by
  unfold SearchEnv.openSource at h
  split at h
  · rename_i bytes hcontent
    exact ⟨bytes, hcontent, h⟩
  · cases h

/-- A source is no directory. -/
theorem entryBytes_of_whole {archive : ZipArchive} {entry : Str} {bytes : List UInt8}
    (hzip : Documented archive) (hentry : isSourceEntry entry = true)
    (h : wholeBytes archive entry = some bytes) : entryBytes (.zip archive) entry = some bytes := by
  cases hfile : archive.byName entry with
  | error e => simp [wholeBytes, hfile] at h
  | ok file =>
    have hlast {front : Str} {c : Char} (hend : endsWith (front ++ [c]) entry = true) :
        entry.getLast? = some c := by
      obtain ⟨a, rfl⟩ := endsWith_iff.mp hend
      rw [← List.append_assoc, List.getLast?_concat]
    have hletter : entry.getLast? = some 'a' ∨ entry.getLast? = some 't' :=
      (Bool.or_eq_true _ _ ▸ hentry).imp (@hlast ".jav".toList 'a') (@hlast ".k".toList 't')
    have hdir : file.isDir = false := by
      rw [hzip.directory entry file hfile, Bool.or_eq_false_iff, ← Bool.not_eq_true,
        ← Bool.not_eq_true]
      refine ⟨fun h => ?_, fun h => ?_⟩
      · have hslash := @hlast [] '/' h
        rcases hletter with ha | ht
        · simp [hslash] at ha
        · simp [hslash] at ht
      · have hslash := @hlast [] '\\' h
        rcases hletter with ha | ht
        · simp [hslash] at ha
        · simp [hslash] at ht
    simp only [wholeBytes, hfile] at h
    simp only [entryBytes, ClassArchive.byName, hfile, hdir, Bool.false_eq_true, if_false, h]

variable {P : Type} {env : BuildEnv P}

/-- **A search that is not incomplete is exhaustive**: of the sources, and of the text resources
unless the query is blank. -/
theorem search_exhaustive (hcodec : env.codec.Lossless) {persisted : Option (PathBuf → Option P)}
    (hload : ∀ load, persisted = some load → ∀ path payload, load path = some payload →
      FromEarlierRead env payload)
    (hzip : ∀ bytes zip, env.readers.openZip bytes = some zip → Documented zip)
    {root : PathBuf} {jars : List (PathBuf × JarIdentity)} {maxResults : Nat}
    {budget left : ArchiveBudget} {index : MavenIndex} {reuse : RecordReuse P}
    (hbuild : env.buildFromJars root jars maxResults persisted budget = .ok (index, reuse, left))
    (hnames : ∀ record ∈ index.jars, record.entries.Nodup)
    (beforeFailure : PathBuf → Str → List UInt8) (compile : Str → Option (Str → Bool)) :
    (∀ (query : Str) (regex : Bool) (selector : Option Str) (contextLines : Nat)
      (limit : Option Nat)
      (found : Found SourceMatch),
      index.searchSource (.of env beforeFailure compile) query regex selector contextLines limit
        = .ok found → found.incomplete = false →
      ∃ matched, linePattern (.of env beforeFailure compile) (trim query) regex = some matched ∧
        SourcesExhausted (.of env beforeFailure compile) index
          { matched, contextLines := min contextLines 10 } selector found.results) ∧
    ∀ (query : Str) (selector : Option Str) (limit : Option Nat) (found : Found JarContentMatch),
      index.searchJarContent (.of env beforeFailure compile) query selector limit = .ok found →
      found.incomplete = false →
      if env.lowercase (trim query) = [] then found = .empty
      else ContentExhausted (.of env beforeFailure compile) index
        (env.lowercase (trim query)) selector
        found.results := by
  have hread := read_of_build hcodec hload hbuild
  have hpath {record : JarRecord} (hrecord : record ∈ index.jars) :
      ∃ identity, loadJarRecord env.readers (env.content record.path) record.path identity
        env.limits.maxEntryBytes = some record := by
    obtain ⟨path, identity, hloaded⟩ := hread record hrecord
    obtain rfl := (derived_of_load hloaded).2.2.2.2
    exact ⟨identity, hloaded⟩
  have hmem {p : JarRecord × Nat → Bool} {e : JarRecord × Nat}
      (he : e ∈ index.jars.zipIdx.filter p) : e.1 ∈ index.jars :=
    List.mem_of_getElem? (List.mk_mem_zipIdx_iff_getElem?.mp (List.mem_filter.mp he).1)
  constructor
  · intro query regex selector contextLines limit found hfound hflag
    unfold MavenIndex.searchSource at hfound
    split at hfound
    · cases hfound
    · split at hfound
      · cases hfound
      · rename_i matched hmatched
        refine ⟨matched, hmatched, ?_⟩
        obtain ⟨-, -, hresults, hwhole⟩ := Search.Covers.loop
          (fun source (_ : source ∈ index.selectedSources selector) =>
            scanSourceJar_covers (.of env beforeFailure compile) (index.searchLimits limit)
              { matched, contextLines := min contextLines 10 } source) _ _ hfound hflag
        refine ⟨hresults, fun source hsource => ?_⟩
        obtain ⟨archive, harchive, hentries⟩ := hwhole source hsource
        obtain ⟨identity, hloaded⟩ := hpath (hmem hsource)
        obtain ⟨bytes, hcontent, hopened⟩ := content_of_openSource harchive
        have hopen : ClassArchive.open env.readers.openZip (env.content source.1.path)
            = some (.zip archive) := by
          change env.content source.1.path = .file bytes at hcontent
          rw [hcontent, ClassArchive.open]
          exact Option.map_eq_some_iff.mpr ⟨archive, hopened, rfl⟩
        refine ⟨archive, harchive, readWhole_of_load hzip hloaded hopen (hnames _ (hmem hsource))
          fun entry hentry => ?_⟩
        obtain ⟨whole, hwhole⟩ := hentries entry hentry
        exact ⟨whole, entryBytes_of_whole (hzip bytes archive hopened) (List.mem_filter.mp hentry).2
          hwhole⟩
  · intro query selector limit found hfound hflag
    unfold MavenIndex.searchJarContent at hfound
    change (if env.lowercase (trim query) = [] then _ else _) = _ at hfound
    split
    · rename_i hblank
      rw [if_pos hblank] at hfound
      exact (Except.ok.inj hfound).symm
    · rename_i hquery
      rw [if_neg hquery] at hfound
      obtain ⟨-, -, hresults, hwhole⟩ := Search.Covers.loop
        (fun jar (_ : jar ∈ index.selectedBinaries selector) =>
          scanBinaryJar_covers (.of env beforeFailure compile) (index.searchLimits limit)
            (env.lowercase (trim query)) jar) _ _ hfound hflag
      refine ⟨hresults, fun jar hjar => ?_⟩
      obtain ⟨archive, harchive, hentries⟩ := hwhole jar hjar
      obtain ⟨identity, hloaded⟩ := hpath (hmem hjar)
      exact ⟨archive, harchive,
        readWhole_of_load hzip hloaded harchive (hnames _ (hmem hjar)) hentries⟩

/-- A class directory with a text that holds `n`. -/
def textEnv : BuildEnv StoredRecord where
  readers := { openZip := fun _ => none, parseClass := fun _ => none }
  codec := { encode := some, decode := some }
  lowercase := id
  isSettled := fun _ => true
  limits := { maxEntryBytes := 10, maxJarEntries := 10, maxXmlBytes := 10 }
  content := fun _ => .directory
    [some { relative := [98], name := some ['b', '.', 't', 'x', 't'], isFile := true
            bytes := some [110] }]
  capture := fun _ => none

theorem search_exhaustive_text :
    ∃ index reuse left, textEnv.buildFromJars [47] [([47, 106], sampleIdentity)] 10 none
        { entries := 5, names := 5, jarEntries := 10 } = .ok (index, reuse, left) ∧
      index.searchJarContent (.of textEnv (fun _ _ => []) fun _ => none) ['n'] none none
        = .ok { results := [{ jar := 0, entry := ['b', '.', 't', 'x', 't'], line := 1
                              context := ['n'] }], incomplete := false, scannedBytes := 1 } ∧
      ContentExhausted (.of textEnv (fun _ _ => []) fun _ => none) index ['n'] none
        [{ jar := 0, entry := ['b', '.', 't', 'x', 't'], line := 1, context := ['n'] }] := by
  have hdecide : (textEnv.buildFromJars [47] [([47, 106], sampleIdentity)] 10 none
      { entries := 5, names := 5, jarEntries := 10 }).toOption.map (fun r =>
        (r.1.jars.map JarRecord.entries,
          r.1.searchJarContent (.of textEnv (fun _ _ => []) fun _ => none) ['n'] none none))
      = some ([[['b', '.', 't', 'x', 't']]],
        .ok { results := [{ jar := 0, entry := ['b', '.', 't', 'x', 't'], line := 1
                            context := ['n'] }], incomplete := false, scannedBytes := 1 }) := by
    decide +kernel
  rcases hbuild : textEnv.buildFromJars [47] [([47, 106], sampleIdentity)] 10 none
      { entries := 5, names := 5, jarEntries := 10 } with e | ⟨index, reuse, left⟩
  · rw [hbuild] at hdecide
    cases hdecide
  · rw [hbuild] at hdecide
    obtain ⟨hentries, hfound⟩ := Prod.mk.inj (Option.some.inj hdecide)
    simp only at hentries hfound
    have hnodup : ∀ record ∈ index.jars, record.entries.Nodup := by
      intro record hrecord
      have hmem := hentries ▸ List.mem_map_of_mem (f := JarRecord.entries) hrecord
      rw [List.mem_singleton.mp hmem]
      exact List.nodup_singleton _
    have hexhaustive := search_exhaustive (fun _ _ h => h.symm) (earlier_of_none _)
      (fun _ _ h => by cases h) hbuild hnodup (fun _ _ => []) fun _ => none
    have hcontent := hexhaustive.2 ['n'] none none _ hfound rfl
    rw [if_neg (by decide)] at hcontent
    exact ⟨index, reuse, left, rfl, hfound, hcontent⟩

/-- A class directory with the files `a/b.txt` and `a\\b.txt`. -/
def twinEnv : BuildEnv StoredRecord where
  readers := { openZip := fun _ => none, parseClass := fun _ => none }
  codec := { encode := some, decode := some }
  lowercase := id
  isSettled := fun _ => true
  limits := { maxEntryBytes := 10, maxJarEntries := 10, maxXmlBytes := 10 }
  content := fun _ => .directory
    [some { relative := [97], name := some ['a', '/', 'b', '.', 't', 'x', 't'], isFile := true
            bytes := some [120] },
      some { relative := [98], name := some ['a', '\\', 'b', '.', 't', 'x', 't'], isFile := true
             bytes := some [110] }]
  capture := fun _ => none

/-- The name that both files are recorded under. -/
def twinName : Str := ['a', '/', 'b', '.', 't', 'x', 't']

def twinRecord : JarRecord :=
  { key := sampleIdentity.key, classifier := none, relativePath := ['j'], path := [47, 106]
    classes := [], entries := [twinName, twinName], classEntries := [], multiRelease := false
    factStrings := [], classFacts := [], providers := [] }

def twinIndex : MavenIndex := .ofRecords id [47] 10 10 [twinRecord]

def twinSearch : SearchEnv := .of twinEnv (fun _ _ => []) fun _ => none

theorem load_twins :
    loadJarRecord twinEnv.readers (twinEnv.content [47, 106]) [47, 106] sampleIdentity
      twinEnv.limits.maxEntryBytes = some twinRecord := by
  have hsorted : [twinName, twinName].mergeSort strLe = [twinName, twinName] :=
    List.mergeSort_of_pairwise (by decide)
  have hentries : (ClassArchive.directory
      [some { relative := [97], name := some ['a', '/', 'b', '.', 't', 'x', 't'], isFile := true
              bytes := some [120] },
        some { relative := [98], name := some ['a', '\\', 'b', '.', 't', 'x', 't'], isFile := true
               bytes := some [110] }]).fileNames = some [twinName, twinName] := by
    rw [fileNames_eq]
    exact congrArg some hsorted
  unfold loadJarRecord
  simp only [twinEnv, ClassArchive.open, Option.bind_some, readJarIndex, hentries, Option.map_some]
  decide +kernel

/-- A blank query finds nothing in texts that hold it, and what `a\\b.txt` holds is not found. -/
theorem search_not_exhaustive :
    (∃ reuse left, twinEnv.buildFromJars [47] [([47, 106], sampleIdentity)] 10 none
      { entries := 5, names := 5, jarEntries := 10 } = .ok (twinIndex, reuse, left)) ∧
      (∃ found, twinIndex.searchJarContent twinSearch [] none none = .ok found ∧
        found.incomplete = false ∧ ¬ ContentExhausted twinSearch twinIndex [] none found.results) ∧
      ∃ found, twinIndex.searchJarContent twinSearch ['n'] none none = .ok found ∧
        found.incomplete = false ∧
        ¬ ContentExhausted twinSearch twinIndex ['n'] none found.results := by
  have hselected : twinIndex.selectedBinaries none = [(twinRecord, 0)] := by decide +kernel
  refine ⟨?_, ⟨.empty, by rfl, rfl, fun h => ?_⟩, ⟨⟨[], false, 2⟩, ?_, rfl, fun h => ?_⟩⟩
  · have hpreflight : preflight (twinEnv.content [47, 106])
        { entries := 5, names := 5, jarEntries := 10 }
        = (.ok (), { entries := 3, names := 3, jarEntries := 10 }) := by decide +kernel
    have hread : twinEnv.buildArtifact none [47, 106] sampleIdentity
        { budget := { entries := 5, names := 5, jarEntries := 10 }, records := []
          reuse := { reused := [], built := 0, persistable := [] } }
        = (.ok (), { budget := { entries := 3, names := 3, jarEntries := 10 },
                     records := [twinRecord]
                     reuse := { reused := [], built := 0, persistable := [] } }) := by
      have hfresh (s : BuildState StoredRecord) : twinEnv.buildArtifact none
          [47, 106] sampleIdentity s
          = twinEnv.readArtifact none [47, 106] sampleIdentity s := rfl
      rw [hfresh, BuildEnv.readArtifact]
      simp only [hpreflight, load_twins]
      rfl
    unfold BuildEnv.buildFromJars
    simp only [List.mergeSort_singleton, BuildEnv.buildRecords, hread]
    exact ⟨_, _, rfl⟩
  · have hresults := h.results
    rw [hselected] at hresults
    exact absurd hresults (by decide +kernel)
  · decide +kernel
  · obtain ⟨archive, harchive, hread⟩ := h.read (twinRecord, 0)
      (hselected ▸ List.mem_singleton_self _)
    cases harchive
    obtain ⟨names, hnames, hperm⟩ := hread.entries
    cases hnames
    exact absurd hperm (by decide +kernel)

end Index
end MavenMcp
