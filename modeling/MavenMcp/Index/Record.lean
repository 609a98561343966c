/-
# The record of one artifact

`load_jar_record` opens an artifact that passed the preflight and reads what an index keeps of
it: its entry names, the one effective classfile of each class, and the facts of these classes
(parents, references, source file) with every name interned once.  What `cafebabe` makes of the
bytes of a classfile is a parameter (`ParsedClass`).

Classes and effective entries follow from the entry names and the multi-release flag alone
(`JarIndex.ofEntries`), which is why a stored record need not hold them.
-/
import MavenMcp.Index.Archive

namespace MavenMcp

open Text

/-! ## 1. Identities -/

structure ArtifactKey where
  groupId : Str
  artifactId : Str
  version : Str
deriving DecidableEq, Repr

structure JarIdentity where
  key : ArtifactKey
  classifier : Option Str
  relativePath : Str
deriving DecidableEq, Repr

/-- `documented_classifier`: the classifier of the binary that a sources JAR documents. -/
def documentedClassifier : Option Str → Option (Option Str)
  | none => none
  | some classifier =>
    if classifier = "sources".toList then some none
    else if classifier = "test-sources".toList then some (some "tests".toList)
    else
      match stripSuffix "-sources".toList classifier with
      | some [] => none
      | some documented => some (some documented)
      | none => none

/-! ## 2. Entries and classes -/

/-- A version directory of a multi-release JAR: canonical decimal digits, at most 32 bits, from
version 9 on. -/
def parseVersion (version : Str) : Option Nat :=
  if version = [] ∨ version.head? = some '0' ∨ !version.all Char.isDigit then none
  else
    let n := Nat.ofDigitChars 10 version 0
    if 2 ^ 32 ≤ n ∨ n < 9 then none else some n

/-- The version and the logical path an entry competes with, if it does. -/
def candidateOf (multiRelease : Bool) (entry : Str) : Option (Nat × Str) :=
  match stripPrefix "META-INF/versions/".toList entry with
  | none => some (0, entry)
  | some rest =>
    if !multiRelease then none
    else
      match splitOnce '/' rest with
      | none => none
      | some (version, logical) => (parseVersion version).map fun n => (n, logical)

/-- Insert into a sorted map, or replace the value there. -/
def upsert {α : Type} (key : Str) (f : Option α → α) : List (Str × α) → List (Str × α)
  | [] => [(key, f none)]
  | (k, v) :: rest =>
    if k = key then (k, f (some v)) :: rest
    else if strLe key k then (key, f none) :: (k, v) :: rest
    else (k, v) :: upsert key f rest

/-- `effective_class_entries`. -/
def effectiveClassEntries (entries : List Str) (multiRelease : Bool) : List (Str × Str) :=
  let selected := (entries.filter (endsWith ".class".toList)).foldl
    (fun selected entry =>
      match candidateOf multiRelease entry with
      | none => selected
      | some (version, logical) =>
        upsert logical
          (fun
            | none => (version, entry)
            | some candidate => if candidate.1 < version then (version, entry) else candidate)
          selected)
    ([] : List (Str × Nat × Str))
  selected.map fun (logical, _, entry) => (logical, entry)

/-- `class_name_from_entry`. -/
def classNameFromEntry (entry : Str) : Option Str :=
  match stripSuffix ".class".toList entry with
  | none => none
  | some name =>
    if name = "module-info".toList ∨ endsWith "/module-info".toList name ∨
        endsWith "package-info".toList name then none
    else some (replaceChar '/' '.' name)

structure JarIndex where
  classes : List Str
  entries : List Str
  classEntries : List (Str × Str)
  multiRelease : Bool
deriving DecidableEq, Repr

/-- The logical paths as a sorted set of class names. -/
def classNames (classEntries : List (Str × Str)) : List Str :=
  ((classEntries.filterMap fun e => classNameFromEntry e.1).mergeSort strLe).destutter (· ≠ ·)

/-- What the entry names and the flag determine. -/
def JarIndex.ofEntries (entries : List Str) (multiRelease : Bool) : JarIndex :=
  let classEntries := effectiveClassEntries entries multiRelease
  { classes := classNames classEntries, entries, classEntries, multiRelease }

/-- `manifest_lines`. -/
def manifestLinesN : Nat → Str → List Str
  | 0, _ => []
  | _ + 1, [] => []
  | n + 1, rest =>
    let line := rest.takeWhile fun c => c ≠ '\r' && c ≠ '\n'
    match rest.dropWhile fun c => c ≠ '\r' && c ≠ '\n' with
    | [] => [line]
    | '\r' :: '\n' :: rest => line :: manifestLinesN n rest
    | _ :: rest => line :: manifestLinesN n rest

/-- The main section with continuation lines joined. -/
def unfoldManifest : List Str → List Str → List Str
  | unfolded, [] => unfolded
  | unfolded, line :: rest =>
    if line = [] then unfolded
    else
      match stripPrefix [' '] line, unfolded.getLast? with
      | some continuation, some previous =>
        unfoldManifest (unfolded.dropLast ++ [previous ++ continuation]) rest
      | _, _ => unfoldManifest (unfolded ++ [line]) rest

def manifestDeclaresMultiRelease (manifest : Str) : Bool :=
  (unfoldManifest [] (manifestLinesN (manifest.length + 1) manifest)).any fun line =>
    (splitOnce ':' line).any fun (name, value) =>
      eqIgnoreAsciiCase (trim name) "Multi-Release".toList &&
        eqIgnoreAsciiCase (trim value) "true".toList

def maxManifestBytes : Nat := 1048576

def readMultiReleaseFlag (archive : ClassArchive) (entries : List Str) : Bool :=
  match entries.find? fun entry => eqIgnoreAsciiCase entry "META-INF/MANIFEST.MF".toList with
  | none => false
  | some manifestPath =>
    match archive.byName manifestPath with
    | some (some { bytes := some bytes, .. }) =>
      manifestDeclaresMultiRelease (Utf8.decodeLossy (bytes.take maxManifestBytes))
    | _ => false

/-- `read_jar_index`. -/
def readJarIndex (archive : ClassArchive) : Option JarIndex :=
  archive.fileNames.map fun entries => .ofEntries entries (readMultiReleaseFlag archive entries)

/-! ## 3. Facts -/

/-- `FactStringId`, a positive number. -/
structure FactStringId where
  raw : Nat
  pos : 0 < raw
deriving DecidableEq, Repr

/-- `FactStringPool`: the interned strings in the order of their numbers, which start at one. -/
structure FactStringPool where
  values : List Str
deriving DecidableEq, Repr

def FactStringPool.intern (pool : FactStringPool) (value : Str) : FactStringId × FactStringPool :=
  match pool.values.idxOf? value with
  | some i => (⟨i + 1, Nat.succ_pos i⟩, pool)
  | none =>
    (⟨pool.values.length + 1, Nat.succ_pos _⟩, { values := pool.values ++ [value] })

inductive TypeRelation
  | extends
  | implements
deriving DecidableEq, Repr

inductive ClassReferenceKind
  | classRef
  | field
  | method
  | interfaceMethod
deriving DecidableEq, Repr

inductive ProviderDescriptorKind
  | serviceLoader
  | moduleUses
  | moduleProvides
  | springFactories
  | springImports
deriving DecidableEq, Repr

structure IndexedTypeParent where
  parent : FactStringId
  relation : TypeRelation
deriving DecidableEq, Repr

structure IndexedReference where
  targetOwner : FactStringId
  targetName : Option FactStringId
  targetDescriptor : Option FactStringId
  kind : ClassReferenceKind
deriving DecidableEq, Repr

structure IndexedClassFacts where
  sourceClass : FactStringId
  sourceFile : Option FactStringId
  parents : List IndexedTypeParent
  references : List IndexedReference
deriving DecidableEq, Repr

structure IndexedProvider where
  service : Str
  provider : Option Str
  descriptorKind : ProviderDescriptorKind
  entry : Str
deriving DecidableEq, Repr

/-- The position of a variant in the derived order. -/
def TypeRelation.rank : TypeRelation → Nat
  | .extends => 0
  | .implements => 1

def ClassReferenceKind.rank : ClassReferenceKind → Nat
  | .classRef => 0
  | .field => 1
  | .method => 2
  | .interfaceMethod => 3

def ProviderDescriptorKind.rank : ProviderDescriptorKind → Nat
  | .serviceLoader => 0
  | .moduleUses => 1
  | .moduleProvides => 2
  | .springFactories => 3
  | .springImports => 4

/-- The rank of an optional number: `None` first. -/
def optionRank (id : Option FactStringId) : Nat := (id.map FactStringId.raw).getD 0

/-- The derived orders, as lists of ranks compared from the left. -/
def lexLe (a b : List Nat) : Bool := (List.compareLex Ord.compare a b).isLE

def IndexedTypeParent.le (a b : IndexedTypeParent) : Bool :=
  lexLe [a.parent.raw, a.relation.rank] [b.parent.raw, b.relation.rank]

def IndexedReference.le (a b : IndexedReference) : Bool :=
  lexLe [a.targetOwner.raw, optionRank a.targetName, optionRank a.targetDescriptor, a.kind.rank]
    [b.targetOwner.raw, optionRank b.targetName, optionRank b.targetDescriptor, b.kind.rank]

/-- Texts as numbers above the one that stands for their end. -/
def strRanks (text : Str) : List Nat := text.map (·.toNat + 1) ++ [0]

def IndexedProvider.le (a b : IndexedProvider) : Bool :=
  lexLe
    (strRanks a.service ++ ((a.provider.map fun p => 1 :: strRanks p).getD [0] ++
      a.descriptorKind.rank :: strRanks a.entry))
    (strRanks b.service ++ ((b.provider.map fun p => 1 :: strRanks p).getD [0] ++
      b.descriptorKind.rank :: strRanks b.entry))

inductive ConstantPoolItem
  | classInfo (name : Str)
  | fieldRef (className name descriptor : Str)
  | methodRef (className name descriptor : Str)
  | interfaceMethodRef (className name descriptor : Str)
  | other
deriving DecidableEq, Repr

structure ModuleAttribute where
  uses : List Str
  provides : List (Str × List Str)
deriving DecidableEq, Repr

/-- What the index reads of a parsed classfile; `sourceFiles` are its `SourceFile` attributes. -/
structure ParsedClass where
  thisClass : Str
  superClass : Option Str
  interfaces : List Str
  constantPool : List ConstantPoolItem
  sourceFiles : List Str
  modules : List ModuleAttribute
deriving DecidableEq, Repr

def binaryName (value : Str) : Str := replaceChar '/' '.' value

/-- `normalize_constant_class`. -/
def normalizeConstantClass (className : Str) : Option Str :=
  if className.head? = some '[' then
    ((stripPrefix ['L'] (trimStartMatches (fun c => decide (c = '[')) className)).bind
      (stripSuffix [';'])).map binaryName
  else some (binaryName className)

/-- `source_file_name`. -/
def sourceFileName (sourceFiles : List Str) : Option Str :=
  sourceFiles.findSome? fun name =>
    match (stripSuffix ".java".toList name).orElse fun _ => stripSuffix ".kt".toList name with
    | none => none
    | some stem => if stem ≠ [] ∧ !name.any (fun c => c = '/' || c = '\\') then some name else none

/-- The owner, the name, the descriptor and the kind that a constant refers to. -/
def referenceTarget : ConstantPoolItem →
    Option (Str × Option Str × Option Str × ClassReferenceKind)
  | .classInfo name => (normalizeConstantClass name).map fun owner => (owner, none, none, .classRef)
  | .fieldRef owner name descriptor => some (binaryName owner, some name, some descriptor, .field)
  | .methodRef owner name descriptor => some (binaryName owner, some name, some descriptor, .method)
  | .interfaceMethodRef owner name descriptor =>
    some (binaryName owner, some name, some descriptor, .interfaceMethod)
  | .other => none

/-- Intern an optional string. -/
def FactStringPool.internOption (pool : FactStringPool) :
    Option Str → Option FactStringId × FactStringPool
  | none => (none, pool)
  | some value =>
    let (id, pool) := pool.intern value
    (some id, pool)

/-- `indexed_reference`. -/
def indexedReference (sourceClass : Str) (item : ConstantPoolItem) (pool : FactStringPool) :
    Option IndexedReference × FactStringPool :=
  match referenceTarget item with
  | none => (none, pool)
  | some (owner, name, descriptor, kind) =>
    if kind = .classRef ∧ owner = sourceClass then (none, pool)
    else
      let (targetOwner, pool) := pool.intern owner
      let (targetName, pool) := pool.internOption name
      let (targetDescriptor, pool) := pool.internOption descriptor
      (some { targetOwner, targetName, targetDescriptor, kind }, pool)

def collectReferences (sourceClass : Str) :
    List ConstantPoolItem → FactStringPool → List IndexedReference × FactStringPool
  | [], pool => ([], pool)
  | item :: items, pool =>
    let (reference, pool) := indexedReference sourceClass item pool
    let (references, pool) := collectReferences sourceClass items pool
    (reference.toList ++ references, pool)

def collectParents :
    List (Str × TypeRelation) → FactStringPool → List IndexedTypeParent × FactStringPool
  | [], pool => ([], pool)
  | (name, relation) :: rest, pool =>
    let (parent, pool) := pool.intern (binaryName name)
    let (parents, pool) := collectParents rest pool
    ({ parent, relation } :: parents, pool)

/-- `collect_module_providers`. -/
def moduleProviders (modules : List ModuleAttribute) (entry : Str) : List IndexedProvider :=
  modules.flatMap fun m =>
    (m.uses.map fun service =>
        { service := binaryName service, provider := none, descriptorKind := .moduleUses,
          entry }) ++
      m.provides.flatMap fun (service, providers) => providers.map fun provider =>
        { service := binaryName service, provider := some (binaryName provider)
          descriptorKind := .moduleProvides, entry }

/-- What `collect_jar_facts` has gathered so far. -/
structure FactState where
  classFacts : List IndexedClassFacts
  providers : List IndexedProvider
  strings : FactStringPool
deriving DecidableEq, Repr

/-- The facts of one parsed class. -/
def collectClass (parsed : ParsedClass) (entryPath : Str) (s : FactState) : FactState :=
  let sourceClassName := binaryName parsed.thisClass
  let (sourceClass, strings) := s.strings.intern sourceClassName
  if sourceClassName = "module-info".toList then
    { s with providers := s.providers ++ moduleProviders parsed.modules entryPath, strings }
  else
    let (parents, strings) := collectParents
      (parsed.superClass.toList.map (·, .extends) ++ parsed.interfaces.map (·, .implements)) strings
    let parents := (parents.mergeSort IndexedTypeParent.le).destutter (· ≠ ·)
    let (references, strings) := collectReferences sourceClassName parsed.constantPool strings
    let references := (references.mergeSort IndexedReference.le).destutter (· ≠ ·)
    let (sourceFile, strings) := strings.internOption (sourceFileName parsed.sourceFiles)
    if sourceFile.isSome ∨ parents ≠ [] ∨ references ≠ [] then
      { s with
        classFacts := s.classFacts ++ [{ sourceClass, sourceFile, parents, references }]
        strings }
    else { s with strings }

/-- The bytes of an entry that is present, small enough and readable. -/
def readEntry (archive : ClassArchive) (maxEntryBytes : Nat) (entryPath : Str) :
    Option (List UInt8) :=
  match archive.byName entryPath with
  | some (some entry) => if maxEntryBytes < entry.size then none else entry.bytes
  | _ => none

def collectClasses (parseClass : List UInt8 → Option ParsedClass) (archive : ClassArchive)
    (maxEntryBytes : Nat) (classEntries : List (Str × Str)) (s : FactState) : FactState :=
  classEntries.foldl
    (fun s e =>
      match (readEntry archive maxEntryBytes e.2).bind parseClass with
      | none => s
      | some parsed => collectClass parsed e.2 s)
    s

/-- `is_provider_descriptor`. -/
def isProviderDescriptor (entry : Str) : Bool :=
  startsWith "META-INF/services/".toList entry ||
    decide (entry = "META-INF/spring.factories".toList) ||
    (startsWith "META-INF/spring/".toList entry && endsWith ".imports".toList entry)

/-- A provider name: not empty and without white space. -/
def isProviderName (value : Str) : Bool := !value.isEmpty && !value.any isWhitespace

/-- `clean_descriptor_line`. -/
def cleanDescriptorLine (line : Str) : Option Str :=
  let value := trim (line.takeWhile (· ≠ '#'))
  if isProviderName value then some value else none

def collectLineProviders (service text : Str) (descriptorKind : ProviderDescriptorKind)
    (entry : Str) : List IndexedProvider :=
  ((lines text).filterMap cleanDescriptorLine).map fun provider =>
    { service, provider := some provider, descriptorKind, entry }

/-- `collect_spring_factories`, with the logical line read so far. -/
def collectSpringFactories (entry : Str) : Str → List Str → List IndexedProvider
  | _, [] => []
  | logical, rawLine :: rest =>
    let line := trim rawLine
    if line = [] ∨ line.head? = some '#' then collectSpringFactories entry logical rest
    else
      let logical := logical ++ trimEndMatches (fun c => decide (c = '\\')) line
      if endsWith ['\\'] line then collectSpringFactories entry logical rest
      else
        (match splitOnce '=' logical with
          | none => []
          | some (service, values) =>
            (((values.splitOn ',').map trim).filter isProviderName).map fun provider =>
              { service := trim service, provider := some provider
                descriptorKind := .springFactories, entry }) ++
          collectSpringFactories entry [] rest

/-- `collect_text_providers`. -/
def textProviders (entry text : Str) : List IndexedProvider :=
  match stripPrefix "META-INF/services/".toList entry with
  | some service => collectLineProviders service text .serviceLoader entry
  | none =>
    if entry = "META-INF/spring.factories".toList then
      collectSpringFactories entry [] (lines text)
    else
      match (stripPrefix "META-INF/spring/".toList entry).bind (stripSuffix ".imports".toList) with
      | some service => collectLineProviders service text .springImports entry
      | none => []

/-- The providers that the text descriptors name. -/
def descriptorProviders (archive : ClassArchive) (maxEntryBytes : Nat) (entries : List Str) :
    List IndexedProvider :=
  (entries.filter isProviderDescriptor).flatMap fun entryPath =>
    match (readEntry archive maxEntryBytes entryPath).bind fun bytes =>
        Utf8.decode (bytes.take maxEntryBytes) with
    | none => []
    | some text => textProviders entryPath text

/-- `collect_jar_facts` of an opened archive. -/
def collectJarFacts (parseClass : List UInt8 → Option ParsedClass) (archive : ClassArchive)
    (maxEntryBytes : Nat) (index : JarIndex) : FactState :=
  let s := collectClasses parseClass archive maxEntryBytes index.classEntries
    { classFacts := [], providers := [], strings := { values := [] } }
  let providers := s.providers ++ descriptorProviders archive maxEntryBytes index.entries
  { s with providers := (providers.mergeSort IndexedProvider.le).destutter (· ≠ ·) }

/-! ## 4. Records -/

structure JarRecord where
  key : ArtifactKey
  classifier : Option Str
  relativePath : Str
  path : PathBuf
  classes : List Str
  entries : List Str
  classEntries : List (Str × Str)
  multiRelease : Bool
  factStrings : List Str
  classFacts : List IndexedClassFacts
  providers : List IndexedProvider
deriving DecidableEq, Repr

namespace JarRecord

/-- `fact_string`. -/
def factString (record : JarRecord) (id : FactStringId) : Str :=
  record.factStrings.getD (id.raw - 1) []

/-- `is_source`. -/
def isSource (record : JarRecord) : Bool := (documentedClassifier record.classifier).isSome

end JarRecord

/-- What reads JARs and classfiles. -/
structure Readers where
  openZip : List UInt8 → Option ZipArchive
  parseClass : List UInt8 → Option ParsedClass

/-- `load_jar_record`. -/
def loadJarRecord (readers : Readers) (content : Content) (path : PathBuf) (identity : JarIdentity)
    (maxEntryBytes : Nat) : Option JarRecord :=
  (ClassArchive.open readers.openZip content).bind fun archive =>
    (readJarIndex archive).map fun index =>
      let facts : FactState :=
        if (documentedClassifier identity.classifier).isSome then
          { classFacts := [], providers := [], strings := { values := [] } }
        else collectJarFacts readers.parseClass archive maxEntryBytes index
      { key := identity.key
        classifier := identity.classifier
        relativePath := identity.relativePath
        path
        classes := index.classes
        entries := index.entries
        classEntries := index.classEntries
        multiRelease := index.multiRelease
        factStrings := facts.strings.values
        classFacts := facts.classFacts
        providers := facts.providers }

end MavenMcp
