/-
# Reactor outputs and what a build reads

The classpath of a project lists JARs of the local repository and, for the modules of the reactor,
JARs and class directories below `target`.  Of these the coordinate is put together from the POM of
the module, the parents of that POM inside the reactor and `maven.config`; beside a JAR lies the one
with its sources.

The server keeps an index while the stamps of the classpath and of `source_jar_stamp_paths` stand.
`buildScoped_of_stamps`: on two disks that answer alike about these paths and about the files of the
model, whatever else changed, the build is the same.
-/
import MavenMcp.Index.Interpolation
import MavenMcp.Index.Sources

namespace MavenMcp
namespace Index

open Text

/-! ## 1. Disks -/

/-- A POM as `read_reactor_pom` reads it. -/
structure ReactorPomFile where
  pom : ReactorPom
  /-- `relativePath` of the parent. -/
  relativePath : Option Str
  properties : List (Str × Str)
deriving DecidableEq, Repr

/-- What the file system answers about a path. -/
structure DiskAnswer where
  canonical : Option PathBuf
  isFile : Bool
  isDir : Bool
  content : Content
  /-- `ArtifactValidity::capture`. -/
  validity : Option ArtifactValidity
  /-- `read_reactor_pom`. -/
  pom : Option ReactorPomFile
  /-- `fs::read_to_string`. -/
  text : Option Str
deriving DecidableEq

/-- The file system at one moment. -/
structure Disk where
  look : PathBuf → DiskAnswer
  /-- A canonical path stands for the file it was made of. -/
  canonical : ∀ path q, (look path).canonical = some q → look q = look path

/-- The disks answer alike about these paths. -/
def Disk.Agree (a b : Disk) (paths : List PathBuf) : Prop :=
  ∀ path ∈ paths, a.look path = b.look path

namespace Disk.Agree

variable {a b : Disk} {path : PathBuf} {paths more : List PathBuf}

theorem nil : a.Agree b [] := fun _ h => absurd h List.not_mem_nil

theorem cons (h : a.look path = b.look path) (hpaths : a.Agree b paths) :
    a.Agree b (path :: paths) := List.forall_mem_cons.mpr ⟨h, hpaths⟩

theorem head (h : a.Agree b (path :: paths)) : a.look path = b.look path :=
  h path List.mem_cons_self

theorem tail (h : a.Agree b (path :: paths)) : a.Agree b paths :=
  fun p hp => h p (List.mem_cons_of_mem path hp)

theorem left (h : a.Agree b (paths ++ more)) : a.Agree b paths :=
  fun p hp => h p (List.mem_append_left more hp)

theorem right (h : a.Agree b (paths ++ more)) : a.Agree b more :=
  fun p hp => h p (List.mem_append_right paths hp)

end Disk.Agree

/-- The project root and the directories of its modules. -/
structure ReactorLayout where
  root : PathBuf
  modules : List PathBuf

/-! ## 2. Coordinates of modules -/

def reactorPomXml : PathBuf := Utf8.encode "pom.xml".toList

/-- `MAX_REACTOR_PARENT_DEPTH`. -/
def maxReactorParentDepth : Nat := 16

/-- What the loop of `inherited_properties` follows. -/
def ReactorPomFile.parent (file : ReactorPomFile) : Option (Option Str) :=
  file.pom.parent.map fun _ => file.relativePath

/-- `Path::parent` of a file, with a separator at its end. -/
def directoryOf (path : PathBuf) : PathBuf := (path.reverse.dropWhile (· ≠ 47)).reverse

/-- The definitions among the words of `maven.config`; the last one of a name counts. -/
def mavenConfigDefinitions : List Str → List (Str × Str)
  | [] => []
  | token :: tokens =>
    if token = "-D".toList ∨ token = "--define".toList then
      match tokens with
      | [] => []
      | definition :: tokens => (splitOnce '=' definition).toList ++ mavenConfigDefinitions tokens
    else
      let definition := (stripPrefix "--define=".toList token).or (stripPrefix "-D".toList token)
      (definition.bind (splitOnce '=')).toList ++ mavenConfigDefinitions tokens

/-- `.mvn/maven.config`. -/
def mavenConfigPath (root : PathBuf) : PathBuf :=
  joinPath root (Utf8.encode ".mvn/maven.config".toList)

namespace Disk

variable (disk : Disk)

def mavenConfigProperties (root : PathBuf) : List (Str × Str) :=
  match (disk.look (mavenConfigPath root)).text with
  | none => []
  | some config => mavenConfigDefinitions (splitWhitespace config)

/-- The path of the parent that a POM names, before and after a directory is made a POM. -/
def parentPaths (current : PathBuf) (relative : Str) : PathBuf × PathBuf :=
  let named := joinPath (directoryOf current) (Utf8.encode relative)
  (named, if (disk.look named).isDir then joinPath named reactorPomXml else named)

/-- One round of the loop of `inherited_properties`; `none` leaves it. -/
def inheritedParent (root current : PathBuf) (relativePath : Option Str) :
    Option (PathBuf × ReactorPomFile) :=
  let relative := trim (relativePath.getD "../pom.xml".toList)
  if relative = [] then none
  else
    match (disk.look (disk.parentPaths current relative).2).canonical with
    | none => none
    | some candidate =>
      if !pathStartsWith candidate root ||
          decide (pathComponents candidate = pathComponents current) then none
      else (disk.look candidate).pom.map fun file => (candidate, file)

/-- The properties of the parents, from the nearest on; `n` more may follow. -/
def inheritedChain (root : PathBuf) :
    Nat → PathBuf → Option (Option Str) → List (List (Str × Str))
  | 0, _, _ => []
  | _ + 1, _, none => []
  | n + 1, current, some relativePath =>
    match disk.inheritedParent root current relativePath with
    | none => []
    | some (candidate, file) =>
      file.properties :: inheritedChain root n candidate file.parent

def inheritedProperties (root modulePom : PathBuf) (file : ReactorPomFile) : Table Str Str :=
  let chain := disk.inheritedChain root maxReactorParentDepth modulePom file.parent
  extend (chain.reverse.foldl extend ∅) file.properties

/-- `reactor_module_coordinate`, with what it reads. -/
def moduleCoordinate (root moduleDirectory : PathBuf) : Option ArtifactKey :=
  let modulePom := joinPath moduleDirectory reactorPomXml
  (disk.look modulePom).pom.bind fun file =>
    reactorModuleCoordinate (disk.inheritedProperties root modulePom file) file.pom
      (disk.mavenConfigProperties root)

end Disk

/-! ## 3. Outputs of modules -/

/-- `output_module`: the innermost, and of equal ones the last. -/
def ReactorLayout.outputModule (layout : ReactorLayout) (path : PathBuf) : Option PathBuf :=
  (layout.modules.filter fun module =>
      pathStartsWith module layout.root &&
        pathStartsWith path (joinPath module (Utf8.encode "target".toList))).foldl
    (fun best module =>
      match best with
      | none => some module
      | some other =>
        if (pathComponents other).length ≤ (pathComponents module).length then some module
        else some other) none

/-- `OUTPUT_CLASSIFIER_SUFFIXES`. -/
def outputClassifierSuffixes : List Str :=
  ["test-sources".toList, "sources".toList, "tests".toList]

/-- The classifier of an output, if it is one. -/
def outputClassifier (answer : DiskAnswer) (key : ArtifactKey) (fileName : Str) :
    Option (Option Str) :=
  if answer.isDir then
    some (if fileName = "test-classes".toList then some "tests".toList else none)
  else
    ((stripSuffix ".jar".toList fileName).filter fun _ => answer.isFile).map fun stem =>
      match stripPrefix (key.artifactId ++ '-' :: key.version) stem with
      | some [] => none
      | some ('-' :: suffix) => some suffix
      | _ => outputClassifierSuffixes.find? fun classifier => endsWith ('-' :: classifier) stem

namespace Disk

variable (disk : Disk)

def reactorIdentity (root moduleDirectory path : PathBuf) : Option JarIdentity :=
  (disk.moduleCoordinate root moduleDirectory).bind fun key =>
    (fileNameText path).bind fun fileName =>
      (outputClassifier (disk.look path) key fileName).map fun classifier =>
        { key, classifier, relativePath := relativeSlashPath root path }

/-- What a scoped build asks of this disk. -/
def scopedFiles (layout : ReactorLayout) : ScopedFiles where
  canonicalize path := (disk.look path).canonical
  isFile path := (disk.look path).isFile
  reactorRoot := layout.root
  reactorIdentity path :=
    match layout.outputModule path with
    | none => .error .outsideRepositoryAndReactor
    | some moduleDirectory =>
      match disk.reactorIdentity layout.root moduleDirectory path with
      | none => .error .unresolvedReactorCoordinate
      | some identity => .ok identity

/-- A build that reads this disk. -/
def buildEnv {P : Type} (base : BuildEnv P) : BuildEnv P :=
  { base with
    content := fun path => (disk.look path).content
    capture := fun path => (disk.look path).validity }

end Disk

/-! ## 4. What is stamped -/

def sourceJarStampPaths (files : ScopedFiles) (repositoryRoot : Option PathBuf) (path : PathBuf) :
    List PathBuf :=
  match files.canonicalize path with
  | none => []
  | some path =>
    match scopedIdentity files repositoryRoot path with
    | .error _ => []
    | .ok identity => sourceJarCandidates path identity.classifier

/-- The paths whose stamps are taken before a build. -/
def stampedPaths (files : ScopedFiles) (repositoryRoot : Option PathBuf)
    (classpath : List PathBuf) : List PathBuf :=
  classpath.flatMap fun path => path :: sourceJarStampPaths files repositoryRoot path

namespace Disk

variable (disk : Disk)

/-- The paths that the loop of `inherited_properties` asks about. -/
def chainPaths (root : PathBuf) : Nat → PathBuf → Option (Option Str) → List PathBuf
  | 0, _, _ => []
  | _ + 1, _, none => []
  | n + 1, current, some relativePath =>
    let paths := disk.parentPaths current (trim (relativePath.getD "../pom.xml".toList))
    paths.1 :: paths.2 ::
      match disk.inheritedParent root current relativePath with
      | none => []
      | some (candidate, file) => chainPaths root n candidate file.parent

/-- The files behind the coordinate of a module. -/
def coordinatePaths (root moduleDirectory : PathBuf) : List PathBuf :=
  let modulePom := joinPath moduleDirectory reactorPomXml
  mavenConfigPath root :: modulePom ::
    match (disk.look modulePom).pom with
    | none => []
    | some file => disk.chainPaths root maxReactorParentDepth modulePom file.parent

/-- The files of the model. -/
def modelPaths (layout : ReactorLayout) : List PathBuf :=
  layout.modules.flatMap (disk.coordinatePaths layout.root)

end Disk

/-! ## 5. The model -/

section

variable {a b : Disk} {root : PathBuf}

/-- Disks that answer alike about a path do so about the canonical one. -/
theorem look_canonical {path q : PathBuf} (h : a.look path = b.look path)
    (hcanonical : (a.look path).canonical = some q) : a.look q = b.look q := by
  have hcanonical' : (b.look path).canonical = some q := h ▸ hcanonical
  rw [a.canonical path q hcanonical, b.canonical path q hcanonical', h]

theorem parentPaths_eq {current : PathBuf} {relative : Str}
    (h : a.look (a.parentPaths current relative).1 = b.look (a.parentPaths current relative).1) :
    a.parentPaths current relative = b.parentPaths current relative := by
  change a.look (joinPath (directoryOf current) (Utf8.encode relative)) = _ at h
  unfold Disk.parentPaths
  simp only [h]
  rfl

/-- **One round** asks about two paths. -/
theorem inheritedParent_eq {current : PathBuf} {relativePath : Option Str}
    (hnamed : a.look (a.parentPaths current (trim (relativePath.getD "../pom.xml".toList))).1
      = b.look (a.parentPaths current (trim (relativePath.getD "../pom.xml".toList))).1)
    (hpom : a.look (a.parentPaths current (trim (relativePath.getD "../pom.xml".toList))).2
      = b.look (a.parentPaths current (trim (relativePath.getD "../pom.xml".toList))).2) :
    a.inheritedParent root current relativePath = b.inheritedParent root current relativePath := by
  unfold Disk.inheritedParent
  simp only [← parentPaths_eq hnamed, ← hpom]
  split
  · rfl
  · split
    · rfl
    · rename_i candidate hcandidate
      rw [look_canonical hpom hcandidate]

/-- **The parents** are those that the paths of the chain lead to. -/
theorem inheritedChain_eq {n : Nat} {current : PathBuf} {parent : Option (Option Str)}
    (h : a.Agree b (a.chainPaths root n current parent)) :
    a.inheritedChain root n current parent = b.inheritedChain root n current parent := by
  induction n generalizing current parent with
  | zero => rfl
  | succ n ih =>
    cases parent with
    | none => rfl
    | some relativePath =>
      rw [Disk.chainPaths] at h
      have hround : a.inheritedParent root current relativePath
          = b.inheritedParent root current relativePath :=
        inheritedParent_eq h.head h.tail.head
      rw [Disk.inheritedChain, Disk.inheritedChain, ← hround]
      cases hnext : a.inheritedParent root current relativePath with
      | none => rfl
      | some next =>
        obtain ⟨candidate, file⟩ := next
        rw [hnext] at h
        exact congrArg (file.properties :: ·) (ih h.tail.tail)

theorem moduleCoordinate_eq {moduleDirectory : PathBuf}
    (h : a.Agree b (a.coordinatePaths root moduleDirectory)) :
    a.moduleCoordinate root moduleDirectory = b.moduleCoordinate root moduleDirectory := by
  simp only [Disk.coordinatePaths] at h
  have hconfig := h.head
  have hpom := h.tail.head
  unfold Disk.moduleCoordinate Disk.mavenConfigProperties Disk.inheritedProperties
  simp only [← hpom, ← hconfig]
  cases hread : (a.look (joinPath moduleDirectory reactorPomXml)).pom with
  | none => rfl
  | some file =>
    rw [hread] at h
    have hchain : a.inheritedChain root maxReactorParentDepth
          (joinPath moduleDirectory reactorPomXml) file.parent
        = b.inheritedChain root maxReactorParentDepth
          (joinPath moduleDirectory reactorPomXml) file.parent :=
      inheritedChain_eq h.tail.tail
    simp only [Option.bind_some, hchain]

end

/-! ## 6. The selection -/

section

variable {a b : Disk} {layout : ReactorLayout} {repositoryRoot : Option PathBuf}

theorem mem_of_outputModule {path module : PathBuf} (h : layout.outputModule path = some module) :
    module ∈ layout.modules := by
  -- whatever the fold holds is one of the modules
  unfold ReactorLayout.outputModule at h
  refine List.foldlRecOn (motive := fun best => ∀ m, best = some m → m ∈ layout.modules) _ _
    (fun m hm => by cases hm) (fun best hbest first hfirst m hm => ?_) module h
  have hmem := (List.mem_filter.mp hfirst).1
  cases best with
  | none =>
    obtain rfl := Option.some.inj hm
    exact hmem
  | some other =>
    simp only at hm
    split at hm
    · obtain rfl := Option.some.inj hm
      exact hmem
    · exact hbest m hm

/-- **An identity** needs the file itself, and the coordinates. -/
theorem scopedIdentity_eq (hmodel : a.Agree b (a.modelPaths layout)) {path : PathBuf}
    (h : a.look path = b.look path) :
    scopedIdentity (a.scopedFiles layout) repositoryRoot path
      = scopedIdentity (b.scopedFiles layout) repositoryRoot path := by
  have hreactor : (a.scopedFiles layout).reactorIdentity path
      = (b.scopedFiles layout).reactorIdentity path := by
    simp only [Disk.scopedFiles]
    cases hmodule : layout.outputModule path with
    | none => rfl
    | some module =>
      have hcoordinate : a.moduleCoordinate layout.root module
          = b.moduleCoordinate layout.root module :=
        moduleCoordinate_eq fun p hp =>
          hmodel p (List.mem_flatMap.mpr ⟨module, mem_of_outputModule hmodule, hp⟩)
      simp only [Disk.reactorIdentity, hcoordinate, h]
  unfold scopedIdentity
  rw [hreactor]

variable {P : Type}

/-- The sources beside a binary are looked for on the stamped paths. -/
theorem sourceOf_agree (hmodel : a.Agree b (a.modelPaths layout)) {path : PathBuf}
    {classifier : Option Str} (h : a.Agree b (sourceJarCandidates path classifier)) :
    sourceOf (a.scopedFiles layout) repositoryRoot path classifier
      = sourceOf (b.scopedFiles layout) repositoryRoot path classifier := by
  unfold sourceOf
  have hfilter : (sourceJarCandidates path classifier).filter (a.scopedFiles layout).isFile
      = (sourceJarCandidates path classifier).filter (b.scopedFiles layout).isFile :=
    List.filter_congr fun candidate hcandidate =>
      congrArg DiskAnswer.isFile (h candidate hcandidate)
  rw [← hfilter, ← List.head?_filterMap, ← List.head?_filterMap]
  refine congrArg List.head? (List.filterMap_congr fun candidate hcandidate => ?_)
  rw [scopedIdentity_eq hmodel (h candidate (List.mem_of_mem_filter hcandidate))]

theorem mem_of_sourceOf {files : ScopedFiles} {path : PathBuf} {classifier : Option Str}
    {source : PathBuf × JarIdentity}
    (h : sourceOf files repositoryRoot path classifier = some source) :
    source.1 ∈ sourceJarCandidates path classifier := by
  obtain ⟨candidate, hcandidate, hfound⟩ := List.exists_of_findSome?_eq_some h
  obtain ⟨identity, -, rfl⟩ := Option.map_eq_some_iff.mp hfound
  exact List.mem_of_mem_filter hcandidate

/-- A JAR that is entered, and those that were there. -/
theorem agree_insertJar {path : PathBuf} {identity : JarIdentity}
    {jars : List (PathBuf × JarIdentity)} (hpath : a.look path = b.look path)
    (h : a.Agree b (jars.map Prod.fst)) :
    a.Agree b ((insertJar path identity jars).map Prod.fst) := by
  induction jars with
  | nil => exact .cons hpath .nil
  | cons jar jars ih =>
    rw [insertJar]
    split
    · exact h
    · exact .cons h.head (ih h.tail)

/-- **One entry** of the classpath selects the same JARs, and the disks agree about them. -/
theorem addClasspathEntry_agree (hmodel : a.Agree b (a.modelPaths layout)) {entry : PathBuf}
    (hentry : a.look entry = b.look entry)
    (hstamps : a.Agree b (sourceJarStampPaths (a.scopedFiles layout) repositoryRoot entry))
    {s : ScopedJars} (hs : a.Agree b (s.jars.map Prod.fst)) :
    addClasspathEntry (a.scopedFiles layout) repositoryRoot s entry
        = addClasspathEntry (b.scopedFiles layout) repositoryRoot s entry ∧
      a.Agree b
        ((addClasspathEntry (a.scopedFiles layout) repositoryRoot s entry).jars.map Prod.fst) := by
  have hcanonical : (a.scopedFiles layout).canonicalize entry
      = (b.scopedFiles layout).canonicalize entry := congrArg DiskAnswer.canonical hentry
  unfold addClasspathEntry
  rw [← hcanonical]
  unfold sourceJarStampPaths at hstamps
  cases hpath : (a.scopedFiles layout).canonicalize entry with
  | none => exact ⟨rfl, hs⟩
  | some path =>
    rw [hpath] at hstamps
    have hlook : a.look path = b.look path := look_canonical hentry hpath
    have hsame : scopedIdentity (a.scopedFiles layout) repositoryRoot path
        = scopedIdentity (b.scopedFiles layout) repositoryRoot path :=
      scopedIdentity_eq hmodel hlook
    simp only at hstamps ⊢
    rw [← hsame]
    cases hidentity : scopedIdentity (a.scopedFiles layout) repositoryRoot path with
    | error reason => exact ⟨rfl, hs⟩
    | ok identity =>
      rw [hidentity] at hstamps
      have hsource : sourceOf (a.scopedFiles layout) repositoryRoot path identity.classifier
          = sourceOf (b.scopedFiles layout) repositoryRoot path identity.classifier :=
        sourceOf_agree hmodel hstamps
      simp only
      rw [← hsource]
      refine ⟨rfl, agree_insertJar hlook ?_⟩
      cases hfound : sourceOf (a.scopedFiles layout) repositoryRoot path identity.classifier with
      | none => exact hs
      | some source => exact agree_insertJar (hstamps _ (mem_of_sourceOf hfound)) hs

/-- **The whole classpath.** -/
theorem selected_agree (hmodel : a.Agree b (a.modelPaths layout)) {classpath : List PathBuf}
    (hstamps : a.Agree b (stampedPaths (a.scopedFiles layout) repositoryRoot classpath))
    {s : ScopedJars} (hs : a.Agree b (s.jars.map Prod.fst)) :
    classpath.foldl (addClasspathEntry (a.scopedFiles layout) repositoryRoot) s
        = classpath.foldl (addClasspathEntry (b.scopedFiles layout) repositoryRoot) s ∧
      a.Agree b ((classpath.foldl (addClasspathEntry (a.scopedFiles layout) repositoryRoot)
        s).jars.map Prod.fst) := by
  induction classpath generalizing s with
  | nil => exact ⟨rfl, hs⟩
  | cons entry classpath ih =>
    rw [stampedPaths, List.flatMap_cons] at hstamps
    obtain ⟨hsame, hjars⟩ := addClasspathEntry_agree hmodel hstamps.left.head hstamps.left.tail hs
    rw [List.foldl_cons, List.foldl_cons, ← hsame]
    exact ih hstamps.right hjars

/-! ## 7. The build -/

/-- The records are made of the artifacts alone. -/
theorem buildRecords_agree (base : BuildEnv P) (persisted : Option (PathBuf → Option P))
    {jars : List (PathBuf × JarIdentity)} (h : a.Agree b (jars.map Prod.fst)) (s : BuildState P) :
    (a.buildEnv base).buildRecords persisted jars s
      = (b.buildEnv base).buildRecords persisted jars s := by
  induction jars generalizing s with
  | nil => rfl
  | cons jar jars ih =>
    obtain ⟨path, identity⟩ := jar
    have hlook : a.look path = b.look path := h.head
    have hartifact : (a.buildEnv base).buildArtifact persisted path identity s
        = (b.buildEnv base).buildArtifact persisted path identity s := by
      simp only [BuildEnv.buildArtifact, BuildEnv.restoreArtifact, BuildEnv.readArtifact,
        Disk.buildEnv, hlook]
    rw [BuildEnv.buildRecords, BuildEnv.buildRecords, hartifact]
    rcases (b.buildEnv base).buildArtifact persisted path identity s with ⟨e | u, s'⟩
    · rfl
    · exact ih h.tail s'

/-- **Nothing but the stamped paths.**  Disks that answer alike about the classpath, about the
candidates of `source_jar_stamp_paths`, whether or not they exist, and about the files of the model
lead to the same build: the same index, the same entries left out and the same records reused. -/
theorem buildScoped_of_stamps (base : BuildEnv P) (classpath : List PathBuf) (maxResults : Nat)
    (persisted : Option (PathBuf → Option P)) (budget : ArchiveBudget)
    (hstamps : a.Agree b (stampedPaths (a.scopedFiles layout) repositoryRoot classpath))
    (hmodel : a.Agree b (a.modelPaths layout)) :
    buildScoped (a.buildEnv base) (a.scopedFiles layout) repositoryRoot classpath maxResults
        persisted budget
      = buildScoped (b.buildEnv base) (b.scopedFiles layout) repositoryRoot classpath maxResults
        persisted budget := by
  obtain ⟨hselected, hjars⟩ := selected_agree hmodel hstamps (s := ⟨[], []⟩) .nil
  unfold buildScoped
  simp only [← hselected]
  generalize classpath.foldl (addClasspathEntry (a.scopedFiles layout) repositoryRoot) ⟨[], []⟩
    = selected at hjars ⊢
  have hbuild : (a.buildEnv base).buildFromJars
        (repositoryRoot.getD (a.scopedFiles layout).reactorRoot) selected.jars maxResults persisted
        budget
      = (b.buildEnv base).buildFromJars (repositoryRoot.getD (b.scopedFiles layout).reactorRoot)
        selected.jars maxResults persisted budget := by
    unfold BuildEnv.buildFromJars
    have hsorted : a.Agree b
        ((selected.jars.mergeSort fun x y => pathLe x.1 y.1).map Prod.fst) := by
      intro path hpath
      obtain ⟨jar, hjar, rfl⟩ := List.mem_map.mp hpath
      exact hjars _ (List.mem_map_of_mem (List.mem_mergeSort.mp hjar))
    simp only [buildRecords_agree base persisted hsorted]
    rfl
  rw [hbuild]

end

/-- An artifact of the repository `/r`. -/
def sampleArtifact : PathBuf := Utf8.encode "/r/g/a/1/a-1.jar".toList

/-- A disk with the artifact and one more file. -/
def sampleLook (other path : PathBuf) : DiskAnswer :=
  if path = sampleArtifact ∨ path = other then
    { canonical := some path, isFile := true, isDir := false, content := .file [80, 75]
      validity := some [], pom := none, text := none }
  else
    { canonical := none, isFile := false, isDir := false, content := .missing, validity := none
      pom := none, text := none }

def sampleDisk (other : PathBuf) : Disk where
  look := sampleLook other
  canonical path q h := by
    unfold sampleLook at h
    split at h
    · rw [Option.some.inj h]
    · cases h

def sampleLayout : ReactorLayout :=
  { root := Utf8.encode "/p".toList, modules := [Utf8.encode "/p".toList] }

/-- A build over the artifact and an entry that is missing. -/
def sampleScopedBuild (other : PathBuf) : Except PreflightError (ScopedIndex StoredRecord) :=
  buildScoped ((sampleDisk other).buildEnv sampleEnv) ((sampleDisk other).scopedFiles sampleLayout)
    (some (Utf8.encode "/r".toList)) [sampleArtifact, [47, 122]] 10 none
    { entries := 5, names := 5, jarEntries := 10 }

/-- Another file of the repository is moved. -/
theorem buildScoped_of_stamps_moved :
    stampedPaths ((sampleDisk [47, 120]).scopedFiles sampleLayout) (some (Utf8.encode "/r".toList))
        [sampleArtifact, [47, 122]]
      = [sampleArtifact, Utf8.encode "/r/g/a/1/a-1-sources.jar".toList, [47, 122]] ∧
    (sampleDisk [47, 120]).look [47, 120] ≠ (sampleDisk [47, 121]).look [47, 120] ∧
    sampleScopedBuild [47, 120] = sampleScopedBuild [47, 121] :=
  ⟨by decide +kernel, by decide +kernel,
    buildScoped_of_stamps sampleEnv [sampleArtifact, [47, 122]] 10 none
      { entries := 5, names := 5, jarEntries := 10 }
      (by unfold Disk.Agree; decide +kernel) (by unfold Disk.Agree; decide +kernel)⟩

end Index
end MavenMcp
