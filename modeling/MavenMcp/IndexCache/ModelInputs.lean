/-
# POMs that a classpath depends on

Besides the POMs of the reactor, Maven's model building reads the parents and imported BOMs of the
reactor's POMs and of those of the repository artifacts, transitively.  The walk of
`src/index_cache/model_inputs.rs` records them as inputs of the classpath, in breadth-first order
from the given POMs.

A POM that was reached through relative paths has its own relative parent followed, one of the
repository has not.  The walk keeps one list of visited POMs for both: one that was queued as a POM
of the repository, and is reached through a relative path later, is not treated again.

* `Follows` is the graph, on POMs with the way they were reached.
* `Inv` holds between the rounds of the walk; `modelInputs_complete` reads the completeness of the
  recorded inputs off it, for walks that meet no such POM.
-/
import MavenMcp.Config
import MavenMcp.Index.Interpolation
import MavenMcp.IndexCache.References
import MavenMcp.Lib.Loop
import MavenMcp.Paths

namespace MavenMcp
namespace IndexCache

open Text

/-! ## 1. References -/

structure ParentReference where
  groupId : Option Str
  artifactId : Option Str
  version : Option Str
  relativePath : Option Str
deriving DecidableEq, Repr

structure ManagedDependency where
  groupId : Option Str
  artifactId : Option Str
  version : Option Str
  scope : Option Str
deriving DecidableEq, Repr

structure ModelPom where
  groupId : Option Str
  artifactId : Option Str
  parent : Option ParentReference
  dependencyManagement : List ManagedDependency
  /-- The managed dependencies of each profile. -/
  profiles : List (List ManagedDependency)
deriving DecidableEq, Repr

/-- A repository POM reference; without a version, Maven decides it. -/
structure Coordinate where
  groupId : Str
  artifactId : Str
  version : Option Str
deriving DecidableEq, Repr

/-- The rest of `str::replace`, where `skip` characters belong to the last match. -/
def replaceFrom (pat replacement : Str) : Nat → Str → Str
  | _, [] => []
  | skip + 1, _ :: rest => replaceFrom pat replacement skip rest
  | 0, c :: rest =>
    if startsWith pat (c :: rest) then
      replacement ++ replaceFrom pat replacement (pat.length - 1) rest
    else c :: replaceFrom pat replacement 0 rest

/-- `str::replace`, for a pattern that is not empty. -/
def replaceAll (pat replacement text : Str) : Str := replaceFrom pat replacement 0 text

/-- A coordinate part that names exactly one directory below the repository. -/
def isPathSegment (segment : Str) : Bool :=
  segment ≠ [] && segment ≠ ['.'] && segment ≠ ['.', '.'] &&
    !segment.any fun c => c = '/' || c = '\\'

namespace ModelPom

variable (model : ModelPom)

def imports : List ManagedDependency :=
  (model.dependencyManagement ++ model.profiles.flatten).filter fun dependency =>
    dependency.scope.map trim = some "import".toList

/-- `ModelPom::group_id`. -/
def effectiveGroupId : Option Str :=
  model.groupId.orElse fun _ => model.parent.bind ParentReference.groupId

/-- The model's own coordinates. -/
def known : List (Str × Option Str) :=
  [("project.groupId".toList, model.effectiveGroupId),
    ("pom.groupId".toList, model.effectiveGroupId),
    ("groupId".toList, model.effectiveGroupId),
    ("project.artifactId".toList, model.artifactId),
    ("pom.artifactId".toList, model.artifactId),
    ("artifactId".toList, model.artifactId),
    ("project.parent.groupId".toList, model.parent.bind ParentReference.groupId),
    ("project.parent.artifactId".toList, model.parent.bind ParentReference.artifactId)]

/-- One round of the loop of `interpolate`. -/
def substitute (resolved : Str) (name : Str × Option Str) : Option Str :=
  let placeholder := opener ++ name.1 ++ [closer]
  if contains placeholder resolved then
    name.2.map fun replacement => replaceAll placeholder (trim replacement) resolved
  else some resolved

/-- `ModelPom::interpolate`. -/
def interpolateOwn (value : Str) : Option Str := do
  let resolved ← model.known.foldlM substitute (trim value)
  if contains opener resolved then none else some resolved

/-- A version that Maven takes as it stands. -/
def isLiteralVersion (version : Str) : Bool :=
  isPathSegment version && !contains opener version &&
    !version.any (fun c => c = '[' || c = '(' || c = ',') &&
    !endsWith "-SNAPSHOT".toList version

def coordinate (groupId artifactId version : Option Str) : Option Coordinate := do
  let groupId ← groupId.bind model.interpolateOwn
  let artifactId ← artifactId.bind model.interpolateOwn
  if !((groupId.splitOn '.').all isPathSegment && isPathSegment artifactId) then none
  else some { groupId, artifactId, version := (version.map trim).filter isLiteralVersion }

/-- The coordinate of the parent. -/
def parentCoordinate (parent : ParentReference) : Option Coordinate :=
  model.coordinate parent.groupId parent.artifactId parent.version

def importCoordinate (dependency : ManagedDependency) : Option Coordinate :=
  model.coordinate dependency.groupId dependency.artifactId dependency.version

end ModelPom

/-! ## 2. Files -/

/-- Paths as `Path` compares them. -/
abbrev ModelPath := List Component

/-- `Path::join`. -/
def ModelPath.join (directory : ModelPath) (path : PathBuf) : ModelPath :=
  if isAbsolute path || directory = [] then pathComponents path
  else directory ++ (pathComponents path).filter (· ≠ .curDir)

/-- `Path::parent`. -/
def ModelPath.parent (path : ModelPath) : Option ModelPath :=
  match path.getLast? with
  | none | some .rootDir => none
  | some _ => some path.dropLast

/-- `Path::file_name`, as text. -/
def ModelPath.fileName (path : ModelPath) : Option Str :=
  match path.getLast? with
  | some (.normal name) => Utf8.decode name
  | _ => none

/-- What the walk asks of the file system and of the XML parser. -/
structure ModelFiles extends XmlFiles ModelPath where
  isFile : ModelPath → Bool
  isDir : ModelPath → Bool
  canonicalize : ModelPath → Option ModelPath
  /-- The names in a directory. -/
  readDir : ModelPath → Option (List (List UInt8))
  /-- `quick_xml::de::from_str`. -/
  parse : Str → Option ModelPom
  repository : Option ModelPath

def maxFollowedVersions : Nat := 256

def defaultRelativePath : Str := "../pom.xml".toList

/-- `version_pom`: `<artifactId>-<version>.pom` in a repository version directory.  Neither part has
a separator, so that the name is one component. -/
def versionPom (versionDirectory : ModelPath) (artifactId : Str) : Option ModelPath :=
  versionDirectory.fileName.map fun version =>
    versionDirectory ++ [.normal (Utf8.encode (artifactId ++ '-' :: version ++ ".pom".toList))]

namespace ModelFiles

variable (files : ModelFiles)

/-- The local parent POM Maven tries before the repository; an empty path disables it. -/
def relativeTarget (pom : ModelPath) (relativePath : Option Str) : Option ModelPath :=
  let relative := (relativePath.map trim).getD defaultRelativePath
  match pom.parent.filter fun _ => relative ≠ [] with
  | none => none
  | some directory =>
    let target := directory.join (Utf8.encode relative)
    let target := if files.isDir target then target.join (Utf8.encode "pom.xml".toList) else target
    some ((files.canonicalize target).getD target)

/-- What `repository_pom` records for a coordinate, and the POMs it queues. -/
def repositoryTargets (coordinate : Coordinate) : Option (ModelPath × List ModelPath) := do
  let repository ← files.repository
  let group := Utf8.encode (replaceChar '.' '/' coordinate.groupId)
  let artifactDirectory := (repository.join group).join (Utf8.encode coordinate.artifactId)
  match coordinate.version with
  | some version =>
    let pom ← versionPom (artifactDirectory.join (Utf8.encode version)) coordinate.artifactId
    some (pom, [pom])
  | none =>
    match files.readDir artifactDirectory with
    | none => some (artifactDirectory, [])
    | some names =>
      let versions := (names.map fun name => artifactDirectory ++ [.normal name]).filter files.isDir
      let versions := versions.take (maxFollowedVersions + 1)
      if maxFollowedVersions < versions.length then none
      else some (artifactDirectory, versions.filterMap (versionPom · coordinate.artifactId))

end ModelFiles

/-! ## 3. The walk -/

/-- What the walk has of each POM: its path, and whether it was reached through relative paths. -/
structure ModelWalk where
  queue : List (ModelPath × Bool)
  /-- Each POM that was ever queued, as it was queued; a POM counts as visited by its path. -/
  visited : List (ModelPath × Bool)
  inputs : List ModelPath
  envReferences : List Str
  budget : XmlBudget

structure ModelInputs where
  /-- Parent and imported POM files and repository artifact directories. -/
  paths : List ModelPath
  envReferences : List Str

namespace ModelWalk

def start : ModelWalk := ⟨[], [], [], [], .empty⟩

def paths (s : ModelWalk) : List ModelPath := s.visited.map Prod.fst

def enqueue (s : ModelWalk) (pom : ModelPath) (inReactor : Bool) : ModelWalk :=
  if pom ∈ s.paths then s
  else { s with visited := (pom, inReactor) :: s.visited, queue := s.queue ++ [(pom, inReactor)] }

def record (s : ModelWalk) (path : ModelPath) : ModelWalk :=
  { s with inputs := s.inputs.insert path }

variable (files : ModelFiles)

def relativeParent (s : ModelWalk) (pom : ModelPath) (relativePath : Option Str) : ModelWalk :=
  match files.relativeTarget pom relativePath with
  | none => s
  | some target => (s.record target).enqueue target true

def repositoryPom (s : ModelWalk) (coordinate : Coordinate) : Option ModelWalk :=
  (files.repositoryTargets coordinate).map fun (input, poms) =>
    poms.foldl (fun s pom => s.enqueue pom false) (s.record input)

/-- A reference that cannot be identified ends the walk. -/
def reference (s : ModelWalk) (coordinate : Option Coordinate) : Option ModelWalk :=
  coordinate.bind fun coordinate => s.repositoryPom files coordinate

def followParent (s : ModelWalk) (pom : ModelPath) (inReactor : Bool) (model : ModelPom) :
    Option ModelWalk :=
  match model.parent with
  | none => some s
  | some parent =>
    let s := if inReactor then s.relativeParent files pom parent.relativePath else s
    s.reference files (model.parentCoordinate parent)

def followImports (s : ModelWalk) (model : ModelPom) (imports : List ManagedDependency) :
    Option ModelWalk :=
  imports.foldlM (fun s dependency => s.reference files (model.importCoordinate dependency)) s

def visit (s : ModelWalk) (pom : ModelPath) (inReactor : Bool) : Option ModelWalk := do
  if files.isFile pom = false then some s
  else
    let (xml, budget) ← (s.budget.read files.toXmlFiles pom).toOption
    let names ← IndexCache.envReferences (Utf8.encode xml)
    let model ← files.parse xml
    let s := { s with budget, envReferences := s.envReferences ++ names }
    let s ← s.followParent files pom inReactor model
    s.followImports files model model.imports

/-- One round of the loop of `model_inputs`. -/
def round (s : ModelWalk) : ModelWalk ⊕ Option ModelWalk :=
  match s.queue with
  | [] => .inr (some s)
  | (pom, inReactor) :: queue =>
    match visit files { s with queue } pom inReactor with
    | none => .inr none
    | some s' => .inl s'

/-- The files that may still be read, and the POMs that wait. -/
def measure (s : ModelWalk) : Nat × Nat := (maxXmlFiles - s.budget.files, s.queue.length)

/-- The queue of the given POMs. -/
def given (reactorPoms repositoryPoms : List ModelPath) : ModelWalk :=
  repositoryPoms.foldl (fun s pom => s.enqueue pom false)
    (reactorPoms.foldl (fun s pom => s.enqueue pom true) start)

/-! ## 4. What the walk does to its state -/

/-- The POM is an input, or lies in a version directory of an artifact directory that is one. -/
def Recorded (inputs : List ModelPath) (pom : ModelPath) : Prop :=
  pom ∈ inputs ∨ 2 ≤ pom.length ∧ pom.dropLast.dropLast ∈ inputs

instance (inputs : List ModelPath) (pom : ModelPath) : Decidable (Recorded inputs pom) :=
  inferInstanceAs (Decidable (_ ∨ _))

theorem Recorded.mono {inputs inputs' : List ModelPath} {pom : ModelPath}
    (h : Recorded inputs pom) (hsub : inputs ⊆ inputs') : Recorded inputs' pom :=
  h.imp (fun hmem => hsub hmem) fun ⟨hlength, hmem⟩ => ⟨hlength, hsub hmem⟩

/-- What queueing POMs does to the state: each new one is recorded and waits. -/
structure Grows (s s' : ModelWalk) : Prop where
  visited : s.visited ⊆ s'.visited
  queue : s.queue ⊆ s'.queue
  inputs : s.inputs ⊆ s'.inputs
  envReferences : s.envReferences ⊆ s'.envReferences
  fresh : ∀ e ∈ s'.visited, e ∈ s.visited ∨ e ∈ s'.queue ∧ Recorded s'.inputs e.1
  queued : ∀ e ∈ s'.queue, e ∈ s.queue ∨ e ∈ s'.visited
  budget : s'.budget = s.budget

theorem Grows.refl (s : ModelWalk) : Grows s s where
  visited := List.Subset.refl _
  queue := List.Subset.refl _
  inputs := List.Subset.refl _
  envReferences := List.Subset.refl _
  fresh _ he := .inl he
  queued _ he := .inl he
  budget := rfl

theorem Grows.trans {s t u : ModelWalk} (h : Grows s t) (h' : Grows t u) : Grows s u where
  visited := List.Subset.trans h.visited h'.visited
  queue := List.Subset.trans h.queue h'.queue
  inputs := List.Subset.trans h.inputs h'.inputs
  envReferences := List.Subset.trans h.envReferences h'.envReferences
  fresh e he := by
    rcases h'.fresh e he with ht | hnew
    · exact (h.fresh e ht).imp_right fun ⟨hq, hr⟩ => ⟨h'.queue hq, hr.mono h'.inputs⟩
    · exact .inr hnew
  queued e he := by
    rcases h'.queued e he with ht | hnew
    · exact (h.queued e ht).imp_right fun hv => h'.visited hv
    · exact .inr hnew
  budget := h'.budget.trans h.budget

theorem Grows.paths {s s' : ModelWalk} (h : Grows s s') : s.paths ⊆ s'.paths :=
  List.map_subset _ h.visited

theorem mem_paths_of_mem {s : ModelWalk} {e : ModelPath × Bool} (h : e ∈ s.visited) :
    e.1 ∈ s.paths := List.mem_map_of_mem h

theorem grows_record (s : ModelWalk) (path : ModelPath) : Grows s (s.record path) where
  visited := List.Subset.refl _
  queue := List.Subset.refl _
  inputs := fun _ h => List.mem_insert_of_mem h
  envReferences := List.Subset.refl _
  fresh _ he := .inl he
  queued _ he := .inl he
  budget := rfl

theorem grows_enqueue {s : ModelWalk} {pom : ModelPath} (inReactor : Bool)
    (hrecorded : Recorded s.inputs pom) : Grows s (s.enqueue pom inReactor) := by
  unfold enqueue
  split
  · exact .refl s
  · refine ⟨List.subset_cons_self _ _, List.subset_append_left _ _, List.Subset.refl _,
      List.Subset.refl _, fun e he => ?_, fun e he => ?_, rfl⟩
    · rcases List.mem_cons.mp he with rfl | hmem
      · exact .inr ⟨List.mem_append_right _ List.mem_cons_self, hrecorded⟩
      · exact .inl hmem
    · rcases List.mem_append.mp he with hmem | hnew
      · exact .inl hmem
      · exact .inr (List.mem_cons.mpr (.inl (List.mem_singleton.mp hnew)))

/-- A POM that was queued is visited: as it was queued now, or as it was queued before. -/
theorem mem_enqueue (s : ModelWalk) (pom : ModelPath) (inReactor : Bool) :
    (pom, inReactor) ∈ (s.enqueue pom inReactor).visited ∨ (pom, !inReactor) ∈ s.visited := by
  unfold enqueue
  split
  · rename_i hseen
    obtain ⟨⟨p, r⟩, he, rfl⟩ := List.mem_map.mp hseen
    by_cases hr : r = inReactor
    · exact .inl (hr ▸ he)
    · rw [← Bool.eq_not_of_ne hr]
      exact .inr he
  · exact .inl List.mem_cons_self

theorem path_mem_enqueue (s : ModelWalk) (pom : ModelPath) (inReactor : Bool) :
    pom ∈ (s.enqueue pom inReactor).paths := by
  unfold enqueue
  split
  · rename_i hseen
    exact hseen
  · exact List.mem_cons_self

variable {files : ModelFiles}

/-- The POMs of one reference are queued. -/
theorem grows_enqueueAll {s : ModelWalk} (poms : List ModelPath)
    (hrecorded : ∀ pom ∈ poms, Recorded s.inputs pom) :
    Grows s (poms.foldl (fun s pom => s.enqueue pom false) s) ∧
      ∀ pom ∈ poms, pom ∈ (poms.foldl (fun s pom => s.enqueue pom false) s).paths := by
  induction poms generalizing s with
  | nil => exact ⟨.refl s, nofun⟩
  | cons pom poms ih =>
    have hgrows := grows_enqueue false (hrecorded pom List.mem_cons_self)
    obtain ⟨hrest, hmem⟩ := ih fun p hp =>
      (hrecorded p (List.mem_cons_of_mem _ hp)).mono hgrows.inputs
    refine ⟨hgrows.trans hrest, List.forall_mem_cons.mpr ⟨?_, hmem⟩⟩
    exact hrest.paths (path_mem_enqueue s pom false)

/-- The POMs of a repository reference are recorded with what the reference records. -/
theorem recorded_of_targets {coordinate : Coordinate} {input : ModelPath} {poms : List ModelPath}
    (h : files.repositoryTargets coordinate = some (input, poms)) {inputs : List ModelPath}
    (hinput : input ∈ inputs) : ∀ pom ∈ poms, Recorded inputs pom := by
  obtain ⟨repository, hrepository, h⟩ := Option.bind_eq_some_iff.mp h
  simp only at h
  split at h
  · obtain ⟨versioned, hpom, h⟩ := Option.bind_eq_some_iff.mp h
    cases h
    exact fun pom hmem => .inl (List.mem_singleton.mp hmem ▸ hinput)
  · split at h
    · cases h
      exact List.forall_mem_nil _
    · split at h
      · cases h
      · cases h
        intro pom hmem
        obtain ⟨version, hversion, hpom⟩ := List.mem_filterMap.mp hmem
        obtain ⟨name, hname, rfl⟩ :=
          List.mem_map.mp (List.mem_of_mem_filter (List.mem_of_mem_take hversion))
        obtain ⟨text, htext, rfl⟩ := Option.map_eq_some_iff.mp hpom
        exact .inr ⟨by simp, by simpa using hinput⟩

end ModelWalk

/-! ## 5. The graph -/

namespace ModelFiles

variable (files : ModelFiles)

/-- The model of a POM that is there. -/
def model (pom : ModelPath) : Option ModelPom :=
  if files.isFile pom then (files.text pom).bind files.parse else none

/-- The relative parent of a POM that is there. -/
def relativeParentOf (pom : ModelPath) : Option ModelPath :=
  (files.model pom).bind fun model =>
    model.parent.bind fun parent => files.relativeTarget pom parent.relativePath

/-- The POMs of a reference. -/
def referenced (coordinate : Option Coordinate) : List ModelPath :=
  match coordinate.bind files.repositoryTargets with
  | none => []
  | some (_, poms) => poms

/-- The repository POMs that a POM leads to, as parents and by imports. -/
def repositoryPomsOf (pom : ModelPath) : List ModelPath :=
  match files.model pom with
  | none => []
  | some model =>
    (model.parent.map model.parentCoordinate).toList.flatMap files.referenced ++
      (model.imports.map model.importCoordinate).flatMap files.referenced

/-- The edges of the graph.  Only from a POM reached through relative paths, its relative parent is
such a POM again. -/
inductive Follows : ModelPath × Bool → ModelPath × Bool → Prop
  | relative {pom target : ModelPath} (h : files.relativeParentOf pom = some target) :
      Follows (pom, true) (target, true)
  | repository {pom target : ModelPath} {inReactor : Bool}
      (h : target ∈ files.repositoryPomsOf pom) : Follows (pom, inReactor) (target, false)

end ModelFiles

/-! ## 6. The rounds of the walk -/

namespace ModelWalk

variable {files : ModelFiles}

theorem grows_reference {s s' : ModelWalk} {coordinate : Option Coordinate}
    (h : s.reference files coordinate = some s') :
    Grows s s' ∧ ∀ q ∈ files.referenced coordinate, q ∈ s'.paths := by
  obtain ⟨c, rfl, h⟩ := Option.bind_eq_some_iff.mp h
  obtain ⟨⟨input, poms⟩, htargets, rfl⟩ := Option.map_eq_some_iff.mp h
  have hinput : input ∈ (s.record input).inputs := List.mem_insert_self
  obtain ⟨hgrows, hmem⟩ := grows_enqueueAll poms (recorded_of_targets htargets hinput)
  refine ⟨(grows_record s input).trans hgrows, fun q hq => hmem q ?_⟩
  rw [ModelFiles.referenced, Option.bind_some, htargets] at hq
  exact hq

theorem grows_followImports {s s' : ModelWalk} {model : ModelPom}
    {imports : List ManagedDependency} (h : s.followImports files model imports = some s') :
    Grows s s' ∧
      ∀ q ∈ (imports.map model.importCoordinate).flatMap files.referenced, q ∈ s'.paths := by
  induction imports generalizing s with
  | nil =>
    cases h
    exact ⟨.refl _, nofun⟩
  | cons dependency imports ih =>
    obtain ⟨s₁, hfirst, hrest⟩ := Option.bind_eq_some_iff.mp h
    obtain ⟨hgrows, hmem⟩ := grows_reference hfirst
    obtain ⟨hgrows', hmem'⟩ := ih hrest
    refine ⟨hgrows.trans hgrows', fun q hq => ?_⟩
    rw [List.map_cons, List.flatMap_cons] at hq
    exact (List.mem_append.mp hq).elim (fun hq => hgrows'.paths (hmem q hq)) (hmem' q)

/-- The relative parent is recorded and queued. -/
theorem grows_relativeParent (s : ModelWalk) {pom target : ModelPath} {relativePath : Option Str}
    (h : files.relativeTarget pom relativePath = some target) :
    Grows s (s.relativeParent files pom relativePath) ∧
      ((target, true) ∈ (s.relativeParent files pom relativePath).visited ∨
        (target, false) ∈ s.visited) := by
  unfold relativeParent
  rw [h]
  have hinput : target ∈ (s.record target).inputs := List.mem_insert_self
  exact ⟨(grows_record s target).trans (grows_enqueue true (.inl hinput)),
    mem_enqueue (s.record target) target true⟩

theorem grows_followParent {s s' : ModelWalk} {pom : ModelPath} {inReactor : Bool}
    {model : ModelPom} (h : s.followParent files pom inReactor model = some s') :
    Grows s s' ∧
      (∀ q ∈ (model.parent.map model.parentCoordinate).toList.flatMap files.referenced,
        q ∈ s'.paths) ∧
      (inReactor = true → ∀ target,
        (model.parent.bind fun parent => files.relativeTarget pom parent.relativePath)
          = some target → (target, true) ∈ s'.visited ∨ (target, false) ∈ s.visited) := by
  unfold followParent at h
  cases hparent : model.parent with
  | none =>
    rw [hparent] at h
    cases h
    exact ⟨.refl s, nofun, nofun⟩
  | some parent =>
    simp only [hparent] at h
    obtain ⟨hgrows, hmem⟩ := grows_reference h
    cases hrole : inReactor with
    | false =>
      simp only [hrole] at hgrows
      refine ⟨hgrows, ?_, nofun⟩
      simpa using hmem
    | true =>
      simp only [hrole, if_true] at hgrows
      cases htarget : files.relativeTarget pom parent.relativePath with
      | none =>
        rw [relativeParent, htarget] at hgrows
        refine ⟨hgrows, ?_, fun _ target ht => ?_⟩
        · simpa using hmem
        · simp [htarget] at ht
      | some target =>
        obtain ⟨hrelative, hqueued⟩ := grows_relativeParent _ htarget
        refine ⟨hrelative.trans hgrows, ?_, fun _ target' ht => ?_⟩
        · simpa using hmem
        · simp only [Option.bind_some, htarget, Option.some.injEq] at ht
          subst ht
          exact hqueued.imp_left fun hv => hgrows.visited hv

/-- What is done for a POM once it was treated. -/
structure Treated (files : ModelFiles) (s : ModelWalk) (e : ModelPath × Bool) : Prop where
  /-- The variables it references are collected. -/
  names : files.isFile e.1 = true → ∃ xml names, files.text e.1 = some xml ∧
    IndexCache.envReferences (Utf8.encode xml) = some names ∧ names ⊆ s.envReferences
  repository : ∀ q ∈ files.repositoryPomsOf e.1, q ∈ s.paths
  relative : e.2 = true → ∀ target, files.relativeParentOf e.1 = some target →
    target ∈ s.paths ∧ (files.relativeParentOf target ≠ none → (target, true) ∈ s.visited)

theorem Treated.mono {s s' : ModelWalk} {e : ModelPath × Bool} (h : Treated files s e)
    (hvisited : s.visited ⊆ s'.visited) (henv : s.envReferences ⊆ s'.envReferences) :
    Treated files s' e where
  names hfile := by
    obtain ⟨xml, names, hxml, hnames, hsub⟩ := h.names hfile
    exact ⟨xml, names, hxml, hnames, List.Subset.trans hsub henv⟩
  repository q hq := List.map_subset _ hvisited (h.repository q hq)
  relative hr target ht := by
    obtain ⟨hmem, hrole⟩ := h.relative hr target ht
    exact ⟨List.map_subset _ hvisited hmem, fun hne => hvisited (hrole hne)⟩

/-- No POM with a relative parent was queued as a POM of the repository before a relative path
leads to it from the POM that is next. -/
def InTime (files : ModelFiles) (s : ModelWalk) : Prop :=
  ∀ pom queue target, s.queue = (pom, true) :: queue →
    files.relativeParentOf pom = some target → (target, false) ∈ s.visited →
      files.relativeParentOf target = none

/-- **One POM.**  It is treated; what it leads to waits, or was visited before. -/
theorem treated_of_visit {s s' : ModelWalk} {pom : ModelPath} {inReactor : Bool}
    (h : s.visit files pom inReactor = some s') :
    ((inReactor = true → ∀ target, files.relativeParentOf pom = some target →
        (target, false) ∈ s.visited → files.relativeParentOf target = none) →
      Treated files s' (pom, inReactor)) ∧ ∃ s₁ : ModelWalk, Grows s₁ s' ∧
      s₁.queue = s.queue ∧ s₁.visited = s.visited ∧ s₁.inputs = s.inputs ∧
      s.envReferences ⊆ s₁.envReferences ∧
      (s' = s ∨ s.budget.files < maxXmlFiles ∧ s'.budget.files = s.budget.files + 1) := by
  unfold visit at h
  split at h
  · rename_i hfile
    cases h
    have hmodel : files.model pom = none := by simp [ModelFiles.model, hfile]
    refine ⟨fun _ => ⟨fun hf => ?_, fun q hq => ?_, fun _ target ht => ?_⟩, s, .refl s, rfl, rfl,
      rfl, List.Subset.refl _, .inl rfl⟩
    · rw [hfile] at hf
      cases hf
    · simp [ModelFiles.repositoryPomsOf, hmodel] at hq
    · simp [ModelFiles.relativeParentOf, hmodel] at ht
  · rename_i hfile
    rw [Bool.not_eq_false] at hfile
    obtain ⟨⟨xml, budget⟩, hread, h⟩ := Option.bind_eq_some_iff.mp h
    obtain ⟨names, hnames, h⟩ := Option.bind_eq_some_iff.mp h
    obtain ⟨model, hparse, h⟩ := Option.bind_eq_some_iff.mp h
    obtain ⟨s₂, hparent, himports⟩ := Option.bind_eq_some_iff.mp h
    obtain ⟨htext, hbudget, hcount⟩ := XmlBudget.read_eq_ok (eq_ok_of_toOption hread)
    have hmodel : files.model pom = some model := by
      rw [ModelFiles.model, if_pos hfile, htext]
      exact hparse
    obtain ⟨hgrows, hmem, hrelative⟩ := grows_followParent hparent
    obtain ⟨hgrows', hmem'⟩ := grows_followImports himports
    have hall := hgrows.trans hgrows'
    refine ⟨fun htime => ⟨fun _ => ⟨xml, names, htext, hnames, ?_⟩, fun q hq => ?_,
        fun hr target ht => ?_⟩,
      _, hall, rfl, rfl, rfl, List.subset_append_left _ _, .inr ⟨hbudget, ?_⟩⟩
    · exact List.Subset.trans (List.subset_append_right _ _) hall.envReferences
    · rw [ModelFiles.repositoryPomsOf, hmodel] at hq
      exact (List.mem_append.mp hq).elim (fun hq => hgrows'.paths (hmem q hq)) (hmem' q)
    · have htarget := ht
      rw [ModelFiles.relativeParentOf, hmodel, Option.bind_some] at htarget
      rcases hrelative hr target htarget with hnew | hold
      · have hnew := hgrows'.visited hnew
        exact ⟨mem_paths_of_mem hnew, fun _ => hnew⟩
      · exact ⟨hall.paths (List.mem_map_of_mem hold),
          fun hne => absurd (htime hr target ht hold) hne⟩
    · rw [hall.budget]
      exact hcount

/-- What holds between the rounds. -/
structure Inv (files : ModelFiles) (given : List ModelPath) (s : ModelWalk) : Prop where
  queued : s.queue ⊆ s.visited
  recorded : ∀ e ∈ s.visited, e.1 ∈ given ∨ Recorded s.inputs e.1
  treated : ∀ e ∈ s.visited, e ∈ s.queue ∨ Treated files s e

/-- **One round** keeps the invariant, and lowers the measure. -/
theorem inv_of_round {given : List ModelPath} {s s' : ModelWalk}
    (h : s.round files = .inl s') (hinv : Inv files given s) (htime : InTime files s) :
    Inv files given s' ∧ s.visited ⊆ s'.visited := by
  unfold round at h
  split at h
  · cases h
  · rename_i pom inReactor queue hqueue
    split at h
    · cases h
    · rename_i hvisit
      cases h
      obtain ⟨htreated, s₁, hgrows, hq, hv, hi, henv, -⟩ := treated_of_visit hvisit
      replace htreated := htreated
        fun hr target ht hold => htime pom queue target (hr ▸ hqueue) ht hold
      have hvisited : s.visited ⊆ s'.visited := fun e he => hgrows.visited (hv ▸ he)
      have hqueued : queue ⊆ s'.queue := fun e he => hgrows.queue (hq ▸ he)
      refine ⟨⟨fun e he => ?_, fun e he => ?_, fun e he => ?_⟩, hvisited⟩
      · rcases hgrows.queued e he with hold | hnew
        · rw [hq] at hold
          exact hvisited (hinv.queued (hqueue ▸ List.mem_cons_of_mem _ hold))
        · exact hnew
      · rcases hgrows.fresh e he with hold | ⟨-, hrecorded⟩
        · rw [hv] at hold
          refine (hinv.recorded e hold).imp_right fun hr => hr.mono fun p hp => ?_
          exact hgrows.inputs (hi ▸ hp)
        · exact .inr hrecorded
      · rcases hgrows.fresh e he with hold | ⟨hwaits, -⟩
        · rw [hv] at hold
          rcases hinv.treated e hold with hwaits | hdone
          · rw [hqueue] at hwaits
            rcases List.mem_cons.mp hwaits with rfl | hwaits
            · exact .inr htreated
            · exact .inl (hqueued hwaits)
          · exact .inr (hdone.mono hvisited (List.Subset.trans henv hgrows.envReferences))
        · exact .inl hwaits

theorem measure_of_round {s s' : ModelWalk} (h : s.round files = .inl s') :
    WellFoundedRelation.rel s'.measure s.measure := by
  unfold round at h
  split at h
  · cases h
  · rename_i pom inReactor queue hqueue
    split at h
    · cases h
    · rename_i hvisit
      cases h
      obtain ⟨-, -, -, -, -, -, -, rfl | ⟨hbudget, hcount⟩⟩ := treated_of_visit hvisit
      · refine Prod.Lex.right _ ?_
        rw [hqueue]
        exact Nat.lt_succ_self _
      · refine Prod.Lex.left _ _ ?_
        change maxXmlFiles - s'.budget.files < maxXmlFiles - s.budget.files
        rw [hcount]
        exact Nat.sub_lt_sub_left hbudget (Nat.lt_succ_self _)

/-- The rounds from the given POMs on. -/
def run (files : ModelFiles) : ModelWalk → Option ModelWalk :=
  Loop.iterate (round files) measure fun _ _ h => measure_of_round h

/-! ## 7. The given POMs -/

/-- All that is visited waits, and was given. -/
structure Waiting (given : List ModelPath) (s : ModelWalk) : Prop where
  queued : s.queue ⊆ s.visited
  waits : s.visited ⊆ s.queue
  given : ∀ e ∈ s.visited, e.1 ∈ given

theorem Waiting.inv {given : List ModelPath} {s : ModelWalk} (h : Waiting given s) :
    Inv files given s :=
  ⟨h.queued, fun e he => .inl (h.given e he), fun _ he => .inl (h.waits he)⟩

theorem Waiting.enqueue {given : List ModelPath} {s : ModelWalk} (h : Waiting given s)
    {pom : ModelPath} (hgiven : pom ∈ given) (inReactor : Bool) :
    Waiting given (s.enqueue pom inReactor) := by
  unfold ModelWalk.enqueue
  split
  · exact h
  · refine ⟨fun e he => ?_, fun e he => ?_, fun e he => ?_⟩
    · rcases List.mem_append.mp he with hold | hnew
      · exact List.mem_cons_of_mem _ (h.queued hold)
      · exact List.mem_cons.mpr (.inl (List.mem_singleton.mp hnew))
    · rcases List.mem_cons.mp he with rfl | hold
      · exact List.mem_append_right _ List.mem_cons_self
      · exact List.mem_append_left _ (h.waits hold)
    · rcases List.mem_cons.mp he with rfl | hold
      · exact hgiven
      · exact h.given e hold

theorem visited_enqueue (s : ModelWalk) (pom : ModelPath) (inReactor : Bool) :
    s.visited ⊆ (s.enqueue pom inReactor).visited ∧
      ∀ e ∈ (s.enqueue pom inReactor).visited, e ∈ s.visited ∨ e.2 = inReactor := by
  unfold enqueue
  split
  · exact ⟨List.Subset.refl _, fun _ he => .inl he⟩
  · refine ⟨List.subset_cons_self _ _, fun e he => ?_⟩
    rcases List.mem_cons.mp he with rfl | hold
    · exact .inr rfl
    · exact .inl hold

/-- Given POMs of one kind are queued. -/
theorem waiting_enqueueAll {given : List ModelPath} {s : ModelWalk} (inReactor : Bool)
    (poms : List ModelPath) (hpoms : poms ⊆ given) (h : Waiting given s) :
    let s' := poms.foldl (fun s pom => s.enqueue pom inReactor) s
    Waiting given s' ∧ s.visited ⊆ s'.visited ∧ (∀ pom ∈ poms, pom ∈ s'.paths) ∧
      ∀ e ∈ s'.visited, e ∈ s.visited ∨ e.2 = inReactor := by
  induction poms generalizing s with
  | nil => exact ⟨h, List.Subset.refl _, nofun, fun _ he => .inl he⟩
  | cons pom poms ih =>
    obtain ⟨hsub, hrole⟩ := visited_enqueue s pom inReactor
    obtain ⟨hwaiting, hsub', hmem, hrole'⟩ :=
      ih (fun p hp => hpoms (List.mem_cons_of_mem _ hp))
        (h.enqueue (hpoms List.mem_cons_self) inReactor)
    refine ⟨hwaiting, List.Subset.trans hsub hsub', List.forall_mem_cons.mpr ⟨?_, hmem⟩, ?_⟩
    · exact List.map_subset _ hsub' (path_mem_enqueue s pom inReactor)
    · intro e he
      exact (hrole' e he).elim (hrole e) .inr

theorem waiting_given (reactorPoms repositoryPoms : List ModelPath) :
    let s := given reactorPoms repositoryPoms
    Waiting (reactorPoms ++ repositoryPoms) s ∧ (∀ pom ∈ reactorPoms, (pom, true) ∈ s.visited) ∧
      ∀ pom ∈ repositoryPoms, pom ∈ s.paths := by
  have hstart : Waiting (reactorPoms ++ repositoryPoms) start := ⟨nofun, nofun, nofun⟩
  obtain ⟨hreactor, -, hmem, hrole⟩ :=
    waiting_enqueueAll true reactorPoms (List.subset_append_left _ _) hstart
  obtain ⟨hall, hsub, hmem', -⟩ :=
    waiting_enqueueAll false repositoryPoms (List.subset_append_right _ _) hreactor
  refine ⟨hall, fun pom hpom => hsub ?_, hmem'⟩
  obtain ⟨⟨p, r⟩, he, rfl⟩ := List.mem_map.mp (hmem pom hpom)
  obtain rfl : r = true := (hrole _ he).resolve_left List.not_mem_nil
  exact he

end ModelWalk

/-! ## 8. Completeness -/

/-- A POM is reached from the given ones. -/
def Reached (files : ModelFiles) (reactorPoms repositoryPoms : List ModelPath)
    (e : ModelPath × Bool) : Prop :=
  (∃ pom ∈ reactorPoms, Relation.ReflTransGen files.Follows (pom, true) e) ∨
    ∃ pom ∈ repositoryPoms, Relation.ReflTransGen files.Follows (pom, false) e

namespace ModelWalk

/-- What the final state has of a POM that is reached. -/
def Has (files : ModelFiles) (s : ModelWalk) (e : ModelPath × Bool) : Prop :=
  e.1 ∈ s.paths ∧ (e.2 = true → files.relativeParentOf e.1 ≠ none → (e.1, true) ∈ s.visited)

variable {files : ModelFiles}

/-- **The finished walk is closed** under the edges of the graph. -/
theorem Has.follow {given : List ModelPath} {s : ModelWalk} (hinv : Inv files given s)
    (hdone : s.queue = []) {e e' : ModelPath × Bool} (h : Has files s e)
    (hfollows : files.Follows e e') : Has files s e' := by
  have htreated : ∀ e ∈ s.visited, Treated files s e := fun e he =>
    (hinv.treated e he).resolve_left (hdone ▸ List.not_mem_nil)
  cases hfollows with
  | relative hparent =>
    have hvisited := h.2 rfl (by rw [hparent]; exact Option.some_ne_none _)
    obtain ⟨hmem, hrole⟩ := (htreated _ hvisited).relative rfl _ hparent
    exact ⟨hmem, fun _ => hrole⟩
  | repository hmem =>
    obtain ⟨⟨pom, role⟩, hvisited, rfl⟩ := List.mem_map.mp h.1
    exact ⟨(htreated _ hvisited).repository _ hmem, nofun⟩

end ModelWalk

def modelInputs (files : ModelFiles) (reactorPoms repositoryPoms : List ModelPath) :
    Option ModelInputs :=
  ((ModelWalk.given reactorPoms repositoryPoms).run files).map fun walk =>
    ⟨walk.inputs, walk.envReferences⟩

/-- **The inputs are complete**, for a walk that reaches no POM through a relative path which was
queued as a POM of the repository and has a relative parent: each POM that the graph leads to is
given, an input or in a stamped directory, and the variables it references are collected. -/
theorem modelInputs_complete (files : ModelFiles) (reactorPoms repositoryPoms : List ModelPath)
    {inputs : ModelInputs} (h : modelInputs files reactorPoms repositoryPoms = some inputs)
    (htime : ∀ s, Relation.ReflTransGen (Loop.Goes (ModelWalk.round files))
      (ModelWalk.given reactorPoms repositoryPoms) s → s.InTime files) :
    ∀ e, Reached files reactorPoms repositoryPoms e →
      (e.1 ∈ reactorPoms ++ repositoryPoms ∨ ModelWalk.Recorded inputs.paths e.1) ∧
        (files.isFile e.1 = true → ∃ xml names, files.text e.1 = some xml ∧
          envReferences (Utf8.encode xml) = some names ∧ names ⊆ inputs.envReferences) := by
  obtain ⟨walk, hrun, rfl⟩ := Option.map_eq_some_iff.mp h
  obtain ⟨hwaiting, hreactor, hrepository⟩ :=
    ModelWalk.waiting_given reactorPoms repositoryPoms
  obtain ⟨t, hrounds, hend⟩ := Loop.exists_end_of_iterate
    (fun _ _ h => ModelWalk.measure_of_round h) (ModelWalk.given reactorPoms repositoryPoms)
  change ModelWalk.round files t = .inr (ModelWalk.run files _) at hend
  rw [hrun] at hend
  -- the invariant holds in the last state, and all that was given is visited there
  have hlast : ModelWalk.Inv files (reactorPoms ++ repositoryPoms) t ∧
      (ModelWalk.given reactorPoms repositoryPoms).visited ⊆ t.visited := by
    clear hend
    induction hrounds with
    | refl => exact ⟨hwaiting.inv, List.Subset.refl _⟩
    | tail hprev hround ih =>
      obtain ⟨hinv, hsub⟩ := ModelWalk.inv_of_round hround ih.1 (htime _ hprev)
      exact ⟨hinv, List.Subset.trans ih.2 hsub⟩
  obtain ⟨hinv, hsub⟩ := hlast
  have hdone : t.queue = [] ∧ t = walk := by
    unfold ModelWalk.round at hend
    split at hend
    · rename_i hqueue
      exact ⟨hqueue, Option.some.inj (Sum.inr.inj hend)⟩
    · split at hend
      · cases hend
      · cases hend
  obtain ⟨hqueue, rfl⟩ := hdone
  intro e he
  have hhas : t.Has files e := by
    rcases he with ⟨pom, hpom, hpath⟩ | ⟨pom, hpom, hpath⟩
    · induction hpath with
      | refl =>
        have hvisited := hsub (hreactor pom hpom)
        exact ⟨List.mem_map_of_mem hvisited, fun _ _ => hvisited⟩
      | tail _ hfollows ih => exact ih.follow hinv hqueue hfollows
    · induction hpath with
      | refl => exact ⟨List.map_subset _ hsub (hrepository pom hpom), nofun⟩
      | tail _ hfollows ih => exact ih.follow hinv hqueue hfollows
  obtain ⟨e', hvisited, hpath⟩ := List.mem_map.mp hhas.1
  have htreated : ModelWalk.Treated files t e' :=
    (hinv.treated e' hvisited).resolve_left (hqueue ▸ List.not_mem_nil)
  rw [← hpath]
  exact ⟨hinv.recorded e' hvisited, htreated.names⟩

/-! ## 9. A BOM that is a parent, too -/

/-- The path below the root. -/
def below (names : List String) : ModelPath :=
  .rootDir :: names.map fun name => .normal (Utf8.encode name.toList)

/-- A POM with a parent of version 1 and imports of version 1. -/
def pomWith (groupId artifactId : String) (relativePath : Option String)
    (imports : List (String × String)) : ModelPom where
  groupId := some "app".toList
  artifactId := some "app".toList
  parent := some
    { groupId := some groupId.toList
      artifactId := some artifactId.toList
      version := some ['1']
      relativePath := relativePath.map String.toList }
  dependencyManagement := imports.map fun (groupId, artifactId) =>
    { groupId := some groupId.toList
      artifactId := some artifactId.toList
      version := some ['1']
      scope := some "import".toList }
  profiles := []

/-- A path without its steps to the parent. -/
def normalize (path : ModelPath) : ModelPath :=
  path.foldl (fun path c => if c = .parentDir then path.dropLast else path ++ [c]) []

/-- These POMs, by canonical path, with the text that is parsed to each. -/
def bomFiles (poms : List (ModelPath × Str × ModelPom)) : ModelFiles where
  bytes path := (poms.lookup path).map fun pom => Utf8.encode pom.1
  events _ := []
  maxXmlBytes := 100
  isFile path := (poms.lookup path).isSome
  isDir _ := false
  canonicalize path := (poms.lookup (normalize path)).map fun _ => normalize path
  readDir _ := none
  parse xml := (poms.map Prod.snd).lookup xml
  repository := some (below ["repo"])

def appPom : ModelPath := below ["app", "pom.xml"]
def bomPom : ModelPath := below ["repo", "b", "bom", "1", "bom-1.pom"]
def bomParent : ModelPath := below ["repo", "b", "bom", "pom.xml"]

/-- A reactor POM that imports a BOM of the repository; its local parent, with a relative path of
its own; the BOM, and the local parent of the BOM. -/
def bomPoms (bomPath : String) : List (ModelPath × Str × ModelPom) :=
  [(appPom, "app".toList, pomWith "p" "parent" (some "../parent/pom.xml") [("b", "bom")]),
    (below ["parent", "pom.xml"], "parent".toList, pomWith "b" "bom" (some bomPath) []),
    (bomPom, "bom".toList, pomWith "g" "grand" none []),
    (bomParent, "grand".toList, pomWith "g" "great" (some "") [])]

/-- Where the local parent has no parent, each local parent is one at most. -/
theorem modelInputs_complete_bom : ∃ inputs,
    modelInputs (bomFiles (bomPoms "")) [appPom] [] = some inputs ∧
      ModelWalk.Recorded inputs.paths (below ["parent", "pom.xml"]) := by
  have hrun : ((modelInputs (bomFiles (bomPoms "")) [appPom] []).isSome) = true := by
    have hfirst : (Loop.first (ModelWalk.round (bomFiles (bomPoms ""))) 10
        (ModelWalk.given [appPom] [])).any Option.isSome = true := by decide +kernel
    obtain ⟨result, hresult, hsome⟩ := (Option.any_eq_true _ _).mp hfirst
    rw [modelInputs, ModelWalk.run, Loop.iterate_eq_of_first _ hresult, Option.isSome_map]
    exact hsome
  obtain ⟨inputs, hinputs⟩ := Option.isSome_iff_exists.mp hrun
  have hparents : ∀ pom ∈ (bomPoms "").map Prod.fst,
      ((bomFiles (bomPoms "")).relativeParentOf pom).all
        fun target => ((bomFiles (bomPoms "")).relativeParentOf target).isNone := by
    decide +kernel
  have htime : ∀ s, Relation.ReflTransGen (Loop.Goes (ModelWalk.round (bomFiles (bomPoms ""))))
      (ModelWalk.given [appPom] []) s → s.InTime (bomFiles (bomPoms "")) := by
    intro s _ pom queue target _ htarget _
    have hpom : pom ∈ (bomPoms "").map Prod.fst := by
      by_contra hnot
      have hfile : (bomFiles (bomPoms "")).isFile pom = false := by
        simp only [bomFiles, Option.isSome_eq_false_iff, Option.isNone_iff_eq_none,
          List.lookup_eq_none_iff, bne_iff_ne]
        rintro entry hentry rfl
        exact hnot (List.mem_map_of_mem hentry)
      simp [ModelFiles.relativeParentOf, ModelFiles.model, hfile] at htarget
    have hall := hparents pom hpom
    rw [htarget] at hall
    exact Option.isNone_iff_eq_none.mp hall
  have hreached : Reached (bomFiles (bomPoms "")) [appPom] [] (below ["parent", "pom.xml"], true) :=
    .inl ⟨appPom, List.mem_singleton_self _, .single (.relative (by decide +kernel))⟩
  obtain ⟨hrecorded, -⟩ := modelInputs_complete _ _ _ hinputs htime _ hreached
  exact ⟨inputs, hinputs, hrecorded.resolve_left (by decide +kernel)⟩

/-- **The local parent of the BOM is not recorded**, though relative paths lead there. -/
theorem modelInputs_incomplete : ∃ inputs,
    modelInputs (bomFiles (bomPoms "../repo/b/bom/1/bom-1.pom")) [appPom] [] = some inputs ∧
      Reached (bomFiles (bomPoms "../repo/b/bom/1/bom-1.pom")) [appPom] [] (bomParent, true) ∧
      ¬ (bomParent ∈ [appPom] ++ [] ∨ ModelWalk.Recorded inputs.paths bomParent) := by
  have hfirst : (Loop.first (ModelWalk.round (bomFiles (bomPoms "../repo/b/bom/1/bom-1.pom"))) 10
      (ModelWalk.given [appPom] [])).any
        (fun result => result.any fun walk => !decide (ModelWalk.Recorded walk.inputs bomParent))
        = true := by decide +kernel
  obtain ⟨result, hresult, hwalk⟩ := (Option.any_eq_true _ _).mp hfirst
  obtain ⟨walk, rfl, hmissing⟩ := (Option.any_eq_true _ _).mp hwalk
  refine ⟨⟨walk.inputs, walk.envReferences⟩, ?_, .inl ⟨appPom, List.mem_singleton_self _, ?_⟩, ?_⟩
  · rw [modelInputs, ModelWalk.run, Loop.iterate_eq_of_first _ hresult]
    rfl
  · refine .trans (.single (.relative (?_ : _ = some (below ["parent", "pom.xml"])))) ?_
    · decide +kernel
    · refine .trans (.single (.relative (?_ : _ = some bomPom))) (.single (.relative ?_))
      · decide +kernel
      · decide +kernel
  · rintro (hgiven | hrecorded)
    · exact absurd hgiven (by decide +kernel)
    · simp [hrecorded] at hmissing

end IndexCache
end MavenMcp
