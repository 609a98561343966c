/-
# Reading the verbose dependency tree

`parse_dependency_resolution` walks over the lines of `dependency:tree -Dverbose`.  It keeps the
module that a root line or a plugin header announced last, and the stack of coordinates from that
root to the node seen last; a node at depth `d` keeps the first `d` of them as its ancestors.
Every node becomes one path, filed under the identity of its artifact.
-/
import Mathlib.Data.List.Sort
import MavenMcp.Lib.Table
import MavenMcp.Paths
import MavenMcp.Dependencies.Coordinate

namespace MavenMcp

open Text

/-! ## 1. Data -/

/-- A module of the reactor; the root project is not among them. -/
structure MavenModule where
  selector : Str
  artifactId : Str
deriving DecidableEq, Repr

structure MavenProject where
  artifactId : Str
  modules : List MavenModule
deriving DecidableEq, Repr

inductive DependencyPathStatus
  | selected
  | conflictOmitted
  | duplicateOmitted
  | excluded
deriving DecidableEq, Repr

inductive DependencySelectionReason
  | directDeclaration
  | nearestDefinition
  | dependencyManagement
  | onlyCandidate
deriving DecidableEq, Repr

/-- The order of the variants, as derived. -/
def DependencySelectionReason.rank : DependencySelectionReason → Nat
  | directDeclaration => 0
  | nearestDefinition => 1
  | dependencyManagement => 2
  | onlyCandidate => 3

structure DependencyResolutionPath where
  inModule : Str
  nodes : List Str
  requestedVersion : Str
  status : DependencyPathStatus
  annotations : List Str
deriving DecidableEq, Repr

structure DependencyResolutionExplanation where
  artifact : Str
  selectedVersion : Option Str
  requestedVersions : List Str
  selectionReasons : List DependencySelectionReason
  paths : List DependencyResolutionPath
deriving DecidableEq, Repr

structure ParsedDependencyResolution where
  explanations : List DependencyResolutionExplanation
  malformed : Bool
deriving DecidableEq, Repr

structure ParsedDependencyCoordinate where
  identity : Str
  coordinate : Str
  version : Str
deriving DecidableEq, Repr

structure ParsedDependencyLine where
  depth : Nat
  coordinate : ParsedDependencyCoordinate
  status : DependencyPathStatus
  annotations : List Str
  requestedVersion : Str
deriving DecidableEq, Repr

structure DependencyExplanationBuilder where
  selectedVersion : Option Str
  requestedVersions : List Str
  selectionReasons : List DependencySelectionReason
  paths : List DependencyResolutionPath
deriving DecidableEq, Repr

/-- `DependencyExplanationBuilder::default`. -/
def DependencyExplanationBuilder.empty : DependencyExplanationBuilder :=
  { selectedVersion := none, requestedVersions := [], selectionReasons := [], paths := [] }

/-- `BTreeSet::insert`, on the elements in their order. -/
def setInsert {α : Type} [DecidableEq α] (le : α → α → Bool) (x : α) (s : List α) : List α :=
  if x ∈ s then s else s.orderedInsert (fun a b => le a b = true) x

/-- A version into the set of requested versions. -/
def insertVersion (version : Str) (s : List Str) : List Str := setInsert strLe version s

/-- A reason into the set of reasons. -/
def insertReason (reason : DependencySelectionReason) (s : List DependencySelectionReason) :
    List DependencySelectionReason :=
  setInsert (fun a b => decide (a.rank ≤ b.rank)) reason s

/-! ## 2. Lines -/

def mavenLogMessage (line : Str) : Str :=
  let line := trimEndMatches isWhitespace (trimStartMatches isWhitespace line)
  let levels := ["[INFO]".toList, "[WARNING]".toList, "[WARN]".toList, "[ERROR]".toList]
  match levels.findSome? fun level => stripPrefix level line with
  | some message => trimEndMatches isWhitespace ((stripPrefix [' '] message).getD message)
  | none => line

def pluginModuleArtifact (line : Str) : Option Str :=
  match splitOnceStr " @ ".toList line with
  | none => none
  | some (_, remainder) =>
    let artifact := trim (trimEndMatches (· = '-') remainder)
    if artifact.isEmpty then none else some artifact

def moduleSelector (project : MavenProject) (artifactId : Str) : Str :=
  match project.modules.find? fun m => m.artifactId = artifactId with
  | some m => m.selector
  | none => ['.']

def normalizeCoordinate : List Str → Option Str
  | [group, artifact, _kind, version] => some (colons [group, artifact, version])
  | [group, artifact, _kind, classifier, version] =>
    some (colons [group, artifact, version, classifier])
  | _ => none

def parseRootCoordinate (line : Str) : Option (Str × Str) :=
  if line.any isWhitespace || startsWith ['('] line then none
  else
    let parts := line.splitOn ':'
    if ¬ (4 ≤ parts.length ∧ parts.length ≤ 5) ∨ parts.any List.isEmpty then none
    else
      match normalizeCoordinate parts with
      | some normalized => some (parts.getD 1 [], normalized)
      | none => none

def splitDependencyAnnotations (value : Str) : Str × List Str :=
  let trimmed := trim value
  match ((stripPrefix ['('] trimmed).bind (stripSuffix [')'])).bind (splitOnceStr " - ".toList) with
  | some (coordinate, annotation) => (trim coordinate, [trim annotation])
  | none =>
    match rsplitOnceStr " (".toList trimmed with
    | some (coordinate, annotation) =>
      (trim coordinate, [trim (trimEndMatches (· = ')') annotation)])
    | none => (trimmed, [])

def parseDependencyCoordinate (parts : List Str) : Option ParsedDependencyCoordinate :=
  if ¬ (parts.length = 5 ∨ parts.length = 6) ∨ parts.any List.isEmpty then none
  else do
    let scopeIndex ← parts.findIdx? isDependencyScope
    let versionIndex ←
      match parts.length, scopeIndex with
      | 5, 4 => some 3
      | 5, 3 => some 4
      | 6, 5 => some 4
      | 6, 4 => some 5
      | _, _ => none
    let part := fun i => parts.getD i []
    let classifier := if parts.length = 6 then [part 3] else []
    some
      { identity := colons ([part 0, part 1, part 2] ++ classifier)
        coordinate :=
          if parts.length = 6 then colons [part 0, part 1, part versionIndex, part 3]
          else colons [part 0, part 1, part versionIndex]
        version := part versionIndex }

def managedFromVersion (annotations : List Str) : Option Str :=
  annotations.findSome? fun annotation =>
    let lowercase := toAsciiLowercase annotation
    match find "version managed from ".toList lowercase with
    | none => none
    | some (front, _) =>
      -- lowering ASCII letters moves no offset
      let version :=
        (List.drop (front.length + "version managed from ".toList.length) annotation).takeWhile
        fun c => c ∉ [';', ',', ' ']
      if version.isEmpty then none else some version

/-- What an annotation says about the node. -/
def annotationStatus (annotationText : Str) : DependencyPathStatus :=
  if contains "excluded".toList annotationText || contains "exclusion".toList annotationText then
    .excluded
  else if contains "omitted for conflict".toList annotationText then .conflictOmitted
  else if contains "omitted for duplicate".toList annotationText then .duplicateOmitted
  else .selected

/-- `parse_dependency_line`, on the line cut in front of the marker. -/
def parseDependencyLine (front rest : Str) : Option ParsedDependencyLine :=
  let depth := byteLen front / 3 + 1
  let value := trim (rest.drop 3)
  let (coordinateText, annotations) := splitDependencyAnnotations value
  let isParen := fun c => c = '(' || c = ')'
  let parts := (trimEndMatches isParen (trimStartMatches isParen coordinateText)).splitOn ':'
  match parseDependencyCoordinate parts with
  | none => none
  | some coordinate =>
    let annotationText := toAsciiLowercase ("; ".toList.intercalate annotations)
    some
      { depth, coordinate, status := annotationStatus annotationText, annotations
        requestedVersion := (managedFromVersion annotations).getD coordinate.version }

/-! ## 3. The walk over the lines -/

/-- The builders, by the identity of the artifact. -/
abbrev Builders := Table Str DependencyExplanationBuilder

/-- The variables of the loop. -/
structure ResolutionState where
  builders : Builders
  pathStack : List Str
  inModule : Str
  malformed : Bool

/-- One more path of an artifact, and what its line says about the selection. -/
def DependencyExplanationBuilder.add (builder : DependencyExplanationBuilder)
    (parsed : ParsedDependencyLine) (path : DependencyResolutionPath) :
    DependencyExplanationBuilder :=
  let selected := parsed.status = .selected
  let direct := selected ∧ parsed.depth = 1
  let managed := parsed.annotations.any fun annotation =>
    contains "managed".toList (toAsciiLowercase annotation)
  let reasons := builder.selectionReasons
  let reasons := if direct then insertReason .directDeclaration reasons else reasons
  let reasons := if managed then insertReason .dependencyManagement reasons else reasons
  { selectedVersion := if selected then some parsed.coordinate.version else builder.selectedVersion
    requestedVersions := insertVersion parsed.requestedVersion builder.requestedVersions
    selectionReasons := reasons
    paths := builder.paths ++ [path] }

/-- The rest of the loop's body, once the line of a node is parsed. -/
def ResolutionState.visit (s : ResolutionState) (parsed : ParsedDependencyLine) :
    ResolutionState :=
  let parentCount := min parsed.depth s.pathStack.length
  let pathStack := s.pathStack.take parentCount ++ [parsed.coordinate.coordinate]
  let path : DependencyResolutionPath :=
    { inModule := s.inModule
      nodes := pathStack
      requestedVersion := parsed.requestedVersion
      status := parsed.status
      annotations := parsed.annotations }
  let builder := (s.builders.lookup parsed.coordinate.identity).getD .empty
  { s with
    builders := s.builders.insert parsed.coordinate.identity (builder.add parsed path)
    pathStack }

/-- The body of the loop. -/
def resolveLine (project : MavenProject) (s : ResolutionState) (rawLine : Str) : ResolutionState :=
  let line := mavenLogMessage rawLine
  match pluginModuleArtifact line with
  | some artifactId => { s with inModule := moduleSelector project artifactId, pathStack := [] }
  | none =>
    match findMarker line with
    | none =>
      match parseRootCoordinate line with
      | some (artifactId, root) =>
        { s with inModule := moduleSelector project artifactId, pathStack := [root] }
      | none => s
    | some (front, rest) =>
      match parseDependencyLine front rest with
      | none => { s with malformed := true }
      | some parsed => s.visit parsed

def addMediationReason (builder : DependencyExplanationBuilder) : DependencyExplanationBuilder :=
  let hasConflict := builder.paths.any fun path => path.status = .conflictOmitted
  if hasConflict then
    if .directDeclaration ∈ builder.selectionReasons then builder
    else
      { builder with
        selectionReasons := insertReason .nearestDefinition builder.selectionReasons }
  else if builder.requestedVersions.length = 1 then
    { builder with selectionReasons := insertReason .onlyCandidate builder.selectionReasons }
  else builder

/-- A builder as it is reported. -/
def explanationOf (artifact : Str) (builder : DependencyExplanationBuilder) :
    DependencyResolutionExplanation :=
  let builder := addMediationReason builder
  { artifact
    selectedVersion := builder.selectedVersion
    requestedVersions := builder.requestedVersions
    selectionReasons := builder.selectionReasons
    paths := builder.paths }

/-- The variables of the loop before it. -/
def ResolutionState.initial : ResolutionState :=
  { builders := ∅, pathStack := [], inModule := ['.'], malformed := false }

def parseDependencyResolution (output : Str) (project : MavenProject) :
    ParsedDependencyResolution :=
  let s := (lines output).foldl (resolveLine project) .initial
  { explanations :=
      (s.builders.entries.mergeSort fun a b => strLe a.1 b.1).map fun e => explanationOf e.1 e.2
    malformed := s.malformed }

end MavenMcp
