/-
# Comparing the API of two versions

`compare_artifact_api_at` reads two JARs of the repository and reports how their public classes
differ: the classes added and removed, and for each other class the members and interfaces added
and removed and both superclasses.

What a JAR publishes is told without its archive (`published`): the last classfile, in the order of
the class names, that is public and names itself so.  A diff `Describes` two published APIs when
its lists are patches that lead from the one to the other.

* `compareArtifactApiAt_exact`: the answer describes the two JARs, and nothing else does.
* `compareArtifactApiAt_swap`: the other way around, it is the same answer reversed.
* `unreported_iff`: a class is left out although a member of it was added or removed exactly when a
  constructor and a method of the name of the class took each other's place.
-/
import MavenMcp.Index.ClassDescription
import MavenMcp.Index.Containment
import MavenMcp.Index.Layout
import MavenMcp.Index.Preflight
import MavenMcp.Lib.Delimited
import MavenMcp.Lib.OrderedSet

namespace MavenMcp
namespace Index

open Text
open OrderedSet (IsPatch Ascending elements carrier)

/-! ## 1. The comparison -/

/-- `str::cmp`. -/
abbrev textCompare : Str → Str → Ordering := List.compareLex charCompare

abbrev TextSet := OrderedSet Str textCompare

abbrev ClassMap (α : Type) := OrderedMap Str α textCompare

structure ClassApiChange where
  className : Str
  addedMembers : List Str
  removedMembers : List Str
  previousSuperClass : Option Str
  currentSuperClass : Option Str
  addedInterfaces : List Str
  removedInterfaces : List Str
deriving DecidableEq, Repr

structure ArtifactApiDiff where
  groupId : Str
  artifactId : Str
  previousVersion : Str
  currentVersion : Str
  addedClasses : List Str
  removedClasses : List Str
  changedClasses : List ClassApiChange
deriving DecidableEq, Repr

def isApiVisibility : Visibility → Bool
  | .public | .protected => true
  | _ => false

def methodText (name descriptor : Str) : Str := "method:".toList ++ (name ++ descriptor)

def fieldText (name descriptor : Str) : Str := "field:".toList ++ (name ++ ':' :: descriptor)

def apiMembers (description : ClassDescription) : TextSet :=
  let methods := (description.constructors ++ description.methods).filter fun member =>
    isApiVisibility member.visibility
  let fields := description.fields.filter fun member => isApiVisibility member.visibility
  .ofList ((methods.map fun member => methodText member.name member.descriptor) ++
    fields.map fun member => fieldText member.name member.descriptor)

def apiInterfaces (description : ClassDescription) : TextSet := .ofList description.interfaces

/-- The change of one class that both versions have. -/
def classChange (className : Str) (previous current : ClassDescription) : ClassApiChange :=
  { className
    addedMembers := ((apiMembers current).difference (apiMembers previous)).elements
    removedMembers := ((apiMembers previous).difference (apiMembers current)).elements
    previousSuperClass := previous.superClass
    currentSuperClass := current.superClass
    addedInterfaces := ((apiInterfaces current).difference (apiInterfaces previous)).elements
    removedInterfaces := ((apiInterfaces previous).difference (apiInterfaces current)).elements }

/-- Nothing is added, removed or replaced. -/
def ClassApiChange.isEmpty (c : ClassApiChange) : Bool :=
  c.addedMembers.isEmpty && c.removedMembers.isEmpty && c.addedInterfaces.isEmpty &&
    c.removedInterfaces.isEmpty && decide (c.previousSuperClass = c.currentSuperClass)

def changedClasses (previous current : ClassMap ClassDescription) : List ClassApiChange :=
  previous.entries.filterMap fun (className, previousClass) =>
    match current.lookup className with
    | none => none
    | some currentClass =>
      let change := classChange className previousClass currentClass
      if change.isEmpty then none else some change

def compareApis (groupId artifactId previousVersion currentVersion : Str)
    (previous current : ClassMap ClassDescription) : ArtifactApiDiff :=
  { groupId, artifactId, previousVersion, currentVersion
    addedClasses := current.keys.filter fun className => (previous.lookup className).isNone
    removedClasses := previous.keys.filter fun className => (current.lookup className).isNone
    changedClasses := changedClasses previous current }

/-! ## 2. The API of one JAR -/

/-- The repository on disk, and what reads JARs and classfiles. -/
structure Repository where
  tree : FileTree.Tree FsName
  read : List FsName → Option (List UInt8)
  openZip : List UInt8 → Option ZipArchive
  parseClass : List UInt8 → Option Classfile

inductive CompareError
  /-- `coordinate must use exact groupId:artifactId:version form`. -/
  | coordinate
  | path (error : PathError)
  /-- `binary artifact version is not locally available: {coordinate}`. -/
  | notAvailable (coordinate : Str)
  /-- `ArchiveLimit`. -/
  | limit (name : String)
  /-- `invalid ZIP/JAR`, of an archive that the preflight cannot verify. -/
  | invalidJar
  | unreadable
  | describe (error : DescribeError)
deriving DecidableEq, Repr

def exactCoordinate (groupId artifactId version : Str) : Str :=
  groupId ++ ':' :: artifactId ++ ':' :: version

/-- What is described of a JAR: a record without facts. -/
def apiRecord (root : PathBuf) (path : List FsName) (key : ArtifactKey) (index : JarIndex) :
    JarRecord :=
  { key
    classifier := none
    relativePath := relativeSlashPath root (pathOf path)
    path := pathOf path
    classes := index.classes
    entries := index.entries
    classEntries := index.classEntries
    multiRelease := index.multiRelease
    factStrings := []
    classFacts := []
    providers := [] }

/-- The loop of `public_class_api` over the classes of a JAR. -/
def collectApi (parseClass : List UInt8 → Option Classfile) (archive : ClassArchive)
    (jar : JarRecord) (maxSourceBytes : Nat) :
    List Str → ClassMap ClassDescription → Except DescribeError (ClassMap ClassDescription)
  | [], api => .ok api
  | className :: rest, api =>
    match readClassDescriptionFrom parseClass archive jar (summary jar) className maxSourceBytes
      false with
    | .error e => .error e
    | .ok description =>
      collectApi parseClass archive jar maxSourceBytes rest
        (if description.visibility = .public then api.insert description.className description
          else api)

namespace Repository

variable (repo : Repository) (root : PathBuf) (maxSourceBytes : Nat)

def exactBinaryJarPath (key : ArtifactKey) : Except CompareError (List FsName) :=
  match containedArtifactPath repo.tree (stepsOf root) key (ArtifactFile.jar.name key) with
  | .error e => .error (.path e)
  | .ok path =>
    match path.filter fun path => repo.tree.node path = some .file with
    | none => .error (.notAvailable (exactCoordinate key.groupId key.artifactId key.version))
    | some path => .ok path

/-- `public_class_api`, once the preflight passed. -/
def readApi (path : List FsName) (key : ArtifactKey) (bytes : List UInt8) :
    Except CompareError (ClassMap ClassDescription) :=
  match (ClassArchive.open repo.openZip (.file bytes)).bind fun archive =>
    (readJarIndex archive).map fun index => (archive, index) with
  | none => .error .unreadable
  | some (archive, index) =>
    match collectApi repo.parseClass archive (apiRecord root path key index) maxSourceBytes
      index.classes .empty with
    | .error e => .error (.describe e)
    | .ok api => .ok api

def publicClassApi (path : List FsName) (key : ArtifactKey) (budget : ArchiveBudget) :
    Except CompareError (ClassMap ClassDescription) × ArchiveBudget :=
  match repo.read path with
  | none => (.error .invalidJar, budget)
  | some bytes =>
    match preflight (.file bytes) budget with
    | (.error (.limit name), budget) => (.error (.limit name), budget)
    | (.error (.malformed _), budget) => (.error .invalidJar, budget)
    | (.ok (), budget) => (repo.readApi root maxSourceBytes path key bytes, budget)

/-- `parse_exact_coordinate` of the three parts. -/
def exactKey (groupId artifactId version : Str) : Except CompareError ArtifactKey :=
  match parseExactCoordinate (exactCoordinate groupId artifactId version) with
  | none => .error .coordinate
  | some key => .ok key

/-- Both JARs draw on the one budget, the previous version first. -/
def bothApis (budget : ArchiveBudget) (previous current : ArtifactKey × List FsName) :
    Except CompareError (ClassMap ClassDescription × ClassMap ClassDescription) :=
  match repo.publicClassApi root maxSourceBytes previous.2 previous.1 budget with
  | (.error e, _) => .error e
  | (.ok previousApi, budget) =>
    match repo.publicClassApi root maxSourceBytes current.2 current.1 budget with
    | (.error e, _) => .error e
    | (.ok currentApi, _) => .ok (previousApi, currentApi)

def compareArtifactApiAt (budget : ArchiveBudget)
    (groupId artifactId previousVersion currentVersion : Str) :
    Except CompareError ArtifactApiDiff := do
  let previousKey ← exactKey groupId artifactId previousVersion
  let currentKey ← exactKey groupId artifactId currentVersion
  let previousPath ← repo.exactBinaryJarPath root previousKey
  let currentPath ← repo.exactBinaryJarPath root currentKey
  let apis ←
    repo.bothApis root maxSourceBytes budget (previousKey, previousPath) (currentKey, currentPath)
  return compareApis groupId artifactId previousVersion currentVersion apis.1 apis.2

end Repository

/-! ## 3. What is published -/

/-- A class as a dependent sees it. -/
structure ApiClass where
  members : Set Str
  interfaces : Set Str
  superClass : Option Str

/-- The member is public or protected. -/
def MemberInfo.IsApi (m : MemberInfo) : Prop :=
  m.accessFlags &&& 0x0001 ≠ 0 ∨ m.accessFlags &&& 0x0004 ≠ 0

/-- The name of a method in a description. -/
def Classfile.methodName (file : Classfile) (method : MemberInfo) : Str :=
  if method.name = initName then simpleName (binaryName file.thisClass) else method.name

def Classfile.Methods (file : Classfile) (name descriptor : Str) : Prop :=
  ∃ m ∈ file.methods, m.name ≠ clinitName ∧ m.IsApi ∧ file.methodName m = name ∧
    m.descriptor = descriptor

def Classfile.Fields (file : Classfile) (name descriptor : Str) : Prop :=
  ∃ f ∈ file.fields, f.IsApi ∧ f.name = name ∧ f.descriptor = descriptor

def Classfile.api (file : Classfile) : ApiClass where
  members := {text | ∃ name descriptor,
    (file.Methods name descriptor ∧ methodText name descriptor = text) ∨
      (file.Fields name descriptor ∧ fieldText name descriptor = text)}
  interfaces := {name | ∃ i ∈ file.interfaces, binaryName i = name}
  superClass := file.superClass.map binaryName

/-- The last public classfile that names itself so. -/
def publicFile (files : List Classfile) (name : Str) : Option Classfile :=
  files.reverse.find? fun file =>
    hasFlag file.accessFlags publicFlag && decide (binaryName file.thisClass = name)

def published (files : List Classfile) (name : Str) : Option ApiClass :=
  (publicFile files name).map Classfile.api

/-- The JAR of these coordinates is a readable file of the repository, and these are its classfiles
in the order of the class names. -/
def Repository.Holds (repo : Repository) (root : PathBuf) (maxSourceBytes : Nat)
    (groupId artifactId version : Str) (files : List Classfile) : Prop :=
  ∃ key path bytes archive index,
    parseExactCoordinate (exactCoordinate groupId artifactId version) = some key ∧
    containedArtifactPath repo.tree (stepsOf root) key (ArtifactFile.jar.name key)
      = .ok (some path) ∧
    repo.tree.node path = some .file ∧ repo.read path = some bytes ∧
    ClassArchive.open repo.openZip (.file bytes) = some archive ∧
    readJarIndex archive = some index ∧
    List.Forall₂ (fun className file => readClassfile repo.parseClass archive
      (apiRecord root path key index) className maxSourceBytes = .ok file) index.classes files

/-- The change leads from one class to the other. -/
structure ClassApiChange.Leads (c : ClassApiChange) (s t : ApiClass) : Prop where
  members : IsPatch textCompare s.members t.members c.removedMembers c.addedMembers
  interfaces : IsPatch textCompare s.interfaces t.interfaces c.removedInterfaces c.addedInterfaces
  previousSuperClass : c.previousSuperClass = s.superClass
  currentSuperClass : c.currentSuperClass = t.superClass

/-- The diff leads from one published API to the other. -/
structure Describes (previous current : Str → Option ApiClass) (d : ArtifactApiDiff) : Prop where
  classes : IsPatch textCompare {name | (previous name).isSome} {name | (current name).isSome}
    d.removedClasses d.addedClasses
  ascending : Ascending textCompare (d.changedClasses.map ClassApiChange.className)
  changed : ∀ name, name ∈ d.changedClasses.map ClassApiChange.className ↔
    ∃ s t, previous name = some s ∧ current name = some t ∧ s ≠ t
  change : ∀ c ∈ d.changedClasses, ∀ s t, previous c.className = some s →
    current c.className = some t → c.Leads s t

/-! ## 4. One classfile -/

theorem isApiVisibility_iff (m : MemberInfo) :
    isApiVisibility (memberVisibility m.accessFlags) = true ↔ m.IsApi := by
  unfold memberVisibility MemberInfo.IsApi
  by_cases hpublic : m.accessFlags &&& 0x0001 = 0
  · by_cases hprotected : m.accessFlags &&& 0x0004 = 0
    · simp only [hpublic, hprotected, ne_eq, not_true_eq_false, if_false, or_self, iff_false]
      split <;> simp [isApiVisibility]
    · simp [hpublic, hprotected, isApiVisibility]
  · simp [hpublic, isApiVisibility]

/-- What a description says of the API of a class. -/
def ClassDescription.api (description : ClassDescription) : ApiClass where
  members := carrier (apiMembers description)
  interfaces := carrier (apiInterfaces description)
  superClass := description.superClass

theorem mem_listed {file : Classfile} {m : MemberInfo} :
    m ∈ listedMethods file false ↔ m ∈ file.methods ∧ m.name ≠ clinitName := by
  simp [listedMethods]

/-- A described constructor or method is a method of the classfile. -/
theorem mem_described {s : JarSummary} {file : Classfile} {member : ClassMemberDescription} :
    member ∈ (describe s file false).constructors ++ (describe s file false).methods ↔
      ∃ m ∈ file.methods, m.name ≠ clinitName ∧ describeMethod file.thisClass m = member := by
  simp only [describe, List.mem_append, List.mem_mergeSort, List.mem_map, List.mem_filter,
    mem_listed, decide_eq_true_eq]
  constructor
  · rintro (⟨m, ⟨⟨hm, hname⟩, -⟩, rfl⟩ | ⟨m, ⟨⟨hm, hname⟩, -⟩, rfl⟩)
    · exact ⟨m, hm, hname, rfl⟩
    · exact ⟨m, hm, hname, rfl⟩
  · rintro ⟨m, hm, hname, rfl⟩
    by_cases hinit : m.name = initName
    · exact .inl ⟨m, ⟨⟨hm, hname⟩, hinit⟩, rfl⟩
    · exact .inr ⟨m, ⟨⟨hm, hname⟩, hinit⟩, rfl⟩

theorem mem_apiMembers {s : JarSummary} {file : Classfile} {text : Str} :
    text ∈ elements (apiMembers (describe s file false)) ↔ text ∈ file.api.members := by
  rw [apiMembers, OrderedSet.mem_ofList, List.mem_append]
  constructor
  · rintro (h | h)
    · obtain ⟨member, hmember, rfl⟩ := List.mem_map.mp h
      obtain ⟨hmember, hvisible⟩ := List.mem_filter.mp hmember
      obtain ⟨m, hm, hname, rfl⟩ := mem_described.mp hmember
      exact ⟨_, _, .inl ⟨⟨m, hm, hname, (isApiVisibility_iff m).mp hvisible, rfl, rfl⟩, rfl⟩⟩
    · obtain ⟨member, hmember, rfl⟩ := List.mem_map.mp h
      obtain ⟨hmember, hvisible⟩ := List.mem_filter.mp hmember
      simp only [describe, Bool.not_false, Bool.true_or, List.filter_true,
        List.mem_mergeSort] at hmember
      obtain ⟨f, hf, rfl⟩ := List.mem_map.mp hmember
      exact ⟨_, _, .inr ⟨⟨f, hf, (isApiVisibility_iff f).mp hvisible, rfl, rfl⟩, rfl⟩⟩
  · rintro ⟨name, descriptor,
      ⟨⟨m, hm, hname, hapi, rfl, rfl⟩, rfl⟩ | ⟨⟨f, hf, hapi, rfl, rfl⟩, rfl⟩⟩
    · refine .inl (List.mem_map.mpr ⟨describeMethod file.thisClass m, List.mem_filter.mpr
        ⟨mem_described.mpr ⟨m, hm, hname, rfl⟩, (isApiVisibility_iff m).mpr hapi⟩, rfl⟩)
    · refine .inr (List.mem_map.mpr ⟨describeField f, List.mem_filter.mpr
        ⟨?_, (isApiVisibility_iff f).mpr hapi⟩, rfl⟩)
      simp only [describe, Bool.not_false, Bool.true_or, List.filter_true, List.mem_mergeSort]
      exact List.mem_map_of_mem hf

theorem api_describe (s : JarSummary) (file : Classfile) :
    (describe s file false).api = file.api := by
  rw [ClassDescription.api, Classfile.api, ApiClass.mk.injEq]
  refine ⟨Set.ext fun text => mem_apiMembers, Set.ext fun name => ?_, rfl⟩
  rw [OrderedSet.mem_carrier, apiInterfaces, OrderedSet.mem_ofList]
  simp [describe]

/-! ## 5. Two published APIs -/

theorem leads_classChange (className : Str) (previous current : ClassDescription) :
    (classChange className previous current).Leads previous.api current.api where
  members := OrderedSet.isPatch_difference _ _
  interfaces := OrderedSet.isPatch_difference _ _
  previousSuperClass := rfl
  currentSuperClass := rfl

/-- A change without a list and with one superclass leads to the class that was there. -/
theorem ClassApiChange.Leads.isEmpty_iff {c : ClassApiChange} {s t : ApiClass} (h : c.Leads s t) :
    c.isEmpty = true ↔ s = t := by
  obtain ⟨members, interfaces, superClass⟩ := s
  obtain ⟨members', interfaces', superClass'⟩ := t
  have hsuper : c.previousSuperClass = c.currentSuperClass ↔ superClass = superClass' := by
    rw [h.previousSuperClass, h.currentSuperClass]
  simp only [isEmpty, Bool.and_eq_true, List.isEmpty_iff, decide_eq_true_eq, hsuper,
    ApiClass.mk.injEq]
  constructor
  · rintro ⟨⟨⟨⟨hadded, hremoved⟩, haddedInterfaces⟩, hremovedInterfaces⟩, hsuper⟩
    have hmembers := h.members
    have hinterfaces := h.interfaces
    rw [hadded, hremoved] at hmembers
    rw [haddedInterfaces, hremovedInterfaces] at hinterfaces
    exact ⟨IsPatch.nil_iff.mp hmembers, IsPatch.nil_iff.mp hinterfaces, hsuper⟩
  · rintro ⟨rfl, rfl, hsuper⟩
    have hmembers := h.members.unique (IsPatch.nil_iff.mpr rfl)
    have hinterfaces := h.interfaces.unique (IsPatch.nil_iff.mpr rfl)
    exact ⟨⟨⟨⟨hmembers.2, hmembers.1⟩, hinterfaces.2⟩, hinterfaces.1⟩, hsuper⟩

theorem ClassApiChange.Leads.unique {c c' : ClassApiChange} {s t : ApiClass} (h : c.Leads s t)
    (h' : c'.Leads s t) (hname : c.className = c'.className) : c = c' := by
  have hmembers := h.members.unique h'.members
  have hinterfaces := h.interfaces.unique h'.interfaces
  have hprevious := h.previousSuperClass.trans h'.previousSuperClass.symm
  have hcurrent := h.currentSuperClass.trans h'.currentSuperClass.symm
  cases c
  cases c'
  simp_all

/-- What a map of descriptions says. -/
def apiOf (classes : ClassMap ClassDescription) (name : Str) : Option ApiClass :=
  (classes.lookup name).map ClassDescription.api

theorem mem_changedClasses {previous current : ClassMap ClassDescription} {c : ClassApiChange} :
    c ∈ changedClasses previous current ↔ ∃ p q, previous.lookup c.className = some p ∧
      current.lookup c.className = some q ∧ c = classChange c.className p q ∧ p.api ≠ q.api := by
  have hempty (name : Str) (p q : ClassDescription) :
      (classChange name p q).isEmpty = true ↔ p.api = q.api :=
    (leads_classChange name p q).isEmpty_iff
  rw [changedClasses, List.mem_filterMap]
  constructor
  · rintro ⟨⟨name, p⟩, hp, hc⟩
    have hp := OrderedMap.mem_entries_iff.mp hp
    cases hq : current.lookup name with
    | none => simp [hq] at hc
    | some q =>
      simp only [hq, Option.ite_none_left_eq_some, Option.some.injEq] at hc
      obtain ⟨hne, rfl⟩ := hc
      exact ⟨p, q, hp, hq, rfl, fun heq => hne ((hempty name p q).mpr heq)⟩
  · rintro ⟨p, q, hp, hq, hc, hne⟩
    refine ⟨(c.className, p), OrderedMap.mem_entries_iff.mpr hp, ?_⟩
    simp only [hq]
    rw [if_neg fun h => hne ((hempty _ p q).mp h), ← hc]

/-- What is made of some elements of a list keeps their order. -/
theorem sublist_filterMap {α β γ : Type} {f : α → Option β} {g : β → γ} {key : α → γ}
    (h : ∀ a b, f a = some b → g b = key a) :
    ∀ l : List α, ((l.filterMap f).map g).Sublist (l.map key)
  | [] => .slnil
  | a :: l => by
    have ih := sublist_filterMap h l
    rw [List.filterMap_cons, List.map_cons]
    cases hf : f a with
    | none => exact ih.cons _
    | some b =>
      rw [List.map_cons, h a b hf]
      exact ih.cons_cons _

/-- The names of the changed classes are keys of the previous version, in their order. -/
theorem ascending_changedClasses (previous current : ClassMap ClassDescription) :
    Ascending textCompare
      ((changedClasses previous current).map ClassApiChange.className) := by
  refine previous.sorted.sublist (sublist_filterMap (fun e c hc => ?_) _)
  cases hq : current.lookup e.1 with
  | none => simp [hq] at hc
  | some q =>
    simp only [hq, Option.ite_none_left_eq_some, Option.some.injEq] at hc
    rw [← hc.2, classChange]

theorem mem_keys_filter {m m' : ClassMap ClassDescription} {name : Str} :
    name ∈ m.keys.filter (fun name => (m'.lookup name).isNone) ↔
      (apiOf m name).isSome ∧ ¬ (apiOf m' name).isSome := by
  rw [List.mem_filter, OrderedMap.mem_keys_iff, apiOf, apiOf, Option.isSome_map, Option.isSome_map,
    Option.isSome_iff_exists]
  simp

theorem isSome_apiOf {m : ClassMap ClassDescription} {name : Str} {s : ApiClass}
    (h : apiOf m name = some s) : ∃ p, m.lookup name = some p ∧ p.api = s :=
  Option.map_eq_some_iff.mp h

/-- **The diff of two maps** leads from what the one says to what the other says. -/
theorem describes_compareApis (groupId artifactId previousVersion currentVersion : Str)
    (previous current : ClassMap ClassDescription) :
    Describes (apiOf previous) (apiOf current)
      (compareApis groupId artifactId previousVersion currentVersion previous current) where
  classes :=
    { removed_ascending := previous.sorted.sublist List.filter_sublist
      added_ascending := current.sorted.sublist List.filter_sublist
      removed_mem := fun _ h => (mem_keys_filter.mp h).1
      added_notMem := fun _ h => (mem_keys_filter.mp h).2
      result := fun name => by
        simp only [compareApis, mem_keys_filter, Set.mem_ofPred_eq]
        tauto }
  ascending := ascending_changedClasses previous current
  changed name := by
    simp only [compareApis, List.mem_map, mem_changedClasses]
    constructor
    · rintro ⟨c, ⟨p, q, hp, hq, -, hne⟩, rfl⟩
      exact ⟨p.api, q.api, by rw [apiOf, hp]; rfl, by rw [apiOf, hq]; rfl, hne⟩
    · rintro ⟨s, t, hs, ht, hne⟩
      obtain ⟨p, hp, rfl⟩ := isSome_apiOf hs
      obtain ⟨q, hq, rfl⟩ := isSome_apiOf ht
      exact ⟨classChange name p q, ⟨p, q, hp, hq, rfl, hne⟩, rfl⟩
  change c hc s t hs ht := by
    obtain ⟨p, q, hp, hq, hchange, -⟩ := mem_changedClasses.mp hc
    rw [apiOf, hp, Option.map_some, Option.some.injEq] at hs
    rw [apiOf, hq, Option.map_some, Option.some.injEq] at ht
    rw [hchange, ← hs, ← ht]
    exact leads_classChange _ p q

/-- Lists with the same keys are equal, where a key has one element. -/
theorem eq_of_map_eq {α β : Type} {key : α → β} : ∀ {l l' : List α}, l.map key = l'.map key →
    (∀ a ∈ l, ∀ a' ∈ l', key a = key a' → a = a') → l = l'
  | [], [], _, _ => rfl
  | [], _ :: _, h, _ => by simp at h
  | _ :: _, [], h, _ => by simp at h
  | a :: l, a' :: l', h, hinj => by
    rw [List.map_cons, List.map_cons, List.cons.injEq] at h
    obtain rfl := hinj a List.mem_cons_self a' List.mem_cons_self h.1
    exact congrArg (a :: ·) (eq_of_map_eq h.2 fun b hb b' hb' =>
      hinj b (List.mem_cons_of_mem _ hb) b' (List.mem_cons_of_mem _ hb'))

/-- Two diffs that lead from the one to the other have the same lists. -/
theorem Describes.unique {previous current : Str → Option ApiClass} {d d' : ArtifactApiDiff}
    (h : Describes previous current d) (h' : Describes previous current d') :
    d.removedClasses = d'.removedClasses ∧ d.addedClasses = d'.addedClasses ∧
      d.changedClasses = d'.changedClasses := by
  obtain ⟨hremoved, hadded⟩ := h.classes.unique h'.classes
  refine ⟨hremoved, hadded, ?_⟩
  have hnames := h.ascending.eq_of_mem_iff h'.ascending fun name => by
    rw [h.changed, h'.changed]
  refine eq_of_map_eq hnames fun c hc c' hc' hname => ?_
  obtain ⟨s, t, hs, ht, -⟩ := (h.changed c.className).mp (List.mem_map_of_mem hc)
  exact (h.change c hc s t hs ht).unique (h'.change c' hc' s t (hname ▸ hs) (hname ▸ ht)) hname

/-! ## 6. The JARs -/

/-- The map that the loop makes of the classfiles it reads. -/
def collected (s : JarSummary) (files : List Classfile) (api : ClassMap ClassDescription) :
    ClassMap ClassDescription :=
  files.foldl
    (fun api file =>
      if hasFlag file.accessFlags publicFlag then
        api.insert (binaryName file.thisClass) (describe s file false)
      else api)
    api

theorem collectApi_ok_iff {parseClass : List UInt8 → Option Classfile} {archive : ClassArchive}
    {jar : JarRecord} {maxSourceBytes : Nat} : ∀ {classes : List Str}
    {api result : ClassMap ClassDescription},
    collectApi parseClass archive jar maxSourceBytes classes api = .ok result ↔
      ∃ files, List.Forall₂ (fun className file =>
          readClassfile parseClass archive jar className maxSourceBytes = .ok file) classes files ∧
        result = collected (summary jar) files api
  | [], api, result => by
    simp only [collectApi, List.forall₂_nil_left_iff, Except.ok.injEq, exists_eq_left, collected,
      List.foldl_nil]
    exact eq_comm
  | className :: rest, api, result => by
    rw [collectApi, readClassDescriptionFrom]
    cases hread : readClassfile parseClass archive jar className maxSourceBytes with
    | error e => simp [Except.map, List.forall₂_cons_left_iff, hread]
    | ok file =>
      have hvisible : (describe (summary jar) file false).visibility = .public ↔
          hasFlag file.accessFlags publicFlag = true := by
        cases hflag : hasFlag file.accessFlags publicFlag <;> simp [describe, hflag]
      simp only [Except.map, hvisible, collectApi_ok_iff, List.forall₂_cons_left_iff, hread,
        Except.ok.injEq]
      constructor
      · rintro ⟨files, hfiles, rfl⟩
        exact ⟨file :: files, ⟨file, files, rfl, hfiles, rfl⟩, rfl⟩
      · rintro ⟨_, ⟨_, files, rfl, hfiles, rfl⟩, rfl⟩
        exact ⟨files, hfiles, rfl⟩

/-- The last public classfile of a name decides. -/
theorem lookup_collected (s : JarSummary) (files : List Classfile) (name : Str) :
    (collected s files .empty).lookup name =
      (publicFile files name).map fun file => describe s file false := by
  induction files using List.reverseRecOn with
  | nil => rfl
  | append_singleton files file ih =>
    rw [collected, List.foldl_append, List.foldl_cons, List.foldl_nil, publicFile,
      List.reverse_append, List.reverse_singleton, List.singleton_append, List.find?_cons]
    by_cases hpublic : hasFlag file.accessFlags publicFlag = true
    · rw [if_pos hpublic, OrderedMap.lookup_insert]
      by_cases hname : name = binaryName file.thisClass
      · simp [hname, hpublic]
      · simp only [hname, if_false, hpublic, Bool.true_and, Ne.symm hname, decide_false]
        exact ih
    · rw [if_neg hpublic]
      simp only [hpublic, Bool.false_and]
      exact ih

theorem apiOf_collected (s : JarSummary) (files : List Classfile) :
    apiOf (collected s files .empty) = published files := by
  funext name
  rw [apiOf, lookup_collected, published, Option.map_map]
  exact congrArg (Option.map · _) (funext (api_describe s))

namespace Repository

variable {repo : Repository} {root : PathBuf} {maxSourceBytes : Nat}

/-- What reading the API of a JAR says, whatever it is charged to. -/
theorem apiOf_publicClassApi {path : List FsName} {key : ArtifactKey}
    {budget budget' : ArchiveBudget} {api : ClassMap ClassDescription}
    (h : repo.publicClassApi root maxSourceBytes path key budget = (.ok api, budget')) :
    ∃ bytes, repo.read path = some bytes ∧ preflight (.file bytes) budget = (.ok (), budget') ∧
      repo.readApi root maxSourceBytes path key bytes = .ok api := by
  unfold publicClassApi at h
  cases hread : repo.read path with
  | none => simp [hread] at h
  | some bytes =>
    simp only [hread] at h
    split at h
    · simp at h
    · simp at h
    · rename_i after hpreflight
      rw [Prod.mk.injEq] at h
      exact ⟨bytes, rfl, h.2 ▸ hpreflight, h.1⟩

/-- A JAR whose API is read holds classfiles that say it. -/
theorem holds_of_readApi {groupId artifactId version : Str} {key : ArtifactKey}
    {path : List FsName} {bytes : List UInt8} {api : ClassMap ClassDescription}
    (hkey : exactKey groupId artifactId version = .ok key)
    (hpath : repo.exactBinaryJarPath root key = .ok path) (hread : repo.read path = some bytes)
    (h : repo.readApi root maxSourceBytes path key bytes = .ok api) :
    ∃ files, repo.Holds root maxSourceBytes groupId artifactId version files ∧
      apiOf api = published files := by
  have hkey : parseExactCoordinate (exactCoordinate groupId artifactId version) = some key := by
    unfold exactKey at hkey
    split at hkey
    · cases hkey
    · rename_i hparse
      cases hkey
      exact hparse
  unfold exactBinaryJarPath at hpath
  split at hpath
  · cases hpath
  · rename_i answer hanswer
    split at hpath
    · cases hpath
    · rename_i file hfile
      obtain rfl : file = path := by simpa using hpath
      obtain ⟨rfl, hnode⟩ := Option.filter_eq_some_iff.mp hfile
      unfold readApi at h
      split at h
      · cases h
      · rename_i archive index hboth
        obtain ⟨archive', hopen, hmap⟩ := Option.bind_eq_some_iff.mp hboth
        obtain ⟨index', hindex, heq⟩ := Option.map_eq_some_iff.mp hmap
        obtain ⟨rfl, rfl⟩ := Prod.mk.inj heq
        split at h
        · cases h
        · rename_i api' hcollect
          obtain rfl : api' = api := by simpa using h
          obtain ⟨files, hfiles, rfl⟩ := collectApi_ok_iff.mp hcollect
          exact ⟨files, ⟨key, file, bytes, archive', index', hkey, hanswer, by simpa using hnode,
            hread, hopen, hindex, hfiles⟩, apiOf_collected _ _⟩

theorem bind_eq_ok {ε α β : Type} {x : Except ε α} {f : α → Except ε β} {b : β} :
    x >>= f = .ok b ↔ ∃ a, x = .ok a ∧ f a = .ok b := by
  cases x with
  | error e => simp [bind, Except.bind]
  | ok a => simp [bind, Except.bind]

/-- An answer is the diff of the two APIs that were read. -/
theorem compareArtifactApiAt_ok_iff {budget : ArchiveBudget}
    {groupId artifactId previousVersion currentVersion : Str} {d : ArtifactApiDiff} :
    repo.compareArtifactApiAt root maxSourceBytes budget groupId artifactId previousVersion
        currentVersion = .ok d ↔
      ∃ previous current, (∃ key path,
          exactKey groupId artifactId previousVersion = .ok key ∧
          repo.exactBinaryJarPath root key = .ok path ∧ previous = (key, path)) ∧
        (∃ key path, exactKey groupId artifactId currentVersion = .ok key ∧
          repo.exactBinaryJarPath root key = .ok path ∧ current = (key, path)) ∧
        ∃ apis, repo.bothApis root maxSourceBytes budget previous current = .ok apis ∧
          d = compareApis groupId artifactId previousVersion currentVersion apis.1 apis.2 := by
  simp only [compareArtifactApiAt, bind_eq_ok, pure, Except.pure, Except.ok.injEq]
  constructor
  · rintro ⟨key, hkey, key', hkey', path, hpath, path', hpath', apis, hapis, rfl⟩
    exact ⟨_, _, ⟨key, path, hkey, hpath, rfl⟩, ⟨key', path', hkey', hpath', rfl⟩, apis, hapis, rfl⟩
  · rintro ⟨_, _, ⟨key, path, hkey, hpath, rfl⟩, ⟨key', path', hkey', hpath', rfl⟩, apis, hapis,
      rfl⟩
    exact ⟨key, hkey, key', hkey', path, hpath, path', hpath', apis, hapis, rfl⟩

/-- Both APIs were read, and the budget covered both preflights. -/
theorem bothApis_ok {budget : ArchiveBudget} {previous current : ArtifactKey × List FsName}
    {apis : ClassMap ClassDescription × ClassMap ClassDescription}
    (h : repo.bothApis root maxSourceBytes budget previous current = .ok apis) :
    ∃ between after, repo.publicClassApi root maxSourceBytes previous.2 previous.1 budget
        = (.ok apis.1, between) ∧
      repo.publicClassApi root maxSourceBytes current.2 current.1 between
        = (.ok apis.2, after) := by
  unfold bothApis at h
  split at h
  · cases h
  · rename_i previousApi between hprevious
    split at h
    · cases h
    · rename_i currentApi after hcurrent
      cases h
      exact ⟨between, after, hprevious, hcurrent⟩

end Repository

/-! ## 7. Exactness -/

variable {repo : Repository} {root : PathBuf} {maxSourceBytes : Nat} {budget : ArchiveBudget}
  {groupId artifactId previousVersion currentVersion : Str} {d : ArtifactApiDiff}

/-- A diff is between two JARs that hold classfiles. -/
theorem holds_of_compare
    (h : repo.compareArtifactApiAt root maxSourceBytes budget groupId artifactId previousVersion
      currentVersion = .ok d) :
    ∃ previous current files files',
      d = compareApis groupId artifactId previousVersion currentVersion previous current ∧
      repo.Holds root maxSourceBytes groupId artifactId previousVersion files ∧
      repo.Holds root maxSourceBytes groupId artifactId currentVersion files' ∧
      apiOf previous = published files ∧ apiOf current = published files' := by
  obtain ⟨_, _, ⟨key, path, hkey, hpath, rfl⟩, ⟨key', path', hkey', hpath', rfl⟩, apis, hapis,
    rfl⟩ := Repository.compareArtifactApiAt_ok_iff.mp h
  obtain ⟨between, after, hprevious, hcurrent⟩ := Repository.bothApis_ok hapis
  obtain ⟨bytes, hread, -, hapi⟩ := Repository.apiOf_publicClassApi hprevious
  obtain ⟨bytes', hread', -, hapi'⟩ := Repository.apiOf_publicClassApi hcurrent
  obtain ⟨files, hfiles, hpublished⟩ := Repository.holds_of_readApi hkey hpath hread hapi
  obtain ⟨files', hfiles', hpublished'⟩ := Repository.holds_of_readApi hkey' hpath' hread' hapi'
  exact ⟨apis.1, apis.2, files, files', rfl, hfiles, hfiles', hpublished, hpublished'⟩

/-- A JAR with the one entry `A.class`; the checksum tells two of them apart. -/
def versionJar (checksum : UInt8) : List UInt8 :=
  [80, 75, 1, 2] ++ List.replicate 12 0 ++ [checksum] ++ List.replicate 11 0 ++ [7, 0] ++
    List.replicate 16 0 ++ Utf8.encode "A.class".toList ++
    ([80, 75, 5, 6] ++ List.replicate 4 0 ++ [1, 0, 1, 0, 53, 0, 0, 0] ++ List.replicate 6 0)

def versionArchive (checksum : UInt8) : ZipArchive where
  rawEntries := [some (false, some "A.class".toList)]
  byName name :=
    if name = "A.class".toList then .ok { isDir := false, size := 1, bytes := some [checksum] }
    else .error .fileNotFound

/-- The public class `A` with one public member `()V`. -/
def sampleClass (member : Str) : Classfile :=
  { thisClass := ['A'], superClass := some "java/lang/Object".toList, interfaces := []
    majorVersion := 52, accessFlags := 0x0021
    methods := [{ name := member, descriptor := "()V".toList, accessFlags := 1, attributes := [] }]
    fields := [], attributes := [] }

/-- In version 1, `A` has a constructor; in version 2, a method `A()` in its place. -/
def sampleRepository : Repository where
  tree := .ofEntries
    [([[103]], .directory), ([[103], [97]], .directory), ([[103], [97], [49]], .directory),
      ([[103], [97], [50]], .directory),
      ([[103], [97], [49], Utf8.encode "a-1.jar".toList], .file),
      ([[103], [97], [50], Utf8.encode "a-2.jar".toList], .file)]
    40 (by decide +kernel)
  read path := some (versionJar (if path.contains [49] then 1 else 2))
  openZip bytes := some (versionArchive (bytes.getD 16 0))
  parseClass bytes := some (sampleClass (if bytes = [1] then initName else ['A']))

/-- A budget for two such JARs. -/
def sampleBudget : ArchiveBudget := { entries := 2, names := 14, jarEntries := 10 }

def sampleDiff : ArtifactApiDiff :=
  { groupId := ['g'], artifactId := ['a'], previousVersion := ['1'], currentVersion := ['2']
    addedClasses := [], removedClasses := [], changedClasses := [] }

theorem compare_sample : sampleRepository.compareArtifactApiAt [47] 10 sampleBudget ['g'] ['a']
    ['1'] ['2'] = .ok sampleDiff := by
  decide +kernel

/-- **The answer describes the two JARs**, and no other answer for these versions does. -/
theorem compareArtifactApiAt_exact
    (h : repo.compareArtifactApiAt root maxSourceBytes budget groupId artifactId previousVersion
      currentVersion = .ok d) :
    ∃ files files', repo.Holds root maxSourceBytes groupId artifactId previousVersion files ∧
      repo.Holds root maxSourceBytes groupId artifactId currentVersion files' ∧
      ∀ d' : ArtifactApiDiff, d' = d ↔
        (d'.groupId = groupId ∧ d'.artifactId = artifactId ∧
            d'.previousVersion = previousVersion ∧ d'.currentVersion = currentVersion) ∧
          Describes (published files) (published files') d' := by
  obtain ⟨previous, current, files, files', rfl, hfiles, hfiles', hprevious, hcurrent⟩ :=
    holds_of_compare h
  refine ⟨files, files', hfiles, hfiles', fun d' => ?_⟩
  rw [← hprevious, ← hcurrent]
  have hdescribes := describes_compareApis groupId artifactId previousVersion currentVersion
    previous current
  constructor
  · rintro rfl
    exact ⟨⟨rfl, rfl, rfl, rfl⟩, hdescribes⟩
  · rintro ⟨⟨hgroup, hartifact, hversion, hversion'⟩, hd'⟩
    obtain ⟨hremoved, hadded, hchanged⟩ := hd'.unique hdescribes
    cases d'
    simp_all [compareApis]

theorem compareArtifactApiAt_exact_sample :
    ∃ files files', sampleRepository.Holds [47] 10 ['g'] ['a'] ['1'] files ∧
      sampleRepository.Holds [47] 10 ['g'] ['a'] ['2'] files' ∧
      ∀ d' : ArtifactApiDiff, d' = sampleDiff ↔
        (d'.groupId = ['g'] ∧ d'.artifactId = ['a'] ∧ d'.previousVersion = ['1'] ∧
            d'.currentVersion = ['2']) ∧
          Describes (published files) (published files') d' :=
  compareArtifactApiAt_exact compare_sample

/-! ## 8. The other way around -/

def ClassApiChange.reversed (c : ClassApiChange) : ClassApiChange :=
  { className := c.className
    addedMembers := c.removedMembers
    removedMembers := c.addedMembers
    previousSuperClass := c.currentSuperClass
    currentSuperClass := c.previousSuperClass
    addedInterfaces := c.removedInterfaces
    removedInterfaces := c.addedInterfaces }

def ArtifactApiDiff.reversed (d : ArtifactApiDiff) : ArtifactApiDiff :=
  { groupId := d.groupId
    artifactId := d.artifactId
    previousVersion := d.currentVersion
    currentVersion := d.previousVersion
    addedClasses := d.removedClasses
    removedClasses := d.addedClasses
    changedClasses := d.changedClasses.map ClassApiChange.reversed }

theorem ClassApiChange.Leads.reversed {c : ClassApiChange} {s t : ApiClass} (h : c.Leads s t) :
    c.reversed.Leads t s where
  members := h.members.reverse
  interfaces := h.interfaces.reverse
  previousSuperClass := h.currentSuperClass
  currentSuperClass := h.previousSuperClass

theorem Describes.reversed {previous current : Str → Option ApiClass}
    (h : Describes previous current d) : Describes current previous d.reversed := by
  have hnames : d.reversed.changedClasses.map ClassApiChange.className
      = d.changedClasses.map ClassApiChange.className := by
    simp [ArtifactApiDiff.reversed, ClassApiChange.reversed]
  constructor
  case classes => exact h.classes.reverse
  case ascending => exact hnames ▸ h.ascending
  case changed =>
    intro name
    rw [hnames, h.changed]
    constructor
    · rintro ⟨s, t, hs, ht, hne⟩
      exact ⟨t, s, ht, hs, hne.symm⟩
    · rintro ⟨t, s, ht, hs, hne⟩
      exact ⟨s, t, hs, ht, hne.symm⟩
  case change =>
    intro c' hc' t s ht hs
    obtain ⟨c, hc, rfl⟩ := List.mem_map.mp hc'
    exact (h.change c hc s t hs ht).reversed

/-- Two preflights that one budget covers it covers in the other order. -/
theorem preflight_swap {content content' : Content} {start between after : ArchiveBudget}
    (h : preflight content start = (.ok (), between))
    (h' : preflight content' between = (.ok (), after)) :
    ∃ between' after', preflight content' start = (.ok (), between') ∧
      preflight content between' = (.ok (), after') := by
  obtain ⟨n, m, hcharges⟩ := preflight_charges h
  obtain ⟨n', m', hcharges'⟩ := preflight_charges h'
  have hfits : Fits 0 n m start := by
    by_contra hnot
    obtain ⟨name, after, heq⟩ := (hcharges start).2 hnot
    simp [h] at heq
  obtain rfl : between = start.spend n m := by
    have heq := h.symm.trans ((hcharges start).1 hfits)
    exact (Prod.mk.inj heq).2
  have hfits' : Fits 0 n' m' (start.spend n m) := by
    by_contra hnot
    obtain ⟨name, after, heq⟩ := (hcharges' _).2 hnot
    simp [h'] at heq
  simp only [Fits, ArchiveBudget.spend] at hfits hfits'
  refine ⟨_, _, (hcharges' start).1 ⟨hfits'.1, by omega, by omega⟩,
    (hcharges _).1 ⟨hfits.1, ?_, ?_⟩⟩
  · simp only [ArchiveBudget.spend]
    omega
  · simp only [ArchiveBudget.spend]
    omega

theorem Repository.bothApis_swap {previous current : ArtifactKey × List FsName}
    {apis : ClassMap ClassDescription × ClassMap ClassDescription}
    (h : repo.bothApis root maxSourceBytes budget previous current = .ok apis) :
    repo.bothApis root maxSourceBytes budget current previous = .ok (apis.2, apis.1) := by
  obtain ⟨between, after, hprevious, hcurrent⟩ := bothApis_ok h
  obtain ⟨bytes, hread, hpreflight, hapi⟩ := apiOf_publicClassApi hprevious
  obtain ⟨bytes', hread', hpreflight', hapi'⟩ := apiOf_publicClassApi hcurrent
  obtain ⟨between', after', hfirst, hsecond⟩ := preflight_swap hpreflight hpreflight'
  simp only [bothApis, publicClassApi, hread', hfirst, hapi', hread, hsecond, hapi]

/-- **The other way around, the answer is the same one reversed.** -/
theorem compareArtifactApiAt_swap
    (h : repo.compareArtifactApiAt root maxSourceBytes budget groupId artifactId previousVersion
      currentVersion = .ok d) :
    repo.compareArtifactApiAt root maxSourceBytes budget groupId artifactId currentVersion
      previousVersion = .ok d.reversed := by
  obtain ⟨previous, current, hprevious, hcurrent, apis, hapis, rfl⟩ :=
    Repository.compareArtifactApiAt_ok_iff.mp h
  refine Repository.compareArtifactApiAt_ok_iff.mpr ⟨current, previous, hcurrent, hprevious,
    (apis.2, apis.1), Repository.bothApis_swap hapis, ?_⟩
  have hreversed := (describes_compareApis groupId artifactId previousVersion currentVersion
    apis.1 apis.2).reversed
  obtain ⟨hremoved, hadded, hchanged⟩ := hreversed.unique
    (describes_compareApis groupId artifactId currentVersion previousVersion apis.2 apis.1)
  exact ArtifactApiDiff.mk.injEq .. ▸ ⟨rfl, rfl, rfl, rfl, hadded, hremoved, hchanged⟩

theorem compareArtifactApiAt_swap_sample :
    sampleRepository.compareArtifactApiAt [47] 10 sampleBudget ['g'] ['a'] ['2'] ['1']
      = .ok sampleDiff.reversed :=
  compareArtifactApiAt_swap compare_sample

/-! ## 9. Members and their texts -/

/-- No class that a descriptor names has a parenthesis or a colon in its name. -/
structure Classfile.PlainDescriptors (file : Classfile) : Prop where
  methods : ∀ m ∈ file.methods, ∃ rest, m.descriptor = '(' :: rest ∧ '(' ∉ rest
  fields : ∀ f ∈ file.fields, ':' ∉ f.descriptor

/-- A constructor that a dependent can call. -/
def Classfile.Constructs (file : Classfile) (descriptor : Str) : Prop :=
  ∃ m ∈ file.methods, m.name = initName ∧ m.IsApi ∧ m.descriptor = descriptor

/-- A method, no constructor, that a dependent can call. -/
def Classfile.Declares (file : Classfile) (name descriptor : Str) : Prop :=
  ∃ m ∈ file.methods, m.name ≠ clinitName ∧ m.name ≠ initName ∧ m.IsApi ∧ m.name = name ∧
    m.descriptor = descriptor

theorem append_cons_inj {mark : Char} {a b s t : Str} (hs : mark ∉ s) (ht : mark ∉ t)
    (h : a ++ mark :: s = b ++ mark :: t) : a = b ∧ s = t := by
  have hreverse : s.reverse ++ mark :: a.reverse = t.reverse ++ mark :: b.reverse := by
    simpa using congrArg List.reverse h
  obtain ⟨hst, hab⟩ := Delimited.cut (by simpa using hs) (by simpa using ht) hreverse
  exact ⟨List.reverse_injective hab, List.reverse_injective hst⟩

theorem methodText_inj {file file' : Classfile} (h : file.PlainDescriptors)
    (h' : file'.PlainDescriptors) {name name' descriptor descriptor' : Str}
    (hm : file.Methods name descriptor) (hm' : file'.Methods name' descriptor')
    (htext : methodText name descriptor = methodText name' descriptor') :
    name = name' ∧ descriptor = descriptor' := by
  obtain ⟨m, hm, -, -, -, rfl⟩ := hm
  obtain ⟨m', hm', -, -, -, rfl⟩ := hm'
  obtain ⟨rest, hrest, hnot⟩ := h.methods m hm
  obtain ⟨rest', hrest', hnot'⟩ := h'.methods m' hm'
  have hcut := List.append_cancel_left htext
  rw [hrest, hrest'] at hcut ⊢
  obtain ⟨hname, hdescriptor⟩ := append_cons_inj hnot hnot' hcut
  exact ⟨hname, congrArg ('(' :: ·) hdescriptor⟩

theorem fieldText_inj {file file' : Classfile} (h : file.PlainDescriptors)
    (h' : file'.PlainDescriptors) {name name' descriptor descriptor' : Str}
    (hf : file.Fields name descriptor) (hf' : file'.Fields name' descriptor')
    (htext : fieldText name descriptor = fieldText name' descriptor') :
    name = name' ∧ descriptor = descriptor' := by
  obtain ⟨f, hf, -, -, rfl⟩ := hf
  obtain ⟨f', hf', -, -, rfl⟩ := hf'
  exact append_cons_inj (h.fields f hf) (h'.fields f' hf') (List.append_cancel_left htext)

theorem methodText_ne_fieldText (name descriptor name' descriptor' : Str) :
    methodText name descriptor ≠ fieldText name' descriptor' := by
  intro h
  have hhead : some 'm' = some 'f' := congrArg List.head? h
  exact absurd hhead (by decide)

/-- The texts tell the members apart. -/
theorem members_eq_iff {file file' : Classfile} (h : file.PlainDescriptors)
    (h' : file'.PlainDescriptors) :
    file.api.members = file'.api.members ↔
      (∀ name descriptor, file.Methods name descriptor ↔ file'.Methods name descriptor) ∧
        ∀ name descriptor, file.Fields name descriptor ↔ file'.Fields name descriptor := by
  constructor
  · intro heq
    have hmethods {f f' : Classfile} (h : f.PlainDescriptors) (h' : f'.PlainDescriptors)
        (heq : f.api.members = f'.api.members) {name descriptor : Str}
        (hm : f.Methods name descriptor) : f'.Methods name descriptor := by
      have htext : methodText name descriptor ∈ f'.api.members :=
        heq ▸ ⟨name, descriptor, .inl ⟨hm, rfl⟩⟩
      obtain ⟨name', descriptor', ⟨hm', htext⟩ | ⟨-, htext⟩⟩ := htext
      · obtain ⟨rfl, rfl⟩ := methodText_inj h' h hm' hm htext
        exact hm'
      · exact absurd htext.symm (methodText_ne_fieldText _ _ _ _)
    have hfields {f f' : Classfile} (h : f.PlainDescriptors) (h' : f'.PlainDescriptors)
        (heq : f.api.members = f'.api.members) {name descriptor : Str}
        (hf : f.Fields name descriptor) : f'.Fields name descriptor := by
      have htext : fieldText name descriptor ∈ f'.api.members :=
        heq ▸ ⟨name, descriptor, .inr ⟨hf, rfl⟩⟩
      obtain ⟨name', descriptor', ⟨-, htext⟩ | ⟨hf', htext⟩⟩ := htext
      · exact absurd htext (methodText_ne_fieldText _ _ _ _)
      · obtain ⟨rfl, rfl⟩ := fieldText_inj h' h hf' hf htext
        exact hf'
    exact ⟨fun name descriptor => ⟨hmethods h h' heq, hmethods h' h heq.symm⟩,
      fun name descriptor => ⟨hfields h h' heq, hfields h' h heq.symm⟩⟩
  · rintro ⟨hmethods, hfields⟩
    simp only [Classfile.api, hmethods, hfields]

/-- The methods of a description: those of the classfile, and the constructors under the name of
the class. -/
theorem methods_iff {file : Classfile} {name descriptor : Str} :
    file.Methods name descriptor ↔ file.Declares name descriptor ∨
      (name = simpleName (binaryName file.thisClass) ∧ file.Constructs descriptor) := by
  constructor
  · rintro ⟨m, hm, hclinit, hapi, hname, rfl⟩
    by_cases hinit : m.name = initName
    · rw [Classfile.methodName, if_pos hinit] at hname
      exact .inr ⟨hname.symm, m, hm, hinit, hapi, rfl⟩
    · rw [Classfile.methodName, if_neg hinit] at hname
      exact .inl ⟨m, hm, hclinit, hinit, hapi, hname, rfl⟩
  · rintro (⟨m, hm, hclinit, hinit, hapi, rfl, rfl⟩ | ⟨rfl, m, hm, hinit, hapi, rfl⟩)
    · exact ⟨m, hm, hclinit, hapi, by rw [Classfile.methodName, if_neg hinit], rfl⟩
    · have hclinit : m.name ≠ clinitName := by
        rw [hinit]
        decide
      exact ⟨m, hm, hclinit, hapi, by rw [Classfile.methodName, if_pos hinit], rfl⟩

theorem published_eq {files : List Classfile} {name : Str} {file : Classfile}
    (h : publicFile files name = some file) : published files name = some file.api := by
  rw [published, h, Option.map_some]

theorem name_of_publicFile {files : List Classfile} {name : Str} {file : Classfile}
    (h : publicFile files name = some file) : file ∈ files ∧ binaryName file.thisClass = name := by
  have hfound := List.find?_some h
  simp only [Bool.and_eq_true, decide_eq_true_eq] at hfound
  exact ⟨List.mem_reverse.mp (List.mem_of_find?_eq_some h), hfound.2⟩

/-- The two classes offer the same, with the constructors as methods of the name of the class. -/
structure OffersAlike (name : Str) (file file' : Classfile) : Prop where
  superClass : file.superClass.map binaryName = file'.superClass.map binaryName
  interfaces : ∀ i, i ∈ file.interfaces.map binaryName ↔ i ∈ file'.interfaces.map binaryName
  fields : ∀ field descriptor, file.Fields field descriptor ↔ file'.Fields field descriptor
  methods : ∀ method ≠ simpleName name, ∀ descriptor,
    file.Declares method descriptor ↔ file'.Declares method descriptor
  constructors : ∀ descriptor,
    file.Declares (simpleName name) descriptor ∨ file.Constructs descriptor ↔
      file'.Declares (simpleName name) descriptor ∨ file'.Constructs descriptor

theorem api_eq_iff {file file' : Classfile} (h : file.PlainDescriptors)
    (h' : file'.PlainDescriptors) {name : Str} (hname : binaryName file.thisClass = name)
    (hname' : binaryName file'.thisClass = name) :
    file.api = file'.api ↔ OffersAlike name file file' := by
  have hapi : file.api = file'.api ↔ file.api.members = file'.api.members ∧
      file.api.interfaces = file'.api.interfaces ∧ file.api.superClass = file'.api.superClass :=
    ApiClass.mk.injEq .. |>.to_iff
  rw [hapi, members_eq_iff h h']
  simp only [methods_iff, hname, hname']
  constructor
  · rintro ⟨⟨hmethods, hfields⟩, hinterfaces, hsuper⟩
    constructor
    case superClass => exact hsuper
    case interfaces =>
      intro i
      simpa [Classfile.api] using Set.ext_iff.mp hinterfaces i
    case fields => exact hfields
    case methods =>
      intro method hne descriptor
      simpa [hne] using hmethods method descriptor
    case constructors =>
      intro descriptor
      simpa using hmethods (simpleName name) descriptor
  · intro h
    refine ⟨⟨fun method descriptor => ?_, h.fields⟩, Set.ext fun i => ?_, h.superClass⟩
    · by_cases hmethod : method = simpleName name
      · subst hmethod
        simpa using h.constructors descriptor
      · simpa [hmethod] using h.methods method hmethod descriptor
    · simpa [Classfile.api] using h.interfaces i

/-- A JAR holds one list of classfiles. -/
theorem Repository.Holds.unique {version : Str} {files files' : List Classfile}
    (h : repo.Holds root maxSourceBytes groupId artifactId version files)
    (h' : repo.Holds root maxSourceBytes groupId artifactId version files') : files = files' := by
  obtain ⟨key, path, bytes, archive, index, hkey, hpath, -, hread, hopen, hindex, hfiles⟩ := h
  obtain ⟨key', path', bytes', archive', index', hkey', hpath', -, hread', hopen', hindex',
    hfiles'⟩ := h'
  obtain rfl : key = key' := Option.some.inj (hkey.symm.trans hkey')
  obtain rfl : path = path' := Option.some.inj (Except.ok.inj (hpath.symm.trans hpath'))
  obtain rfl : bytes = bytes' := Option.some.inj (hread.symm.trans hread')
  obtain rfl : archive = archive' := Option.some.inj (hopen.symm.trans hopen')
  obtain rfl : index = index' := Option.some.inj (hindex.symm.trans hindex')
  exact Relator.RightUnique.forall₂ (fun _ _ _ hb hc => Except.ok.inj (hb.symm.trans hc)) hfiles
    hfiles'

/-- **What is not reported.**  A class of both versions is left out exactly when the two offer the
same, with the constructors as methods of the name of the class. -/
theorem unreported_iff
    (h : repo.compareArtifactApiAt root maxSourceBytes budget groupId artifactId previousVersion
      currentVersion = .ok d) {files files' : List Classfile}
    (hfiles : repo.Holds root maxSourceBytes groupId artifactId previousVersion files)
    (hfiles' : repo.Holds root maxSourceBytes groupId artifactId currentVersion files')
    (hplain : ∀ file ∈ files ++ files', file.PlainDescriptors) {name : Str} {file file' : Classfile}
    (hfile : publicFile files name = some file) (hfile' : publicFile files' name = some file') :
    name ∉ d.changedClasses.map ClassApiChange.className ↔ OffersAlike name file file' := by
  obtain ⟨previous, current, held, held', rfl, hheld, hheld', hprevious, hcurrent⟩ :=
    holds_of_compare h
  obtain rfl := hheld.unique hfiles
  obtain rfl := hheld'.unique hfiles'
  have hdescribes := describes_compareApis groupId artifactId previousVersion currentVersion
    previous current
  rw [hprevious, hcurrent] at hdescribes
  obtain ⟨hmem, hname⟩ := name_of_publicFile hfile
  obtain ⟨hmem', hname'⟩ := name_of_publicFile hfile'
  rw [← api_eq_iff (hplain file (List.mem_append_left _ hmem))
    (hplain file' (List.mem_append_right _ hmem')) hname hname', hdescribes.changed,
    published_eq hfile, published_eq hfile']
  simp

def sampleIndex : JarIndex :=
  { classes := [['A']], entries := ["A.class".toList]
    classEntries := [("A.class".toList, "A.class".toList)], multiRelease := false }

theorem holds_first : sampleRepository.Holds [47] 10 ['g'] ['a'] ['1'] [sampleClass initName] :=
  ⟨⟨['g'], ['a'], ['1']⟩, [[103], [97], [49], Utf8.encode "a-1.jar".toList], versionJar 1,
    .zip (versionArchive 1), sampleIndex, by decide +kernel, by decide +kernel, by decide +kernel,
    by decide +kernel, rfl, by decide +kernel, .cons (by decide +kernel) .nil⟩

theorem holds_second : sampleRepository.Holds [47] 10 ['g'] ['a'] ['2'] [sampleClass ['A']] :=
  ⟨⟨['g'], ['a'], ['2']⟩, [[103], [97], [50], Utf8.encode "a-2.jar".toList], versionJar 2,
    .zip (versionArchive 2), sampleIndex, by decide +kernel, by decide +kernel, by decide +kernel,
    by decide +kernel, rfl, by decide +kernel, .cons (by decide +kernel) .nil⟩

/-- The constructor that became a method is not reported. -/
theorem unreported_iff_sample :
    ['A'] ∉ sampleDiff.changedClasses.map ClassApiChange.className ↔
      OffersAlike ['A'] (sampleClass initName) (sampleClass ['A']) := by
  refine unreported_iff compare_sample holds_first holds_second ?_ (by decide +kernel)
    (by decide +kernel)
  intro file hfile
  have hmethods : file.methods = [⟨initName, "()V".toList, 1, []⟩] ∨
      file.methods = [⟨['A'], "()V".toList, 1, []⟩] := by
    rcases List.mem_cons.mp hfile with rfl | hfile
    · exact .inl rfl
    · exact .inr (List.mem_singleton.mp hfile ▸ rfl)
  have hfields : file.fields = [] := by
    rcases List.mem_cons.mp hfile with rfl | hfile
    · rfl
    · exact List.mem_singleton.mp hfile ▸ rfl
  constructor
  · intro m hm
    refine ⟨[')', 'V'], ?_, by decide⟩
    rcases hmethods with hmethods | hmethods
    · rw [hmethods, List.mem_singleton] at hm
      rw [hm]
      rfl
    · rw [hmethods, List.mem_singleton] at hm
      rw [hm]
      rfl
  · intro f hf
    rw [hfields] at hf
    cases hf

end Index
end MavenMcp
