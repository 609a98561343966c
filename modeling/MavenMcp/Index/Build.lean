/-
# Building an index from its artifacts

`build_from_jars` takes each artifact from the cache of records or from its archive, charges one
budget on both ways, skips what is malformed or unreadable, and fails when a limit is met.  The
records are then sorted and entered in the maps of the index.

* `buildRecords_agree`: artifact by artifact, the build with stored records and the build without
  them stay in step.
* `restored_build_agrees`: so they end alike.  The stored records may come from any earlier reads;
  those that no longer match are ignored.

Cancellation and logging are left out.
-/
import MavenMcp.Index.Persisted
import MavenMcp.Lib.Table

namespace MavenMcp
namespace Index

/-! ## 1. The index -/

/-- The position of one child-to-parent fact. -/
structure HierarchyEdge where
  jar : Nat
  class_ : Nat
  parent : Nat
deriving DecidableEq, Repr

structure MavenIndex where
  root : PathBuf
  jars : List JarRecord
  sourceJars : Table ArtifactKey (List (Option Str × Nat))
  classLocations : Table Str (List Nat)
  childrenByParent : Table Str (List HierarchyEdge)
  artifacts : Table (Str × Str) (List Str)
  maxResults : Nat
  maxSourceBytes : Nat

/-- `HashMap::insert` in a map by classifier. -/
def insertDocumented (documented : Option Str) (jar : Nat)
    (byClassifier : List (Option Str × Nat)) :
    List (Option Str × Nat) :=
  (documented, jar) :: byClassifier.filter fun e => e.1 ≠ documented

/-- One record entered in the index; `lowercase` is `str::to_lowercase`. -/
def MavenIndex.addRecord (lowercase : Str → Str) (index : MavenIndex) (record : JarRecord) :
    MavenIndex :=
  let key := record.key
  let jarIndex := index.jars.length
  let versions := (index.artifacts.lookup (key.groupId, key.artifactId)).getD []
  let index := { index with
    artifacts := index.artifacts.insert (key.groupId, key.artifactId)
      (if key.version ∈ versions then versions else versions ++ [key.version]) }
  let index :=
    match documentedClassifier record.classifier with
    | some documented =>
      let byClassifier := (index.sourceJars.lookup key).getD []
      { index with
        sourceJars := index.sourceJars.insert key
          (insertDocumented documented jarIndex byClassifier) }
    | none =>
      { index with
        classLocations := record.classes.foldl
          (fun locations name =>
            locations.insert (lowercase name)
              ((locations.lookup (lowercase name)).getD [] ++ [jarIndex]))
          index.classLocations }
  { index with jars := index.jars ++ [record] }

/-- The edges of one JAR with the key of their group. -/
def hierarchyEdges (jarIndex : Nat) (record : JarRecord) : List (Str × HierarchyEdge) :=
  record.classFacts.zipIdx.flatMap fun (facts, classIndex) =>
    facts.parents.zipIdx.map fun (fact, parentIndex) =>
      (Text.toAsciiLowercase (record.factString fact.parent),
        { jar := jarIndex, class_ := classIndex, parent := parentIndex })

/-- What a group is sorted by: child name, JAR path, relation. -/
def edgeSortKey (jars : List JarRecord) (edge : HierarchyEdge) : List Nat :=
  ((jars[edge.jar]?).bind fun jar =>
    (jar.classFacts[edge.class_]?).map fun facts =>
      strRanks (jar.factString facts.sourceClass) ++
        (strRanks jar.relativePath ++
          [((facts.parents[edge.parent]?).map fun p => p.relation.rank).getD 0])).getD []

def edgeLe (jars : List JarRecord) (a b : HierarchyEdge) : Bool :=
  lexLe (edgeSortKey jars a) (edgeSortKey jars b)

/-- `build_children_by_parent`. -/
def buildChildrenByParent (jars : List JarRecord) : Table Str (List HierarchyEdge) :=
  let edges := jars.zipIdx.flatMap fun (record, jarIndex) => hierarchyEdges jarIndex record
  let groups : Table Str (List HierarchyEdge) := edges.foldl
    (fun groups (parent, edge) =>
      groups.insert parent ((groups.lookup parent).getD [] ++ [edge])) ∅
  groups.mapVals fun edges => edges.mergeSort (edgeLe jars)

/-- The records of a build, entered in an index in the order of their relative paths. -/
def MavenIndex.ofRecords (lowercase : Str → Str) (root : PathBuf) (maxResults maxSourceBytes : Nat)
    (records : List JarRecord) : MavenIndex :=
  let sorted := records.mergeSort fun a b => strLe a.relativePath b.relativePath
  let index := sorted.foldl (MavenIndex.addRecord lowercase)
    { root, jars := [], sourceJars := ∅, classLocations := ∅, childrenByParent := ∅
      artifacts := ∅, maxResults, maxSourceBytes }
  { index with childrenByParent := buildChildrenByParent index.jars }

/-! ## 2. The build -/

/-- What a build reads: the artifacts and their stamps as they are while it runs, and the
configuration. -/
structure BuildEnv (P : Type) where
  readers : Readers
  codec : Codec P
  lowercase : Str → Str
  isSettled : Nat → Bool
  limits : RecordLimits
  content : PathBuf → Content
  /-- `ArtifactValidity::capture`. -/
  capture : PathBuf → Option ArtifactValidity

structure RecordReuse (P : Type) where
  reused : List PathBuf
  built : Nat
  persistable : List (PathBuf × P)
deriving DecidableEq, Repr

/-- The build so far. -/
structure BuildState (P : Type) where
  budget : ArchiveBudget
  records : List JarRecord
  reuse : RecordReuse P
deriving DecidableEq, Repr

variable {P : Type}

namespace BuildEnv

/-- The attempt to restore an artifact; `persisted` is the cache of records, when there is one. -/
def restoreArtifact (env : BuildEnv P) (persisted : Option (PathBuf → Option P)) (path : PathBuf)
    (identity : JarIdentity) (budget : ArchiveBudget) :
    Except PreflightError (Option JarRecord) × ArchiveBudget :=
  match persisted with
  | none => (.ok none, budget)
  | some load =>
    match load path, env.capture path with
    | some payload, some validity =>
      restore env.codec env.limits payload path identity validity budget
    | _, _ => (.ok none, budget)

/-- The reading of an artifact from its archive. -/
def readArtifact (env : BuildEnv P) (persisted : Option (PathBuf → Option P)) (path : PathBuf)
    (identity : JarIdentity) (s : BuildState P) : Except PreflightError Unit × BuildState P :=
  match preflight (env.content path) s.budget with
  | (.error (.limit name), budget) => (.error (.limit name), { s with budget })
  | (.error (.malformed _), budget) => (.ok (), { s with budget })
  | (.ok (), budget) =>
    match loadJarRecord env.readers (env.content path) path identity env.limits.maxEntryBytes with
    | none => (.ok (), { s with budget })
    | some record =>
      let reuse :=
        match persisted.bind fun _ => env.capture path with
        | none => s.reuse
        | some validity =>
          { s.reuse with
            built := s.reuse.built + 1
            persistable := s.reuse.persistable ++
              (persistable env.codec env.isSettled env.limits record validity
                (.between s.budget budget)).toList }
      (.ok (), { budget, records := s.records ++ [record], reuse })

def buildArtifact (env : BuildEnv P) (persisted : Option (PathBuf → Option P)) (path : PathBuf)
    (identity : JarIdentity) (s : BuildState P) : Except PreflightError Unit × BuildState P :=
  match env.restoreArtifact persisted path identity s.budget with
  | (.error e, budget) => (.error e, { s with budget })
  | (.ok (some record), budget) =>
    (.ok (),
      { budget, records := s.records ++ [record]
        reuse := { s.reuse with reused := s.reuse.reused ++ [path] } })
  | (.ok none, budget) => env.readArtifact persisted path identity { s with budget }

/-- The loop over the artifacts. -/
def buildRecords (env : BuildEnv P) (persisted : Option (PathBuf → Option P)) :
    List (PathBuf × JarIdentity) → BuildState P → Except PreflightError Unit × BuildState P
  | [], s => (.ok (), s)
  | (path, identity) :: jars, s =>
    match env.buildArtifact persisted path identity s with
    | (.error e, s) => (.error e, s)
    | (.ok (), s) => env.buildRecords persisted jars s

/-- `build_from_jars` with a starting budget, and with the budget it leaves. -/
def buildFromJars (env : BuildEnv P) (root : PathBuf) (jars : List (PathBuf × JarIdentity))
    (maxResults : Nat) (persisted : Option (PathBuf → Option P)) (budget : ArchiveBudget) :
    Except PreflightError (MavenIndex × RecordReuse P × ArchiveBudget) :=
  let sorted := jars.mergeSort fun a b => pathLe a.1 b.1
  match env.buildRecords persisted sorted
      { budget, records := [], reuse := { reused := [], built := 0, persistable := [] } } with
  | (.error e, _) => .error e
  | (.ok (), s) =>
    .ok (.ofRecords env.lowercase root maxResults env.limits.maxEntryBytes s.records, s.reuse,
      s.budget)

end BuildEnv

/-- A build whose artifacts are in order and read without an error ends well. -/
theorem buildFromJars_ok (env : BuildEnv P) (jars : List (PathBuf × JarIdentity))
    (persisted : Option (PathBuf → Option P)) (budget : ArchiveBudget)
    (hsorted : jars.Pairwise fun a b => pathLe a.1 b.1 = true)
    (hok : (env.buildRecords persisted jars ⟨budget, [], ⟨[], 0, []⟩⟩).1.isOk = true)
    (root : PathBuf) (maxResults : Nat) :
    ∃ index reuse left,
      env.buildFromJars root jars maxResults persisted budget = .ok (index, reuse, left) := by
  unfold BuildEnv.buildFromJars
  simp only [List.mergeSort_of_pairwise hsorted]
  rcases hrecords : env.buildRecords persisted jars ⟨budget, [], ⟨[], 0, []⟩⟩ with ⟨_ | _, s⟩
  · rw [hrecords] at hok
    cases hok
  · exact ⟨_, _, _, rfl⟩

/-! ## 3. In step -/

/-- A payload that an earlier build made of some artifact, whose stamps are worth what the build
relies on: where they still stand, the content does. -/
def FromEarlierRead (env : BuildEnv P) (payload : P) : Prop :=
  ∃ content path identity limits before after record validity settled,
    preflight content before = (.ok (), after) ∧
      loadJarRecord env.readers content path identity limits.maxEntryBytes = some record ∧
      persistable env.codec settled limits record validity (.between before after)
        = some (path, payload) ∧
      (env.capture path = some validity → env.content path = content)

/-- Two builds in step: the same records and the same budget, whatever was reused. -/
structure InStep (s t : BuildState P) : Prop where
  budget : s.budget = t.budget
  records : s.records = t.records

/-- Both go on in step, or both meet a limit. -/
def StepsAlike (a b : Except PreflightError Unit × BuildState P) : Prop :=
  (∃ s t, a = (.ok (), s) ∧ b = (.ok (), t) ∧ InStep s t) ∨
    (∃ name s, a = (.error (.limit name), s)) ∧ ∃ name t, b = (.error (.limit name), t)

variable {env : BuildEnv P}

/-- What `restore` answers for a payload of an earlier read: a miss that touches nothing, or the
record that reading gives, charged as its preflight is. -/
theorem restore_eq (hcodec : env.codec.Lossless) {payload : P} (hread : FromEarlierRead env payload)
    {path : PathBuf} {validity : ArtifactValidity} (hcapture : env.capture path = some validity)
    (identity : JarIdentity) (budget : ArchiveBudget) :
    restore env.codec env.limits payload path identity validity budget = (.ok none, budget) ∨
      ∃ record charge,
        loadJarRecord env.readers (env.content path) path identity env.limits.maxEntryBytes
          = some record ∧
        SameOutcome (preflight (env.content path) budget) (PreflightCharge.charge charge budget) ∧
        restore env.codec env.limits payload path identity validity budget =
          match charge.charge budget with
          | (.error e, budget) => (.error e, budget)
          | (.ok (), budget) => (.ok (some record), budget) := by
  obtain ⟨content, path', identity', limits, before, after, record, validity', settled, hpreflight,
    hload, hpersist, hstamps⟩ := hread
  obtain ⟨hderived, hkey, hclassifier, hrelative, hpath⟩ := derived_of_load hload
  unfold persistable at hpersist
  split at hpersist
  · obtain ⟨payload', hencode, hpair⟩ := Option.map_eq_some_iff.mp hpersist
    cases hpair
    have hdecode := hcodec _ _ hencode
    unfold restore
    rw [hdecode]
    by_cases hvalid : (StoredRecord.of limits record validity' (.between before after)).isValid
    · by_cases hsame : (StoredRecord.of limits record validity' (.between before after)).context
          ≠ .new env.limits path identity ∨
          (StoredRecord.of limits record validity' (.between before after)).validity ≠ validity
      · left
        simp [hvalid, hsame]
      · right
        obtain ⟨hcontext, hvalidity⟩ := not_or.mp hsame
        rw [not_not] at hcontext hvalidity
        simp only [StoredRecord.of, RecordContext.new, RecordContext.mk.injEq] at hcontext hvalidity
        obtain ⟨rfl, hgroup, hartifact, hversion, hclass, hrel, hmax, -, -⟩ := hcontext
        have hcontent : env.content record.path = content := by
          refine hstamps ?_
          rw [hcapture, hvalidity]
        have hid : identity = { key := record.key, classifier := record.classifier
                                relativePath := record.relativePath } := by
          obtain ⟨⟨g, a, v⟩, c, r⟩ := identity
          simp only at hgroup hartifact hversion hclass hrel
          rw [← hgroup, ← hartifact, ← hversion, ← hclass, ← hrel]
        have hid' : identity' = identity := by
          rw [hid, hkey, hclassifier, hrelative]
        refine ⟨record, .between before after, ?_, ?_, ?_⟩
        · rw [hcontent, ← hid', ← hmax]
          exact hload
        · rw [hcontent]
          exact charge_between hpreflight budget
        · rw [hid] at hsame ⊢
          simp only [hvalid, Bool.not_true, Bool.false_eq_true, if_false, if_neg hsame]
          rw [intoRecord_of hderived]
          rfl
    · left
      simp [hvalid]
  · cases hpersist

/-- Reading an artifact does not depend on the cache of records, but for what it reports. -/
theorem readArtifact_alike (persisted persisted' : Option (PathBuf → Option P)) (path : PathBuf)
    (identity : JarIdentity) {s t : BuildState P} (h : InStep s t) :
    StepsAlike (env.readArtifact persisted path identity s)
      (env.readArtifact persisted' path identity t) := by
  obtain ⟨budget, records, reuse⟩ := s
  obtain ⟨budget', records', reuse'⟩ := t
  obtain ⟨rfl, rfl⟩ : budget = budget' ∧ records = records' := ⟨h.budget, h.records⟩
  unfold BuildEnv.readArtifact
  rcases preflight (env.content path) budget with ⟨_ | _, after⟩
  · rename_i e
    cases e with
    | limit name => exact .inr ⟨⟨_, _, rfl⟩, _, _, rfl⟩
    | malformed reason => exact .inl ⟨_, _, rfl, rfl, rfl, rfl⟩
  · dsimp only
    cases loadJarRecord env.readers (env.content path) path identity env.limits.maxEntryBytes with
    | none => exact .inl ⟨_, _, rfl, rfl, rfl, rfl⟩
    | some record => exact .inl ⟨_, _, rfl, rfl, rfl, rfl⟩

/-- **One artifact.**  With or without the cache of records, the same record and the same charge,
or a limit. -/
theorem buildArtifact_alike (hcodec : env.codec.Lossless) {load : PathBuf → Option P}
    (hload : ∀ path payload, load path = some payload → FromEarlierRead env payload)
    (path : PathBuf)
    (identity : JarIdentity) {s t : BuildState P} (h : InStep s t) :
    StepsAlike (env.buildArtifact (some load) path identity s)
      (env.buildArtifact none path identity t) := by
  have hfresh : env.buildArtifact none path identity t = env.readArtifact none path
    identity t := rfl
  rw [hfresh]
  have hmiss : env.restoreArtifact (some load) path identity s.budget = (.ok none, s.budget) →
      StepsAlike (env.buildArtifact (some load) path identity s)
        (env.readArtifact none path identity t) := by
    intro hnone
    unfold BuildEnv.buildArtifact
    rw [hnone]
    exact readArtifact_alike _ _ path identity h
  cases hpayload : load path with
  | none => exact hmiss (by simp only [BuildEnv.restoreArtifact, hpayload])
  | some payload =>
    cases hcapture : env.capture path with
    | none => exact hmiss (by simp only [BuildEnv.restoreArtifact, hpayload, hcapture])
    | some validity =>
      have hrestore : env.restoreArtifact (some load) path identity s.budget
          = restore env.codec env.limits payload path identity validity s.budget := by
        simp only [BuildEnv.restoreArtifact, hpayload, hcapture]
      rcases restore_eq hcodec (hload path payload hpayload) hcapture identity s.budget with
        hnone | ⟨record, charge, hrecord, hsame, hanswer⟩
      · exact hmiss (hrestore.trans hnone)
      · -- The record is restored: its charge stands for the preflight of the archive.
        unfold BuildEnv.buildArtifact BuildEnv.readArtifact
        rw [hrestore, hanswer, ← h.budget, hrecord]
        rcases hsame with ⟨after, hfresh, hcharge⟩ | ⟨⟨name, b, hfresh⟩, name', b', hcharge⟩
        · rw [hfresh, hcharge]
          exact .inl ⟨_, _, rfl, rfl, rfl, congrArg (· ++ [record]) h.records⟩
        · rw [hfresh, hcharge]
          exact .inr ⟨⟨_, _, rfl⟩, _, _, rfl⟩

/-- **All artifacts**, one after the other. -/
theorem buildRecords_alike (hcodec : env.codec.Lossless) {load : PathBuf → Option P}
    (hload : ∀ path payload, load path = some payload → FromEarlierRead env payload) :
    ∀ (jars : List (PathBuf × JarIdentity)) {s t : BuildState P}, InStep s t →
      StepsAlike (env.buildRecords (some load) jars s) (env.buildRecords none jars t) := by
  intro jars
  induction jars with
  | nil => exact fun h => .inl ⟨_, _, rfl, rfl, h⟩
  | cons jar jars ih =>
    intro s t h
    obtain ⟨path, identity⟩ := jar
    unfold BuildEnv.buildRecords
    rcases buildArtifact_alike hcodec hload path identity h with
      ⟨s', t', hs, ht, h'⟩ | ⟨⟨name, s', hs⟩, name', t', ht⟩
    · rw [hs, ht]
      exact ih h'
    · rw [hs, ht]
      exact .inr ⟨⟨_, _, rfl⟩, _, _, rfl⟩

/-- **Restored and fresh builds agree.**  Whatever records of earlier reads the cache holds, the
build that uses them meets a limit exactly when the build that reads every archive does, and
otherwise ends with the same index and the same remaining budget. -/
theorem restored_build_agrees (hcodec : env.codec.Lossless) {load : PathBuf → Option P}
    (hload : ∀ path payload, load path = some payload → FromEarlierRead env payload)
    (root : PathBuf) (jars : List (PathBuf × JarIdentity)) (maxResults : Nat)
    (budget : ArchiveBudget) :
    (∃ index reuse reuse' left,
        env.buildFromJars root jars maxResults (some load) budget = .ok (index, reuse, left) ∧
          env.buildFromJars root jars maxResults none budget = .ok (index, reuse', left)) ∨
      (∃ name, env.buildFromJars root jars maxResults (some load) budget = .error (.limit name)) ∧
        ∃ name, env.buildFromJars root jars maxResults none budget = .error (.limit name) := by
  have hstart : InStep
      ({ budget, records := [], reuse := { reused := [], built := 0, persistable := [] } }
        : BuildState P)
      { budget, records := [], reuse := { reused := [], built := 0, persistable := [] } } :=
    ⟨rfl, rfl⟩
  unfold BuildEnv.buildFromJars
  rcases buildRecords_alike hcodec hload (jars.mergeSort fun a b => pathLe a.1 b.1) hstart with
    ⟨s, t, hs, ht, h⟩ | ⟨⟨name, s, hs⟩, name', t, ht⟩
  · left
    simp only [hs, ht]
    exact ⟨_, _, _, _, rfl, by rw [h.records, h.budget]⟩
  · right
    simp only [hs, ht]
    exact ⟨⟨_, rfl⟩, _, rfl⟩

/-- A class directory with one class, and a codec that keeps records as they are. -/
def sampleEnv : BuildEnv StoredRecord where
  readers :=
    { openZip := fun _ => none
      parseClass := fun _ => some
        { thisClass := ['a', '/', 'B'], superClass := some ['C'], interfaces := []
          constantPool := [.classInfo ['D']], sourceFiles := [], modules := [] } }
  codec := { encode := some, decode := some }
  lowercase := id
  isSettled := fun _ => true
  limits := { maxEntryBytes := 10, maxJarEntries := 10, maxXmlBytes := 10 }
  content := fun _ => .directory
    [some { relative := [97, 47, 66], name := some "a/B.class".toList, isFile := true
            bytes := some [1] }]
  capture := fun _ => some [([], 1, 1)]

def sampleIdentity : JarIdentity :=
  { key := { groupId := ['g'], artifactId := ['a'], version := ['1'] }
    classifier := none, relativePath := ['j'] }

/-- The cache after a build with a larger budget. -/
def sampleLoad (path : PathBuf) : Option StoredRecord :=
  if path = [47, 106] then
    (loadJarRecord sampleEnv.readers (sampleEnv.content path) path sampleIdentity 10).map
      fun record =>
      .of sampleEnv.limits record [([], 1, 1)] { entries := 1, nameBytes := 3 }
  else none

/-- The record of the class directory is restored. -/
theorem restored_build_agrees_directory :
    (sampleEnv.buildRecords (some sampleLoad) [([47, 106], sampleIdentity)]
        { budget := { entries := 5, names := 5, jarEntries := 10 }, records := []
          reuse := { reused := [], built := 0, persistable := [] } }).2.reuse.reused = [[47, 106]] ∧
      ((∃ index reuse reuse' left,
        sampleEnv.buildFromJars [47] [([47, 106], sampleIdentity)] 10 (some sampleLoad)
            { entries := 5, names := 5, jarEntries := 10 } = .ok (index, reuse, left) ∧
          sampleEnv.buildFromJars [47] [([47, 106], sampleIdentity)] 10 none
            { entries := 5, names := 5, jarEntries := 10 } = .ok (index, reuse', left)) ∨
      (∃ name, sampleEnv.buildFromJars [47] [([47, 106], sampleIdentity)] 10 (some sampleLoad)
          { entries := 5, names := 5, jarEntries := 10 } = .error (.limit name)) ∧
        ∃ name, sampleEnv.buildFromJars [47] [([47, 106], sampleIdentity)] 10 none
          { entries := 5, names := 5, jarEntries := 10 } = .error (.limit name)) := by
  refine ⟨by decide +kernel, restored_build_agrees (fun _ _ h => h.symm) ?_ _ _ _ _⟩
  intro path payload h
  unfold sampleLoad at h
  split at h
  · obtain ⟨record, hrecord, rfl⟩ := Option.map_eq_some_iff.mp h
    obtain ⟨_, _, _, _, hpath⟩ := derived_of_load hrecord
    refine ⟨_, path, sampleIdentity, sampleEnv.limits,
      { entries := 9, names := 9, jarEntries := 10 },
      { entries := 8, names := 6, jarEntries := 10 }, record, [([], 1, 1)], fun _ => true, ?_,
      hrecord, ?_, fun _ => rfl⟩
    · rfl
    · rw [← hpath]
      rfl
  · cases h

end Index
end MavenMcp
