/-
# Statistics of an index

`stats` counts the sources JARs by the map of sources JARs, and takes all others for binaries.  That
map has one place for each artifact and documented classifier, so it counts what the sources JARs
document (`sourceJarCount_eq`) rather than the JARs.

`stats_count_iff`: the numbers are right exactly when no two sources JARs document the same.
-/
import MavenMcp.Index.ClassSearch
import MavenMcp.Index.Sources
import Mathlib.Data.List.Dedup

namespace MavenMcp
namespace Index

/-! ## 1. The statistics -/

structure IndexStats where
  jarCount : Nat
  sourceJarCount : Nat
  classCount : Nat
  uniqueClassCount : Nat
  artifactCount : Nat
deriving DecidableEq, Repr

/-- `source_jar_count`. -/
def MavenIndex.sourceJarCount (index : MavenIndex) : Nat :=
  (index.sourceJars.values.map List.length).sum

def MavenIndex.stats (index : MavenIndex) : IndexStats :=
  { jarCount := index.jars.length - index.sourceJarCount
    sourceJarCount := index.sourceJarCount
    classCount := index.classCount
    uniqueClassCount := index.classLocations.entries.length
    artifactCount := index.artifacts.entries.length }

/-- What the sources JARs document: an artifact, and the classifier of its binary. -/
def documents (jars : List JarRecord) : List (ArtifactKey × Option Str) :=
  jars.filterMap fun jar => (documentedClassifier jar.classifier).map fun documented =>
    (jar.key, documented)

/-! ## 2. The map of sources JARs -/

variable {lowercase : Str → Str}

/-- Each artifact has one place for a classifier. -/
def OnePlace (index : MavenIndex) : Prop :=
  ∀ key byClassifier, index.sourceJars.lookup key = some byClassifier →
    (byClassifier.map Prod.fst).Nodup

theorem nodup_insertDocumented {byClassifier : List (Option Str × Nat)}
    (h : (byClassifier.map Prod.fst).Nodup) (documented : Option Str) (jar : Nat) :
    ((insertDocumented documented jar byClassifier).map Prod.fst).Nodup := by
  rw [insertDocumented, List.map_cons, List.nodup_cons]
  refine ⟨fun hmem => ?_, h.sublist (List.filter_sublist.map Prod.fst)⟩
  obtain ⟨e, he, heq⟩ := List.mem_map.mp hmem
  exact of_decide_eq_true (List.mem_filter.mp he).2 heq

theorem OnePlace.addRecord {index : MavenIndex} (h : OnePlace index) (record : JarRecord) :
    OnePlace (index.addRecord lowercase record) := by
  intro key byClassifier hlookup
  unfold MavenIndex.addRecord at hlookup
  cases hdocumented : documentedClassifier record.classifier with
  | none =>
    rw [hdocumented] at hlookup
    exact h key byClassifier hlookup
  | some documented =>
    rw [hdocumented] at hlookup
    simp only at hlookup
    rcases AList.lookup_insert_eq_some.mp hlookup with ⟨rfl, rfl⟩ | ⟨-, hold⟩
    · refine nodup_insertDocumented ?_ documented _
      cases hbefore : index.sourceJars.lookup record.key with
      | none => exact List.nodup_nil
      | some byClassifier => exact h _ _ hbefore
    · exact h key byClassifier hold

theorem OnePlace.addRecords (records : List JarRecord) {index : MavenIndex} (h : OnePlace index) :
    OnePlace (records.foldl (MavenIndex.addRecord lowercase) index) := by
  induction records generalizing index with
  | nil => exact h
  | cons record records ih => exact ih (h.addRecord record)

theorem onePlace_ofRecords (root : PathBuf) (maxResults maxSourceBytes : Nat)
    (records : List JarRecord) :
    OnePlace (.ofRecords lowercase root maxResults maxSourceBytes records) := by
  have hstart : OnePlace
      { root, jars := [], sourceJars := ∅, classLocations := ∅, childrenByParent := ∅
        artifacts := ∅, maxResults, maxSourceBytes } := nofun
  exact @OnePlace.addRecords lowercase
    (records.mergeSort fun a b => strLe a.relativePath b.relativePath) _ hstart

/-- The places of the map. -/
def MavenIndex.places (index : MavenIndex) : List (ArtifactKey × Option Str) :=
  index.sourceJars.entries.flatMap fun e => e.2.map fun place => (e.1, place.1)

theorem length_places (index : MavenIndex) : index.places.length = index.sourceJarCount := by
  unfold MavenIndex.places MavenIndex.sourceJarCount AList.values
  rw [List.length_flatMap, List.map_map]
  simp only [List.length_map, Function.comp_def]

theorem nodup_places {index : MavenIndex} (h : OnePlace index) : index.places.Nodup := by
  refine List.nodup_flatMap.mpr ⟨fun e he => ?_, ?_⟩
  · have hplaces := h e.1 e.2 (AList.mem_lookup_iff.mpr he)
    have hmap : (e.2.map fun place => (e.1, place.1)) = (e.2.map Prod.fst).map (Prod.mk e.1) := by
      rw [List.map_map]
      rfl
    rw [hmap]
    exact hplaces.map (Prod.mk_right_injective e.1)
  · have hkeys : index.sourceJars.entries.Pairwise fun a b => a.1 ≠ b.1 :=
      List.pairwise_map.mp index.sourceJars.nodupKeys
    refine hkeys.imp fun {a b} hne => ?_
    intro place ha hb
    obtain ⟨_, -, rfl⟩ := List.mem_map.mp ha
    obtain ⟨_, -, heq⟩ := List.mem_map.mp hb
    exact hne (Prod.mk.inj heq).1.symm

theorem mem_places {index : MavenIndex} {key : ArtifactKey} {classifier : Option Str} :
    (key, classifier) ∈ index.places ↔ (index.documentedJar key classifier).isSome = true := by
  unfold MavenIndex.places MavenIndex.documentedJar
  rw [List.lookup_isSome_iff, List.mem_flatMap]
  constructor
  · rintro ⟨e, he, hmem⟩
    obtain ⟨place, hplace, heq⟩ := List.mem_map.mp hmem
    obtain ⟨rfl, rfl⟩ := Prod.mk.inj heq
    have hlookup : index.sourceJars.lookup e.1 = some e.2 := AList.mem_lookup_iff.mpr he
    exact ⟨place, by rw [hlookup]; exact hplace, beq_self_eq_true _⟩
  · rintro ⟨place, hplace, hclassifier⟩
    cases hlookup : index.sourceJars.lookup key with
    | none =>
      rw [hlookup] at hplace
      cases hplace
    | some byClassifier =>
      rw [hlookup] at hplace
      refine ⟨⟨key, byClassifier⟩, AList.mem_lookup_iff.mp hlookup, ?_⟩
      exact List.mem_map.mpr ⟨place, hplace, by rw [eq_of_beq hclassifier]⟩

theorem mem_documents {jars : List JarRecord} {key : ArtifactKey} {classifier : Option Str} :
    (key, classifier) ∈ documents jars ↔
      ∃ record ∈ jars, record.key = key ∧
        documentedClassifier record.classifier = some classifier := by
  unfold documents
  rw [List.mem_filterMap]
  refine exists_congr fun record => and_congr_right fun _ => ?_
  rw [Option.map_eq_some_iff]
  constructor
  · rintro ⟨documented, hdocumented, heq⟩
    obtain ⟨rfl, rfl⟩ := Prod.mk.inj heq
    exact ⟨rfl, hdocumented⟩
  · rintro ⟨rfl, hdocumented⟩
    exact ⟨classifier, hdocumented, rfl⟩

/-- The places of the map are what the sources JARs document. -/
theorem perm_places {index : MavenIndex} (h : SourcesMapped index) (hone : OnePlace index) :
    index.places.Perm (documents index.jars).dedup := by
  refine (List.perm_ext_iff_of_nodup (nodup_places hone) (List.nodup_dedup _)).mpr ?_
  rintro ⟨key, classifier⟩
  rw [mem_places, List.mem_dedup, mem_documents]
  constructor
  · intro hplace
    obtain ⟨j, hj⟩ := Option.isSome_iff_exists.mp hplace
    obtain ⟨record, hrecord, hkey, hdocumented⟩ := h.sound key classifier j hj
    exact ⟨record, List.mem_of_getElem? hrecord, hkey, hdocumented⟩
  · rintro ⟨record, hrecord, rfl, hdocumented⟩
    exact h.complete record hrecord classifier hdocumented

/-- **What is counted** is what the sources JARs document, without repetition. -/
theorem sourceJarCount_eq {index : MavenIndex} (h : SourcesMapped index) (hone : OnePlace index) :
    index.sourceJarCount = (documents index.jars).dedup.length := by
  rw [← length_places, (perm_places h hone).length_eq]

/-! ## 3. Right numbers -/

theorem length_documents (jars : List JarRecord) :
    (documents jars).length = jars.countP JarRecord.isSource := by
  induction jars with
  | nil => rfl
  | cons record jars ih =>
    unfold documents at ih ⊢
    cases hdocumented : documentedClassifier record.classifier with
    | none =>
      have hbinary : ¬ record.isSource = true := by simp [JarRecord.isSource, hdocumented]
      rw [List.filterMap_cons_none (by rw [hdocumented]; rfl), List.countP_cons_of_neg hbinary, ih]
    | some documented =>
      have hsource : record.isSource = true := by simp [JarRecord.isSource, hdocumented]
      rw [List.filterMap_cons_some (by rw [hdocumented]; rfl), List.length_cons,
        List.countP_cons_of_pos hsource, ih]

/-- The numbers are those of the records. -/
def CountsRecords (index : MavenIndex) : Prop :=
  index.stats.sourceJarCount = index.jars.countP JarRecord.isSource ∧
    index.stats.jarCount = index.jars.countP fun jar => !jar.isSource

theorem countsRecords_iff {index : MavenIndex} (h : SourcesMapped index) (hone : OnePlace index) :
    CountsRecords index ↔ (documents index.jars).Nodup := by
  have hcount : index.stats.sourceJarCount = (documents index.jars).dedup.length :=
    sourceJarCount_eq h hone
  have hsplit := List.length_eq_countP_add_countP JarRecord.isSource (l := index.jars)
  simp only [Bool.not_eq_true, Bool.decide_eq_false] at hsplit
  constructor
  · rintro ⟨hsources, -⟩
    rw [hcount, ← length_documents] at hsources
    rw [← (List.dedup_sublist _).eq_of_length hsources]
    exact List.nodup_dedup _
  · intro hnodup
    rw [List.dedup_eq_self.mpr hnodup, length_documents] at hcount
    refine ⟨hcount, ?_⟩
    have hjars : index.stats.jarCount = index.jars.length - index.stats.sourceJarCount := rfl
    rw [hjars, hcount]
    omega

theorem onePlace_of_buildFromJars {P : Type} {env : BuildEnv P} {root : PathBuf}
    {jars : List (PathBuf × JarIdentity)} {maxResults : Nat}
    {persisted : Option (PathBuf → Option P)} {budget left : ArchiveBudget} {index : MavenIndex}
    {reuse : RecordReuse P}
    (h : env.buildFromJars root jars maxResults persisted budget = .ok (index, reuse, left)) :
    OnePlace index := by
  unfold BuildEnv.buildFromJars at h
  simp only at h
  split at h
  · cases h
  · obtain ⟨rfl, -⟩ := Prod.mk.inj (Except.ok.inj h)
    exact onePlace_ofRecords _ _ _ _

/-- **Index statistics** count the records of every build exactly when no two sources JARs document
the same artifact and classifier. -/
theorem stats_count_iff {P : Type} {env : BuildEnv P} {root : PathBuf}
    {jars : List (PathBuf × JarIdentity)} {maxResults : Nat}
    {persisted : Option (PathBuf → Option P)} {budget left : ArchiveBudget} {index : MavenIndex}
    {reuse : RecordReuse P}
    (h : env.buildFromJars root jars maxResults persisted budget = .ok (index, reuse, left)) :
    CountsRecords index ↔ (documents index.jars).Nodup :=
  countsRecords_iff (built_of_buildFromJars h).sources (onePlace_of_buildFromJars h)

/-! ## 4. Sources JARs of one artifact -/

def sourcesOf (classifier relativePath : Str) : JarIdentity :=
  { key := { groupId := ['g'], artifactId := ['a'], version := ['1'] }
    classifier := some classifier, relativePath }

/-- One sources JAR. -/
theorem stats_count_iff_sources :
    ∃ index reuse left,
      emptyJarEnv.buildFromJars [47, 114]
          [(sampleJar "a-1-sources.jar".toList, sourcesOf "sources".toList ['s'])] 10 none
          { entries := 9, names := 9, jarEntries := 9 } = .ok (index, reuse, left) ∧
        (CountsRecords index ↔ (documents index.jars).Nodup) := by
  obtain ⟨index, reuse, left, hbuild⟩ := buildFromJars_ok emptyJarEnv
    [(sampleJar "a-1-sources.jar".toList, sourcesOf "sources".toList ['s'])] none
    { entries := 9, names := 9, jarEntries := 9 } (List.pairwise_singleton _ _) (by decide +kernel)
    [47, 114] 10
  exact ⟨index, reuse, left, hbuild, stats_count_iff hbuild⟩

/-- The sources of the tests, under both names. -/
def testSources : List (PathBuf × JarIdentity) :=
  [(sampleJar "a-1-test-sources.jar".toList, sourcesOf "test-sources".toList ['s']),
    (sampleJar "a-1-tests-sources.jar".toList, sourcesOf "tests-sources".toList ['t'])]

/-- Two sources JARs of the tests are counted as one, and one of them as a binary. -/
theorem stats_miscount_tests :
    ∃ index reuse left,
      emptyJarEnv.buildFromJars [47, 114] testSources 10 none
          { entries := 9, names := 9, jarEntries := 9 } = .ok (index, reuse, left) ∧
        index.jars.countP JarRecord.isSource = 2 ∧ index.stats.sourceJarCount = 1 ∧
          index.stats.jarCount = 1 ∧ ¬ CountsRecords index := by
  obtain ⟨index, reuse, left, hbuild⟩ := buildFromJars_ok emptyJarEnv testSources none
    { entries := 9, names := 9, jarEntries := 9 } (by decide +kernel) (by decide +kernel)
    [47, 114] 10
  have hperm := perm_jars_of_build (fun jar _ => readable_emptyJar jar.1) hbuild
  have hdocuments : (documents index.jars).Perm
      (testSources.filterMap fun jar =>
        (documentedClassifier jar.2.classifier).map fun documented => (jar.2.key, documented)) := by
    have hfilter := hperm.filterMap fun jar : PathBuf × JarIdentity =>
      (documentedClassifier jar.2.classifier).map fun documented => (jar.2.key, documented)
    rw [List.filterMap_map] at hfilter
    exact hfilter
  have hsources : index.jars.countP JarRecord.isSource = 2 := by
    rw [← length_documents, hdocuments.length_eq]
    decide +kernel
  have hcount : index.stats.sourceJarCount = 1 := by
    have hplaces : index.stats.sourceJarCount = (documents index.jars).dedup.length :=
      sourceJarCount_eq (built_of_buildFromJars hbuild).sources (onePlace_of_buildFromJars hbuild)
    rw [hplaces, hdocuments.dedup.length_eq]
    decide +kernel
  have hlength : index.jars.length = 2 := by
    have hjars := hperm.length_eq
    rwa [List.length_map] at hjars
  have hjarCount : index.stats.jarCount = index.jars.length - index.stats.sourceJarCount := rfl
  refine ⟨index, reuse, left, hbuild, hsources, hcount, by omega, ?_⟩
  rintro ⟨hcounts, -⟩
  omega

end Index
end MavenMcp
