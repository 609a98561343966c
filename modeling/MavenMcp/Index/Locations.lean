/-
# What a built index holds

`build_from_jars` enters the records one after the other.  The maps it leaves are determined by the
list of records (`Built`): the locations of classes are the classes of the binary JARs filed under
their lowercased names, the sources JARs are entered under what they document, and the hierarchy is
computed from the records at the end.

`built_of_buildFromJars` gives this for every build, with or without a cache of records.
-/
import MavenMcp.Index.Build
import MavenMcp.Index.MultiRelease
import MavenMcp.Lib.Grouping
import Mathlib.Data.List.Destutter

namespace MavenMcp
namespace Index

/-! ## 1. Entering records -/

/-- The classes of a binary JAR, each under the name it is located by. -/
def locationEntries (lowercase : Str → Str) (jar : JarRecord × Nat) : List (Str × Nat) :=
  if jar.1.isSource then [] else jar.1.classes.map fun name => (lowercase name, jar.2)

variable {lowercase : Str → Str}

@[simp] theorem jars_addRecord (index : MavenIndex) (record : JarRecord) :
    (index.addRecord lowercase record).jars = index.jars ++ [record] := by
  unfold MavenIndex.addRecord
  split <;> rfl

theorem classLocations_addRecord (index : MavenIndex) (record : JarRecord) :
    (index.addRecord lowercase record).classLocations
      = index.classLocations.pushAll (locationEntries lowercase (record, index.jars.length)) := by
  unfold MavenIndex.addRecord locationEntries JarRecord.isSource
  cases documentedClassifier record.classifier with
  | some documented => rfl
  | none =>
    rw [if_neg (by simp), AList.pushAll, List.foldl_map]
    rfl

theorem jars_addRecords (records : List JarRecord) (index : MavenIndex) :
    (records.foldl (MavenIndex.addRecord lowercase) index).jars = index.jars ++ records := by
  induction records generalizing index with
  | nil => exact (List.append_nil _).symm
  | cons record records ih =>
    rw [List.foldl_cons, ih, jars_addRecord, List.append_assoc, List.singleton_append]

theorem classLocations_addRecords (records : List JarRecord) (index : MavenIndex) :
    (records.foldl (MavenIndex.addRecord lowercase) index).classLocations
      = index.classLocations.pushAll
          ((records.zipIdx index.jars.length).flatMap (locationEntries lowercase)) := by
  induction records generalizing index with
  | nil => rfl
  | cons record records ih =>
    rw [List.foldl_cons, ih, jars_addRecord, classLocations_addRecord, List.zipIdx_cons,
      List.flatMap_cons, AList.pushAll_append, List.length_append, List.length_singleton]

/-! ## 2. Sources JARs -/

/-- The sources JAR entered for the binaries of an artifact with a classifier. -/
def MavenIndex.documentedJar (index : MavenIndex) (key : ArtifactKey) (classifier : Option Str) :
    Option Nat :=
  ((index.sourceJars.lookup key).getD []).lookup classifier

theorem lookup_filter_ne {documented classifier : Option Str} (h : classifier ≠ documented)
    (byClassifier : List (Option Str × Nat)) :
    (byClassifier.filter fun e => e.1 ≠ documented).lookup classifier
      = byClassifier.lookup classifier := by
  induction byClassifier with
  | nil => rfl
  | cons e byClassifier ih =>
    obtain ⟨k, j⟩ := e
    rw [List.filter_cons]
    by_cases hk : k = documented
    · have hne : (classifier == k) = false := beq_eq_false_iff_ne.mpr fun heq => h (heq.trans hk)
      rw [if_neg (by simp [hk]), List.lookup_cons, hne]
      exact ih
    · rw [if_pos (by simp [hk]), List.lookup_cons, List.lookup_cons, ih]

theorem lookup_insertDocumented (documented classifier : Option Str) (jar : Nat)
    (byClassifier : List (Option Str × Nat)) :
    (insertDocumented documented jar byClassifier).lookup classifier
      = if classifier = documented then some jar else byClassifier.lookup classifier := by
  rw [insertDocumented, List.lookup_cons]
  by_cases h : classifier = documented
  · simp [h]
  · have hne : (classifier == documented) = false := beq_eq_false_iff_ne.mpr h
    rw [hne, if_neg h]
    exact lookup_filter_ne h byClassifier

theorem documentedJar_addRecord (index : MavenIndex) (record : JarRecord) (key : ArtifactKey)
    (classifier : Option Str) :
    (index.addRecord lowercase record).documentedJar key classifier
      = if record.key = key ∧ documentedClassifier record.classifier = some classifier then
          some index.jars.length
        else index.documentedJar key classifier := by
  unfold MavenIndex.addRecord MavenIndex.documentedJar
  cases hdocumented : documentedClassifier record.classifier with
  | none => simp
  | some documented =>
    by_cases hkey : record.key = key
    · rw [hkey]
      simp only [AList.lookup_insert, Option.getD_some, lookup_insertDocumented, Option.some.injEq,
        true_and]
      by_cases hclassifier : classifier = documented
      · rw [if_pos hclassifier, if_pos hclassifier.symm]
      · rw [if_neg hclassifier, if_neg fun h => hclassifier h.symm]
    · have hne : key ≠ record.key := fun heq => hkey heq.symm
      simp only [AList.lookup_insert_ne hne, hkey, false_and, if_false]

/-- The map of sources JARs holds sources JARs, and one for each artifact and classifier that some
JAR documents. -/
structure SourcesMapped (index : MavenIndex) : Prop where
  sound : ∀ key classifier jar, index.documentedJar key classifier = some jar →
    ∃ record, index.jars[jar]? = some record ∧ record.key = key ∧
      documentedClassifier record.classifier = some classifier
  complete : ∀ record ∈ index.jars, ∀ classifier,
    documentedClassifier record.classifier = some classifier →
      (index.documentedJar record.key classifier).isSome = true

theorem SourcesMapped.addRecord {index : MavenIndex} (h : SourcesMapped index)
    (record : JarRecord) :
    SourcesMapped (index.addRecord lowercase record) where
  sound key classifier jar hjar := by
    rw [documentedJar_addRecord] at hjar
    rw [jars_addRecord]
    split at hjar
    · rename_i hnew
      refine ⟨record, ?_, hnew⟩
      rw [← Option.some.inj hjar]
      exact List.getElem?_concat_length
    · obtain ⟨other, hother, hkey⟩ := h.sound key classifier jar hjar
      refine ⟨other, ?_, hkey⟩
      rw [List.getElem?_append_left (List.getElem?_eq_some_iff.mp hother).1]
      exact hother
  complete other hother classifier hdocumented := by
    rw [documentedJar_addRecord]
    split
    · rfl
    · rename_i hnot
      rw [jars_addRecord] at hother
      rcases List.mem_append.mp hother with hother | hother
      · exact h.complete other hother classifier hdocumented
      · rw [List.mem_singleton.mp hother] at hdocumented hnot
        exact absurd ⟨rfl, hdocumented⟩ hnot

theorem SourcesMapped.addRecords (records : List JarRecord) {index : MavenIndex}
    (h : SourcesMapped index) :
    SourcesMapped (records.foldl (MavenIndex.addRecord lowercase) index) := by
  induction records generalizing index with
  | nil => exact h
  | cons record records ih => exact ih (h.addRecord record)

/-! ## 3. Built indexes -/

/-- An index as a build leaves it. -/
structure MavenIndex.Built (lowercase : Str → Str) (index : MavenIndex) : Prop where
  derived : ∀ record ∈ index.jars, record.Derived
  classLocations : index.classLocations
    = (∅ : Table Str (List Nat)).pushAll (index.jars.zipIdx.flatMap (locationEntries lowercase))
  childrenByParent : index.childrenByParent = buildChildrenByParent index.jars
  sources : SourcesMapped index

theorem perm_jars_ofRecords (root : PathBuf) (maxResults maxSourceBytes : Nat)
    (records : List JarRecord) :
    (MavenIndex.ofRecords lowercase root maxResults maxSourceBytes records).jars.Perm records := by
  unfold MavenIndex.ofRecords
  rw [jars_addRecords, List.nil_append]
  exact List.mergeSort_perm _ _

theorem built_ofRecords (root : PathBuf) (maxResults maxSourceBytes : Nat)
    {records : List JarRecord} (h : ∀ record ∈ records, record.Derived) :
    (MavenIndex.ofRecords lowercase root maxResults maxSourceBytes records).Built lowercase where
  derived record hrecord := h record ((perm_jars_ofRecords _ _ _ _).mem_iff.mp hrecord)
  classLocations := by
    unfold MavenIndex.ofRecords
    simp only [jars_addRecords, classLocations_addRecords, List.nil_append, List.length_nil]
  childrenByParent := rfl
  sources := by
    have hstart : SourcesMapped
        { root, jars := [], sourceJars := ∅, classLocations := ∅, childrenByParent := ∅
          artifacts := ∅, maxResults, maxSourceBytes } := ⟨nofun, nofun⟩
    have hall := @SourcesMapped.addRecords lowercase
      (records.mergeSort fun a b => strLe a.relativePath b.relativePath) _ hstart
    exact ⟨hall.sound, hall.complete⟩

variable {P : Type}

/-- How a record comes into a build: read from its archive, or restored from a payload of the
cache. -/
inductive Admitted (env : BuildEnv P) (persisted : Option (PathBuf → Option P))
    (record : JarRecord) :
    Prop
  | read {path : PathBuf} {identity : JarIdentity}
      (hload : loadJarRecord env.readers (env.content path) path identity env.limits.maxEntryBytes
        = some record)
  | restored {load : PathBuf → Option P} {payload : P} {stored : StoredRecord} {path : PathBuf}
      {identity : JarIdentity} (hcache : persisted = some load)
      (hpayload : load path = some payload)
      (hdecode : env.codec.decode payload = some stored) (hvalid : stored.isValid = true)
      (hrecord : record = stored.intoRecord path identity)

variable {env : BuildEnv P} {persisted : Option (PathBuf → Option P)}

theorem Admitted.derived {record : JarRecord} (h : Admitted env persisted record) :
    record.Derived := by
  cases h with
  | read hload => exact (derived_of_load hload).1
  | restored _ _ _ _ hrecord =>
    rw [hrecord]
    exact ⟨rfl, rfl⟩

theorem admitted_readArtifact (path : PathBuf) (identity : JarIdentity) {s : BuildState P}
    (h : ∀ record ∈ s.records, Admitted env persisted record) :
    ∀ record ∈ (env.readArtifact persisted path identity s).2.records,
      Admitted env persisted record := by
  unfold BuildEnv.readArtifact
  split
  · exact h
  · exact h
  · split
    · exact h
    · rename_i record hload
      intro other hother
      rcases List.mem_append.mp hother with hother | hother
      · exact h other hother
      · rw [List.mem_singleton.mp hother]
        exact .read hload

theorem admitted_buildArtifact (path : PathBuf) (identity : JarIdentity) {s : BuildState P}
    (h : ∀ record ∈ s.records, Admitted env persisted record) :
    ∀ record ∈ (env.buildArtifact persisted path identity s).2.records,
      Admitted env persisted record := by
  unfold BuildEnv.buildArtifact
  split
  · exact h
  · rename_i record budget hrestore
    intro other hother
    rcases List.mem_append.mp hother with hother | hother
    · exact h other hother
    · rw [List.mem_singleton.mp hother]
      unfold BuildEnv.restoreArtifact at hrestore
      split at hrestore
      · cases hrestore
      · rename_i load
        split at hrestore
        · rename_i payload validity hpayload hvalidity
          obtain ⟨stored, hdecode, hvalid, hrecord⟩ := stored_of_restore hrestore
          exact .restored rfl hpayload hdecode hvalid hrecord
        · cases hrestore
  · exact admitted_readArtifact path identity h

theorem admitted_buildRecords (jars : List (PathBuf × JarIdentity)) {s : BuildState P}
    (h : ∀ record ∈ s.records, Admitted env persisted record) :
    ∀ record ∈ (env.buildRecords persisted jars s).2.records, Admitted env persisted record := by
  induction jars generalizing s with
  | nil => exact h
  | cons jar jars ih =>
    obtain ⟨path, identity⟩ := jar
    have hone := admitted_buildArtifact path identity h
    unfold BuildEnv.buildRecords
    rcases hstep : env.buildArtifact persisted path identity s with ⟨_ | _, after⟩
    · rw [hstep] at hone
      exact hone
    · rw [hstep] at hone
      exact ih hone

/-- The index of a build is that of admitted records. -/
theorem admitted_of_buildFromJars {root : PathBuf} {jars : List (PathBuf × JarIdentity)}
    {maxResults : Nat} {budget left : ArchiveBudget} {index : MavenIndex} {reuse : RecordReuse P}
    (h : env.buildFromJars root jars maxResults persisted budget = .ok (index, reuse, left)) :
    ∃ records, (∀ record ∈ records, Admitted env persisted record) ∧
      index = .ofRecords env.lowercase root maxResults env.limits.maxEntryBytes records := by
  have hstart : ∀ record ∈ (⟨budget, [], ⟨[], 0, []⟩⟩ : BuildState P).records,
      Admitted env persisted record := nofun
  have hrecords := admitted_buildRecords (jars.mergeSort fun a b => pathLe a.1 b.1) hstart
  unfold BuildEnv.buildFromJars at h
  simp only at h
  split at h
  · cases h
  · rename_i s hs
    rw [hs] at hrecords
    obtain ⟨rfl, -⟩ := Prod.mk.inj (Except.ok.inj h)
    exact ⟨s.records, hrecords, rfl⟩

theorem admitted_of_mem_jars {root : PathBuf} {jars : List (PathBuf × JarIdentity)}
    {maxResults : Nat} {budget left : ArchiveBudget} {index : MavenIndex} {reuse : RecordReuse P}
    (h : env.buildFromJars root jars maxResults persisted budget = .ok (index, reuse, left)) :
    ∀ record ∈ index.jars, Admitted env persisted record := by
  obtain ⟨records, hrecords, rfl⟩ := admitted_of_buildFromJars h
  exact fun record hrecord => hrecords record ((perm_jars_ofRecords _ _ _ _).mem_iff.mp hrecord)

/-- **Every build** leaves an index whose maps follow from its records. -/
theorem built_of_buildFromJars {root : PathBuf} {jars : List (PathBuf × JarIdentity)}
    {maxResults : Nat} {budget left : ArchiveBudget} {index : MavenIndex} {reuse : RecordReuse P}
    (h : env.buildFromJars root jars maxResults persisted budget = .ok (index, reuse, left)) :
    index.Built env.lowercase := by
  obtain ⟨records, hrecords, rfl⟩ := admitted_of_buildFromJars h
  exact built_ofRecords root maxResults env.limits.maxEntryBytes fun record hrecord =>
    (hrecords record hrecord).derived

/-! ## 4. The names of classes -/

theorem mem_destutter' {α : Type} [DecidableEq α] (l : List α) (a x : α) :
    x ∈ l.destutter' (· ≠ ·) a ↔ x = a ∨ x ∈ l := by
  induction l generalizing a with
  | nil => simp
  | cons b l ih =>
    rw [List.destutter'_cons, List.mem_cons]
    split
    · rw [List.mem_cons, ih]
    · rename_i heq
      rw [not_not] at heq
      rw [ih, heq]
      tauto

/-- Dropping repetitions leaves a sorted list strictly sorted. -/
theorem strict_destutter' {α : Type} [DecidableEq α] {le : α → α → Bool}
    (hantisymm : ∀ a b, le a b = true → le b a = true → a = b) {l : List α} {a : α}
    (h : (a :: l).Pairwise fun a b => le a b = true) :
    (l.destutter' (· ≠ ·) a).Pairwise fun a b => le a b = true ∧ a ≠ b := by
  induction l generalizing a with
  | nil => exact List.pairwise_singleton _ _
  | cons b l ih =>
    obtain ⟨hhead, htail⟩ := List.pairwise_cons.mp h
    rw [List.destutter'_cons]
    split
    · rename_i hne
      refine .cons (fun x hx => ?_) (ih htail)
      have hle := hhead b List.mem_cons_self
      rcases (mem_destutter' l b x).mp hx with rfl | hx
      · exact ⟨hle, hne⟩
      · refine ⟨hhead x (List.mem_cons_of_mem _ hx), ?_⟩
        rintro rfl
        exact hne (hantisymm a b hle ((List.pairwise_cons.mp htail).1 a hx))
    · exact ih (.cons (fun x hx => hhead x (List.mem_cons_of_mem _ hx))
        (List.pairwise_cons.mp htail).2)

/-- Sorting and dropping repetitions leaves a list strictly sorted, -/
theorem strict_sorted {α : Type} [DecidableEq α] {le : α → α → Bool}
    (htrans : ∀ a b c, le a b = true → le b c = true → le a c = true)
    (htotal : ∀ a b, (le a b || le b a) = true)
    (hantisymm : ∀ a b, le a b = true → le b a = true → a = b) (l : List α) :
    ((l.mergeSort le).destutter (· ≠ ·)).Pairwise fun a b => le a b = true ∧ a ≠ b := by
  have hsorted := List.pairwise_mergeSort htrans htotal l
  cases hl : l.mergeSort le with
  | nil => exact List.Pairwise.nil
  | cons a rest =>
    rw [hl] at hsorted
    exact strict_destutter' hantisymm hsorted

/-- with the same elements. -/
theorem mem_sorted {α : Type} [DecidableEq α] {le : α → α → Bool} {l : List α} {a : α} :
    a ∈ (l.mergeSort le).destutter (· ≠ ·) ↔ a ∈ l := by
  have hsort : a ∈ l.mergeSort le ↔ a ∈ l := List.mem_mergeSort
  rw [← hsort]
  cases l.mergeSort le with
  | nil => rfl
  | cons b rest => rw [List.destutter_cons', mem_destutter', List.mem_cons]

theorem strict_sorted_strLe (l : List Str) :
    ((l.mergeSort strLe).destutter (· ≠ ·)).Pairwise fun a b => strLe a b = true ∧ a ≠ b := by
  have hantisymm : ∀ a b : Str, strLe a b = true → strLe b a = true → a = b :=
    fun _ _ => strLe_antisymm
  refine @strict_sorted Str _ strLe (fun _ _ _ => strLe_trans) (fun a b => ?_) hantisymm l
  rw [Bool.or_eq_true]
  exact strLe_total a b

/-- The classes of a record are in order, each once. -/
theorem strict_classNames (classEntries : List (Str × Str)) :
    (classNames classEntries).Pairwise fun a b => strLe a b = true ∧ a ≠ b :=
  strict_sorted_strLe _

theorem nodup_classNames (classEntries : List (Str × Str)) : (classNames classEntries).Nodup :=
  (strict_classNames classEntries).imp And.right

/-- A class is listed when some entry names it. -/
theorem mem_classNames {classEntries : List (Str × Str)} {name : Str} :
    name ∈ classNames classEntries ↔ ∃ e ∈ classEntries, classNameFromEntry e.1 = some name := by
  rw [classNames, mem_sorted, List.mem_filterMap]

end Index
end MavenMcp
