/-
# Records on disk

`src/index/persisted.rs`: a record is stored without what follows from the rest of it, and with
everything it was derived from: the path, the Maven identity, the limits, and the stamps of the
files.  `restore` takes it only when all of these are as they were, and charges what its preflight
charged.

The payload of a record is the zlib stream of its serialized form; encoding and decoding are
parameters (`Codec`).

Storing loses nothing (`intoRecord_of`), and the charge recorded once is the charge of the
preflight in any build (`charge_between`).
-/
import MavenMcp.Index.Preflight
import MavenMcp.Index.Record

namespace MavenMcp

/-! ## 1. The stored form -/

/-- `ArtifactValidity`: relative path, size and modification time of every file. -/
abbrev ArtifactValidity := List (Str × Nat × Nat)

/-- The limits of the configuration that shape a record. -/
structure RecordLimits where
  maxEntryBytes : Nat
  maxJarEntries : Nat
  maxXmlBytes : Nat
deriving DecidableEq, Repr

/-- Everything besides the artifact content that determines the derived record. -/
structure RecordContext where
  path : PathBuf
  groupId : Str
  artifactId : Str
  version : Str
  classifier : Option Str
  relativePath : Str
  maxEntryBytes : Nat
  maxJarEntries : Nat
  maxXmlBytes : Nat
deriving DecidableEq, Repr

def RecordContext.new (limits : RecordLimits) (path : PathBuf) (identity : JarIdentity) :
    RecordContext :=
  { path
    groupId := identity.key.groupId
    artifactId := identity.key.artifactId
    version := identity.key.version
    classifier := identity.classifier
    relativePath := identity.relativePath
    maxEntryBytes := limits.maxEntryBytes
    maxJarEntries := limits.maxJarEntries
    maxXmlBytes := limits.maxXmlBytes }

/-- Entries and name bytes the archive preflight charged against the index-wide budget. -/
structure PreflightCharge where
  entries : Nat
  nameBytes : Nat
deriving DecidableEq, Repr

def PreflightCharge.between (before after : ArchiveBudget) : PreflightCharge :=
  { entries := before.entries - after.entries, nameBytes := before.names - after.names }

/-- `charge`, with the budget it leaves behind also when it fails. -/
def PreflightCharge.charge (charge : PreflightCharge) (budget : ArchiveBudget) :
    Except PreflightError Unit × ArchiveBudget :=
  if budget.jarEntries < charge.entries then (.error (.limit "MAX_JAR_ENTRIES"), budget)
  else if budget.entries < charge.entries then (.error (.limit "MAX_INDEX_ENTRIES"), budget)
  else
    let budget := { budget with entries := budget.entries - charge.entries }
    if budget.names < charge.nameBytes then (.error (.limit "MAX_INDEX_NAME_BYTES"), budget)
    else (.ok (), { budget with names := budget.names - charge.nameBytes })

structure StoredReference where
  owner : Nat
  name : Option Nat
  descriptor : Option Nat
  kind : ClassReferenceKind
deriving DecidableEq, Repr

structure StoredClassFacts where
  sourceClass : Nat
  sourceFile : Option Nat
  parents : List (Nat × TypeRelation)
  references : List StoredReference
deriving DecidableEq, Repr

structure StoredRecord where
  context : RecordContext
  validity : ArtifactValidity
  preflight : PreflightCharge
  multiRelease : Bool
  entries : List Str
  factStrings : List Str
  classFacts : List StoredClassFacts
  providers : List IndexedProvider
deriving DecidableEq, Repr

def storeClassFacts (facts : IndexedClassFacts) : StoredClassFacts :=
  { sourceClass := facts.sourceClass.raw
    sourceFile := facts.sourceFile.map FactStringId.raw
    parents := facts.parents.map fun parent => (parent.parent.raw, parent.relation)
    references := facts.references.map fun reference =>
      { owner := reference.targetOwner.raw
        name := reference.targetName.map FactStringId.raw
        descriptor := reference.targetDescriptor.map FactStringId.raw
        kind := reference.kind } }

/-- `encode_payload` and `decode_payload`. -/
structure Codec (P : Type) where
  encode : StoredRecord → Option P
  decode : P → Option StoredRecord

/-- The codec gives back what was stored. -/
def Codec.Lossless {P : Type} (codec : Codec P) : Prop :=
  ∀ stored payload, codec.encode stored = some payload → codec.decode payload = some stored

/-- The form in which a record is stored. -/
def StoredRecord.of (limits : RecordLimits) (record : JarRecord) (validity : ArtifactValidity)
    (preflight : PreflightCharge) : StoredRecord :=
  { context := .new limits record.path
      { key := record.key, classifier := record.classifier, relativePath := record.relativePath }
    validity
    preflight
    multiRelease := record.multiRelease
    entries := record.entries
    factStrings := record.factStrings
    classFacts := record.classFacts.map storeClassFacts
    providers := record.providers }

variable {P : Type}

/-- `persistable`: `isSettled` is whether a modification time is old enough now. -/
def persistable (codec : Codec P) (isSettled : Nat → Bool) (limits : RecordLimits)
    (record : JarRecord) (validity : ArtifactValidity) (preflight : PreflightCharge) :
    Option (PathBuf × P) :=
  if validity.all fun stamp => isSettled stamp.2.2 then
    (codec.encode (.of limits record validity preflight)).map fun payload => (record.path, payload)
  else none

/-! ## 2. Restoring -/

/-- `validate`: every fact string number points into the string table. -/
def StoredRecord.isValid (stored : StoredRecord) : Bool :=
  let inRange (id : Nat) : Bool := decide (1 ≤ id) && decide (id ≤ stored.factStrings.length)
  stored.classFacts.all fun facts =>
    inRange facts.sourceClass && facts.sourceFile.all inRange &&
      facts.parents.all (fun parent => inRange parent.1) &&
      facts.references.all fun reference =>
        inRange reference.owner && reference.name.all inRange && reference.descriptor.all inRange

/-- `fact_id`. -/
def factId (raw : Nat) : FactStringId :=
  if h : 0 < raw then ⟨raw, h⟩ else ⟨1, Nat.one_pos⟩

def restoreClassFacts (facts : StoredClassFacts) : IndexedClassFacts :=
  { sourceClass := factId facts.sourceClass
    sourceFile := facts.sourceFile.map factId
    parents := facts.parents.map fun (parent, relation) => { parent := factId parent, relation }
    references := facts.references.map fun reference =>
      { targetOwner := factId reference.owner
        targetName := reference.name.map factId
        targetDescriptor := reference.descriptor.map factId
        kind := reference.kind } }

/-- `into_record`. -/
def StoredRecord.intoRecord (stored : StoredRecord) (path : PathBuf) (identity : JarIdentity) :
    JarRecord :=
  let index := JarIndex.ofEntries stored.entries stored.multiRelease
  { key := identity.key
    classifier := identity.classifier
    relativePath := identity.relativePath
    path
    classes := index.classes
    entries := index.entries
    classEntries := index.classEntries
    multiRelease := stored.multiRelease
    factStrings := stored.factStrings
    classFacts := stored.classFacts.map restoreClassFacts
    providers := stored.providers }

/-- `restore`: `.ok none` is a cache miss. -/
def restore (codec : Codec P) (limits : RecordLimits) (payload : P) (path : PathBuf)
    (identity : JarIdentity) (validity : ArtifactValidity) (budget : ArchiveBudget) :
    Except PreflightError (Option JarRecord) × ArchiveBudget :=
  match codec.decode payload with
  | none => (.ok none, budget)
  | some stored =>
    if !stored.isValid then (.ok none, budget)
    else if stored.context ≠ .new limits path identity ∨ stored.validity ≠ validity then
      (.ok none, budget)
    else
      match stored.preflight.charge budget with
      | (.error e, budget) => (.error e, budget)
      | (.ok (), budget) => (.ok (some (stored.intoRecord path identity)), budget)

/-- A record that is restored is that of the decoded payload, which passed its check. -/
theorem stored_of_restore {codec : Codec P} {limits : RecordLimits} {payload : P} {path : PathBuf}
    {identity : JarIdentity} {validity : ArtifactValidity} {budget budget' : ArchiveBudget}
    {record : JarRecord}
    (h : restore codec limits payload path identity validity budget =
      (.ok (some record), budget')) :
    ∃ stored, codec.decode payload = some stored ∧ stored.isValid = true ∧
      record = stored.intoRecord path identity := by
  unfold restore at h
  split at h
  · cases h
  · rename_i stored hdecode
    split at h
    · cases h
    · rename_i hvalid
      split at h
      · cases h
      · split at h
        · cases h
        · obtain ⟨h, -⟩ := Prod.mk.inj h
          have hrecord := Option.some.inj (Except.ok.inj h)
          have hvalid : stored.isValid = true := by
            rw [Bool.not_eq_true', Bool.not_eq_false] at hvalid
            exact hvalid
          exact ⟨stored, hdecode, hvalid, hrecord.symm⟩

/-! ## 3. Storing loses nothing -/

@[simp] theorem factId_raw (id : FactStringId) : factId id.raw = id := by
  obtain ⟨raw, pos⟩ := id
  exact dif_pos pos

theorem restore_storeClassFacts (facts : IndexedClassFacts) :
    restoreClassFacts (storeClassFacts facts) = facts := by
  obtain ⟨sourceClass, sourceFile, parents, references⟩ := facts
  have hopt : ∀ id : Option FactStringId, (id.map FactStringId.raw).map factId = id := by
    rintro (_ | id) <;> simp
  simp only [storeClassFacts, restoreClassFacts, factId_raw, hopt, List.map_map]
  congr 1
  · conv_rhs => rw [← List.map_id parents]
    exact List.map_congr_left fun parent _ => by simp
  · conv_rhs => rw [← List.map_id references]
    exact List.map_congr_left fun reference _ => by simp [hopt]

/-- Classes and effective entries follow from the entry names and the flag. -/
def JarRecord.Derived (record : JarRecord) : Prop :=
  record.classes = (JarIndex.ofEntries record.entries record.multiRelease).classes ∧
    record.classEntries = (JarIndex.ofEntries record.entries record.multiRelease).classEntries

theorem derived_of_load {readers : Readers} {content : Content} {path : PathBuf}
    {identity : JarIdentity} {maxEntryBytes : Nat} {record : JarRecord}
    (h : loadJarRecord readers content path identity maxEntryBytes = some record) :
    record.Derived ∧ record.key = identity.key ∧ record.classifier = identity.classifier ∧
      record.relativePath = identity.relativePath ∧ record.path = path := by
  obtain ⟨archive, _, hrecord⟩ := Option.bind_eq_some_iff.mp h
  obtain ⟨index, hindex, rfl⟩ := Option.map_eq_some_iff.mp hrecord
  obtain ⟨entries, _, rfl⟩ := Option.map_eq_some_iff.mp hindex
  exact ⟨⟨rfl, rfl⟩, rfl, rfl, rfl, rfl⟩

/-- **The record comes back as it was stored.** -/
theorem intoRecord_of {limits : RecordLimits} {record : JarRecord} (h : record.Derived)
    (validity : ArtifactValidity) (preflight : PreflightCharge) :
    (StoredRecord.of limits record validity preflight).intoRecord record.path
      { key := record.key, classifier := record.classifier, relativePath := record.relativePath }
      = record := by
  obtain ⟨hclasses, hentries⟩ := h
  have hfacts : (record.classFacts.map storeClassFacts).map restoreClassFacts
      = record.classFacts := by
    rw [List.map_map]
    conv_rhs => rw [← List.map_id record.classFacts]
    exact List.map_congr_left fun facts _ => restore_storeClassFacts facts
  simp only [StoredRecord.of, StoredRecord.intoRecord, hfacts, ← hclasses, ← hentries]
  rfl

/-! ## 4. A charge recorded once -/

/-- Two preflights have the same outcome: both succeed and leave the same budget, or both run
into a limit. -/
def SameOutcome (a b : Except PreflightError Unit × ArchiveBudget) : Prop :=
  (∃ budget, a = (.ok (), budget) ∧ b = (.ok (), budget)) ∨
    (∃ name budget, a = (.error (.limit name), budget)) ∧
      ∃ name budget, b = (.error (.limit name), budget)

/-- The charge between the budgets of a preflight stands for the preflight of that content. -/
theorem charge_between {content : Content} {before after : ArchiveBudget}
    (h : preflight content before = (.ok (), after)) (budget : ArchiveBudget) :
    SameOutcome (preflight content budget)
      ((PreflightCharge.between before after).charge budget) := by
  obtain ⟨n, m, hcharges⟩ := preflight_charges h
  have hbefore : Fits 0 n m before := by
    by_contra hfits
    obtain ⟨name, budget', hlimit⟩ := (hcharges before).2 hfits
    rw [h] at hlimit
    cases hlimit
  have hafter : after = before.spend n m := by
    have hok := (hcharges before).1 hbefore
    rw [h] at hok
    exact (Prod.mk.inj hok).2
  have hcharge : PreflightCharge.between before after = ⟨n, m⟩ := by
    have hn := hbefore.2.1
    have hm := hbefore.2.2
    simp only [PreflightCharge.between, hafter, ArchiveBudget.spend, PreflightCharge.mk.injEq]
    omega
  rw [hcharge]
  obtain ⟨hok, herr⟩ := hcharges budget
  by_cases hfits : Fits 0 n m budget
  · refine .inl ⟨budget.spend n m, hok hfits, ?_⟩
    obtain ⟨hjar, hentries, hnames⟩ := hfits
    simp only [PreflightCharge.charge]
    rw [if_neg (by omega), if_neg (by omega), if_neg (by omega)]
    rfl
  · refine .inr ⟨herr hfits, ?_⟩
    simp only [PreflightCharge.charge]
    by_cases hjar : budget.jarEntries < n
    · rw [if_pos hjar]
      exact ⟨_, _, rfl⟩
    by_cases hentries : budget.entries < n
    · rw [if_neg hjar, if_pos hentries]
      exact ⟨_, _, rfl⟩
    rw [if_neg hjar, if_neg hentries, if_pos ?_]
    · exact ⟨_, _, rfl⟩
    · by_contra hnames
      exact hfits ⟨.inr (by omega), by omega, by omega⟩

end MavenMcp
