/-
# References between classes

`search_class_references` looks through the facts of every binary JAR for the references from a
class or to one.  A fact holds numbers of strings; the references of a class are sorted by these
numbers, and repetitions are dropped.

None of this shows.  `references_of_load` says that the facts of a record are the references of the
classfiles of its archive, each once for each classfile, and `searchClassReferences_exact` that a
search answers the first of those that match, in the order of the results.
-/
import MavenMcp.Index.ClassTools
import MavenMcp.Index.Descendants
import MavenMcp.Index.FactStrings

namespace MavenMcp
namespace Index

open Text

/-! ## 1. The search -/

inductive ReferenceDirection
  | inbound
  | outbound
deriving DecidableEq, Repr

/-- What a reference points at. -/
structure ReferenceTarget where
  owner : Str
  name : Option Str
  descriptor : Option Str
  kind : ClassReferenceKind
deriving DecidableEq, Repr

/-- A reference found; the JAR by its position. -/
structure ClassReference where
  sourceClass : Str
  sourceJar : Nat
  target : ReferenceTarget
  targetArtifacts : List Str
deriving DecidableEq, Repr

/-- The restrictions of a search. -/
structure ReferenceQuery where
  className : Str
  direction : ReferenceDirection
  kind : Option ClassReferenceKind
  memberName : Option Str
  descriptor : Option Str
  jarSelector : Option Str
deriving DecidableEq, Repr

/-- The strings of the numbers of a reference. -/
def referenceStrings (jar : JarRecord) (reference : IndexedReference) : ReferenceTarget :=
  { owner := jar.factString reference.targetOwner
    name := reference.targetName.map jar.factString
    descriptor := reference.targetDescriptor.map jar.factString
    kind := reference.kind }

namespace ReferenceQuery

/-- The jar is looked through. -/
def selects (query : ReferenceQuery) (jar : JarRecord) : Bool :=
  !jar.isSource && query.jarSelector.all (matchesSelector jar)

/-- The three filters on a reference of a class. -/
def accepts (query : ReferenceQuery) (sourceClass : Str) (target : ReferenceTarget) : Bool :=
  let className := normalizeClassQuery query.className
  (match query.direction with
    | .inbound => eqIgnoreAsciiCase target.owner className
    | .outbound => eqIgnoreAsciiCase sourceClass className) &&
  query.kind.all (fun expected => decide (target.kind = expected)) &&
  query.memberName.all (fun expected => target.name.any fun name => decide (name = expected)) &&
  query.descriptor.all fun expected =>
    target.descriptor.any fun descriptor => decide (descriptor = expected)

end ReferenceQuery

/-- `target_artifacts`. -/
def MavenIndex.targetArtifacts (lowercase : Str → Str) (index : MavenIndex) (className : Str) :
    List Str :=
  (((index.classLocations.group (lowercase className)).filterMap fun j =>
    (index.jars[j]?).map coordinate).mergeSort strLe).destutter (· ≠ ·)

/-- The references of the facts of a record, each with the class it is from. -/
def factReferences (jar : JarRecord) : List (Str × ReferenceTarget) :=
  jar.classFacts.flatMap fun facts => facts.references.map fun reference =>
    (jar.factString facts.sourceClass, referenceStrings jar reference)

/-- An optional text, absent first. -/
def optionalRanks (text : Option Str) : List Nat :=
  (text.map fun text => 1 :: strRanks text).getD [0]

/-- What results are sorted by. -/
def ClassReference.key (index : MavenIndex) (r : ClassReference) : List Nat :=
  strRanks (((index.jars[r.sourceJar]?).map coordinate).getD []) ++ (strRanks r.sourceClass ++
    (strRanks r.target.owner ++ r.target.kind.rank ::
      (optionalRanks r.target.name ++ optionalRanks r.target.descriptor)))

def MavenIndex.referenceMatches (lowercase : Str → Str) (index : MavenIndex)
    (query : ReferenceQuery) : List ClassReference :=
  (index.jars.zipIdx.filter fun jar => query.selects jar.1).flatMap fun jar =>
    ((factReferences jar.1).filter fun r => query.accepts r.1 r.2).map fun r =>
      { sourceClass := r.1, sourceJar := jar.2, target := r.2
        targetArtifacts := index.targetArtifacts lowercase r.2.owner }

def MavenIndex.searchClassReferences (lowercase : Str → Str) (index : MavenIndex)
    (query : ReferenceQuery) (limit : Option Nat) : List ClassReference :=
  if normalizeClassQuery query.className = [] then []
  else
    ((index.referenceMatches lowercase query).mergeSort fun a b =>
      lexLe (a.key index) (b.key index)).take (index.limit limit)

/-! ## 2. What the classfiles refer to -/

/-- The target of a constant; a class does not refer to itself. -/
def targetOf (sourceClass : Str) (item : ConstantPoolItem) : Option ReferenceTarget :=
  match referenceTarget item with
  | none => none
  | some (owner, name, descriptor, kind) =>
    if kind = .classRef ∧ owner = sourceClass then none
    else some { owner, name, descriptor, kind }

/-- The targets of the constants of a class, in their order. -/
def targetsOf (parsed : ParsedClass) : List ReferenceTarget :=
  parsed.constantPool.filterMap (targetOf (binaryName parsed.thisClass))

/-- What is indexed of a class: each target once, and nothing of a module descriptor. -/
def indexedTargets (parsed : ParsedClass) : List (Str × ReferenceTarget) :=
  if binaryName parsed.thisClass = "module-info".toList then []
  else (targetsOf parsed).dedup.map fun target => (binaryName parsed.thisClass, target)

/-! ## 3. The references of one class -/

/-- The numbers of the reference are those of the strings. -/
structure PointsAt (strings : List Str) (reference : IndexedReference) (target : ReferenceTarget) :
    Prop where
  owner : reference.targetOwner.Resolves strings target.owner
  name : ResolvesOption strings reference.targetName target.name
  descriptor : ResolvesOption strings reference.targetDescriptor target.descriptor
  kind : reference.kind = target.kind

theorem PointsAt.mono {strings strings' : List Str} {reference : IndexedReference}
    {target : ReferenceTarget} (h : PointsAt strings reference target)
    (hle : strings <+: strings') : PointsAt strings' reference target :=
  ⟨h.owner.mono hle, h.name.mono hle, h.descriptor.mono hle, h.kind⟩

theorem resolvesOption_injective {strings : List Str} (hnodup : strings.Nodup)
    {id id' : Option FactStringId} {value : Option Str} (h : ResolvesOption strings id value)
    (h' : ResolvesOption strings id' value) : id = id' := by
  cases h with
  | none =>
    cases h'
    rfl
  | some h =>
    cases h' with
    | some h' => exact congrArg some (h.injective hnodup h')

/-- One target has one reference. -/
theorem PointsAt.injective {strings : List Str} (hnodup : strings.Nodup)
    {reference reference' : IndexedReference} {target : ReferenceTarget}
    (h : PointsAt strings reference target) (h' : PointsAt strings reference' target) :
    reference = reference' := by
  obtain ⟨owner, name, descriptor, kind⟩ := reference
  obtain ⟨owner', name', descriptor', kind'⟩ := reference'
  obtain rfl : owner = owner' := h.owner.injective hnodup h'.owner
  obtain rfl : name = name' := resolvesOption_injective hnodup h.name h'.name
  obtain rfl : descriptor = descriptor' :=
    resolvesOption_injective hnodup h.descriptor h'.descriptor
  obtain rfl : kind = kind' := h.kind.trans h'.kind.symm
  rfl

/-- The references of one constant. -/
theorem indexedReference_exact (sourceClass : Str) (item : ConstantPoolItem)
    (pool : FactStringPool) :
    List.Forall₂ (PointsAt (indexedReference sourceClass item pool).2.values)
      (indexedReference sourceClass item pool).1.toList (targetOf sourceClass item).toList := by
  rw [indexedReference, targetOf]
  cases referenceTarget item with
  | none => exact .nil
  | some target =>
    obtain ⟨owner, name, descriptor, kind⟩ := target
    by_cases hself : kind = .classRef ∧ owner = sourceClass
    · simp only [if_pos hself]
      exact .nil
    · simp only [if_neg hself]
      obtain ⟨howner, hresolves⟩ := pool.intern_spec owner
      obtain ⟨hname, hresolves'⟩ := (pool.intern owner).2.internOption_spec name
      obtain ⟨hdescriptor, hresolves''⟩ :=
        ((pool.intern owner).2.internOption name).2.internOption_spec descriptor
      have hpoints : PointsAt
          ((((pool.intern owner).2.internOption name).2.internOption descriptor).2.values)
          { targetOwner := (pool.intern owner).1
            targetName := ((pool.intern owner).2.internOption name).1
            targetDescriptor :=
              (((pool.intern owner).2.internOption name).2.internOption descriptor).1
            kind }
          { owner, name, descriptor, kind } :=
        ⟨hresolves.mono (hname.trans hdescriptor).values, hresolves'.mono hdescriptor.values,
          hresolves'', rfl⟩
      exact .cons hpoints .nil

/-- The references of the constants, in their order. -/
theorem collectReferences_exact (sourceClass : Str) (items : List ConstantPoolItem)
    (pool : FactStringPool) :
    List.Forall₂ (PointsAt (collectReferences sourceClass items pool).2.values)
      (collectReferences sourceClass items pool).1 (items.filterMap (targetOf sourceClass)) := by
  induction items generalizing pool with
  | nil => exact .nil
  | cons item items ih =>
    have hfirst := indexedReference_exact sourceClass item pool
    have hrest := ih (indexedReference sourceClass item pool).2
    have hgrows := (collectReferences_spec sourceClass items
      (indexedReference sourceClass item pool).2).1
    have happend : (item :: items).filterMap (targetOf sourceClass)
        = (targetOf sourceClass item).toList ++ items.filterMap (targetOf sourceClass) := by
      rw [List.filterMap_cons]
      cases targetOf sourceClass item <;> rfl
    rw [happend]
    exact List.rel_append (hfirst.imp fun _ _ h => h.mono hgrows.values) hrest

theorem exists_of_forall₂ {α β : Type} {R : α → β → Prop} {l : List α} {l' : List β}
    (h : List.Forall₂ R l l') {a : α} (ha : a ∈ l) : ∃ b ∈ l', R a b := by
  induction h with
  | nil => cases ha
  | @cons c d _ _ hcd _ ih =>
    rcases List.mem_cons.mp ha with rfl | ha
    · exact ⟨d, List.mem_cons_self, hcd⟩
    · obtain ⟨b, hb, hab⟩ := ih ha
      exact ⟨b, List.mem_cons_of_mem d hb, hab⟩

/-- The facts are those of the class: the same source, and each target once. -/
structure Lists (strings : List Str) (parsed : ParsedClass) (facts : IndexedClassFacts) : Prop where
  source : facts.sourceClass.Resolves strings (binaryName parsed.thisClass)
  nodup : facts.references.Nodup
  sound : ∀ reference ∈ facts.references, ∃ target ∈ targetsOf parsed,
    PointsAt strings reference target
  complete : ∀ target ∈ targetsOf parsed, ∃ reference ∈ facts.references,
    PointsAt strings reference target

theorem Lists.mono {strings strings' : List Str} {parsed : ParsedClass} {facts : IndexedClassFacts}
    (h : Lists strings parsed facts) (hle : strings <+: strings') :
    Lists strings' parsed facts where
  source := h.source.mono hle
  nodup := h.nodup
  sound reference hreference := by
    obtain ⟨target, htarget, hpoints⟩ := h.sound reference hreference
    exact ⟨target, htarget, hpoints.mono hle⟩
  complete target htarget := by
    obtain ⟨reference, hreference, hpoints⟩ := h.complete target htarget
    exact ⟨reference, hreference, hpoints.mono hle⟩

theorem lexLe_trans {a b c : List Nat} (h : lexLe a b = true) (h' : lexLe b c = true) :
    lexLe a c = true := Std.TransCmp.isLE_trans h h'

theorem lexLe_total (a b : List Nat) : (lexLe a b || lexLe b a) = true := by
  have hswap : List.compareLex Ord.compare a b = (List.compareLex Ord.compare b a).swap :=
    Std.OrientedCmp.eq_swap
  unfold lexLe
  rw [hswap]
  cases List.compareLex Ord.compare b a <;> rfl

theorem lexLe_antisymm {a b : List Nat} (h : lexLe a b = true) (h' : lexLe b a = true) :
    a = b := by
  have heq : List.compareLex Ord.compare a b = .eq := Std.OrientedCmp.isLE_antisymm h h'
  exact Std.LawfulEqCmp.eq_of_compare heq

theorem optionRank_injective {id id' : Option FactStringId} (h : optionRank id = optionRank id') :
    id = id' := by
  cases id with
  | none =>
    cases id' with
    | none => rfl
    | some id' => exact absurd h.symm id'.pos.ne'
  | some id =>
    cases id' with
    | none => exact absurd h id.pos.ne'
    | some id' =>
      obtain ⟨raw, hpos⟩ := id
      obtain ⟨raw', hpos'⟩ := id'
      obtain rfl : raw = raw' := h
      rfl

theorem le_antisymm_reference {a b : IndexedReference} (h : a.le b = true) (h' : b.le a = true) :
    a = b := by
  have hkey := lexLe_antisymm h h'
  simp only [List.cons.injEq, and_true] at hkey
  obtain ⟨howner, hname, hdescriptor, hkind⟩ := hkey
  obtain ⟨⟨owner, hpos⟩, name, descriptor, kind⟩ := a
  obtain ⟨⟨owner', hpos'⟩, name', descriptor', kind'⟩ := b
  obtain rfl : owner = owner' := howner
  obtain rfl := optionRank_injective hname
  obtain rfl := optionRank_injective hdescriptor
  cases kind <;> cases kind' <;> first | rfl | cases hkind

/-- Sorting and dropping repetitions leaves each reference once. -/
theorem nodup_sorted (l : List IndexedReference) :
    ((l.mergeSort IndexedReference.le).destutter (· ≠ ·)).Nodup := by
  have hstrict := @strict_sorted _ _ IndexedReference.le (fun _ _ _ => lexLe_trans)
    (fun _ _ => lexLe_total _ _) (fun _ _ => le_antisymm_reference) l
  exact hstrict.imp And.right

/-- What the facts of a class say under the strings of a record. -/
def factTargets (jar : JarRecord) (facts : IndexedClassFacts) : List (Str × ReferenceTarget) :=
  facts.references.map fun reference =>
    (jar.factString facts.sourceClass, referenceStrings jar reference)

theorem factString_of_resolves {jar : JarRecord} {id : FactStringId} {value : Str}
    (h : id.Resolves jar.factStrings value) : jar.factString id = value := by
  unfold JarRecord.factString
  rw [List.getD_eq_getElem?_getD, show jar.factStrings[id.raw - 1]? = some value from h]
  rfl

theorem factString_option {jar : JarRecord} {id : Option FactStringId} {value : Option Str}
    (h : ResolvesOption jar.factStrings id value) : id.map jar.factString = value := by
  cases h with
  | none => rfl
  | some h => exact congrArg some (factString_of_resolves h)

theorem PointsAt.eq {jar : JarRecord} {reference : IndexedReference} {target : ReferenceTarget}
    (h : PointsAt jar.factStrings reference target) : referenceStrings jar reference = target := by
  rw [referenceStrings, factString_of_resolves h.owner, factString_option h.name,
    factString_option h.descriptor, h.kind]

/-- **The facts of a class** are its targets, each once. -/
theorem Lists.perm {jar : JarRecord} (hnodup : jar.factStrings.Nodup) {parsed : ParsedClass}
    {facts : IndexedClassFacts} (h : Lists jar.factStrings parsed facts)
    (hclass : binaryName parsed.thisClass ≠ "module-info".toList) :
    (factTargets jar facts).Perm (indexedTargets parsed) := by
  have hinjective : ∀ a ∈ facts.references, ∀ b ∈ facts.references,
      referenceStrings jar a = referenceStrings jar b → a = b := by
    intro a ha b hb hsame
    obtain ⟨target, -, hpoints⟩ := h.sound a ha
    obtain ⟨target', -, hpoints'⟩ := h.sound b hb
    obtain rfl : target = target' := hpoints.eq.symm.trans (hsame.trans hpoints'.eq)
    exact hpoints.injective hnodup hpoints'
  have hperm : (facts.references.map (referenceStrings jar)).Perm (targetsOf parsed).dedup := by
    refine (List.perm_ext_iff_of_nodup (h.nodup.map_on hinjective) (List.nodup_dedup _)).mpr
      fun target => ?_
    rw [List.mem_dedup, List.mem_map]
    constructor
    · rintro ⟨reference, hreference, rfl⟩
      obtain ⟨target, htarget, hpoints⟩ := h.sound reference hreference
      rwa [hpoints.eq]
    · intro htarget
      obtain ⟨reference, hreference, hpoints⟩ := h.complete target htarget
      exact ⟨reference, hreference, hpoints.eq⟩
  have hfacts : factTargets jar facts = (facts.references.map (referenceStrings jar)).map
      fun target => (binaryName parsed.thisClass, target) := by
    rw [factTargets, factString_of_resolves h.source, List.map_map]
    rfl
  rw [hfacts, indexedTargets, if_neg hclass]
  exact hperm.map _

/-! ## 4. The classes of an archive -/

/-- The facts of the classes that left some, in their order. -/
structure Gathered (seen : List ParsedClass) (s : FactState) : Prop where
  nodup : s.strings.values.Nodup
  facts : ∃ kept, List.Forall₂ (Lists s.strings.values) kept s.classFacts ∧
    (∀ parsed ∈ kept, binaryName parsed.thisClass ≠ "module-info".toList) ∧
    kept.flatMap indexedTargets = seen.flatMap indexedTargets

theorem indexedTargets_nil {parsed : ParsedClass} (h : targetsOf parsed = []) :
    indexedTargets parsed = [] := by
  rw [indexedTargets, h]
  split <;> rfl

/-- A class leaves the facts that list its targets, or it has none. -/
theorem Gathered.collectClass {seen : List ParsedClass} {s : FactState} (h : Gathered seen s)
    (parsed : ParsedClass) (entryPath : Str) :
    Gathered (seen ++ [parsed]) (collectClass parsed entryPath s) := by
  obtain ⟨kept, hkept, hclasses, htargets⟩ := h.facts
  have hkeep {strings : FactStringPool} (hgrows : s.strings.Grows strings) :
      List.Forall₂ (Lists strings.values) kept s.classFacts :=
    hkept.imp fun _ _ hlists => hlists.mono hgrows.values
  have hnone (hempty : indexedTargets parsed = []) :
      kept.flatMap indexedTargets = (seen ++ [parsed]).flatMap indexedTargets := by
    rw [List.flatMap_append, List.flatMap_singleton, hempty, List.append_nil, htargets]
  simp only [MavenMcp.collectClass]
  obtain ⟨hclass, hsourceClass⟩ := s.strings.intern_spec (binaryName parsed.thisClass)
  generalize s.strings.intern (binaryName parsed.thisClass) = class_ at hclass hsourceClass ⊢
  obtain ⟨sourceClass, strings₁⟩ := class_
  split
  · rename_i hmodule
    exact ⟨hclass.nodup h.nodup, kept, hkeep hclass, hclasses,
      hnone (by rw [indexedTargets, if_pos hmodule])⟩
  · rename_i hmodule
    obtain ⟨hsupertypes, -⟩ := collectParents_spec parsed.supertypes strings₁
    rw [ParsedClass.supertypes] at hsupertypes
    generalize collectParents _ strings₁ = parents at hsupertypes ⊢
    obtain ⟨parents, strings₂⟩ := parents
    obtain ⟨hitems, -⟩ :=
      collectReferences_spec (binaryName parsed.thisClass) parsed.constantPool strings₂
    have hexact :=
      collectReferences_exact (binaryName parsed.thisClass) parsed.constantPool strings₂
    generalize collectReferences _ _ strings₂ = references at hitems hexact ⊢
    obtain ⟨references, strings₃⟩ := references
    obtain ⟨hfile, -⟩ := strings₃.internOption_spec (sourceFileName parsed.sourceFiles)
    generalize strings₃.internOption _ = file at hfile ⊢
    obtain ⟨sourceFile, strings₄⟩ := file
    have hrest : strings₁.Grows strings₄ := (hsupertypes.trans hitems).trans hfile
    have hgrows : s.strings.Grows strings₄ := hclass.trans hrest
    have hpoints : List.Forall₂ (PointsAt strings₄.values) references (targetsOf parsed) :=
      hexact.imp fun _ _ hpoints => hpoints.mono hfile.values
    split
    · refine ⟨hgrows.nodup h.nodup, kept ++ [parsed], List.rel_append (hkeep hgrows)
        (.cons ?_ .nil), ?_, ?_⟩
      · constructor
        case source => exact hsourceClass.mono hrest.values
        case nodup => exact nodup_sorted references
        case sound =>
          intro reference hreference
          obtain ⟨target, htarget, hpoint⟩ :=
            exists_of_forall₂ hpoints (mem_sorted.mp hreference)
          exact ⟨target, htarget, hpoint⟩
        case complete =>
          intro target htarget
          obtain ⟨reference, hreference, hpoint⟩ := exists_of_forall₂ hpoints.flip htarget
          exact ⟨reference, mem_sorted.mpr hreference, hpoint⟩
      · intro other hother
        rcases List.mem_append.mp hother with hother | hother
        · exact hclasses other hother
        · rw [List.mem_singleton.mp hother]
          exact hmodule
      · rw [List.flatMap_append, List.flatMap_append, htargets]
    · rename_i hempty
      have hreferences : references = [] := by
        by_contra hne
        obtain ⟨reference, hreference⟩ := List.exists_mem_of_ne_nil references hne
        have hmem : reference ∈ (references.mergeSort IndexedReference.le).destutter (· ≠ ·) :=
          mem_sorted.mpr hreference
        exact hempty (.inr (.inr (List.ne_nil_of_mem hmem)))
      rw [hreferences] at hpoints
      have htargetsNil : targetsOf parsed = [] := List.forall₂_nil_left_iff.mp hpoints
      exact ⟨hgrows.nodup h.nodup, kept, hkeep hgrows, hclasses,
        hnone (indexedTargets_nil htargetsNil)⟩

theorem Gathered.collectClasses (parseClass : List UInt8 → Option ParsedClass)
    (archive : ClassArchive) (maxEntryBytes : Nat) (classEntries : List (Str × Str))
    {seen : List ParsedClass} {s : FactState} (h : Gathered seen s) :
    Gathered (seen ++ parsedClasses parseClass archive maxEntryBytes classEntries)
      (collectClasses parseClass archive maxEntryBytes classEntries s) := by
  induction classEntries generalizing seen s with
  | nil =>
    rw [parsedClasses, List.filterMap_nil, List.append_nil]
    exact h
  | cons e classEntries ih =>
    rw [parsedClasses, List.filterMap_cons]
    rw [MavenMcp.collectClasses, List.foldl_cons]
    split
    · rename_i hnone
      simp only [hnone]
      exact ih h
    · rename_i parsed hsome
      simp only [hsome]
      rw [List.append_cons]
      exact ih (h.collectClass parsed e.2)

/-- All facts together. -/
theorem Gathered.perm {jar : JarRecord} {seen : List ParsedClass} {s : FactState}
    (h : Gathered seen s) (hfacts : jar.classFacts = s.classFacts)
    (hstrings : jar.factStrings = s.strings.values) :
    (factReferences jar).Perm (seen.flatMap indexedTargets) := by
  obtain ⟨kept, hkept, hclasses, htargets⟩ := h.facts
  have hnodup : jar.factStrings.Nodup := hstrings ▸ h.nodup
  rw [← hstrings, ← hfacts] at hkept
  rw [← htargets]
  unfold factReferences
  clear htargets hfacts
  generalize jar.classFacts = classFacts at hkept ⊢
  induction hkept with
  | nil => exact .nil
  | @cons parsed facts _ _ hlists _ ih =>
    rw [List.flatMap_cons, List.flatMap_cons]
    exact (hlists.perm hnodup (hclasses parsed List.mem_cons_self)).append
      (ih fun other hother => hclasses other (List.mem_cons_of_mem parsed hother))

/-- What the classfiles of an archive refer to, each target once for each classfile. -/
def archiveReferences (readers : Readers) (content : Content) (maxEntryBytes : Nat) :
    List (Str × ReferenceTarget) :=
  ((ClassArchive.open readers.openZip content).bind fun archive =>
    (readJarIndex archive).map fun index =>
      (parsedClasses readers.parseClass archive maxEntryBytes index.classEntries).flatMap
        indexedTargets).getD []

/-- **The facts of a record that is read** are the references of the classfiles of its archive. -/
theorem references_of_load {readers : Readers} {content : Content} {path : PathBuf}
    {identity : JarIdentity} {maxEntryBytes : Nat} {record : JarRecord}
    (h : loadJarRecord readers content path identity maxEntryBytes = some record)
    (hbinary : record.isSource = false) :
    (factReferences record).Perm (archiveReferences readers content maxEntryBytes) := by
  obtain ⟨archive, harchive, hmap⟩ := Option.bind_eq_some_iff.mp h
  obtain ⟨index, hindex, rfl⟩ := Option.map_eq_some_iff.mp hmap
  have hdocumented : (documentedClassifier identity.classifier).isSome = false := hbinary
  have hstart : Gathered [] { classFacts := [], providers := [], strings := { values := [] } } :=
    ⟨.nil, [], .nil, nofun, rfl⟩
  have hgathered := hstart.collectClasses readers.parseClass archive maxEntryBytes
    index.classEntries
  have hreferences : archiveReferences readers content maxEntryBytes
      = (parsedClasses readers.parseClass archive maxEntryBytes index.classEntries).flatMap
        indexedTargets := by
    rw [archiveReferences, harchive, Option.bind_some, hindex]
    rfl
  rw [hreferences]
  refine hgathered.perm ?_ ?_
  · simp only [hdocumented, Bool.false_eq_true, if_false, collectJarFacts]
  · simp only [hdocumented, Bool.false_eq_true, if_false, collectJarFacts]

/-! ## 5. What a search answers -/

variable {lowercase : Str → Str} {index : MavenIndex}

/-- The coordinates that are listed for a target are those of the JARs that have the class. -/
theorem mem_targetArtifacts (h : index.Built lowercase) {className c : Str} :
    c ∈ index.targetArtifacts lowercase className ↔
      ∃ jar ∈ index.jars, jar.isSource = false ∧ coordinate jar = c ∧
        ∃ name ∈ jar.classes, lowercase name = lowercase className := by
  rw [MavenIndex.targetArtifacts, mem_sorted, List.mem_filterMap, h.classLocations,
    AList.group_pushAll, AList.group_empty, List.nil_append]
  constructor
  · rintro ⟨j, hj, hcoordinate⟩
    obtain ⟨jar, hjar, rfl⟩ := Option.map_eq_some_iff.mp hcoordinate
    obtain ⟨e, he, rfl⟩ := List.mem_map.mp hj
    obtain ⟨he, hkey⟩ := List.mem_filter.mp he
    obtain ⟨⟨record, i⟩, hmem, hentry⟩ := List.mem_flatMap.mp he
    have hi : index.jars[i]? = some record := List.mem_zipIdx_iff_getElem?.mp hmem
    unfold locationEntries at hentry
    split at hentry
    · cases hentry
    · rename_i hbinary
      obtain ⟨name, hname, rfl⟩ := List.mem_map.mp hentry
      obtain rfl : record = jar := Option.some.inj (hi.symm.trans hjar)
      exact ⟨record, List.mem_of_getElem? hi, Bool.not_eq_true _ ▸ hbinary, rfl, name, hname,
        of_decide_eq_true hkey⟩
  · rintro ⟨jar, hjar, hbinary, rfl, name, hname, hsame⟩
    obtain ⟨i, hi⟩ := List.mem_iff_getElem?.mp hjar
    refine ⟨i, List.mem_map.mpr ⟨(lowercase name, i), List.mem_filter.mpr ⟨?_, ?_⟩, rfl⟩, ?_⟩
    · refine List.mem_flatMap.mpr ⟨(jar, i), List.mem_zipIdx_iff_getElem?.mpr hi, ?_⟩
      rw [locationEntries, if_neg (by simp [hbinary])]
      exact List.mem_map_of_mem hname
    · exact decide_eq_true hsame
    · rw [hi]
      rfl

/-- The references of the archives that the query selects and accepts. -/
def BuildEnv.archivedMatches {P : Type} (env : BuildEnv P) (index : MavenIndex)
    (query : ReferenceQuery) : List ClassReference :=
  (index.jars.zipIdx.filter fun jar => query.selects jar.1).flatMap fun jar =>
    ((archiveReferences env.readers (env.content jar.1.path) env.limits.maxEntryBytes).filter
        fun r => query.accepts r.1 r.2).map fun r =>
      { sourceClass := r.1, sourceJar := jar.2, target := r.2
        targetArtifacts := index.targetArtifacts env.lowercase r.2.owner }

theorem referenceMatches_perm {P : Type} {env : BuildEnv P}
    (hread : ∀ record ∈ index.jars, ∃ path identity, loadJarRecord env.readers (env.content path)
      path identity env.limits.maxEntryBytes = some record) (query : ReferenceQuery) :
    (index.referenceMatches env.lowercase query).Perm (env.archivedMatches index query) := by
  unfold MavenIndex.referenceMatches BuildEnv.archivedMatches
  refine List.Perm.flatMap_left _ fun jar hjar => ?_
  obtain ⟨hjar, hselects⟩ := List.mem_filter.mp hjar
  obtain ⟨record, j⟩ := jar
  have hrecord : index.jars[j]? = some record := List.mem_zipIdx_iff_getElem?.mp hjar
  have hbinary : record.isSource = false := by
    simp only [ReferenceQuery.selects, Bool.and_eq_true, Bool.not_eq_true'] at hselects
    exact hselects.1
  obtain ⟨path, identity, hload⟩ := hread record (List.mem_of_getElem? hrecord)
  obtain ⟨-, -, -, -, rfl⟩ := derived_of_load hload
  exact ((references_of_load hload hbinary).filter _).map _

theorem targetArtifacts_of_mem {query : ReferenceQuery} {requested : Option Nat}
    {r : ClassReference} (hr : r ∈ index.searchClassReferences lowercase query requested) :
    r.targetArtifacts = index.targetArtifacts lowercase r.target.owner := by
  unfold MavenIndex.searchClassReferences at hr
  split at hr
  · cases hr
  · have hmatch := List.mem_mergeSort.mp (List.mem_of_mem_take hr)
    obtain ⟨jar, -, hmem⟩ := List.mem_flatMap.mp hmatch
    obtain ⟨reference, -, rfl⟩ := List.mem_map.mp hmem
    rfl

/-- **A search is exact.**  Whatever records of earlier reads are restored, it answers the first of
all references of the selected archives that the query accepts, in the order of the results; a blank
query finds nothing.  Each result lists the coordinates of the JARs that have the target, in order
and each once. -/
theorem searchClassReferences_exact {P : Type} {env : BuildEnv P} (hcodec : env.codec.Lossless)
    {persisted : Option (PathBuf → Option P)}
    (hload : ∀ load, persisted = some load → ∀ path payload, load path = some payload →
      FromEarlierRead env payload) {root : PathBuf} {jars : List (PathBuf × JarIdentity)}
    {maxResults : Nat} {budget left : ArchiveBudget} {index : MavenIndex} {reuse : RecordReuse P}
    (h : env.buildFromJars root jars maxResults persisted budget = .ok (index, reuse, left))
    (query : ReferenceQuery) (requested : Option Nat) :
    (normalizeClassQuery query.className = [] →
      index.searchClassReferences env.lowercase query requested = []) ∧
    (normalizeClassQuery query.className ≠ [] →
      ∃ found : List ClassReference, found.Perm (env.archivedMatches index query) ∧
        found.Pairwise (fun a b => lexLe (a.key index) (b.key index) = true) ∧
        index.searchClassReferences env.lowercase query requested
          = found.take (index.limit requested)) ∧
    ∀ r ∈ index.searchClassReferences env.lowercase query requested,
      (r.targetArtifacts.Pairwise fun a b => strLe a b = true ∧ a ≠ b) ∧
      ∀ c, c ∈ r.targetArtifacts ↔ ∃ jar ∈ index.jars, jar.isSource = false ∧ coordinate jar = c ∧
        ∃ name ∈ jar.classes, env.lowercase name = env.lowercase r.target.owner := by
  refine ⟨fun hblank => ?_, fun hquery => ?_, fun r hr => ?_⟩
  · rw [MavenIndex.searchClassReferences, if_pos hblank]
  · refine ⟨(index.referenceMatches env.lowercase query).mergeSort fun a b =>
      lexLe (a.key index) (b.key index), ?_, ?_, ?_⟩
    · exact (List.mergeSort_perm _ _).trans
        (referenceMatches_perm (read_of_build hcodec hload h) query)
    · have htrans : ∀ a b c : ClassReference, lexLe (a.key index) (b.key index) = true →
          lexLe (b.key index) (c.key index) = true → lexLe (a.key index) (c.key index) = true :=
        fun _ _ _ => lexLe_trans
      have htotal : ∀ a b : ClassReference,
          (lexLe (a.key index) (b.key index) || lexLe (b.key index) (a.key index)) = true :=
        fun _ _ => lexLe_total _ _
      exact List.pairwise_mergeSort htrans htotal _
    · rw [MavenIndex.searchClassReferences, if_neg hquery]
  · rw [targetArtifacts_of_mem hr]
    exact ⟨strict_sorted_strLe _, fun c => mem_targetArtifacts (built_of_buildFromJars h)⟩

/-- Who refers to `D`. -/
def sampleQuery : ReferenceQuery :=
  { className := ['D'], direction := .inbound, kind := none, memberName := none, descriptor := none
    jarSelector := none }

/-- The one class of the directory. -/
theorem searchClassReferences_exact_sample :
    ∃ index reuse left,
      sampleEnv.buildFromJars [47] [([47, 106], sampleIdentity)] 10 none
        { entries := 5, names := 5, jarEntries := 10 } = .ok (index, reuse, left) ∧
      (index.searchClassReferences sampleEnv.lowercase sampleQuery none).map
        (fun r => (r.sourceClass, r.target.owner)) = [("a.B".toList, ['D'])] ∧
      ∃ found : List ClassReference, found.Perm (sampleEnv.archivedMatches index sampleQuery) ∧
        found.Pairwise (fun a b => lexLe (a.key index) (b.key index) = true) ∧
        index.searchClassReferences sampleEnv.lowercase sampleQuery none
          = found.take (index.limit none) := by
  have hdecide : ((sampleEnv.buildFromJars [47] [([47, 106], sampleIdentity)] 10 none
        { entries := 5, names := 5, jarEntries := 10 }).toOption.map fun r =>
      (r.1.searchClassReferences sampleEnv.lowercase sampleQuery none).map
        fun r => (r.sourceClass, r.target.owner)) = some [("a.B".toList, ['D'])] := by
    decide +kernel
  rcases hbuild : sampleEnv.buildFromJars [47] [([47, 106], sampleIdentity)] 10 none
      { entries := 5, names := 5, jarEntries := 10 } with e | ⟨index, reuse, left⟩
  · rw [hbuild] at hdecide
    cases hdecide
  · rw [hbuild] at hdecide
    have hexact := searchClassReferences_exact (fun _ _ h => h.symm) (earlier_of_none _) hbuild
      sampleQuery none
    exact ⟨index, reuse, left, rfl, Option.some.inj hdecide, hexact.2.1 (by decide +kernel)⟩

end Index
end MavenMcp
