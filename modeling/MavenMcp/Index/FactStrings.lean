/-
# Fact strings

`FactStringPool` numbers the strings of one archive from one on, and the facts of its classes hold
these numbers.  The pool only grows (`FactStringPool.Grows`), so a number resolves in every later
pool to the string that it was handed out for, and no string is in the pool twice.

* `collectClasses_named`: what the numbers of the facts resolve to at the end of the archive, each
  to a name of the class that the facts are about.
* `restore_resolves`: a decoded payload is admitted with numbers of its own table only.
* `fact_strings_resolve`: so every record of an index resolves its facts.
-/
import MavenMcp.Index.Locations
import Mathlib.Data.List.Nodup
import Mathlib.Data.List.Destutter

namespace MavenMcp

/-! ## 1. The pool -/

/-- The number points at the string. -/
def FactStringId.Resolves (strings : List Str) (id : FactStringId) (value : Str) : Prop :=
  strings[id.raw - 1]? = some value

/-- `fact_strings[id - 1]` is in bounds. -/
def FactStringId.InRange (strings : List Str) (id : FactStringId) : Prop :=
  id.raw - 1 < strings.length

theorem FactStringId.Resolves.inRange {strings : List Str} {id : FactStringId} {value : Str}
    (h : id.Resolves strings value) : id.InRange strings :=
  (List.getElem?_eq_some_iff.mp h).1

theorem FactStringId.Resolves.mono {strings strings' : List Str} {id : FactStringId} {value : Str}
    (h : id.Resolves strings value) (hle : strings <+: strings') : id.Resolves strings' value := by
  obtain ⟨new, rfl⟩ := hle
  rw [Resolves, List.getElem?_append_left h.inRange]
  exact h

theorem FactStringId.Resolves.unique {strings : List Str} {id : FactStringId} {value value' : Str}
    (h : id.Resolves strings value) (h' : id.Resolves strings value') : value = value' :=
  Option.some.inj (h.symm.trans h')

/-- In a table without duplicates one string has one number. -/
theorem FactStringId.Resolves.injective {strings : List Str} (hnodup : strings.Nodup)
    {id id' : FactStringId} {value : Str} (h : id.Resolves strings value)
    (h' : id'.Resolves strings value) : id = id' := by
  obtain ⟨hlt, hvalue⟩ := List.getElem?_eq_some_iff.mp h
  obtain ⟨hlt', hvalue'⟩ := List.getElem?_eq_some_iff.mp h'
  have heq := (hnodup.getElem_inj_iff).mp (hvalue.trans hvalue'.symm)
  obtain ⟨raw, hpos⟩ := id
  obtain ⟨raw', hpos'⟩ := id'
  have hraw : raw = raw' := by
    simp only at heq
    omega
  subst hraw
  rfl

/-- The pool has grown: what it had keeps its place, and nothing has come twice. -/
structure FactStringPool.Grows (pool pool' : FactStringPool) : Prop where
  values : pool.values <+: pool'.values
  nodup : pool.values.Nodup → pool'.values.Nodup

theorem FactStringPool.Grows.refl (pool : FactStringPool) : pool.Grows pool :=
  ⟨List.prefix_refl _, id⟩

theorem FactStringPool.Grows.trans {p q r : FactStringPool} (h : p.Grows q) (h' : q.Grows r) :
    p.Grows r :=
  ⟨h.values.trans h'.values, h'.nodup ∘ h.nodup⟩

/-- **Interning hands out a number of the string.** -/
theorem FactStringPool.intern_spec (pool : FactStringPool) (value : Str) :
    pool.Grows (pool.intern value).2 ∧
      (pool.intern value).1.Resolves (pool.intern value).2.values value := by
  rw [intern]
  split
  · rename_i i hi
    obtain ⟨hlt, hvalue, -⟩ := List.findIdx?_eq_some_iff_getElem.mp hi
    refine ⟨.refl pool, ?_⟩
    rw [FactStringId.Resolves, Nat.add_sub_cancel, List.getElem?_eq_getElem hlt,
      beq_iff_eq.mp hvalue]
  · rename_i hnone
    have hnew : value ∉ pool.values := List.idxOf?_eq_none_iff.mp hnone
    refine ⟨⟨List.prefix_append _ _, fun hnodup => ?_⟩, ?_⟩
    · rw [List.nodup_append]
      refine ⟨hnodup, List.nodup_singleton value, fun a ha b hb hab => ?_⟩
      rw [List.mem_singleton.mp hb] at hab
      exact hnew (hab ▸ ha)
    · rw [FactStringId.Resolves, Nat.add_sub_cancel, List.getElem?_append_right (Nat.le_refl _),
        Nat.sub_self]
      rfl

/-- The strings interned one after the other, and the numbers handed out. -/
def FactStringPool.internAll : List Str → FactStringPool → List FactStringId × FactStringPool
  | [], pool => ([], pool)
  | value :: values, pool =>
    let (id, pool) := pool.intern value
    let (ids, pool) := internAll values pool
    (id :: ids, pool)

/-- **A number once handed out keeps resolving.** -/
theorem FactStringPool.internAll_spec (values : List Str) (pool : FactStringPool) :
    pool.Grows (internAll values pool).2 ∧
      List.Forall₂ (fun id value => id.Resolves (internAll values pool).2.values value)
        (internAll values pool).1 values := by
  induction values generalizing pool with
  | nil => exact ⟨.refl pool, .nil⟩
  | cons value values ih =>
    obtain ⟨hgrows, hresolves⟩ := pool.intern_spec value
    obtain ⟨hgrows', hresolves'⟩ := ih (pool.intern value).2
    exact ⟨hgrows.trans hgrows', .cons (hresolves.mono hgrows'.values) hresolves'⟩

/-! ## 2. The facts of a class -/

/-- The supertypes that a class names. -/
def ParsedClass.supertypes (parsed : ParsedClass) : List (Str × TypeRelation) :=
  parsed.superClass.toList.map (·, .extends) ++ parsed.interfaces.map (·, .implements)

/-- The fact is about one of the supertypes. -/
def IndexedTypeParent.Named (strings : List Str) (supertypes : List (Str × TypeRelation))
    (fact : IndexedTypeParent) : Prop :=
  ∃ name, (name, fact.relation) ∈ supertypes ∧ fact.parent.Resolves strings (binaryName name)

/-- An optional number and the optional string that it was handed out for. -/
def ResolvesOption (strings : List Str) : Option FactStringId → Option Str → Prop :=
  Option.Rel fun id value => id.Resolves strings value

/-- The reference is what one of the constants refers to. -/
def IndexedReference.Named (strings : List Str) (items : List ConstantPoolItem)
    (reference : IndexedReference) : Prop :=
  ∃ item ∈ items, ∃ owner name descriptor,
    referenceTarget item = some (owner, name, descriptor, reference.kind) ∧
      reference.targetOwner.Resolves strings owner ∧
      ResolvesOption strings reference.targetName name ∧
      ResolvesOption strings reference.targetDescriptor descriptor

/-- Every number of the facts resolves to a name of the class. -/
structure IndexedClassFacts.Named (strings : List Str) (parsed : ParsedClass)
    (facts : IndexedClassFacts) : Prop where
  sourceClass : facts.sourceClass.Resolves strings (binaryName parsed.thisClass)
  sourceFile : ResolvesOption strings facts.sourceFile (sourceFileName parsed.sourceFiles)
  parents : ∀ fact ∈ facts.parents, fact.Named strings parsed.supertypes
  references : ∀ reference ∈ facts.references, reference.Named strings parsed.constantPool

section Mono

variable {strings strings' : List Str} (hle : strings <+: strings')
include hle

theorem ResolvesOption.mono {id : Option FactStringId} {value : Option Str}
    (h : ResolvesOption strings id value) : ResolvesOption strings' id value := by
  cases h with
  | none => exact .none
  | some h => exact .some (h.mono hle)

theorem IndexedTypeParent.Named.mono {supertypes : List (Str × TypeRelation)}
    {fact : IndexedTypeParent} (h : fact.Named strings supertypes) :
    fact.Named strings' supertypes := by
  obtain ⟨name, hname, hresolves⟩ := h
  exact ⟨name, hname, hresolves.mono hle⟩

theorem IndexedReference.Named.mono {items : List ConstantPoolItem} {reference : IndexedReference}
    (h : reference.Named strings items) : reference.Named strings' items := by
  obtain ⟨item, hitem, owner, name, descriptor, htarget, howner, hname, hdescriptor⟩ := h
  exact ⟨item, hitem, owner, name, descriptor, htarget, howner.mono hle, hname.mono hle,
    hdescriptor.mono hle⟩

theorem IndexedClassFacts.Named.mono {parsed : ParsedClass} {facts : IndexedClassFacts}
    (h : facts.Named strings parsed) : facts.Named strings' parsed where
  sourceClass := h.sourceClass.mono hle
  sourceFile := h.sourceFile.mono hle
  parents fact hfact := (h.parents fact hfact).mono hle
  references reference hreference := (h.references reference hreference).mono hle

end Mono

theorem FactStringPool.internOption_spec (pool : FactStringPool) (value : Option Str) :
    pool.Grows (pool.internOption value).2 ∧
      ResolvesOption (pool.internOption value).2.values (pool.internOption value).1 value := by
  cases value with
  | none => exact ⟨.refl pool, .none⟩
  | some value =>
    obtain ⟨hgrows, hresolves⟩ := pool.intern_spec value
    exact ⟨hgrows, .some hresolves⟩

theorem collectParents_spec (supertypes : List (Str × TypeRelation)) (pool : FactStringPool) :
    pool.Grows (collectParents supertypes pool).2 ∧
      ∀ fact ∈ (collectParents supertypes pool).1,
        fact.Named (collectParents supertypes pool).2.values supertypes := by
  induction supertypes generalizing pool with
  | nil => exact ⟨.refl pool, nofun⟩
  | cons supertype supertypes ih =>
    obtain ⟨name, relation⟩ := supertype
    obtain ⟨hgrows, hresolves⟩ := pool.intern_spec (binaryName name)
    obtain ⟨hgrows', hnamed⟩ := ih (pool.intern (binaryName name)).2
    refine ⟨hgrows.trans hgrows', fun fact hfact => ?_⟩
    rcases List.mem_cons.mp hfact with rfl | hfact
    · exact ⟨name, List.mem_cons_self, hresolves.mono hgrows'.values⟩
    · obtain ⟨name', hname', hresolves'⟩ := hnamed fact hfact
      exact ⟨name', List.mem_cons_of_mem _ hname', hresolves'⟩

theorem indexedReference_spec (sourceClass : Str) (item : ConstantPoolItem)
    (pool : FactStringPool) :
    pool.Grows (indexedReference sourceClass item pool).2 ∧
      ∀ reference ∈ (indexedReference sourceClass item pool).1,
        reference.Named (indexedReference sourceClass item pool).2.values [item] := by
  unfold indexedReference
  split
  · exact ⟨.refl pool, nofun⟩
  · rename_i owner name descriptor kind htarget
    split
    · exact ⟨.refl pool, nofun⟩
    · obtain ⟨howner, hresolves⟩ := pool.intern_spec owner
      obtain ⟨hname, hresolves'⟩ := (pool.intern owner).2.internOption_spec name
      obtain ⟨hdescriptor, hresolves''⟩ :=
        ((pool.intern owner).2.internOption name).2.internOption_spec descriptor
      refine ⟨(howner.trans hname).trans hdescriptor, fun reference hreference => ?_⟩
      cases hreference
      exact ⟨item, List.mem_singleton.mpr rfl, owner, name, descriptor, htarget,
        hresolves.mono (hname.trans hdescriptor).values, hresolves'.mono hdescriptor.values,
        hresolves''⟩

theorem collectReferences_spec (sourceClass : Str) (items : List ConstantPoolItem)
    (pool : FactStringPool) :
    pool.Grows (collectReferences sourceClass items pool).2 ∧
      ∀ reference ∈ (collectReferences sourceClass items pool).1,
        reference.Named (collectReferences sourceClass items pool).2.values items := by
  induction items generalizing pool with
  | nil => exact ⟨.refl pool, nofun⟩
  | cons item items ih =>
    obtain ⟨hgrows, hnamed⟩ := indexedReference_spec sourceClass item pool
    obtain ⟨hgrows', hnamed'⟩ := ih (indexedReference sourceClass item pool).2
    refine ⟨hgrows.trans hgrows', fun reference hreference => ?_⟩
    rcases List.mem_append.mp hreference with hreference | hreference
    · obtain ⟨item', hitem', hrest⟩ :=
        (hnamed reference (Option.mem_toList.mp hreference)).mono hgrows'.values
      exact ⟨item', List.mem_cons.mpr (.inl (List.mem_singleton.mp hitem')), hrest⟩
    · obtain ⟨item', hitem', hrest⟩ := hnamed' reference hreference
      exact ⟨item', List.mem_cons_of_mem _ hitem', hrest⟩

/-- Sorting and dropping repetitions adds nothing. -/
theorem mem_of_mem_sorted {α : Type} [DecidableEq α] {le : α → α → Bool} {l : List α} {a : α}
    (h : a ∈ (l.mergeSort le).destutter (· ≠ ·)) : a ∈ l :=
  List.mem_mergeSort.mp ((List.destutter_sublist _ _).subset h)

/-- What the numbers of the facts resolve to, so far. -/
structure FactState.Named (parsedClasses : List ParsedClass) (s : FactState) : Prop where
  nodup : s.strings.values.Nodup
  facts : ∀ facts ∈ s.classFacts, ∃ parsed ∈ parsedClasses, facts.Named s.strings.values parsed

/-- One class. -/
theorem FactState.Named.collectClass {parsedClasses : List ParsedClass} {s : FactState}
    (h : s.Named parsedClasses) (parsed : ParsedClass) (entryPath : Str) :
    (collectClass parsed entryPath s).Named (parsedClasses ++ [parsed]) := by
  -- Older facts keep their names in a pool that has grown.
  have hkeep {strings : FactStringPool} (hgrows : s.strings.Grows strings) :
      ∀ facts ∈ s.classFacts, ∃ parsed' ∈ parsedClasses ++ [parsed],
        facts.Named strings.values parsed' := by
    intro facts hfacts
    obtain ⟨parsed', hparsed', hnamed⟩ := h.facts facts hfacts
    exact ⟨parsed', List.mem_append_left _ hparsed', hnamed.mono hgrows.values⟩
  simp only [MavenMcp.collectClass]
  obtain ⟨hclass, hsourceClass⟩ := s.strings.intern_spec (binaryName parsed.thisClass)
  generalize s.strings.intern (binaryName parsed.thisClass) = class_ at hclass hsourceClass ⊢
  obtain ⟨sourceClass, strings₁⟩ := class_
  split
  · exact ⟨hclass.nodup h.nodup, hkeep hclass⟩
  · obtain ⟨hsupertypes, hparents⟩ := collectParents_spec parsed.supertypes strings₁
    rw [ParsedClass.supertypes] at hsupertypes hparents
    generalize collectParents _ strings₁ = parents at hsupertypes hparents ⊢
    obtain ⟨parents, strings₂⟩ := parents
    obtain ⟨hitems, hreferences⟩ :=
      collectReferences_spec (binaryName parsed.thisClass) parsed.constantPool strings₂
    generalize collectReferences _ _ strings₂ = references at hitems hreferences ⊢
    obtain ⟨references, strings₃⟩ := references
    obtain ⟨hfile, hsourceFile⟩ := strings₃.internOption_spec (sourceFileName parsed.sourceFiles)
    generalize strings₃.internOption _ = file at hfile hsourceFile ⊢
    obtain ⟨sourceFile, strings₄⟩ := file
    have hgrows : s.strings.Grows strings₄ :=
      ((hclass.trans hsupertypes).trans hitems).trans hfile
    split
    · refine ⟨hgrows.nodup h.nodup, fun facts hfacts => ?_⟩
      rcases List.mem_append.mp hfacts with hfacts | hfacts
      · exact hkeep hgrows facts hfacts
      · rw [List.mem_singleton.mp hfacts]
        refine ⟨parsed, List.mem_append_right _ (List.mem_singleton.mpr rfl), ?_⟩
        constructor
        · exact hsourceClass.mono ((hsupertypes.trans hitems).trans hfile).values
        · exact hsourceFile
        · intro fact hfact
          exact (hparents fact (mem_of_mem_sorted hfact)).mono (hitems.trans hfile).values
        · intro reference hreference
          exact (hreferences reference (mem_of_mem_sorted hreference)).mono hfile.values
    · exact ⟨hgrows.nodup h.nodup, hkeep hgrows⟩

/-- The classes that the entries hold. -/
def parsedClasses (parseClass : List UInt8 → Option ParsedClass) (archive : ClassArchive)
    (maxEntryBytes : Nat) (classEntries : List (Str × Str)) : List ParsedClass :=
  classEntries.filterMap fun e => (readEntry archive maxEntryBytes e.2).bind parseClass

/-- **All classes.** -/
theorem collectClasses_named (parseClass : List UInt8 → Option ParsedClass) (archive : ClassArchive)
    (maxEntryBytes : Nat) (classEntries : List (Str × Str)) {before : List ParsedClass}
    {s : FactState} (h : s.Named before) :
    (collectClasses parseClass archive maxEntryBytes classEntries s).Named
      (before ++ parsedClasses parseClass archive maxEntryBytes classEntries) := by
  induction classEntries generalizing before s with
  | nil =>
    rw [parsedClasses, List.filterMap_nil, List.append_nil]
    exact h
  | cons e classEntries ih =>
    rw [parsedClasses, List.filterMap_cons]
    rw [collectClasses, List.foldl_cons]
    split
    · rename_i hnone
      simp only [hnone]
      exact ih h
    · rename_i parsed hsome
      simp only [hsome]
      rw [List.append_cons]
      exact ih (h.collectClass parsed e.2)

/-! ## 3. Records -/

/-- The numbers that the facts hold. -/
def IndexedClassFacts.ids (facts : IndexedClassFacts) : List FactStringId :=
  facts.sourceClass :: (facts.sourceFile.toList ++ (facts.parents.map IndexedTypeParent.parent ++
    facts.references.flatMap fun reference =>
      reference.targetOwner :: (reference.targetName.toList ++ reference.targetDescriptor.toList)))

theorem ResolvesOption.inRange {strings : List Str} {id : Option FactStringId} {value : Option Str}
    (h : ResolvesOption strings id value) : ∀ i ∈ id.toList, i.InRange strings := by
  cases h with
  | none => exact nofun
  | some h =>
    intro i hi
    obtain rfl := Option.some.inj (Option.mem_toList.mp hi)
    exact h.inRange

theorem IndexedClassFacts.Named.inRange {strings : List Str} {parsed : ParsedClass}
    {facts : IndexedClassFacts} (h : facts.Named strings parsed) :
    ∀ id ∈ facts.ids, id.InRange strings := by
  intro id hid
  rcases List.mem_cons.mp hid with rfl | hid
  · exact h.sourceClass.inRange
  rcases List.mem_append.mp hid with hid | hid
  · exact h.sourceFile.inRange id hid
  rcases List.mem_append.mp hid with hid | hid
  · obtain ⟨fact, hfact, rfl⟩ := List.mem_map.mp hid
    obtain ⟨name, -, hresolves⟩ := h.parents fact hfact
    exact hresolves.inRange
  · obtain ⟨reference, hreference, hid⟩ := List.mem_flatMap.mp hid
    obtain ⟨item, -, owner, name, descriptor, -, howner, hname, hdescriptor⟩ :=
      h.references reference hreference
    rcases List.mem_cons.mp hid with rfl | hid
    · exact howner.inRange
    rcases List.mem_append.mp hid with hid | hid
    · exact hname.inRange id hid
    · exact hdescriptor.inRange id hid

/-- `fact_string` is in bounds for every number of the facts. -/
def JarRecord.Resolves (record : JarRecord) : Prop :=
  ∀ facts ∈ record.classFacts, ∀ id ∈ facts.ids, id.InRange record.factStrings

/-- **A record that is read** resolves each fact to the names of a class of its archive. -/
theorem named_of_load {readers : Readers} {content : Content} {path : PathBuf}
    {identity : JarIdentity} {maxEntryBytes : Nat} {record : JarRecord}
    (h : loadJarRecord readers content path identity maxEntryBytes = some record) :
    record.factStrings.Nodup ∧ ∃ archive, ClassArchive.open readers.openZip content = some archive ∧
      ∀ facts ∈ record.classFacts,
        ∃ parsed ∈ parsedClasses readers.parseClass archive maxEntryBytes record.classEntries,
          facts.Named record.factStrings parsed := by
  obtain ⟨archive, harchive, hmap⟩ := Option.bind_eq_some_iff.mp h
  obtain ⟨index, -, rfl⟩ := Option.map_eq_some_iff.mp hmap
  by_cases hsource : (documentedClassifier identity.classifier).isSome
  · simp only [hsource, if_true]
    exact ⟨.nil, archive, harchive, nofun⟩
  · simp only [hsource, if_false, Bool.false_eq_true]
    have hstart : FactState.Named []
      { classFacts := [], providers := [], strings := { values := [] } } :=
      ⟨.nil, nofun⟩
    have hnamed := collectClasses_named readers.parseClass archive maxEntryBytes index.classEntries
      hstart
    exact ⟨hnamed.nodup, archive, harchive, hnamed.facts⟩

theorem factId_inRange {strings : List Str} {raw : Nat} (h : 1 ≤ raw ∧ raw ≤ strings.length) :
    (factId raw).InRange strings := by
  rw [factId, dif_pos (show 0 < raw from h.1)]
  show raw - 1 < strings.length
  omega

/-- **A record that is restored**, from whatever was decoded. -/
theorem resolves_of_valid {stored : StoredRecord} (h : stored.isValid = true) (path : PathBuf)
    (identity : JarIdentity) : (stored.intoRecord path identity).Resolves := by
  intro facts hfacts id hid
  obtain ⟨storedFacts, hstored, rfl⟩ := List.mem_map.mp hfacts
  simp only [StoredRecord.isValid, List.all_eq_true, Bool.and_eq_true, decide_eq_true_eq,
    Option.all_eq_true] at h
  obtain ⟨⟨⟨hclass, hfile⟩, hparents⟩, hreferences⟩ := h storedFacts hstored
  have hoption {raw : Option Nat} (hraw : ∀ x ∈ raw, 1 ≤ x ∧ x ≤ stored.factStrings.length) :
      ∀ i ∈ (raw.map factId).toList, i.InRange stored.factStrings := by
    intro i hi
    obtain ⟨x, hx, rfl⟩ := Option.map_eq_some_iff.mp (Option.mem_toList.mp hi)
    exact factId_inRange (hraw x hx)
  rcases List.mem_cons.mp hid with rfl | hid
  · exact factId_inRange hclass
  rcases List.mem_append.mp hid with hid | hid
  · exact hoption hfile id hid
  rcases List.mem_append.mp hid with hid | hid
  · obtain ⟨fact, hfact, rfl⟩ := List.mem_map.mp hid
    obtain ⟨parent, hparent, rfl⟩ := List.mem_map.mp hfact
    exact factId_inRange (hparents parent hparent)
  · obtain ⟨reference, hreference, hid⟩ := List.mem_flatMap.mp hid
    obtain ⟨storedReference, hstoredReference, rfl⟩ := List.mem_map.mp hreference
    obtain ⟨⟨howner, hname⟩, hdescriptor⟩ := hreferences storedReference hstoredReference
    rcases List.mem_cons.mp hid with rfl | hid
    · exact factId_inRange howner
    rcases List.mem_append.mp hid with hid | hid
    · exact hoption hname id hid
    · exact hoption hdescriptor id hid

theorem Index.Admitted.resolves {P : Type} {env : BuildEnv P}
    {persisted : Option (PathBuf → Option P)} {record : JarRecord}
    (h : Index.Admitted env persisted record) : record.Resolves := by
  cases h with
  | read hload =>
    obtain ⟨-, archive, -, hnamed⟩ := named_of_load hload
    intro facts hfacts
    obtain ⟨parsed, -, hfacts⟩ := hnamed facts hfacts
    exact hfacts.inRange
  | restored _ _ _ hvalid hrecord =>
    rw [hrecord]
    exact resolves_of_valid hvalid _ _

/-- **Fact strings resolve.**  Whatever is interned, each number keeps resolving to its string, and
numbers are equal exactly where the strings are; the facts of a record that is read name a class of
its archive in a table without duplicates; and no record of an index, read or restored from whatever
was decoded, holds a number outside of its own table. -/
theorem fact_strings_resolve :
    (∀ values : List Str,
      List.Forall₂
          (fun id value =>
            id.Resolves (FactStringPool.internAll values { values := [] }).2.values value)
          (FactStringPool.internAll values { values := [] }).1 values ∧
        ∀ a ∈ (FactStringPool.internAll values { values := [] }).1.zip values,
          ∀ b ∈ (FactStringPool.internAll values { values := [] }).1.zip values,
            a.1 = b.1 ↔ a.2 = b.2) ∧
    (∀ (readers : Readers) (content : Content) (path : PathBuf) (identity : JarIdentity)
      (maxEntryBytes : Nat) (record : JarRecord),
      loadJarRecord readers content path identity maxEntryBytes = some record →
      record.factStrings.Nodup ∧
        ∃ archive, ClassArchive.open readers.openZip content = some archive ∧
          ∀ facts ∈ record.classFacts,
            ∃ parsed ∈ parsedClasses readers.parseClass archive maxEntryBytes record.classEntries,
              facts.Named record.factStrings parsed) ∧
    ∀ {P : Type} (env : Index.BuildEnv P) (root : PathBuf) (jars : List (PathBuf × JarIdentity))
      (maxResults : Nat) (persisted : Option (PathBuf → Option P)) (budget left : ArchiveBudget)
      (index : Index.MavenIndex) (reuse : Index.RecordReuse P),
      env.buildFromJars root jars maxResults persisted budget = .ok (index, reuse, left) →
      ∀ record ∈ index.jars, record.Resolves := by
  refine ⟨fun values => ?_, fun _ _ _ _ _ _ => named_of_load, ?_⟩
  · obtain ⟨hgrows, hresolves⟩ := FactStringPool.internAll_spec values { values := [] }
    refine ⟨hresolves, fun a ha b hb => ?_⟩
    have hzip {e : FactStringId × Str}
        (he : e ∈ (FactStringPool.internAll values { values := [] }).1.zip values) :
        e.1.Resolves (FactStringPool.internAll values { values := [] }).2.values e.2 :=
      (List.forall₂_iff_zip.mp hresolves).2 he
    have hnodup := hgrows.nodup .nil
    constructor
    · intro hid
      exact (hzip ha).unique (hid ▸ hzip hb)
    · intro hvalue
      exact FactStringId.Resolves.injective hnodup (hzip ha) (hvalue ▸ hzip hb)
  · intro P env root jars maxResults persisted budget left index reuse h record hrecord
    exact (Index.admitted_of_mem_jars h record hrecord).resolves

/-- The record of a class directory comes back from the cache. -/
theorem fact_strings_resolve_restored :
    ∃ index reuse left,
      Index.sampleEnv.buildFromJars [47] [([47, 106], Index.sampleIdentity)] 10
          (some Index.sampleLoad) { entries := 5, names := 5, jarEntries := 10 }
        = .ok (index, reuse, left) ∧
      index.jars.map JarRecord.factStrings = [["a.B".toList, ['C'], ['D']]] ∧
      ∀ record ∈ index.jars, record.Resolves := by
  have hdecide : (Index.sampleEnv.buildFromJars [47] [([47, 106], Index.sampleIdentity)] 10
      (some Index.sampleLoad) { entries := 5, names := 5, jarEntries := 10 }).toOption.map
        (fun r => r.1.jars.map JarRecord.factStrings) = some [["a.B".toList, ['C'], ['D']]] := by
    decide +kernel
  rcases hbuild : Index.sampleEnv.buildFromJars [47] [([47, 106], Index.sampleIdentity)] 10
      (some Index.sampleLoad) { entries := 5, names := 5, jarEntries := 10 } with
    e | ⟨index, reuse, left⟩
  · rw [hbuild] at hdecide
    cases hdecide
  · rw [hbuild] at hdecide
    exact ⟨index, reuse, left, rfl, Option.some.inj hdecide,
      fact_strings_resolve.2.2 _ _ _ _ _ _ _ _ _ hbuild⟩

end MavenMcp
