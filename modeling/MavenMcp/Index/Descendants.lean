/-
# What a hierarchy search reports

A transitive search without a selector, and with room for all facts, should report each class with
each of its direct parents from which the type can be reached, once, on a shortest way.

`searchTypeHierarchy_exact_iff`: on a built index without cycles it does exactly when no two of
these facts in one JAR differ in the letter case of their names only.  There are as many results as
keys, and keys are lowercased.
-/
import MavenMcp.Index.Hierarchy

namespace MavenMcp
namespace Index

open Text

variable {lowercase : Str → Str} {index : MavenIndex}

/-! ## 1. What it should report -/

/-- The JAR, the class and its direct parent. -/
def edgeOf (e : HierarchyEdge × ParentFact) : Nat × Str × Str :=
  (e.1.jar, e.2.child, e.2.factParent)

/-- The match reports the edge, with a shortest way to it. -/
structure Reports (lowercase : Str → Str) (index : MavenIndex) (root : Str)
    (e : HierarchyEdge × ParentFact) (m : TypeHierarchyMatch) : Prop where
  typeName : m.typeName = e.2.child
  jar : m.jar = e.1.jar
  relation : m.relation = e.2.fact.relation
  shortest : (index.hierarchy lowercase).Shortest root
    { edge := e, path := m.path, depth := m.depth }

/-- The results report edges within reach, each of them once and none left out. -/
def ReportsHierarchy (lowercase : Str → Str) (index : MavenIndex) (root : Str)
    (results : List TypeHierarchyMatch) : Prop :=
  ∃ edges, List.Forall₂ (Reports lowercase index root) edges results ∧ (edges.map edgeOf).Nodup ∧
    ∀ e, (index.hierarchy lowercase).Reached root e → edgeOf e ∈ edges.map edgeOf

/-- Edges within reach that lie in one JAR and differ, differ by more than letter case. -/
def SpelledApart (lowercase : Str → Str) (index : MavenIndex) (root : Str) : Prop :=
  ∀ e e', (index.hierarchy lowercase).Reached root e → (index.hierarchy lowercase).Reached root e' →
    e.1.jar = e'.1.jar → lowercase e.2.child = lowercase e'.2.child →
      lowercase e.2.factParent = lowercase e'.2.factParent → edgeOf e = edgeOf e'

def DistinctCoordinates (jars : List JarRecord) : Prop :=
  ∀ (i j : Nat) (a b : JarRecord), jars[i]? = some a → jars[j]? = some b →
    a.isSource = false → b.isSource = false → coordinate a = coordinate b → i = j

/-! ## 2. Keys -/

theorem jar_of_mem {e : HierarchyEdge × ParentFact} (h : e ∈ index.parentFacts) :
    index.jars[e.1.jar]? = some e.2.jar ∧ e.2.jar.classFacts ≠ [] := by
  obtain ⟨jar, hjar, hat⟩ := Option.bind_eq_some_iff.mp (mem_parentFacts.mp h)
  obtain ⟨class_, hclass, hat⟩ := Option.bind_eq_some_iff.mp hat
  obtain ⟨fact, -, heq⟩ := Option.map_eq_some_iff.mp hat
  rw [← heq]
  exact ⟨hjar, List.ne_nil_of_mem (List.mem_of_getElem? hclass)⟩

/-- An edge has one key. -/
theorem key_of_edgeOf {e e' : HierarchyEdge × ParentFact} (h : e ∈ index.parentFacts)
    (h' : e' ∈ index.parentFacts) (heq : edgeOf e = edgeOf e') :
    e.2.edgeKey lowercase = e'.2.edgeKey lowercase := by
  obtain ⟨hjar, hnames⟩ := Prod.mk.inj heq
  obtain ⟨hchild, hparent⟩ := Prod.mk.inj hnames
  have hrecord : e.2.jar = e'.2.jar := by
    have hat := (jar_of_mem h).1
    rw [hjar, (jar_of_mem h').1] at hat
    exact (Option.some.inj hat).symm
  rw [ParentFact.edgeKey, ParentFact.edgeKey, hchild, hparent, hrecord]

theorem keysApart_iff (hsources : ∀ record ∈ index.jars, record.isSource = true →
      record.classFacts = []) (hdistinct : DistinctCoordinates index.jars) (root : Str) :
    (index.hierarchy lowercase).KeysApart root (fun e e' => edgeOf e = edgeOf e') ↔
      SpelledApart lowercase index root := by
  have hbinary : ∀ e ∈ index.parentFacts, e.2.jar.isSource = false := by
    intro e he
    obtain ⟨hjar, hfacts⟩ := jar_of_mem he
    rw [← Bool.not_eq_true]
    exact fun hsource => hfacts (hsources _ (List.mem_of_getElem? hjar) hsource)
  constructor
  · intro hkeys e e' he he' hjar hchild hparent
    refine hkeys e e' he he' ?_
    have hrecord : e.2.jar = e'.2.jar := by
      have hat := (jar_of_mem he.1).1
      rw [hjar, (jar_of_mem he'.1).1] at hat
      exact (Option.some.inj hat).symm
    change e.2.edgeKey lowercase = e'.2.edgeKey lowercase
    rw [ParentFact.edgeKey, ParentFact.edgeKey, hchild, hparent, hrecord]
  · intro hspelled e e' he he' hkey
    have hkey : e.2.edgeKey lowercase = e'.2.edgeKey lowercase := hkey
    obtain ⟨hchild, hrest⟩ := Prod.mk.inj hkey
    obtain ⟨hparent, hcoordinate⟩ := Prod.mk.inj hrest
    refine hspelled e e' he he' ?_ hchild hparent
    exact hdistinct _ _ _ _ (jar_of_mem he.1).1 (jar_of_mem he'.1).1 (hbinary e he.1)
      (hbinary e' he'.1) hcoordinate

/-! ## 3. What it reports -/

/-- Where the keys are apart, the right edges are reported. -/
theorem reportsHierarchy_of_keysApart (h : index.Built lowercase) {root : Str}
    (hacyclic : (index.hierarchy lowercase).Acyclic)
    (hkeys : (index.hierarchy lowercase).KeysApart root fun e e' => edgeOf e = edgeOf e')
    {limit : Nat} (hlimit : index.parentFacts.length < limit) :
    ReportsHierarchy lowercase index root
      (index.hierarchyLoop lowercase root true none limit).results := by
  obtain ⟨t, hexits, heq⟩ := exists_exits_ofState h hlimit root
  have hfiled := hierarchy_filed h
  have honce := EdgeSearch.once_of_reaches hfiled hexits.1
  obtain ⟨hshortest, hcomplete⟩ := EdgeSearch.complete_of_exits hacyclic hfiled (fun e e' heq => by
    obtain ⟨-, hnames⟩ := Prod.mk.inj heq
    exact (Prod.mk.inj hnames).symm) hkeys hexits
  rw [heq]
  refine ⟨t.found.map fun m => m.edge, ?_, ?_, ?_⟩
  · refine List.forall₂_map_left_iff.mpr (List.forall₂_map_right_iff.mpr ?_)
    exact List.forall₂_same.mpr fun m hm => ⟨rfl, rfl, rfl, hshortest m hm⟩
  · rw [List.map_map]
    refine List.pairwise_map.mpr ((List.pairwise_map.mp honce.nodup).imp_of_mem ?_)
    intro m m' hm hm' hne hsame
    exact hne (key_of_edgeOf (honce.edges m hm) (honce.edges m' hm') hsame)
  · intro e he
    obtain ⟨m, hm, hsame⟩ := hcomplete e he
    rw [List.map_map]
    exact List.mem_map.mpr ⟨m, hm, hsame⟩

/-- Where the right edges are reported, the keys are apart: there are as many results as keys. -/
theorem keysApart_of_reportsHierarchy (h : index.Built lowercase) {root : Str} {limit : Nat}
    (hlimit : index.parentFacts.length < limit)
    (hreports : ReportsHierarchy lowercase index root
      (index.hierarchyLoop lowercase root true none limit).results) :
    (index.hierarchy lowercase).KeysApart root fun e e' => edgeOf e = edgeOf e' := by
  obtain ⟨t, hexits, heq⟩ := exists_exits_ofState h hlimit root
  have hfiled := hierarchy_filed h
  have honce := EdgeSearch.once_of_reaches hfiled hexits.1
  have hsound := EdgeSearch.sound_of_reaches hfiled hexits.1
  rw [heq] at hreports
  obtain ⟨edges, hforall, -, hall⟩ := hreports
  have hedges : ∀ e ∈ edges, e ∈ index.parentFacts :=
    ((List.forall₂_and_left _ _).mp (hforall.imp fun e m hm => ⟨hm.shortest.edge, hm⟩)).1
  have hkey : ∀ e, (index.hierarchy lowercase).Reached root e →
      ∃ e₀ ∈ edges, edgeOf e₀ = edgeOf e ∧ e₀.2.edgeKey lowercase = e.2.edgeKey lowercase := by
    intro e he
    obtain ⟨e₀, he₀, hsame⟩ := List.mem_map.mp (hall e he)
    exact ⟨e₀, he₀, hsame, key_of_edgeOf (hedges e₀ he₀) he.1 hsame⟩
  -- the keys of the finds are among the keys of the edges, and as many
  have hsubset : (t.found.map fun m => m.edge.2.edgeKey lowercase)
      ⊆ edges.map fun e => e.2.edgeKey lowercase := by
    intro k hk
    obtain ⟨m, hm, rfl⟩ := List.mem_map.mp hk
    obtain ⟨e₀, he₀, -, hsame⟩ := hkey m.edge (hsound.found m hm)
    exact List.mem_map.mpr ⟨e₀, he₀, hsame⟩
  have hlength : (edges.map fun e => e.2.edgeKey lowercase).length
      ≤ (t.found.map fun m => m.edge.2.edgeKey lowercase).length := by
    have hsame := hforall.length_eq
    rw [HierarchySearch.ofState, List.length_map] at hsame
    rw [List.length_map, List.length_map, hsame]
  have hperm := (List.subperm_of_subset honce.nodup hsubset).perm_of_length_le hlength
  have hnodup : (edges.map fun e => e.2.edgeKey lowercase).Nodup := hperm.nodup_iff.mp honce.nodup
  intro e e' he he' hsame
  obtain ⟨e₀, he₀, hedge, hkey₀⟩ := hkey e he
  obtain ⟨e₁, he₁, hedge', hkey₁⟩ := hkey e' he'
  have hsame' : e₀.2.edgeKey lowercase = e₁.2.edgeKey lowercase := by
    rw [hkey₀, hkey₁]
    exact hsame
  obtain rfl := List.inj_on_of_nodup_map hnodup he₀ he₁ hsame'
  exact hedge.symm.trans hedge'

/-! ## 4. Builds -/

variable {P : Type} {env : BuildEnv P}

/-- Without a cache every record is read from its archive. -/
theorem read_of_fresh {root : PathBuf} {jars : List (PathBuf × JarIdentity)} {maxResults : Nat}
    {budget left : ArchiveBudget} {index : MavenIndex} {reuse : RecordReuse P}
    (h : env.buildFromJars root jars maxResults none budget = .ok (index, reuse, left)) :
    ∀ record ∈ index.jars, ∃ path identity, loadJarRecord env.readers
      (env.content path) path identity
      env.limits.maxEntryBytes = some record := by
  intro record hrecord
  cases admitted_of_mem_jars h record hrecord with
  | read hload => exact ⟨_, _, hload⟩
  | restored hcache => cases hcache

/-- Restoring records of earlier reads leaves the records that reading leaves. -/
theorem read_of_build (hcodec : env.codec.Lossless) {persisted : Option (PathBuf → Option P)}
    (hload : ∀ load, persisted = some load → ∀ path payload, load path = some payload →
      FromEarlierRead env payload) {root : PathBuf} {jars : List (PathBuf × JarIdentity)}
    {maxResults : Nat} {budget left : ArchiveBudget} {index : MavenIndex} {reuse : RecordReuse P}
    (h : env.buildFromJars root jars maxResults persisted budget = .ok (index, reuse, left)) :
    ∀ record ∈ index.jars, ∃ path identity, loadJarRecord env.readers
      (env.content path) path identity
      env.limits.maxEntryBytes = some record := by
  obtain ⟨reuse', hfresh⟩ : ∃ reuse',
      env.buildFromJars root jars maxResults none budget = .ok (index, reuse', left) := by
    cases persisted with
    | none => exact ⟨reuse, h⟩
    | some load =>
      have hstart : InStep (⟨budget, [], ⟨[], 0, []⟩⟩ : BuildState P) ⟨budget, [], ⟨[], 0, []⟩⟩ :=
        ⟨rfl, rfl⟩
      unfold BuildEnv.buildFromJars at h ⊢
      rcases buildRecords_alike hcodec (hload load rfl) (jars.mergeSort fun a b => pathLe a.1 b.1)
        hstart with ⟨s, t, hs, ht, hstep⟩ | ⟨⟨name, s, hs⟩, -⟩
      · simp only [hs, ht, Except.ok.injEq, Prod.mk.injEq] at h ⊢
        obtain ⟨rfl, -, rfl⟩ := h
        exact ⟨t.reuse, by rw [hstep.records], rfl, hstep.budget.symm⟩
      · simp only [hs] at h
        cases h
  exact read_of_fresh hfresh

theorem classFacts_of_load {readers : Readers} {content : Content} {path : PathBuf}
    {identity : JarIdentity} {maxEntryBytes : Nat} {record : JarRecord}
    (h : loadJarRecord readers content path identity maxEntryBytes = some record)
    (hsource : record.isSource = true) : record.classFacts = [] := by
  obtain ⟨archive, -, hmap⟩ := Option.bind_eq_some_iff.mp h
  obtain ⟨index, -, rfl⟩ := Option.map_eq_some_iff.mp hmap
  have hdocumented : (documentedClassifier identity.classifier).isSome = true := hsource
  simp only [hdocumented, if_true]

/-- Sources JARs have no class facts, whatever records of earlier reads are restored. -/
theorem classFacts_of_source (hcodec : env.codec.Lossless)
    {persisted : Option (PathBuf → Option P)}
    (hload : ∀ load, persisted = some load → ∀ path payload, load path = some payload →
      FromEarlierRead env payload) {root : PathBuf} {jars : List (PathBuf × JarIdentity)}
    {maxResults : Nat} {budget left : ArchiveBudget} {index : MavenIndex} {reuse : RecordReuse P}
    (h : env.buildFromJars root jars maxResults persisted budget = .ok (index, reuse, left)) :
    ∀ record ∈ index.jars, record.isSource = true → record.classFacts = [] := by
  intro record hrecord hsource
  obtain ⟨path, identity, hread⟩ := read_of_build hcodec hload h record hrecord
  exact classFacts_of_load hread hsource

/-- **Hierarchy search** ends on every index.  On a built index without cycles, a search for all
descendants reports what it should exactly when, for a type that is not blank, edges within reach
differ by more than letter case. -/
theorem searchTypeHierarchy_exact_iff :
    (∀ (index : MavenIndex) (root : Str) (transitive : Bool) (selector : Option Str) (limit : Nat),
      Loop.Exits (index.hierarchyRound env.lowercase transitive selector limit)
        (HierarchySearch.start root)
        (index.hierarchyLoop env.lowercase root transitive selector limit)) ∧
    ∀ {root : PathBuf} {jars : List (PathBuf × JarIdentity)}
      {maxResults : Nat} {persisted : Option (PathBuf → Option P)} {budget left : ArchiveBudget}
      {index : MavenIndex} {reuse : RecordReuse P}, env.codec.Lossless →
      (∀ load, persisted = some load → ∀ path payload, load path = some payload →
        FromEarlierRead env payload) →
      env.buildFromJars root jars maxResults persisted budget = .ok (index, reuse, left) →
      DistinctCoordinates index.jars → (index.hierarchy env.lowercase).Acyclic →
      ∀ (typeName : Str) (requested : Option Nat),
        index.parentFacts.length < index.limit requested →
        (ReportsHierarchy env.lowercase index (normalizeClassQuery typeName)
            (index.searchTypeHierarchy env.lowercase typeName true none requested) ↔
          (normalizeClassQuery typeName = [] →
            ∀ e, ¬ (index.hierarchy env.lowercase).Reached [] e) ∧
            SpelledApart env.lowercase index (normalizeClassQuery typeName)) := by
  refine ⟨fun index root transitive selector limit => exits_hierarchyLoop _ _ _ _, ?_⟩
  intro _ jars maxResults persisted budget left index reuse hcodec hload hbuild hdistinct
    hacyclic typeName requested hlimit
  have hbuilt := built_of_buildFromJars hbuild
  have hkeys := @keysApart_iff env.lowercase index (classFacts_of_source hcodec hload hbuild)
    hdistinct (normalizeClassQuery typeName)
  unfold MavenIndex.searchTypeHierarchy
  by_cases hroot : normalizeClassQuery typeName = []
  · simp only [hroot, if_true, true_implies]
    constructor
    · rintro ⟨edges, hforall, -, hall⟩
      obtain rfl : edges = [] := by
        cases hforall
        rfl
      have hnone : ∀ e, ¬ (index.hierarchy env.lowercase).Reached [] e := fun e he =>
        List.not_mem_nil (hall e he)
      exact ⟨hnone, fun e e' he _ => absurd he (hnone e)⟩
    · rintro ⟨hnone, -⟩
      exact ⟨[], .nil, List.nodup_nil, fun e he => absurd he (hnone e)⟩
  · simp only [hroot, if_false, false_implies, true_and]
    rw [← hkeys]
    exact ⟨keysApart_of_reportsHierarchy hbuilt hlimit,
      fun h => reportsHierarchy_of_keysApart hbuilt hacyclic h hlimit⟩

/-! ## 5. A class and its parents -/

/-- The build of a class directory with one class, its superclass and its interfaces. -/
def familyEnv (interfaces : List Str) : BuildEnv StoredRecord :=
  { sampleEnv with
    readers :=
      { sampleEnv.readers with
        parseClass := fun _ => some
          { thisClass := ['C'], superClass := some ['p'], interfaces, constantPool := []
            sourceFiles := [], modules := [] } }
    lowercase := CaseTables.asciiTables.lower
    content := fun _ => .directory
      [some { relative := [67], name := some "C.class".toList, isFile := true
              bytes := some [1] }] }

def familyBuild (interfaces : List Str) :
    Except PreflightError (MavenIndex × RecordReuse StoredRecord × ArchiveBudget) :=
  (familyEnv interfaces).buildFromJars [47] [([47, 106], sampleIdentity)] 10 none
    { entries := 9, names := 99, jarEntries := 10 }

theorem earlier_of_none (env : BuildEnv P) :
    ∀ load, (none : Option (PathBuf → Option P)) = some load →
      ∀ path payload, load path = some payload → FromEarlierRead env payload :=
  fun _ h => nomatch h

/-- One child below one parent makes no cycle. -/
theorem acyclic_of_family (child parent : Str) (hne : parent ≠ child)
    (h : ∀ e ∈ index.parentFacts,
      toAsciiLowercase e.2.factParent = parent ∧ toAsciiLowercase e.2.child = child) :
    (index.hierarchy lowercase).Acyclic := by
  intro c hcycle
  obtain ⟨_, ⟨e, he, hparent, -⟩, -⟩ := Relation.TransGen.head'_iff.mp hcycle
  obtain ⟨_, -, e', he', -, hchild⟩ := Relation.TransGen.tail'_iff.mp hcycle
  refine hne ?_
  rw [← (h e he).1, ← (h e' he').2]
  exact hparent.trans hchild.symm

theorem distinctCoordinates_of_one {jars : List JarRecord} (h : jars.length = 1) :
    DistinctCoordinates jars := by
  intro i j a b hi hj _ _ _
  obtain ⟨hi, -⟩ := List.getElem?_eq_some_iff.mp hi
  obtain ⟨hj, -⟩ := List.getElem?_eq_some_iff.mp hj
  omega

/-- A class found below its superclass, in other letters. -/
theorem searchTypeHierarchy_exact_iff_family :
    ∃ index reuse left, familyBuild [] = .ok (index, reuse, left) ∧
      index.searchTypeHierarchy CaseTables.asciiTables.lower ['P'] true none none
        = [{ typeName := ['C'], jar := 0, relation := .extends, depth := 1
             path := [['P'], ['C']] }] ∧
      (ReportsHierarchy CaseTables.asciiTables.lower index (normalizeClassQuery ['P'])
          (index.searchTypeHierarchy CaseTables.asciiTables.lower ['P'] true none none) ↔
        (normalizeClassQuery ['P'] = [] →
          ∀ e, ¬ (index.hierarchy CaseTables.asciiTables.lower).Reached [] e) ∧
          SpelledApart CaseTables.asciiTables.lower index (normalizeClassQuery ['P'])) := by
  have hfound : (familyBuild []).toOption.map (fun r =>
        (r.1.searchTypeHierarchy CaseTables.asciiTables.lower ['P'] true none none, r.1.jars.length,
          r.1.limit none))
      = some ([{ typeName := ['C'], jar := 0, relation := .extends, depth := 1
                 path := [['P'], ['C']] }], 1, 10) := by decide +kernel
  have hfacts : (familyBuild []).toOption.map (fun r => r.1.parentFacts.map edgeOf)
      = some [(0, ['C'], ['p'])] := by decide +kernel
  rcases hbuild : familyBuild [] with e | ⟨index, reuse, left⟩
  · rw [hbuild] at hfound
    cases hfound
  · rw [hbuild] at hfound hfacts
    obtain ⟨hresults, hrest⟩ := Prod.mk.inj (Option.some.inj hfound)
    obtain ⟨hone, hlimit⟩ := Prod.mk.inj hrest
    have hfacts := Option.some.inj hfacts
    simp only at hresults hone hlimit hfacts
    have hedges : ∀ e ∈ index.parentFacts, edgeOf e = (0, ['C'], ['p']) := fun e he =>
      List.mem_singleton.mp (hfacts ▸ List.mem_map_of_mem he)
    have hlength : index.parentFacts.length = 1 := by
      have hmap := congrArg List.length hfacts
      rwa [List.length_map] at hmap
    refine ⟨index, reuse, left, rfl, hresults, ?_⟩
    refine searchTypeHierarchy_exact_iff.2 (fun _ _ h => h.symm) (earlier_of_none _) hbuild
      (distinctCoordinates_of_one hone)
      (acyclic_of_family ['c'] ['p'] (by decide) fun e he => ?_) ['P'] none
      (by omega)
    obtain ⟨-, hnames⟩ := Prod.mk.inj (hedges e he)
    obtain ⟨hchild, hparent⟩ := Prod.mk.inj hnames
    rw [hchild, hparent]
    exact ⟨by decide, by decide⟩

/-- The archive of the class directory. -/
def familyArchive : ClassArchive :=
  .directory
    [some { relative := [67], name := some "C.class".toList, isFile := true, bytes := some [1] }]

/-- A class whose superclass and interface differ in letter case. -/
def twins : ParsedClass :=
  { thisClass := ['C'], superClass := some ['p'], interfaces := [['P']], constantPool := []
    sourceFiles := [], modules := [] }

def twinParents : List IndexedTypeParent :=
  [{ parent := ⟨2, by decide⟩, relation := .extends },
    { parent := ⟨3, by decide⟩, relation := .implements }]

def twinFacts : FactState :=
  { classFacts :=
      [{ sourceClass := ⟨1, by decide⟩, sourceFile := none, parents := twinParents
         references := [] }]
    providers := []
    strings := { values := [['C'], ['p'], ['P']] } }

theorem collectClass_twins (entry : Str) :
    collectClass twins entry { classFacts := [], providers := [], strings := { values := [] } }
      = twinFacts := by
  have hintern : (FactStringPool.mk []).intern (binaryName twins.thisClass)
      = (⟨1, by decide⟩, { values := [['C']] }) := by decide +kernel
  have hname : binaryName twins.thisClass ≠ "module-info".toList := by decide +kernel
  have hparents : collectParents
        (twins.superClass.toList.map (·, .extends) ++ twins.interfaces.map (·, .implements))
        { values := [['C']] }
      = (twinParents, { values := [['C'], ['p'], ['P']] }) := by decide +kernel
  have hsort : twinParents.mergeSort IndexedTypeParent.le = twinParents :=
    List.mergeSort_of_pairwise (by decide +kernel)
  have hdestutter : twinParents.destutter (· ≠ ·) = twinParents := by decide +kernel
  have hreferences : collectReferences (binaryName twins.thisClass) twins.constantPool
      { values := [['C'], ['p'], ['P']] } = ([], { values := [['C'], ['p'], ['P']] }) := rfl
  have hsourceFile : sourceFileName twins.sourceFiles = none := rfl
  have hne : twinParents ≠ [] := List.cons_ne_nil _ _
  unfold collectClass
  simp only [hintern, hname, if_false, hparents, hsort, hdestutter, hreferences, hsourceFile, hne,
    List.mergeSort_nil, FactStringPool.internOption, Option.isSome_none, Bool.false_eq_true, ne_eq,
    not_false_eq_true, true_or, or_true, if_true]
  rfl

theorem facts_of_twins {path : PathBuf} {identity : JarIdentity} {record : JarRecord}
    (h : loadJarRecord (familyEnv [['P']]).readers ((familyEnv [['P']]).content path) path identity
      10 = some record) (hbinary : record.isSource = false) :
    record.classFacts = twinFacts.classFacts ∧ record.factStrings = twinFacts.strings.values := by
  obtain ⟨archive, hopen, h⟩ := Option.bind_eq_some_iff.mp h
  obtain rfl : familyArchive = archive := Option.some.inj hopen
  obtain ⟨entries, hentries, rfl⟩ := Option.map_eq_some_iff.mp h
  have hindex : readJarIndex familyArchive = some {
      classes := [['C']], entries := ["C.class".toList]
      classEntries := [("C.class".toList, "C.class".toList)], multiRelease := false } := by
    decide +kernel
  rw [hindex] at hentries
  obtain rfl := Option.some.inj hentries
  have hdocumented : (documentedClassifier identity.classifier).isSome = false := hbinary
  have hread : readEntry familyArchive 10 "C.class".toList = some [1] := by decide +kernel
  have hclasses : collectClasses (familyEnv [['P']]).readers.parseClass familyArchive 10
      [("C.class".toList, "C.class".toList)]
        { classFacts := [], providers := [], strings := { values := [] } } = twinFacts := by
    unfold collectClasses
    rw [List.foldl_cons, List.foldl_nil, hread]
    exact collectClass_twins _
  simp only [hdocumented, Bool.false_eq_true, if_false, collectJarFacts, hclasses, and_self]

/-- Of a superclass and an interface that differ in letter case only one is reported. -/
theorem searchTypeHierarchy_loses_twin :
    ∃ index reuse left, familyBuild [['P']] = .ok (index, reuse, left) ∧
      DistinctCoordinates index.jars ∧ (index.hierarchy CaseTables.asciiTables.lower).Acyclic ∧
      index.parentFacts.length < index.limit none ∧
      ¬ ReportsHierarchy CaseTables.asciiTables.lower index (normalizeClassQuery ['p'])
        (index.searchTypeHierarchy CaseTables.asciiTables.lower ['p'] true none none) := by
  have hdecide : (familyBuild [['P']]).toOption.map (fun r =>
      (r.1.jars.map JarRecord.classifier, r.1.limit none)) = some ([none], 10) := by decide +kernel
  rcases hbuild : familyBuild [['P']] with e | ⟨index, reuse, left⟩
  · rw [hbuild] at hdecide
    cases hdecide
  · rw [hbuild] at hdecide
    obtain ⟨hclassifiers, hlimit⟩ := Prod.mk.inj (Option.some.inj hdecide)
    simp only at hclassifiers hlimit
    obtain ⟨record, hjars, hclassifier⟩ := List.map_eq_singleton_iff.mp hclassifiers
    have hbinary : record.isSource = false := by
      rw [JarRecord.isSource, hclassifier]
      rfl
    obtain ⟨path, identity, hload⟩ := read_of_fresh hbuild record (by simp [hjars])
    obtain ⟨hclassFacts, hstrings⟩ := facts_of_twins hload hbinary
    have hfacts : index.parentFacts.map edgeOf = [(0, ['C'], ['p']), (0, ['C'], ['P'])] := by
      unfold MavenIndex.parentFacts
      rw [hjars]
      simp only [List.zipIdx_cons, List.zipIdx_nil, List.flatMap_cons, List.flatMap_nil,
        List.append_nil, hclassFacts, twinFacts, twinParents, List.map_cons, List.map_nil, edgeOf,
        ParentFact.child, ParentFact.factParent, JarRecord.factString, hstrings]
      rfl
    have hedges : ∀ e ∈ index.parentFacts, edgeOf e = (0, ['C'], ['p']) ∨
        edgeOf e = (0, ['C'], ['P']) := by
      intro e he
      have hmem := hfacts ▸ List.mem_map_of_mem (f := edgeOf) he
      simpa using hmem
    have hlength : index.parentFacts.length = 2 := by
      have hmap := congrArg List.length hfacts
      rwa [List.length_map] at hmap
    have hdistinct : DistinctCoordinates index.jars :=
      distinctCoordinates_of_one (by rw [hjars, List.length_singleton])
    have hacyclic : (index.hierarchy CaseTables.asciiTables.lower).Acyclic := by
      refine acyclic_of_family ['c'] ['p'] (by decide) fun e he => ?_
      rcases hedges e he with heq | heq
      · obtain ⟨-, hnames⟩ := Prod.mk.inj heq
        obtain ⟨hchild, hparent⟩ := Prod.mk.inj hnames
        rw [hchild, hparent]
        exact ⟨by decide, by decide⟩
      · obtain ⟨-, hnames⟩ := Prod.mk.inj heq
        obtain ⟨hchild, hparent⟩ := Prod.mk.inj hnames
        rw [hchild, hparent]
        exact ⟨by decide, by decide⟩
    have hroom : index.parentFacts.length < index.limit none := by omega
    refine ⟨index, reuse, left, rfl, hdistinct, hacyclic, hroom, fun hreports => ?_⟩
    obtain ⟨e, he, hedge⟩ := List.mem_map.mp
      (show ((0 : Nat), ['C'], ['p']) ∈ index.parentFacts.map edgeOf by simp [hfacts])
    obtain ⟨e', he', hedge'⟩ := List.mem_map.mp
      (show ((0 : Nat), ['C'], ['P']) ∈ index.parentFacts.map edgeOf by simp [hfacts])
    obtain ⟨hjar, hnames⟩ := Prod.mk.inj hedge
    obtain ⟨hchild, hparent⟩ := Prod.mk.inj hnames
    obtain ⟨hjar', hnames'⟩ := Prod.mk.inj hedge'
    obtain ⟨hchild', hparent'⟩ := Prod.mk.inj hnames'
    -- both are one step away from the type
    have hreached : ∀ f ∈ index.parentFacts, toAsciiLowercase f.2.factParent = ['p'] →
        (index.hierarchy CaseTables.asciiTables.lower).Reached ['p'] f := by
      intro f hf hparent
      refine ⟨hf, 0, ?_⟩
      have hclass : (index.hierarchy CaseTables.asciiTables.lower).classOf
            ((index.hierarchy CaseTables.asciiTables.lower).parent f)
          = (index.hierarchy CaseTables.asciiTables.lower).classOf ['p'] := by
        change toAsciiLowercase f.2.factParent = toAsciiLowercase ['p']
        rw [hparent]
        decide
      rw [hclass]
      exact .root
    have hroot : normalizeClassQuery ['p'] = ['p'] := by decide +kernel
    unfold MavenIndex.searchTypeHierarchy at hreports
    simp only [hroot, List.cons_ne_nil, if_false] at hreports
    have hsources := classFacts_of_source (fun _ _ h => h.symm) (earlier_of_none _) hbuild
    have hapart := (keysApart_iff hsources hdistinct ['p']).mp
      (keysApart_of_reportsHierarchy (built_of_buildFromJars hbuild) hroom hreports)
    have hsame := hapart e e' (hreached e he (by rw [hparent]; decide))
      (hreached e' he' (by rw [hparent']; decide)) (hjar.trans hjar'.symm) (by rw [hchild, hchild'])
      (by rw [hparent, hparent']; decide +kernel)
    rw [hedge, hedge'] at hsame
    exact absurd hsame (by decide)

end Index
end MavenMcp
