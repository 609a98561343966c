/-
# Sources JARs

The sources of a binary JAR are found twice.  `build_scoped` looks for files beside the binary, in
the order of `source_jar_candidates`, and adds the first that exists to the index; `source_jar_of`
looks for the JAR that was entered as the sources of the binary's coordinate and classifier.  In
between, the name of the sources JAR is read back as a coordinate.

`source_pairing_iff`: both agree, but for two classifiers.  The sources of a classifier `test`
have the name of the sources of `tests`, and the name of the sources of an empty classifier is not
read back as that of a sources JAR.
-/
import MavenMcp.Index.Layout
import MavenMcp.Index.Locations

namespace MavenMcp
namespace Index

open Text

/-! ## 1. Candidates -/

/-- `source_jar_candidates`. -/
def sourceJarCandidates (binaryJar : PathBuf) (classifier : Option Str) : List PathBuf :=
  match (fileNameText binaryJar).bind (stripSuffix ".jar".toList) with
  | none => []
  | some stem =>
    if endsWith "-sources".toList stem then []
    else
      let sibling (name : Str) : PathBuf := withFileName binaryJar (name ++ ".jar".toList)
      let classified := classifier.bind fun classifier =>
        ((stripSuffix classifier stem).bind (stripSuffix ['-'])).map fun base => (classifier, base)
      match classified with
      | none => [sibling (stem ++ "-sources".toList)]
      | some (classifier, base) =>
        if classifier = "tests".toList then [sibling (base ++ "-test-sources".toList)]
        else [sibling (stem ++ "-sources".toList), sibling (base ++ "-sources".toList)]

/-- `source_jar_of`. -/
def MavenIndex.sourceJarOf (index : MavenIndex) (binary : JarRecord) : Option Nat :=
  let exact_ := index.documentedJar binary.key binary.classifier
  if binary.classifier = none ∨ binary.classifier = some "tests".toList then exact_
  else exact_.orElse fun _ => index.documentedJar binary.key none

/-! ## 2. Scoped builds -/

inductive UnindexedReason
  | missing
  | notMavenRepositoryLayout
  | outsideRepositoryAndReactor
  | unresolvedReactorCoordinate
deriving DecidableEq, Repr

structure UnindexedClasspathEntry where
  path : PathBuf
  reason : UnindexedReason
deriving DecidableEq, Repr

/-- What a scoped build asks of the file system and of the reactor. -/
structure ScopedFiles where
  canonicalize : PathBuf → Option PathBuf
  isFile : PathBuf → Bool
  reactorRoot : PathBuf
  /-- The identity of a path that is not below the repository. -/
  reactorIdentity : PathBuf → Except UnindexedReason JarIdentity

def scopedIdentity (files : ScopedFiles) (repositoryRoot : Option PathBuf) (path : PathBuf) :
    Except UnindexedReason JarIdentity :=
  match repositoryRoot with
  | none => files.reactorIdentity path
  | some root =>
    if (stripComponents (pathComponents root) (pathComponents path)).isSome then
      match repositoryIdentity root path with
      | some identity => .ok identity
      | none => .error .notMavenRepositoryLayout
    else files.reactorIdentity path

/-- `BTreeMap::insert` in a map by path; `build_from_jars` sorts it. -/
def insertJar (path : PathBuf) (identity : JarIdentity) :
    List (PathBuf × JarIdentity) → List (PathBuf × JarIdentity)
  | [] => [(path, identity)]
  | (p, i) :: jars =>
    if pathComponents p = pathComponents path then (p, identity) :: jars
    else (p, i) :: insertJar path identity jars

/-- The artifacts and the entries left out so far. -/
structure ScopedJars where
  jars : List (PathBuf × JarIdentity)
  unindexed : List UnindexedClasspathEntry
deriving DecidableEq, Repr

/-- The sources JAR of a classpath entry: the first candidate that exists and has an identity. -/
def sourceOf (files : ScopedFiles) (repositoryRoot : Option PathBuf) (path : PathBuf)
    (classifier : Option Str) : Option (PathBuf × JarIdentity) :=
  ((sourceJarCandidates path classifier).filter files.isFile).findSome? fun candidate =>
    (scopedIdentity files repositoryRoot candidate).toOption.map fun identity =>
      (candidate, identity)

/-- One entry of the classpath. -/
def addClasspathEntry (files : ScopedFiles) (repositoryRoot : Option PathBuf) (s : ScopedJars)
    (entry : PathBuf) : ScopedJars :=
  match files.canonicalize entry with
  | none => { s with unindexed := s.unindexed ++ [{ path := entry, reason := .missing }] }
  | some path =>
    match scopedIdentity files repositoryRoot path with
    | .error reason => { s with unindexed := s.unindexed ++ [{ path, reason }] }
    | .ok identity =>
      let jars :=
        match sourceOf files repositoryRoot path identity.classifier with
        | some (source, sourceIdentity) => insertJar source sourceIdentity s.jars
        | none => s.jars
      { s with jars := insertJar path identity jars }

structure ScopedIndex (P : Type) where
  index : MavenIndex
  unindexed : List UnindexedClasspathEntry
  records : RecordReuse P

variable {P : Type}

/-- `build_scoped_with`, with a starting budget. -/
def buildScoped (env : BuildEnv P) (files : ScopedFiles) (repositoryRoot : Option PathBuf)
    (classpath : List PathBuf) (maxResults : Nat) (persisted : Option (PathBuf → Option P))
    (budget : ArchiveBudget) : Except PreflightError (ScopedIndex P) :=
  let selected := classpath.foldl (addClasspathEntry files repositoryRoot)
    { jars := [], unindexed := [] }
  match env.buildFromJars (repositoryRoot.getD files.reactorRoot) selected.jars maxResults persisted
      budget with
  | .error e => .error e
  | .ok (index, records, _) => .ok { index, unindexed := selected.unindexed, records }

/-! ## 3. Names beside a binary -/

/-- The names of the candidates, without their extension. -/
def candidateStems (base : Str) : Option Str → List Str
  | none => [base ++ "-sources".toList]
  | some classifier =>
    if classifier = "tests".toList then [base ++ "-test-sources".toList]
    else [base ++ '-' :: classifier ++ "-sources".toList, base ++ "-sources".toList]

/-- **The candidates of a binary in repository layout** are named by its base and classifier. -/
theorem sourceJarCandidates_eq {path : PathBuf} {base : Str} {classifier : Option Str}
    (hname : fileNameText path = some (base ++ classifierSuffix classifier ++ ".jar".toList)) :
    sourceJarCandidates path classifier
      = if endsWith "-sources".toList (base ++ classifierSuffix classifier) then []
        else (candidateStems base classifier).map fun stem =>
          withFileName path (stem ++ ".jar".toList) := by
  unfold sourceJarCandidates
  rw [hname, Option.bind_some, stripSuffix_append]
  simp only
  split
  · rfl
  · cases classifier with
    | none =>
      rw [classifierSuffix, List.append_nil]
      rfl
    | some classifier =>
      have hstem : base ++ '-' :: classifier = base ++ ['-'] ++ classifier := by
        rw [List.append_assoc, List.singleton_append]
      rw [classifierSuffix, Option.bind_some, hstem, stripSuffix_append, Option.bind_some,
        stripSuffix_append, Option.map_some, ← hstem, candidateStems]
      simp only
      split
      · rfl
      · rfl

/-- The classifier that the name of a candidate is read back as. -/
theorem classifierOf_candidate {base stem : Str} {classifier : Option Str}
    (h : stem ∈ candidateStems base classifier) :
    ∃ documenting, classifierOf base stem = some (some documenting) ∧
      (documenting = "sources".toList ∧ classifier ≠ some "tests".toList ∨
        documenting = "test-sources".toList ∧ classifier = some "tests".toList ∨
        ∃ c, classifier = some c ∧ c ≠ "tests".toList ∧ documenting = c ++ "-sources".toList ∧
          (candidateStems base classifier).head? = some stem) := by
  have hread : ∀ documenting : Str,
      classifierOf base (base ++ '-' :: documenting) = some (some documenting) := fun documenting =>
    classifierOf_eq_some_iff.mpr rfl
  cases classifier with
  | none =>
    rw [List.mem_singleton.mp h]
    exact ⟨_, hread "sources".toList, .inl ⟨rfl, nofun⟩⟩
  | some c =>
    rw [candidateStems] at h ⊢
    split at h
    · rename_i htests
      rw [List.mem_singleton.mp h, htests]
      exact ⟨_, hread "test-sources".toList, .inr (.inl ⟨rfl, rfl⟩)⟩
    · rename_i htests
      rcases List.mem_cons.mp h with rfl | h
      · refine ⟨c ++ "-sources".toList, ?_, .inr (.inr ⟨c, rfl, htests, rfl, ?_⟩)⟩
        · rw [List.append_assoc]
          exact hread _
        · rw [if_neg htests]
          rfl
      · rw [List.mem_singleton.mp h]
        exact ⟨_, hread "sources".toList, .inl ⟨rfl, fun heq => htests (Option.some.inj heq)⟩⟩

/-- The sources of a classifier are read back as such, but for `test` and the empty one. -/
theorem documentedClassifier_classified {c : Str} (htest : c ≠ "test".toList) (hempty : c ≠ []) :
    documentedClassifier (some (c ++ "-sources".toList)) = some (some c) := by
  unfold documentedClassifier
  have hsources : c ++ "-sources".toList ≠ "sources".toList := by
    intro heq
    have hlength := congrArg List.length heq
    rw [List.length_append] at hlength
    have h1 : "-sources".toList.length = 8 := rfl
    have h2 : "sources".toList.length = 7 := rfl
    omega
  have htestSources : c ++ "-sources".toList ≠ "test-sources".toList := by
    intro heq
    have hsplit : "test-sources".toList = "test".toList ++ "-sources".toList := rfl
    rw [hsplit] at heq
    exact htest (List.append_cancel_right heq)
  simp only [if_neg hsources, if_neg htestSources, stripSuffix_append]

theorem documentedClassifier_test :
    documentedClassifier (some ("test".toList ++ "-sources".toList))
      = some (some "tests".toList) := rfl

theorem documentedClassifier_empty :
    documentedClassifier (some ([] ++ "-sources".toList)) = none := rfl

/-! ## 4. The records of a build -/

/-- What a record says of its JAR. -/
def identityOf (record : JarRecord) : JarIdentity :=
  { key := record.key, classifier := record.classifier, relativePath := record.relativePath }

/-- The archive is well formed and can be read. -/
structure Readable (env : BuildEnv P) (path : PathBuf) : Prop where
  wellFormed : ∀ budget reason, (preflight (env.content path) budget).1 ≠ .error (.malformed reason)
  loads : ∀ identity,
    (loadJarRecord env.readers (env.content path) path identity env.limits.maxEntryBytes).isSome
      = true

/-- **One readable artifact** adds its record. -/
theorem record_of_buildArtifact {env : BuildEnv P} {persisted : Option (PathBuf → Option P)}
    {path : PathBuf} {identity : JarIdentity} {s t : BuildState P} (hread : Readable env path)
    (h : env.buildArtifact persisted path identity s = (.ok (), t)) :
    ∃ record, t.records = s.records ++ [record] ∧ record.path = path ∧
      identityOf record = identity := by
  unfold BuildEnv.buildArtifact at h
  split at h
  · cases h
  · rename_i record budget hrestore
    obtain ⟨-, rfl⟩ := Prod.mk.inj h
    refine ⟨record, rfl, ?_⟩
    unfold BuildEnv.restoreArtifact at hrestore
    split at hrestore
    · cases hrestore
    · split at hrestore
      · obtain ⟨stored, -, -, rfl⟩ := stored_of_restore hrestore
        exact ⟨rfl, rfl⟩
      · cases hrestore
  · rename_i budget hrestore
    unfold BuildEnv.readArtifact at h
    split at h
    · cases h
    · rename_i reason after hpreflight
      have hmalformed := hread.wellFormed budget reason
      simp only at hpreflight
      rw [hpreflight] at hmalformed
      exact absurd rfl hmalformed
    · split at h
      · rename_i hload
        have hloads := hread.loads identity
        rw [hload] at hloads
        cases hloads
      · rename_i record hload
        obtain ⟨-, rfl⟩ := Prod.mk.inj h
        obtain ⟨-, hkey, hclassifier, hrelative, hpath⟩ := derived_of_load hload
        refine ⟨record, rfl, hpath, ?_⟩
        rw [identityOf, hkey, hclassifier, hrelative]

/-- **The records are those of the artifacts**, in their order. -/
theorem records_of_buildRecords {env : BuildEnv P} {persisted : Option (PathBuf → Option P)}
    {jars : List (PathBuf × JarIdentity)} (hread : ∀ jar ∈ jars, Readable env jar.1)
    {s t : BuildState P} (h : env.buildRecords persisted jars s = (.ok (), t)) :
    t.records.map (fun record => (record.path, identityOf record))
      = s.records.map (fun record => (record.path, identityOf record)) ++ jars := by
  induction jars generalizing s with
  | nil =>
    obtain ⟨-, rfl⟩ := Prod.mk.inj h
    exact (List.append_nil _).symm
  | cons jar jars ih =>
    obtain ⟨path, identity⟩ := jar
    unfold BuildEnv.buildRecords at h
    split at h
    · cases h
    · rename_i after hstep
      obtain ⟨record, hrecords, hpath, hidentity⟩ :=
        record_of_buildArtifact (hread _ List.mem_cons_self) hstep
      rw [ih (fun jar hjar => hread jar (List.mem_cons_of_mem _ hjar)) h, hrecords,
        List.map_append, List.map_singleton, hpath, hidentity, List.append_assoc,
        List.singleton_append]

/-- The JARs of an index are those of its build. -/
theorem perm_jars_of_build {env : BuildEnv P} {root : PathBuf}
    {jars : List (PathBuf × JarIdentity)} {maxResults : Nat}
    {persisted : Option (PathBuf → Option P)} {budget left : ArchiveBudget} {index : MavenIndex}
    {reuse : RecordReuse P} (hread : ∀ jar ∈ jars, Readable env jar.1)
    (h : env.buildFromJars root jars maxResults persisted budget = .ok (index, reuse, left)) :
    (index.jars.map fun record => (record.path, identityOf record)).Perm jars := by
  unfold BuildEnv.buildFromJars at h
  simp only at h
  split at h
  · cases h
  · rename_i s hs
    obtain ⟨rfl, -⟩ := Prod.mk.inj (Except.ok.inj h)
    have hsorted : ∀ jar ∈ jars.mergeSort fun a b => pathLe a.1 b.1, Readable env jar.1 :=
      fun jar hjar => hread jar (List.mem_mergeSort.mp hjar)
    have hrecords := records_of_buildRecords hsorted hs
    rw [List.map_nil, List.nil_append] at hrecords
    refine ((perm_jars_ofRecords _ _ _ _).map _).trans ?_
    rw [hrecords]
    exact List.mergeSort_perm _ _

/-! ## 5. A binary and its sources -/

/-- The query for the sources of a binary with this classifier takes a JAR that documents these. -/
def Pairs (classifier : Option Str) (documented : Option (Option Str)) : Prop :=
  documented = some classifier ∨
    classifier ≠ none ∧ classifier ≠ some "tests".toList ∧ documented = some none

/-- In an index of a binary and one more JAR of its coordinate, the query finds that JAR exactly
when the classifiers pair. -/
theorem sourceJarOf_pair {lowercase : Str → Str} {index : MavenIndex}
    (hbuilt : index.Built lowercase)
    {path source : PathBuf} {identity sourceIdentity : JarIdentity} (hne : path ≠ source)
    (hjars : (index.jars.map fun record => (record.path, identityOf record)).Perm
      [(source, sourceIdentity), (path, identity)])
    (hbinary : documentedClassifier identity.classifier = none)
    (hkey : sourceIdentity.key = identity.key) :
    (∃ record ∈ index.jars, record.path = path ∧ ∃ j sources,
        index.sourceJarOf record = some j ∧ index.jars[j]? = some sources ∧
          sources.path = source) ↔
      Pairs identity.classifier (documentedClassifier sourceIdentity.classifier) := by
  have hof : ∀ record ∈ index.jars,
      record.path = source ∧ identityOf record = sourceIdentity ∨
        record.path = path ∧ identityOf record = identity := by
    intro record hrecord
    have hmem := hjars.mem_iff.mp (List.mem_map_of_mem hrecord)
    rcases List.mem_cons.mp hmem with heq | hmem
    · exact .inl (Prod.mk.inj heq)
    · exact .inr (Prod.mk.inj (List.mem_singleton.mp hmem))
  have hsource : ∃ record ∈ index.jars, record.path = source ∧
      identityOf record = sourceIdentity := by
    obtain ⟨record, hrecord, heq⟩ := List.mem_map.mp (hjars.mem_iff.mpr List.mem_cons_self)
    exact ⟨record, hrecord, Prod.mk.inj heq⟩
  -- the one JAR that documents anything is the other one
  have hlookup : ∀ classifier j, index.documentedJar identity.key classifier = some j →
      documentedClassifier sourceIdentity.classifier = some classifier ∧
        ∃ sources, index.jars[j]? = some sources ∧ sources.path = source := by
    intro classifier j h
    obtain ⟨record, hrecord, -, hdocumented⟩ := hbuilt.sources.sound _ _ _ h
    rcases hof record (List.mem_of_getElem? hrecord) with ⟨hpath, hidentity⟩ | ⟨-, hidentity⟩
    · refine ⟨?_, record, hrecord, hpath⟩
      rw [← hidentity]
      exact hdocumented
    · rw [← hidentity, identityOf, hdocumented] at hbinary
      cases hbinary
  have hfound : ∀ classifier, documentedClassifier sourceIdentity.classifier = some classifier →
      ∃ j, index.documentedJar identity.key classifier = some j := by
    intro classifier h
    obtain ⟨record, hrecord, -, hidentity⟩ := hsource
    have hcomplete := hbuilt.sources.complete record hrecord classifier (by
      rw [← hidentity] at h
      exact h)
    have hrecordKey : record.key = identity.key := by
      rw [← hkey, ← hidentity]
      rfl
    rw [hrecordKey] at hcomplete
    exact Option.isSome_iff_exists.mp hcomplete
  constructor
  · rintro ⟨record, hrecord, hpath, j, sources, hj, -, -⟩
    rcases hof record hrecord with ⟨hpath', -⟩ | ⟨-, hidentity⟩
    · exact absurd (hpath.symm.trans hpath') hne
    · have hrecordKey : record.key = identity.key := congrArg JarIdentity.key hidentity
      have hclassifier : record.classifier = identity.classifier :=
        congrArg JarIdentity.classifier hidentity
      unfold MavenIndex.sourceJarOf at hj
      rw [hrecordKey, hclassifier] at hj
      simp only at hj
      split at hj
      · exact .inl (hlookup _ _ hj).1
      · rename_i hother
        obtain ⟨hnone, htests⟩ := not_or.mp hother
        cases hexact : index.documentedJar identity.key identity.classifier with
        | some i => exact .inl (hlookup _ _ hexact).1
        | none =>
          rw [hexact] at hj
          exact .inr ⟨hnone, htests, (hlookup _ _ hj).1⟩
  · intro hpairs
    obtain ⟨record, hrecord, heq⟩ := List.mem_map.mp
      (hjars.mem_iff.mpr (List.mem_cons_of_mem _ (List.mem_singleton.mpr rfl)))
    obtain ⟨hpath, hidentity⟩ := Prod.mk.inj heq
    have hrecordKey : record.key = identity.key := congrArg JarIdentity.key hidentity
    have hclassifier : record.classifier = identity.classifier :=
      congrArg JarIdentity.classifier hidentity
    refine ⟨record, hrecord, hpath, ?_⟩
    unfold MavenIndex.sourceJarOf
    rw [hrecordKey, hclassifier]
    rcases hpairs with hexact | ⟨hnone, htests, hplain⟩
    · obtain ⟨j, hj⟩ := hfound _ hexact
      obtain ⟨-, sources, hsources, hpath'⟩ := hlookup _ _ hj
      refine ⟨j, sources, ?_, hsources, hpath'⟩
      simp only
      split
      · exact hj
      · rw [hj]
        rfl
    · obtain ⟨j, hj⟩ := hfound _ hplain
      obtain ⟨-, sources, hsources, hpath'⟩ := hlookup _ _ hj
      have hnoExact : index.documentedJar identity.key identity.classifier = none := by
        cases hexact : index.documentedJar identity.key identity.classifier with
        | none => rfl
        | some i =>
          have hdocumented := (hlookup _ _ hexact).1
          rw [hplain] at hdocumented
          exact absurd (Option.some.inj hdocumented).symm hnone
      refine ⟨j, sources, ?_, hsources, hpath'⟩
      simp only
      rw [if_neg (not_or.mpr ⟨hnone, htests⟩), hnoExact]
      exact hj

/-! ## 6. Build and query -/

/-- Where the classifiers of a binary and of the candidate for it do not pair. -/
theorem pairs_candidate_iff {base stem : Str} {classifier : Option Str} {documenting : Str}
    (hstem : stem ∈ candidateStems base classifier)
    (hread : classifierOf base stem = some (some documenting)) :
    Pairs classifier (documentedClassifier (some documenting)) ↔
      ¬ ((classifier = some "test".toList ∨ classifier = some []) ∧
        (candidateStems base classifier).head? = some stem) := by
  obtain ⟨documenting', hread', hcases⟩ := classifierOf_candidate hstem
  obtain rfl : documenting' = documenting :=
    Option.some.inj (Option.some.inj (hread'.symm.trans hread))
  rcases hcases with ⟨rfl, htests⟩ | ⟨rfl, rfl⟩ | ⟨c, rfl, htests, rfl, hhead⟩
  · have hdocumented : documentedClassifier (some "sources".toList) = some none := rfl
    rw [hdocumented]
    constructor
    · rintro - ⟨hclassifier, hhead⟩
      -- the plain sources are not the first candidate of a classifier
      obtain ⟨c, rfl, hc⟩ : ∃ c, classifier = some c ∧ c ≠ "tests".toList := by
        rcases hclassifier with rfl | rfl
        · exact ⟨_, rfl, by decide⟩
        · exact ⟨_, rfl, by decide⟩
      rw [candidateStems, if_neg hc, List.head?_cons, Option.some_inj] at hhead
      have hplain := classifierOf_eq_some_iff.mp hread
      rw [← hhead, classifierSuffix, List.append_assoc] at hplain
      have htail := List.append_cancel_left hplain
      rcases hclassifier with heq | heq
      · rw [Option.some.inj heq] at htail
        exact absurd htail (by decide)
      · rw [Option.some.inj heq] at htail
        exact absurd htail (by decide)
    · intro
      cases classifier with
      | none => exact .inl rfl
      | some c => exact .inr ⟨Option.some_ne_none c, htests, rfl⟩
  · constructor
    · rintro - ⟨hclassifier | hclassifier, -⟩
      · exact absurd (Option.some.inj hclassifier) (by decide)
      · exact absurd (Option.some.inj hclassifier) (by decide)
    · exact fun _ => .inl rfl
  · constructor
    · rintro hpairs ⟨hclassifier | hclassifier, -⟩
      · rw [Option.some.inj hclassifier, documentedClassifier_test] at hpairs
        rcases hpairs with heq | ⟨-, -, heq⟩
        · exact absurd heq (by decide)
        · exact absurd heq (by decide)
      · rw [Option.some.inj hclassifier, documentedClassifier_empty] at hpairs
        rcases hpairs with heq | ⟨-, -, heq⟩
        · cases heq
        · cases heq
    · intro hnot
      refine .inl (documentedClassifier_classified (fun heq => hnot ⟨.inl ?_, hhead⟩)
        fun heq => hnot ⟨.inr ?_, hhead⟩)
      · rw [heq]
      · rw [heq]

/-- Every candidate is named as a sources JAR. -/
theorem endsWith_candidate {base stem : Str} {classifier : Option Str}
    (h : stem ∈ candidateStems base classifier) : "-sources".toList <:+ stem := by
  have htest : "-test-sources".toList = "-test".toList ++ "-sources".toList := rfl
  cases classifier with
  | none =>
    rw [List.mem_singleton.mp h]
    exact List.suffix_append _ _
  | some c =>
    rw [candidateStems] at h
    split at h
    · rw [List.mem_singleton.mp h, htest, ← List.append_assoc]
      exact List.suffix_append _ _
    · rcases List.mem_cons.mp h with rfl | h
      · exact List.suffix_append _ _
      · rw [List.mem_singleton.mp h]
        exact List.suffix_append _ _

theorem scopedIdentity_of_layout (files : ScopedFiles) {root path : PathBuf}
    {identity : JarIdentity}
    (h : repositoryIdentity root path = some identity) :
    scopedIdentity files (some root) path = .ok identity := by
  have hbelow : (stripComponents (pathComponents root) (pathComponents path)).isSome = true := by
    obtain ⟨coordinate, hcoordinate, -⟩ := Option.map_eq_some_iff.mp h
    obtain ⟨relative, hrelative, -⟩ := Option.bind_eq_some_iff.mp hcoordinate
    rw [hrelative]
    rfl
  rw [scopedIdentity, if_pos hbelow, h]

/-- A character within ASCII is one byte. -/
theorem mem_encode_slash {text : Str} (h : '/' ∈ text) : (47 : UInt8) ∈ Utf8.encode text :=
  List.mem_flatMap.mpr ⟨'/', h, List.mem_singleton.mpr rfl⟩

theorem isName_encode_jar {stem : Str} (h : '/' ∉ stem) :
    IsName (Utf8.encode (stem ++ ".jar".toList)) := by
  have hsplit : Utf8.encode (stem ++ ".jar".toList) = Utf8.encode stem ++ [46, 106, 97, 114] :=
    List.flatMap_append
  have hlength : 4 ≤ (Utf8.encode (stem ++ ".jar".toList)).length := by
    rw [hsplit, List.length_append]
    exact Nat.le_add_left 4 _
  refine ⟨fun heq => ?_, fun hmem => ?_, fun heq => ?_, fun heq => ?_⟩
  · rw [heq] at hlength
    exact absurd hlength (by decide)
  · have hslash : '/' ∈ stem ++ ".jar".toList := Utf8.mem_encode_ascii (by decide) hmem
    rcases List.mem_append.mp hslash with hslash | hslash
    · exact h hslash
    · exact absurd hslash (by decide)
  · rw [heq] at hlength
    exact absurd hlength (by decide)
  · rw [heq] at hlength
    exact absurd hlength (by decide)

/-- No separator comes in with a candidate's name. -/
theorem slash_of_candidate {base stem : Str} {classifier : Option Str}
    (h : stem ∈ candidateStems base classifier) (hslash : '/' ∈ stem) :
    '/' ∈ base ++ classifierSuffix classifier := by
  obtain ⟨documenting, hread, hcases⟩ := classifierOf_candidate h
  rw [classifierOf_eq_some_iff] at hread
  rw [hread] at hslash
  rcases List.mem_append.mp hslash with hbase | hsuffix
  · exact List.mem_append_left _ hbase
  · rcases List.mem_cons.mp hsuffix with heq | hsuffix
    · exact absurd heq (by decide)
    · rcases hcases with ⟨hname, -⟩ | ⟨hname, -⟩ | ⟨c, hc, -, hname, -⟩
      · rw [hname] at hsuffix
        exact absurd hsuffix (by decide)
      · rw [hname] at hsuffix
        exact absurd hsuffix (by decide)
      · rw [hname] at hsuffix
        rcases List.mem_append.mp hsuffix with hin | hin
        · rw [hc]
          exact List.mem_append_right _ (List.mem_cons_of_mem _ hin)
        · exact absurd hin (by decide)

/-- **Candidates in the layout.**  The candidates of a binary in repository layout have its key, and
the classifier that their names are read back as. -/
theorem candidate_layout {root path : PathBuf} {identity : JarIdentity} (hpath : Canonical path)
    (hlayout : repositoryIdentity root path = some identity) :
    ∃ base, fileNameText path
        = some (base ++ classifierSuffix identity.classifier ++ ".jar".toList) ∧
      ∀ stem ∈ candidateStems base identity.classifier, ∃ documenting,
        classifierOf base stem = some (some documenting) ∧
          fileNameText (withFileName path (stem ++ ".jar".toList)) = some (stem ++ ".jar".toList) ∧
          repositoryIdentity root (withFileName path (stem ++ ".jar".toList))
            = some { key := identity.key, classifier := some documenting
                     relativePath := relativeSlashPath root
                      (withFileName path (stem ++ ".jar".toList)) } := by
  obtain ⟨names, rfl, hne, hnames⟩ := hpath
  rcases List.eq_nil_or_concat' names with rfl | ⟨front, last, rfl⟩
  · exact absurd rfl hne
  obtain ⟨⟨key, classifier⟩, hcoordinate, heq⟩ := Option.map_eq_some_iff.mp hlayout
  obtain rfl : identity = { key, classifier, relativePath := _ } := heq.symm
  obtain ⟨base, hdecode, hsiblings⟩ := parseCoordinate_siblings hnames hcoordinate
  have hlast : 47 ∉ last := (hnames last (List.mem_append_right _ (List.mem_singleton.mpr rfl))).2.1
  refine ⟨base, (fileNameText_pathOf hnames).trans hdecode, fun stem hstem => ?_⟩
  obtain ⟨documenting, hread, -⟩ := classifierOf_candidate hstem
  have hslash : '/' ∉ stem := by
    intro hslash
    refine hlast ?_
    rw [Utf8.decode_eq_some_iff.mp hdecode]
    exact mem_encode_slash (List.mem_append_left _ (slash_of_candidate hstem hslash))
  have hname := isName_encode_jar hslash
  have hnames' : ∀ name ∈ front ++ [Utf8.encode (stem ++ ".jar".toList)], IsName name := by
    intro name hmem
    rcases List.mem_append.mp hmem with hmem | hmem
    · exact hnames name (List.mem_append_left _ hmem)
    · rw [List.mem_singleton.mp hmem]
      exact hname
  refine ⟨documenting, hread, ?_, ?_⟩
  · rw [withFileName_pathOf front hlast, fileNameText_pathOf hnames', Utf8.decode_encode]
  · rw [withFileName_pathOf front hlast, repositoryIdentity, hsiblings stem hname, hread]
    rfl

/-- The first candidate that exists is taken, when all have an identity. -/
theorem sourceOf_eq {files : ScopedFiles} {repositoryRoot : Option PathBuf}
    {path candidate : PathBuf}
    {classifier : Option Str} {identity : JarIdentity}
    (hfirst : (sourceJarCandidates path classifier).find? files.isFile = some candidate)
    (hidentity : scopedIdentity files repositoryRoot candidate = .ok identity) :
    sourceOf files repositoryRoot path classifier = some (candidate, identity) := by
  rw [← List.head?_filter] at hfirst
  obtain ⟨rest, hfilter⟩ := List.head?_eq_some_iff.mp hfirst
  rw [sourceOf, hfilter, List.findSome?_cons, hidentity]
  rfl

/-- **The scoped build of one binary** with a sources JAR beside it is the build of these two. -/
theorem build_of_scoped {env : BuildEnv P} {files : ScopedFiles} {root binary path source : PathBuf}
    {identity sourceIdentity : JarIdentity} (hcanonical : files.canonicalize binary = some path)
    (hidentity : scopedIdentity files (some root) path = .ok identity)
    (hsource : sourceOf files (some root) path identity.classifier = some (source, sourceIdentity))
    (hne : pathComponents source ≠ pathComponents path) {maxResults : Nat}
    {persisted : Option (PathBuf → Option P)} {budget : ArchiveBudget} {result : ScopedIndex P}
    (h : buildScoped env files (some root) [binary] maxResults persisted budget = .ok result) :
    ∃ left, env.buildFromJars root [(source, sourceIdentity), (path, identity)] maxResults persisted
      budget = .ok (result.index, result.records, left) := by
  have hjars : ([binary].foldl (addClasspathEntry files (some root)) ⟨[], []⟩).jars
      = [(source, sourceIdentity), (path, identity)] := by
    rw [List.foldl_cons, List.foldl_nil, addClasspathEntry, hcanonical]
    simp only [hidentity, hsource, insertJar, if_neg hne]
  unfold buildScoped at h
  simp only [hjars, Option.getD_some] at h
  split at h
  · cases h
  · rename_i index records left hbuild
    obtain rfl := Except.ok.inj h
    exact ⟨left, hbuild⟩

/-- **Sources pairing.**  After the build of a binary JAR in repository layout, beside which some
candidate exists, the query finds the first of these, unless the classifier is `test` or empty and
the sources JAR of that classifier exists. -/
theorem source_pairing_iff {env : BuildEnv P} {files : ScopedFiles} {root binary path : PathBuf}
    {identity : JarIdentity} (hcanonical : files.canonicalize binary = some path)
    (hpath : Canonical path) (hlayout : repositoryIdentity root path = some identity)
    (hbinary : documentedClassifier identity.classifier = none)
    (hexists : ∃ candidate ∈ sourceJarCandidates path identity.classifier,
      files.isFile candidate = true)
    (hread : ∀ p, p = path ∨ p ∈ sourceJarCandidates path identity.classifier ∧
      files.isFile p = true → Readable env p) {maxResults : Nat}
    {persisted : Option (PathBuf → Option P)} {budget : ArchiveBudget} {result : ScopedIndex P}
    (hbuild : buildScoped env files (some root) [binary] maxResults persisted budget = .ok result) :
    (∃ record ∈ result.index.jars, record.path = path ∧ ∃ j sources,
        result.index.sourceJarOf record = some j ∧ result.index.jars[j]? = some sources ∧
          (sourceJarCandidates path identity.classifier).find? files.isFile = some sources.path) ↔
      ¬ ((identity.classifier = some "test".toList ∨ identity.classifier = some []) ∧
        ∃ candidate, (sourceJarCandidates path identity.classifier).head? = some candidate ∧
          files.isFile candidate = true) := by
  obtain ⟨base, hname, hcandidates⟩ := candidate_layout hpath hlayout
  have hcandidatesEq := sourceJarCandidates_eq hname
  have hplain :
      endsWith "-sources".toList (base ++ classifierSuffix identity.classifier) = false := by
    rw [Bool.eq_false_iff]
    intro hends
    rw [if_pos hends] at hcandidatesEq
    obtain ⟨candidate, hmem, -⟩ := hexists
    rw [hcandidatesEq] at hmem
    cases hmem
  rw [if_neg (Bool.eq_false_iff.mp hplain)] at hcandidatesEq
  -- the first candidate that exists
  obtain ⟨source, hfirst⟩ : ∃ source,
      (sourceJarCandidates path identity.classifier).find? files.isFile = some source := by
    obtain ⟨candidate, hmem, hfile⟩ := hexists
    exact Option.isSome_iff_exists.mp (List.find?_isSome.mpr ⟨candidate, hmem, hfile⟩)
  have hsourceMem := List.mem_of_find?_eq_some hfirst
  rw [hcandidatesEq] at hsourceMem
  obtain ⟨stem, hstem, rfl⟩ := List.mem_map.mp hsourceMem
  obtain ⟨documenting, hdocumenting, hsourceName, hsourceLayout⟩ := hcandidates stem hstem
  have hdistinct : stem ≠ base ++ classifierSuffix identity.classifier := by
    rintro rfl
    rw [endsWith_iff.mpr (endsWith_candidate hstem)] at hplain
    cases hplain
  have hcomponents : pathComponents (withFileName path (stem ++ ".jar".toList))
      ≠ pathComponents path := by
    intro heq
    have hnames : fileNameText (withFileName path (stem ++ ".jar".toList)) = fileNameText path := by
      rw [fileNameText, heq, fileNameText]
    rw [hsourceName, hname] at hnames
    exact hdistinct (List.append_cancel_right (Option.some.inj hnames))
  have hsource := sourceOf_eq hfirst (scopedIdentity_of_layout files hsourceLayout)
  obtain ⟨left, hbuilt⟩ := build_of_scoped hcanonical
    (scopedIdentity_of_layout files hlayout) hsource
    hcomponents hbuild
  have hreadable : ∀ jar ∈ [(withFileName path (stem ++ ".jar".toList),
      ({ key := identity.key, classifier := some documenting
         relativePath := relativeSlashPath root (withFileName path (stem ++ ".jar".toList)) }
        : JarIdentity)), (path, identity)], Readable env jar.1 := by
    intro jar hjar
    rcases List.mem_cons.mp hjar with rfl | hjar
    · exact hread _ (.inr ⟨List.mem_of_find?_eq_some hfirst, List.find?_some hfirst⟩)
    · rw [List.mem_singleton.mp hjar]
      exact hread _ (.inl rfl)
  have hne : path ≠ withFileName path (stem ++ ".jar".toList) := fun heq =>
    hcomponents (congrArg pathComponents heq.symm)
  have hpair := sourceJarOf_pair (built_of_buildFromJars hbuilt) hne
    (perm_jars_of_build hreadable hbuilt) hbinary rfl
  -- both sides say that the candidate chosen is the first one of a classifier that fails
  have hhead : (candidateStems base identity.classifier).head? = some stem ↔
      ∃ candidate, (sourceJarCandidates path identity.classifier).head? = some candidate ∧
        files.isFile candidate = true := by
    obtain ⟨first, rest, hstems⟩ := List.exists_cons_of_ne_nil (List.ne_nil_of_mem hstem)
    rw [hcandidatesEq, hstems, List.map_cons, List.find?_cons] at hfirst
    rw [hcandidatesEq, hstems, List.map_cons, List.head?_cons, List.head?_cons]
    constructor
    · intro heq
      obtain rfl := Option.some.inj heq
      refine ⟨_, rfl, ?_⟩
      split at hfirst
      · assumption
      · exact List.find?_some hfirst
    · rintro ⟨candidate, heq, hfile⟩
      rw [← Option.some.inj heq] at hfile
      rw [hfile] at hfirst
      obtain ⟨-, -, hfirstName, -⟩ := hcandidates first (by rw [hstems]; exact List.mem_cons_self)
      rw [Option.some.inj hfirst, hsourceName] at hfirstName
      rw [List.append_cancel_right (Option.some.inj hfirstName)]
  rw [hfirst]
  rw [← hhead, ← pairs_candidate_iff hstem hdocumenting, ← hpair]
  simp only [Option.some_inj, eq_comm]

/-! ## 7. Two binaries -/

/-- A JAR without entries is read. -/
def emptyJarEnv : BuildEnv StoredRecord :=
  { sampleEnv with
    readers := { sampleEnv.readers with
      openZip := fun _ => some { rawEntries := [], byName := fun _ => .error .fileNotFound } }
    content := fun _ => .file (80 :: 75 :: 5 :: 6 :: List.replicate 18 0) }

theorem readable_emptyJar (path : PathBuf) : Readable emptyJarEnv path where
  wellFormed budget reason heq := by
    have hone : preflight (emptyJarEnv.content path) { entries := 0, names := 0, jarEntries := 0 }
        = (.ok (), { entries := 0, names := 0, jarEntries := 0 }) := by
      change preflight (.file (80 :: 75 :: 5 :: 6 :: List.replicate 18 0)) _ = _
      decide +kernel
    obtain ⟨n, m, hcharges⟩ := preflight_charges hone
    by_cases hfits : Fits 0 n m budget
    · rw [(hcharges budget).1 hfits] at heq
      cases heq
    · obtain ⟨name, budget', hlimit⟩ := (hcharges budget).2 hfits
      rw [hlimit] at heq
      cases heq
  loads _ := rfl

/-- A file of version `1` of `g:a` in the repository `/r`. -/
def sampleJar (fileName : Str) : PathBuf := pathOf [[114], [103], [97], [49], Utf8.encode fileName]

/-- Files as they are named, with one sources JAR among them. -/
def sampleFiles (sources : Str) : ScopedFiles where
  canonicalize := some
  isFile path := decide (path = sampleJar sources)
  reactorRoot := [47]
  reactorIdentity _ := .error .outsideRepositoryAndReactor

def sampleScoped (sources binary : Str) : Except PreflightError (ScopedIndex StoredRecord) :=
  buildScoped emptyJarEnv (sampleFiles sources) (some [47, 114]) [sampleJar binary] 10 none
    { entries := 9, names := 9, jarEntries := 9 }

theorem canonical_sampleJar {fileName : Str} (h : IsName (Utf8.encode fileName)) :
    Canonical (sampleJar fileName) := by
  refine ⟨_, rfl, List.cons_ne_nil _ _, fun name hname => ?_⟩
  simp only [List.mem_cons, List.not_mem_nil, or_false] at hname
  rcases hname with rfl | rfl | rfl | rfl | rfl
  · exact ⟨by decide, by decide, by decide, by decide⟩
  · exact ⟨by decide, by decide, by decide, by decide⟩
  · exact ⟨by decide, by decide, by decide, by decide⟩
  · exact ⟨by decide, by decide, by decide, by decide⟩
  · exact h

/-- A scoped build whose artifacts are in order and read without an error ends well. -/
theorem buildScoped_ok {env : BuildEnv P} {files : ScopedFiles} {root : PathBuf}
    {classpath : List PathBuf} {maxResults : Nat} {persisted : Option (PathBuf → Option P)}
    {budget : ArchiveBudget} {jars : List (PathBuf × JarIdentity)}
    (hjars : (classpath.foldl (addClasspathEntry files (some root)) ⟨[], []⟩).jars = jars)
    (hsorted : jars.Pairwise fun a b => pathLe a.1 b.1 = true)
    (hok : (env.buildRecords persisted jars ⟨budget, [], ⟨[], 0, []⟩⟩).1.isOk = true) :
    ∃ result,
      buildScoped env files (some root) classpath maxResults persisted budget = .ok result := by
  obtain ⟨index, reuse, left, hbuild⟩ := buildFromJars_ok env jars persisted budget hsorted hok root
    maxResults
  unfold buildScoped
  simp only [hjars, Option.getD_some, hbuild]
  exact ⟨_, rfl⟩

/-- The plain artifact and its sources. -/
theorem source_pairing_iff_plain :
    ∃ result, sampleScoped "a-1-sources.jar".toList "a-1.jar".toList = .ok result ∧
      ((∃ record ∈ result.index.jars, record.path = sampleJar "a-1.jar".toList ∧ ∃ j sources,
          result.index.sourceJarOf record = some j ∧ result.index.jars[j]? = some sources ∧
            (sourceJarCandidates (sampleJar "a-1.jar".toList) none).find?
              (sampleFiles "a-1-sources.jar".toList).isFile = some sources.path) ↔
        ¬ (((none : Option Str) = some "test".toList ∨ (none : Option Str) = some []) ∧
          ∃ candidate,
            (sourceJarCandidates (sampleJar "a-1.jar".toList) none).head? = some candidate ∧
              (sampleFiles "a-1-sources.jar".toList).isFile candidate = true)) := by
  obtain ⟨result, hresult⟩ : ∃ result,
      sampleScoped "a-1-sources.jar".toList "a-1.jar".toList = .ok result :=
    buildScoped_ok rfl (by decide +kernel) (by decide +kernel)
  refine ⟨result, hresult, ?_⟩
  have hlayout : repositoryIdentity [47, 114] (sampleJar "a-1.jar".toList)
      = some { key := { groupId := ['g'], artifactId := ['a'], version := ['1'] }
               classifier := none, relativePath := "g/a/1/a-1.jar".toList } := by decide +kernel
  exact source_pairing_iff rfl
    (canonical_sampleJar ⟨by decide, by decide, by decide, by decide⟩) hlayout rfl
    ⟨sampleJar "a-1-sources.jar".toList, by decide +kernel, by decide +kernel⟩
    (fun p _ => readable_emptyJar p) hresult

/-- The sources of the classifier `test` are taken for those of `tests`. -/
theorem source_pairing_fails_test :
    ∃ result, sampleScoped "a-1-test-sources.jar".toList "a-1-test.jar".toList = .ok result ∧
      repositoryIdentity [47, 114] (sampleJar "a-1-test.jar".toList)
        = some { key := { groupId := ['g'], artifactId := ['a'], version := ['1'] }
                 classifier := some "test".toList, relativePath := "g/a/1/a-1-test.jar".toList } ∧
      (sourceJarCandidates (sampleJar "a-1-test.jar".toList) (some "test".toList)).find?
        (sampleFiles "a-1-test-sources.jar".toList).isFile
          = some (sampleJar "a-1-test-sources.jar".toList) ∧
      ¬ ∃ record ∈ result.index.jars, record.path = sampleJar "a-1-test.jar".toList ∧
        ∃ j sources, result.index.sourceJarOf record = some j ∧
          result.index.jars[j]? = some sources ∧
            sources.path = sampleJar "a-1-test-sources.jar".toList := by
  obtain ⟨result, hresult⟩ : ∃ result,
      sampleScoped "a-1-test-sources.jar".toList "a-1-test.jar".toList = .ok result :=
    buildScoped_ok rfl (by decide +kernel) (by decide +kernel)
  have hlayout : repositoryIdentity [47, 114] (sampleJar "a-1-test.jar".toList)
      = some { key := { groupId := ['g'], artifactId := ['a'], version := ['1'] }
               classifier := some "test".toList, relativePath := "g/a/1/a-1-test.jar".toList } := by
    decide +kernel
  have hsourceLayout : repositoryIdentity [47, 114] (sampleJar "a-1-test-sources.jar".toList)
      = some { key := { groupId := ['g'], artifactId := ['a'], version := ['1'] }
               classifier := some "test-sources".toList
               relativePath := "g/a/1/a-1-test-sources.jar".toList } := by
    decide +kernel
  have hfirst : (sourceJarCandidates (sampleJar "a-1-test.jar".toList) (some "test".toList)).find?
      (sampleFiles "a-1-test-sources.jar".toList).isFile
        = some (sampleJar "a-1-test-sources.jar".toList) := by decide +kernel
  refine ⟨result, hresult, hlayout, hfirst, fun hfound => ?_⟩
  obtain ⟨left, hbuilt⟩ := build_of_scoped rfl (scopedIdentity_of_layout _ hlayout)
    (sourceOf_eq hfirst (scopedIdentity_of_layout _ hsourceLayout)) (by decide +kernel) hresult
  have hjars := perm_jars_of_build (fun jar _ => readable_emptyJar jar.1) hbuilt
  rcases (sourceJarOf_pair (built_of_buildFromJars hbuilt) (by decide +kernel) hjars rfl rfl).mp
    hfound with heq | ⟨-, -, heq⟩
  · exact absurd heq (by decide)
  · exact absurd heq (by decide)

end Index
end MavenMcp
