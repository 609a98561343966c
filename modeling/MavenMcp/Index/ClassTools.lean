/-
# Tools that take a class name

`describe_class` and `class_source` read a query in the same way up to the JARs that it selects
(`matchingJars`).  In each of these, `canonical_class_name` is the class that the query means
(`resolution`).  `class_source` reads the source of that class; `describe_class` looks for the
classfile at the path that the query itself spells.

`tools_alike_iff`: both are about the same classes exactly when each JAR has the classfile at that
path, in the letter case of the query.
-/
import MavenMcp.Index.ClassSearch
import MavenMcp.Index.Sources

namespace MavenMcp
namespace Index

open Text

/-! ## 1. Queries -/

/-- `str::trim_end_matches` with a text. -/
def trimEndStr (pat text : Str) : Str := (trimStartStr pat.reverse text.reverse).reverse

def normalizeClassQuery (value : Str) : Str :=
  (trimEndStr ".class".toList (trim value)).map fun c => if c = '/' ∨ c = '\\' then '.' else c

/-- `coordinate`. -/
def coordinate (record : JarRecord) : Str :=
  [':'].intercalate
    ([record.key.groupId, record.key.artifactId, record.key.version] ++ record.classifier.toList)

def matchesSelector (jar : JarRecord) (selector : Str) : Bool :=
  let selector := trim selector
  eqIgnoreAsciiCase (coordinate jar) selector || eqIgnoreAsciiCase jar.relativePath selector ||
    (fileNameText jar.path).any fun name => eqIgnoreAsciiCase name selector

/-- The JAR passes the selector and has the version, where they are given. -/
def isSelected (selector version : Option Str) (jar : JarRecord) : Bool :=
  selector.all (matchesSelector jar) &&
    version.all fun expected => decide (jar.key.version = expected)

/-- The JARs that the locations list for a query, as far as they are selected, with their
positions. -/
def MavenIndex.matchingJars (lowercase : Str → Str) (index : MavenIndex) (query : Str)
    (selector version : Option Str) : List (Nat × JarRecord) :=
  (index.classLocations.group (lowercase (normalizeClassQuery query))).filterMap fun j =>
    (index.jars[j]?).bind fun jar => if isSelected selector version jar then some (j, jar) else none

/-- `canonical_class_name`. -/
def canonicalClassName (lowercase : Str → Str) (record : JarRecord) (query : Str) : Option Str :=
  if query ∈ record.classes then some query
  else record.classes.find? fun name => decide (lowercase name = lowercase query)

/-! ## 2. Descriptions -/

/-- The path of the classfile of a class. -/
def classPath (className : Str) : Str := replaceChar '.' '/' className ++ ".class".toList

/-- `select_class_entry`. -/
def selectClassEntry (jar : JarRecord) (className : Str) : Option Str :=
  jar.classEntries.lookup (classPath className)

/-- What opens archives and describes the classfile at an entry. -/
structure ClassReader (A D : Type) where
  openArchive : PathBuf → Option A
  describe : A → Str → Bool → Option D

inductive ClassError
  | unreadable
  /-- `indexed class entry is missing for {class_name}`. -/
  | missingEntry (className : Str)
deriving DecidableEq, Repr

variable {A D : Type}

/-- The description of the classfile at an entry of an opened archive. -/
def ClassReader.describeEntry (reader : ClassReader A D) (archive : A) (entry : Str)
    (publicOnly : Bool) : Except ClassError D :=
  match reader.describe archive entry publicOnly with
  | none => .error .unreadable
  | some description => .ok description

/-- The description of the classfile at an entry of a JAR. -/
def ClassReader.describeFile (reader : ClassReader A D) (jar : JarRecord) (entry : Str)
    (publicOnly : Bool) : Except ClassError D :=
  match reader.openArchive jar.path with
  | none => .error .unreadable
  | some archive => reader.describeEntry archive entry publicOnly

/-- `read_class_description`. -/
def ClassReader.readClassDescription (reader : ClassReader A D) (jar : JarRecord) (className : Str)
    (publicOnly : Bool) : Except ClassError D :=
  match reader.openArchive jar.path with
  | none => .error .unreadable
  | some archive =>
    match selectClassEntry jar className with
    | none => .error (.missingEntry className)
    | some entry => reader.describeEntry archive entry publicOnly

/-- `describe_class`; each description with the position of its JAR. -/
def MavenIndex.describeClass (lowercase : Str → Str) (index : MavenIndex)
    (reader : ClassReader A D) (className : Str) (selector version : Option Str)
    (publicOnly : Bool) : Except ClassError (List (Nat × D)) :=
  (index.matchingJars lowercase className selector version).mapM fun (j, jar) =>
    (reader.readClassDescription jar (normalizeClassQuery className) publicOnly).map (j, ·)

/-! ## 3. Sources -/

/-- Source entry names that may declare one class, in resolution order. -/
structure SourceEntryNames where
  names : List Str
  allowSourceSetPrefix : Bool
deriving DecidableEq, Repr

/-- `source_file_of`. -/
def sourceFileOf (record : JarRecord) (className : Str) : Option Str :=
  ((record.classFacts.find? fun facts =>
      decide (record.factString facts.sourceClass = className)).bind
    IndexedClassFacts.sourceFile).map record.factString

/-- `source_entry_names`. -/
def sourceEntryNames (record : JarRecord) (className : Str) : SourceEntryNames :=
  let outerPath := replaceChar '.' '/' (className.takeWhile (· ≠ '$'))
  let packageDirectory := (outerPath.reverse.dropWhile (· ≠ '/')).reverse
  let names := (sourceFileOf record className).toList.map (packageDirectory ++ ·)
  let names := [outerPath ++ ".java".toList, outerPath ++ ".kt".toList].foldl
    (fun names convention => if convention ∈ names then names else names ++ [convention]) names
  { names, allowSourceSetPrefix := decide (packageDirectory ≠ []) }

/-- A source found; the JARs by their positions. -/
structure SourceResult where
  className : Str
  binary : Nat
  sourceJar : Nat
  entry : Str
  source : Str
  truncated : Bool
deriving DecidableEq, Repr

variable {E : Type}

/-- The source of a class of a binary JAR, read from its sources JAR. -/
def MavenIndex.sourceOfClass (index : MavenIndex)
    (readSource : PathBuf → SourceEntryNames → Except E (Option (Str × Str × Bool)))
    (j : Nat) (binary : JarRecord) (className : Str) : Except E (Option SourceResult) :=
  match (index.sourceJarOf binary).bind fun i => (index.jars[i]?).map fun jar => (i, jar) with
  | none => .ok none
  | some (i, sourceJar) =>
    (readSource sourceJar.path (sourceEntryNames binary className)).map fun found =>
      found.map fun (entry, source, truncated) =>
        { className, binary := j, sourceJar := i, entry, source, truncated }

/-- `class_source`, with what `read_source` reads as a parameter. -/
def MavenIndex.classSource (lowercase : Str → Str) (index : MavenIndex)
    (readSource : PathBuf → SourceEntryNames → Except E (Option (Str × Str × Bool)))
    (className : Str) (selector version : Option Str) : Except E (List SourceResult) :=
  let sourceIn (jar : Nat × JarRecord) : Except E (Option SourceResult) :=
    match canonicalClassName lowercase jar.2 (normalizeClassQuery className) with
    | none => .ok none
    | some className => index.sourceOfClass readSource jar.1 jar.2 className
  ((index.matchingJars lowercase className selector version).mapM sourceIn).map List.reduceOption

/-! ## 4. What a query means -/

/-- The resolution of a query: the class that it means in each of the JARs. -/
def MavenIndex.resolution (lowercase : Str → Str) (index : MavenIndex) (query : Str)
    (selector version : Option Str) : List ((Nat × JarRecord) × Str) :=
  (index.matchingJars lowercase query selector version).filterMap fun jar =>
    (canonicalClassName lowercase jar.2 (normalizeClassQuery query)).map fun className =>
      (jar, className)

/-- An entry of the record that holds a class of this name. -/
def IsEntryOf (record : JarRecord) (className entry : Str) : Prop :=
  ∃ logical, (logical, entry) ∈ record.classEntries ∧ classNameFromEntry logical = some className

/-- Whatever reads the archives, what is described are the resolved classes: in each JAR an entry
that holds the class. -/
def DescribesResolved (lowercase : Str → Str) (index : MavenIndex) (query : Str)
    (selector version : Option Str) : Prop :=
  ∃ entryOf : (Nat × JarRecord) × Str → Str,
    (∀ resolved ∈ index.resolution lowercase query selector version,
      IsEntryOf resolved.1.2 resolved.2 (entryOf resolved)) ∧
    ∀ (A D : Type) (reader : ClassReader A D) (publicOnly : Bool),
      index.describeClass lowercase reader query selector version publicOnly
        = (index.resolution lowercase query selector version).mapM fun resolved =>
          (reader.describeFile resolved.1.2 (entryOf resolved) publicOnly).map (resolved.1.1, ·)

/-- Whatever reads the sources, what is found are the sources of the resolved classes. -/
def SourcesResolved (lowercase : Str → Str) (index : MavenIndex) (query : Str)
    (selector version : Option Str) : Prop :=
  ∀ (E : Type) (readSource : PathBuf → SourceEntryNames → Except E (Option (Str × Str × Bool))),
    index.classSource lowercase readSource query selector version
      = ((index.resolution lowercase query selector version).mapM fun resolved =>
          index.sourceOfClass readSource resolved.1.1 resolved.1.2 resolved.2).map
        List.reduceOption

/-- The JAR has the classfile of the class at the path that the name spells. -/
def HasAtPath (record : JarRecord) (name : Str) : Prop :=
  ∃ entry, (classPath name, entry) ∈ record.classEntries ∧
    classNameFromEntry (classPath name) = some name

/-! ## 5. One JAR -/

variable {lowercase : Str → Str} {index : MavenIndex}

theorem mem_matchingJars {query : Str} {selector version : Option Str} {j : Nat} {jar : JarRecord}
    (h : (j, jar) ∈ index.matchingJars lowercase query selector version) :
    j ∈ index.classLocations.group (lowercase (normalizeClassQuery query)) ∧
      index.jars[j]? = some jar := by
  obtain ⟨i, hi, hbind⟩ := List.mem_filterMap.mp h
  obtain ⟨record, hrecord, hsome⟩ := Option.bind_eq_some_iff.mp hbind
  split at hsome
  · obtain ⟨rfl, rfl⟩ := Prod.mk.inj (Option.some.inj hsome)
    exact ⟨hi, hrecord⟩
  · cases hsome

/-- Each JAR that is listed for a query has a class that the query means. -/
theorem canonicalClassName_isSome (h : index.Built lowercase) {query : Str}
    {selector version : Option Str} {j : Nat} {jar : JarRecord}
    (hjar : (j, jar) ∈ index.matchingJars lowercase query selector version) :
    ∃ className, canonicalClassName lowercase jar (normalizeClassQuery query) = some className := by
  obtain ⟨hlisted, hrecord⟩ := mem_matchingJars hjar
  rw [h.classLocations, AList.group_pushAll, AList.group_empty, List.nil_append] at hlisted
  obtain ⟨e, he, hj⟩ := List.mem_map.mp hlisted
  obtain ⟨he, hkey⟩ := List.mem_filter.mp he
  obtain ⟨⟨record, i⟩, hmem, hentry⟩ := List.mem_flatMap.mp he
  have hi : index.jars[i]? = some record := List.mem_zipIdx_iff_getElem?.mp hmem
  unfold locationEntries at hentry
  split at hentry
  · cases hentry
  · obtain ⟨name, hname, rfl⟩ := List.mem_map.mp hentry
    simp only at hj hi
    rw [hj, hrecord] at hi
    obtain rfl := Option.some.inj hi
    unfold canonicalClassName
    split
    · exact ⟨_, rfl⟩
    · refine Option.isSome_iff_exists.mp (List.find?_isSome.mpr ⟨name, hname, ?_⟩)
      exact hkey

/-- An entry holds one class. -/
theorem logical_unique {record : JarRecord} (h : record.Derived) {logical logical' entry : Str}
    (hmem : (logical, entry) ∈ record.classEntries)
    (hmem' : (logical', entry) ∈ record.classEntries) : logical = logical' := by
  rw [h.2, JarIndex.ofEntries] at hmem hmem'
  obtain ⟨-, -, version, hholds, -⟩ := (mem_effectiveClassEntries _ _ _).mp hmem
  obtain ⟨-, -, version', hholds', -⟩ := (mem_effectiveClassEntries _ _ _).mp hmem'
  rw [← candidateOf_eq_some_iff] at hholds hholds'
  rw [hholds] at hholds'
  exact (Prod.mk.inj (Option.some.inj hholds')).2

theorem selectClassEntry_eq_some_iff {record : JarRecord} (h : record.Derived)
    {className entry : Str} :
    selectClassEntry record className = some entry ↔
      (classPath className, entry) ∈ record.classEntries := by
  rw [selectClassEntry, h.2]
  exact (sorted_effectiveClassEntries record.entries).mem_iff.symm

theorem slash_not_mem_normalize (query : Str) : '/' ∉ normalizeClassQuery query := by
  intro h
  obtain ⟨c, -, hc⟩ := List.mem_map.mp h
  split at hc
  · exact absurd hc (by decide)
  · rename_i hnot
    exact hnot (.inl hc)

/-- The path of a class names no other class. -/
theorem className_of_classPath {name className : Str} (hslash : '/' ∉ name)
    (h : classNameFromEntry (classPath name) = some className) : className = name := by
  unfold classNameFromEntry classPath at h
  rw [stripSuffix_append] at h
  simp only at h
  split at h
  · cases h
  · rw [← Option.some.inj h, replaceChar, replaceChar, List.map_map]
    conv_rhs => rw [← List.map_id name]
    refine List.map_congr_left fun c hc => ?_
    by_cases hdot : c = '.'
    · simp [hdot]
    · have hne : c ≠ '/' := fun heq => hslash (heq ▸ hc)
      simp [hdot, hne]

/-- **One JAR.**  The entry that is described holds the class that the query means exactly when the
classfile is at the path of the query. -/
theorem selects_canonical_iff {record : JarRecord} (h : record.Derived) {name className : Str}
    (hslash : '/' ∉ name) (hcanonical : canonicalClassName lowercase record name = some className) :
    (∃ entry, selectClassEntry record name = some entry ∧ IsEntryOf record className entry) ↔
      HasAtPath record name := by
  constructor
  · rintro ⟨entry, hselect, logical, hmem, hname⟩
    have hpath := (selectClassEntry_eq_some_iff h).mp hselect
    obtain rfl := logical_unique h hmem hpath
    refine ⟨entry, hpath, ?_⟩
    rw [hname, className_of_classPath hslash hname]
  · rintro ⟨entry, hpath, hname⟩
    have hlisted : name ∈ record.classes := by
      rw [h.1]
      refine mem_classNames.mpr ⟨(classPath name, entry), ?_, hname⟩
      rw [h.2] at hpath
      exact hpath
    rw [canonicalClassName, if_pos hlisted] at hcanonical
    obtain rfl := Option.some.inj hcanonical
    exact ⟨entry, (selectClassEntry_eq_some_iff h).mpr hpath, _, hpath, hname⟩

/-! ## 6. All JARs -/

theorem mapM_congr_ok {α β ε : Type} {f g : α → Except ε β} {l : List α}
    (h : ∀ a ∈ l, f a = g a) : l.mapM f = l.mapM g := by
  induction l with
  | nil => rfl
  | cons a l ih =>
    rw [List.mapM_cons, List.mapM_cons, h a List.mem_cons_self,
      ih fun b hb => h b (List.mem_cons_of_mem _ hb)]

/-- Runs that end alike went alike, when one of them went without an error. -/
theorem eq_of_mapM_ok {α β ε : Type} {f g : α → Except ε β} {l : List α}
    (hok : ∀ a ∈ l, ∃ b, g a = .ok b) (h : l.mapM f = l.mapM g) : ∀ a ∈ l, f a = g a := by
  induction l with
  | nil => exact nofun
  | cons a l ih =>
    have hrest : ∃ bs, l.mapM g = .ok bs := by
      clear h ih
      induction l with
      | nil => exact ⟨[], rfl⟩
      | cons c l ih =>
        obtain ⟨b, hb⟩ := hok c (List.mem_cons_of_mem _ List.mem_cons_self)
        obtain ⟨bs, hbs⟩ := ih fun d hd => hok d (by
          rcases List.mem_cons.mp hd with rfl | hd
          · exact List.mem_cons_self
          · exact List.mem_cons_of_mem _ (List.mem_cons_of_mem _ hd))
        exact ⟨b :: bs, by rw [List.mapM_cons, hb, hbs]; rfl⟩
    obtain ⟨bs, hbs⟩ := hrest
    obtain ⟨b, hb⟩ := hok a List.mem_cons_self
    rw [List.mapM_cons, List.mapM_cons, hb, hbs] at h
    cases hf : f a with
    | error e =>
      rw [hf] at h
      cases h
    | ok b' =>
      rw [hf] at h
      cases hfs : l.mapM f with
      | error e =>
        rw [hfs] at h
        cases h
      | ok bs' =>
        rw [hfs] at h
        obtain ⟨rfl, rfl⟩ := List.cons.inj (Except.ok.inj h)
        intro c hc
        rcases List.mem_cons.mp hc with rfl | hc
        · rw [hf, hb]
        · exact ih (fun d hd => hok d (List.mem_cons_of_mem _ hd)) (hfs.trans hbs.symm) c hc

/-- The class that a query means in a JAR that is listed for it. -/
def meant (lowercase : Str → Str) (query : Str) (jar : Nat × JarRecord) : Str :=
  (canonicalClassName lowercase jar.2 (normalizeClassQuery query)).getD []

theorem canonicalClassName_eq_meant (h : index.Built lowercase) {query : Str}
    {selector version : Option Str} {jar : Nat × JarRecord}
    (hjar : jar ∈ index.matchingJars lowercase query selector version) :
    canonicalClassName lowercase jar.2 (normalizeClassQuery query)
      = some (meant lowercase query jar) := by
  obtain ⟨className, hsome⟩ := canonicalClassName_isSome h hjar
  rw [meant, hsome]
  rfl

/-- **The resolution** has one class for each JAR that is listed. -/
theorem resolution_eq (h : index.Built lowercase) (query : Str) (selector version : Option Str) :
    index.resolution lowercase query selector version
      = (index.matchingJars lowercase query selector version).map fun jar =>
          (jar, meant lowercase query jar) := by
  unfold MavenIndex.resolution
  rw [← List.filterMap_eq_map]
  refine List.filterMap_congr fun jar hjar => ?_
  rw [canonicalClassName_eq_meant h hjar]
  rfl

/-- `class_source` is always about the resolved classes. -/
theorem sourcesResolved (h : index.Built lowercase) (query : Str) (selector version : Option Str) :
    SourcesResolved lowercase index query selector version := by
  intro E readSource
  unfold MavenIndex.classSource
  rw [resolution_eq h, List.mapM_map]
  refine congrArg (Except.map List.reduceOption) (mapM_congr_ok fun jar hjar => ?_)
  rw [canonicalClassName_eq_meant h hjar]
  rfl

theorem readClassDescription_eq {A D : Type} {reader : ClassReader A D} {jar : JarRecord}
    {className entry : Str} (h : selectClassEntry jar className = some entry) (publicOnly : Bool) :
    reader.readClassDescription jar className publicOnly
      = reader.describeFile jar entry publicOnly := by
  rw [ClassReader.readClassDescription, ClassReader.describeFile, h]

/-- A reader whose descriptions are the entries they are made of. -/
def entryReader : ClassReader Unit Str where
  openArchive _ := some ()
  describe _ entry _ := some entry

/-- `describe_class` is about the resolved classes exactly when the classfiles are at the path of
the query. -/
theorem describesResolved_iff (h : index.Built lowercase) (query : Str)
    (selector version : Option Str) :
    DescribesResolved lowercase index query selector version ↔
      ∀ jar ∈ index.matchingJars lowercase query selector version,
        HasAtPath jar.2 (normalizeClassQuery query) := by
  have hderived : ∀ jar ∈ index.matchingJars lowercase query selector version, jar.2.Derived :=
    fun jar hjar => h.derived jar.2 (List.mem_of_getElem? (mem_matchingJars hjar).2)
  have hone := fun (jar : Nat × JarRecord)
      (hjar : jar ∈ index.matchingJars lowercase query selector version) =>
    selects_canonical_iff (hderived jar hjar) (slash_not_mem_normalize query)
      (canonicalClassName_eq_meant h hjar)
  constructor
  · rintro ⟨entryOf, hentries, hruns⟩ jar hjar
    -- with this reader the run tells the entries apart
    have hrun := hruns Unit Str entryReader false
    rw [resolution_eq h] at hentries hrun
    rw [List.mapM_map] at hrun
    have heq := eq_of_mapM_ok
      (fun jar _ => ⟨(jar.1, entryOf (jar, meant lowercase query jar)), rfl⟩)
      hrun jar hjar
    refine (hone jar hjar).mp ⟨entryOf (jar, meant lowercase query jar), ?_,
      hentries (jar, meant lowercase query jar) (List.mem_map.mpr ⟨jar, hjar, rfl⟩)⟩
    obtain ⟨j, record⟩ := jar
    simp only [Function.comp_apply] at heq ⊢
    cases hselect : selectClassEntry record (normalizeClassQuery query) with
    | none =>
      rw [ClassReader.readClassDescription, hselect] at heq
      cases heq
    | some entry =>
      rw [readClassDescription_eq hselect] at heq
      exact congrArg some (Prod.mk.inj (Except.ok.inj heq)).2
  · intro hpaths
    refine ⟨fun resolved =>
      (selectClassEntry resolved.1.2 (normalizeClassQuery query)).getD [], ?_, ?_⟩
    · intro resolved hresolved
      rw [resolution_eq h] at hresolved
      obtain ⟨jar, hjar, rfl⟩ := List.mem_map.mp hresolved
      obtain ⟨entry, hselect, hentry⟩ := (hone jar hjar).mpr (hpaths jar hjar)
      simp only [hselect]
      exact hentry
    · intro A D reader publicOnly
      unfold MavenIndex.describeClass
      rw [resolution_eq h, List.mapM_map]
      refine mapM_congr_ok fun jar hjar => ?_
      obtain ⟨entry, hselect, -⟩ := (hone jar hjar).mpr (hpaths jar hjar)
      obtain ⟨j, record⟩ := jar
      simp only at hselect
      simp only [Function.comp_apply, hselect, readClassDescription_eq hselect]
      rfl

/-- **The class tools.**  In a built index, both tools are about the classes that the query means
exactly when each JAR listed for it has the classfile at the path that the query spells, letter
case included. -/
theorem tools_alike_iff {P : Type} {env : BuildEnv P} {root : PathBuf}
    {jars : List (PathBuf × JarIdentity)} {maxResults : Nat}
    {persisted : Option (PathBuf → Option P)}
    {budget left : ArchiveBudget} {index : MavenIndex} {reuse : RecordReuse P}
    (hbuild : env.buildFromJars root jars maxResults persisted budget = .ok (index, reuse, left))
    (query : Str) (selector version : Option Str) :
    (DescribesResolved env.lowercase index query selector version ∧
        SourcesResolved env.lowercase index query selector version) ↔
      ∀ jar ∈ index.matchingJars env.lowercase query selector version,
        HasAtPath jar.2 (normalizeClassQuery query) := by
  have hbuilt := built_of_buildFromJars hbuild
  rw [describesResolved_iff hbuilt]
  exact and_iff_left (sourcesResolved hbuilt query selector version)

/-- A class asked for by its name. -/
theorem tools_alike_iff_name :
    ∃ index reuse left,
      directoryBuild CaseTables.asciiTables.lower [111] "org/Example.class".toList
          = .ok (index, reuse, left) ∧
        ((DescribesResolved CaseTables.asciiTables.lower index "org.Example".toList none none ∧
            SourcesResolved CaseTables.asciiTables.lower index "org.Example".toList none none) ↔
          ∀ jar ∈ index.matchingJars CaseTables.asciiTables.lower "org.Example".toList none none,
            HasAtPath jar.2 (normalizeClassQuery "org.Example".toList)) := by
  have hok : (directoryBuild CaseTables.asciiTables.lower [111] "org/Example.class".toList).isOk
      = true := by decide +kernel
  rcases hbuild : directoryBuild CaseTables.asciiTables.lower [111] "org/Example.class".toList with
    e | ⟨index, reuse, left⟩
  · rw [hbuild] at hok
    cases hok
  · exact ⟨index, reuse, left, rfl, tools_alike_iff hbuild _ _ _⟩

/-- In another letter case the class is found, but not its classfile. -/
theorem describe_misses_letter_case :
    ∃ index reuse left,
      directoryBuild CaseTables.asciiTables.lower [111] "org/Example.class".toList
          = .ok (index, reuse, left) ∧
        (index.resolution CaseTables.asciiTables.lower "org.example".toList none none).map
            (fun resolved => (resolved.1.1, resolved.2)) = [(0, "org.Example".toList)] ∧
        index.describeClass CaseTables.asciiTables.lower entryReader "org.example".toList none none
            false = .error (.missingEntry "org.example".toList) ∧
        ¬ DescribesResolved CaseTables.asciiTables.lower index "org.example".toList none none := by
  have hdecide : (directoryBuild CaseTables.asciiTables.lower [111]
        "org/Example.class".toList).toOption.map (fun r =>
      (r.1.resolution CaseTables.asciiTables.lower "org.example".toList none none).map
        fun resolved => (resolved.1.1, resolved.2)) = some [(0, "org.Example".toList)] := by
    decide +kernel
  have hmissing : (directoryBuild CaseTables.asciiTables.lower [111]
        "org/Example.class".toList).toOption.map (fun r =>
      r.1.describeClass CaseTables.asciiTables.lower entryReader "org.example".toList none none
        false) = some (.error (.missingEntry "org.example".toList)) := by
    decide +kernel
  rcases hbuild : directoryBuild CaseTables.asciiTables.lower [111] "org/Example.class".toList with
    e | ⟨index, reuse, left⟩
  · rw [hbuild] at hdecide
    cases hdecide
  · rw [hbuild] at hdecide hmissing
    have hresolution := Option.some.inj hdecide
    have hdescribe := Option.some.inj hmissing
    simp only at hresolution hdescribe
    refine ⟨index, reuse, left, rfl, hresolution, hdescribe, ?_⟩
    rintro ⟨entryOf, -, hruns⟩
    have hrun := hruns Unit Str entryReader false
    obtain ⟨resolved, hone, -⟩ := List.map_eq_singleton_iff.mp hresolution
    rw [hdescribe, hone] at hrun
    cases hrun

end Index
end MavenMcp
