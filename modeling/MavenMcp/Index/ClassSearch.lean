/-
# Searching classes by name

`search_classes` finds the names of the map of locations that contain the query, all of them in
lower case, and recovers the spelling of each one in each of its JARs afterwards: the first class
there that agrees up to ASCII case, or else the lowercased name itself.

* `searchClasses_perm`: without a limit in the way, the answer is each class found, under the
  spelling recovered for it.
* `searchClasses_exact_iff`: that is what it should be exactly when in every binary JAR each class
  found differs from its lowercased name in ASCII letters only, and no other class there has the
  same lowercased name.
-/
import MavenMcp.Index.Locations
import MavenMcp.Lib.Lowercase

namespace MavenMcp
namespace Index

open Text

/-! ## 1. The search -/

/-- `limit`: the requested number of results between one and the configured maximum. -/
def MavenIndex.limit (index : MavenIndex) (requested : Option Nat) : Nat :=
  let requested := requested.getD index.maxResults
  if requested < 1 then 1
  else if index.maxResults < requested then index.maxResults
  else requested

/-- A class found; the JAR by its position. -/
structure ClassLocation where
  className : Str
  jar : Nat
deriving DecidableEq, Repr

/-- The spelling recovered for a lowercased name. -/
def spelling (jar : JarRecord) (name : Str) : Str :=
  (jar.classes.find? fun candidate => eqIgnoreAsciiCase candidate name).getD name

/-- What names are sorted by: the exact match first, then shorter ones, then by name. -/
def classNameKey (query name : Str) : List Nat :=
  (if name = query then 0 else 1) :: byteLen name :: strRanks name

/-- The results before the limit cuts them off; `query` is trimmed and lowercased. -/
def MavenIndex.classMatches (index : MavenIndex) (query : Str) : List ClassLocation :=
  let names := (index.classLocations.keys.filter (contains query)).mergeSort fun a b =>
    lexLe (classNameKey query a) (classNameKey query b)
  names.flatMap fun name => (index.classLocations.group name).map fun jar =>
    { className := ((index.jars[jar]?).map fun record => spelling record name).getD name, jar }

def MavenIndex.searchClasses (lowercase : Str → Str) (index : MavenIndex) (query : Str)
    (limit : Option Nat) : List ClassLocation :=
  let query := lowercase (trim query)
  if query = [] then []
  else (index.classMatches query).take (index.limit limit)

/-! ## 2. What it should report -/

/-- The class contains the query in its name; a blank query asks for nothing. -/
def nameMatches (lowercase : Str → Str) (query name : Str) : Bool :=
  decide (lowercase (trim query) ≠ []) && contains (lowercase (trim query)) (lowercase name)

/-- Each class of each binary JAR that contains the query in its name, once, under its own name. -/
structure ReportsExactly (lowercase : Str → Str) (jars : List JarRecord) (query : Str)
    (results : List ClassLocation) : Prop where
  once : results.Nodup
  exactly : ∀ name jar, { className := name, jar } ∈ results ↔
    ∃ record, jars[jar]? = some record ∧ record.isSource = false ∧ name ∈ record.classes ∧
      nameMatches lowercase query name = true

/-- `IndexStats::class_count`. -/
def MavenIndex.classCount (index : MavenIndex) : Nat :=
  ((index.jars.filter fun jar => !jar.isSource).map fun jar => jar.classes.length).sum

/-- The classes found in one JAR, as they are reported. -/
def reportedIn (lowercase : Str → Str) (query : Str) (jar : JarRecord × Nat) :
    List ClassLocation :=
  if jar.1.isSource then []
  else (jar.1.classes.filter (nameMatches lowercase query)).map fun name =>
    { className := spelling jar.1 (lowercase name), jar := jar.2 }

/-! ## 3. What it reports -/

variable {lowercase : Str → Str} {index : MavenIndex}

theorem classMatches_perm (h : index.Built lowercase) {query : Str}
    (hquery : lowercase (trim query) ≠ []) :
    (index.classMatches (lowercase (trim query))).Perm
      (index.jars.zipIdx.flatMap (reportedIn lowercase query)) := by
  have hkeys := List.mergeSort_perm (index.classLocations.keys.filter
    (contains (lowercase (trim query)))) fun a b =>
      lexLe (classNameKey (lowercase (trim query)) a) (classNameKey (lowercase (trim query)) b)
  unfold MavenIndex.classMatches
  rw [h.classLocations] at hkeys ⊢
  refine (AList.perm_flatMap_groups _ _ (fun name jar => ({
    className := ((index.jars[jar]?).map fun record => spelling record name).getD name
    jar := jar } : ClassLocation)) hkeys).trans (List.Perm.of_eq ?_)
  rw [List.filter_flatMap, List.map_flatMap]
  refine List.flatMap_congr fun jar hjar => ?_
  obtain ⟨record, j⟩ := jar
  have hrecord : index.jars[j]? = some record := List.mem_zipIdx_iff_getElem?.mp hjar
  unfold locationEntries reportedIn
  split
  · rfl
  · rw [List.filter_map, List.map_map]
    have hfilter : record.classes.filter
          ((fun e : Str × Nat => contains (lowercase (trim query)) e.1) ∘
            fun name => (lowercase name, j))
        = record.classes.filter (nameMatches lowercase query) := by
      refine List.filter_congr fun name _ => ?_
      rw [nameMatches, decide_eq_true hquery, Bool.true_and]
      rfl
    rw [hfilter]
    refine List.map_congr_left fun name _ => ?_
    simp only [Function.comp_apply, hrecord, Option.map_some, Option.getD_some]

theorem length_reported (query : Str) (jars : List JarRecord) (start : Nat) :
    ((jars.zipIdx start).flatMap (reportedIn lowercase query)).length
      ≤ ((jars.filter fun jar => !jar.isSource).map fun jar => jar.classes.length).sum := by
  induction jars generalizing start with
  | nil => exact Nat.le_refl 0
  | cons jar jars ih =>
    have hrest := ih (start + 1)
    rw [List.zipIdx_cons, List.flatMap_cons, List.length_append, reportedIn, List.filter_cons]
    cases jar.isSource with
    | true =>
      simp only [if_true, Bool.not_true, Bool.false_eq_true, if_false, List.length_nil]
      omega
    | false =>
      have hfound := List.length_filter_le (nameMatches lowercase query) jar.classes
      simp only [Bool.false_eq_true, if_false, Bool.not_false, if_true, List.length_map,
        List.map_cons, List.sum_cons]
      omega

/-- **The answer**, when the limit is above the number of classes. -/
theorem searchClasses_perm (h : index.Built lowercase) (query : Str) {requested : Option Nat}
    (hlimit : index.classCount < index.limit requested) :
    (index.searchClasses lowercase query requested).Perm
      (index.jars.zipIdx.flatMap (reportedIn lowercase query)) := by
  unfold MavenIndex.searchClasses
  by_cases hquery : lowercase (trim query) = []
  · have hnone : index.jars.zipIdx.flatMap (reportedIn lowercase query) = [] := by
      refine List.flatMap_eq_nil_iff.mpr fun jar _ => ?_
      unfold reportedIn
      split
      · rfl
      · have hempty : jar.1.classes.filter (nameMatches lowercase query) = [] := by
          refine List.filter_eq_nil_iff.mpr fun name _ => ?_
          simp [nameMatches, hquery]
        rw [hempty]
        rfl
    rw [if_pos hquery, hnone]
  · have hperm := classMatches_perm h hquery
    have hlength := @length_reported lowercase query index.jars 0
    rw [← hperm.length_eq] at hlength
    rw [if_neg hquery, List.take_of_length_le (Nat.le_of_lt (Nat.lt_of_le_of_lt hlength hlimit))]
    exact hperm

theorem mem_reported {query : Str} {jars : List JarRecord} {name : Str} {j : Nat} :
    ({ className := name, jar := j } : ClassLocation)
        ∈ jars.zipIdx.flatMap (reportedIn lowercase query) ↔
      ∃ record, jars[j]? = some record ∧ record.isSource = false ∧
        ∃ c ∈ record.classes, nameMatches lowercase query c = true ∧
          spelling record (lowercase c) = name := by
  rw [List.mem_flatMap]
  constructor
  · rintro ⟨⟨record, i⟩, hjar, hmem⟩
    unfold reportedIn at hmem
    split at hmem
    · cases hmem
    · rename_i hsource
      obtain ⟨c, hc, heq⟩ := List.mem_map.mp hmem
      obtain ⟨hc, hmatch⟩ := List.mem_filter.mp hc
      obtain ⟨hname, rfl⟩ := ClassLocation.mk.inj heq
      exact ⟨record, List.mem_zipIdx_iff_getElem?.mp hjar, Bool.eq_false_iff.mpr hsource, c, hc,
        hmatch, hname⟩
  · rintro ⟨record, hrecord, hsource, c, hc, hmatch, rfl⟩
    refine ⟨(record, j), List.mem_zipIdx_iff_getElem?.mpr hrecord, ?_⟩
    unfold reportedIn
    rw [if_neg (by simp [hsource])]
    exact List.mem_map.mpr ⟨c, List.mem_filter.mpr ⟨hc, hmatch⟩, rfl⟩

/-! ## 4. When names are kept -/

/-- In every binary JAR, each class found differs from its lowercased name in ASCII letters only,
and is the only class with this lowercased name. -/
def NamesKept (lowercase : Str → Str) (jars : List JarRecord) (query : Str) : Prop :=
  ∀ record ∈ jars, record.isSource = false → ∀ name ∈ record.classes,
    nameMatches lowercase query name = true →
      eqIgnoreAsciiCase name (lowercase name) = true ∧
        ∀ other ∈ record.classes, lowercase other = lowercase name → other = name

/-- The spelling recovered is a class that agrees up to ASCII case, if there is one. -/
theorem spelling_cases (record : JarRecord) (name : Str) :
    (spelling record name ∈ record.classes ∧
        eqIgnoreAsciiCase (spelling record name) name = true) ∨
      spelling record name = name ∧
        ∀ c ∈ record.classes, eqIgnoreAsciiCase c name = false := by
  unfold spelling
  cases hfind : record.classes.find? fun candidate => eqIgnoreAsciiCase candidate name with
  | none =>
    refine .inr ⟨rfl, fun c hc => ?_⟩
    rw [Bool.eq_false_iff]
    exact List.find?_eq_none.mp hfind c hc
  | some c =>
    have hsome := List.find?_some hfind
    exact .inl ⟨List.mem_of_find?_eq_some hfind, hsome⟩

theorem lowercase_of_eqIgnore (hl : Lowercases lowercase) {a b : Str}
    (h : eqIgnoreAsciiCase a b = true) : lowercase a = lowercase b :=
  hl.ascii a b (of_decide_eq_true h)

/-- The spelling recovered has the same lowercased name. -/
theorem lowercase_spelling (hl : Lowercases lowercase) (record : JarRecord) (name : Str) :
    lowercase (spelling record (lowercase name)) = lowercase name := by
  rcases spelling_cases record (lowercase name) with ⟨-, heq⟩ | ⟨heq, -⟩
  · rw [lowercase_of_eqIgnore hl heq, hl.idempotent]
  · rw [heq, hl.idempotent]

theorem spelling_of_kept (hl : Lowercases lowercase) {record : JarRecord} {name : Str}
    (hname : name ∈ record.classes) (hascii : eqIgnoreAsciiCase name (lowercase name) = true)
    (honly : ∀ other ∈ record.classes, lowercase other = lowercase name → other = name) :
    spelling record (lowercase name) = name := by
  rcases spelling_cases record (lowercase name) with ⟨hmem, -⟩ | ⟨-, hnone⟩
  · exact honly _ hmem (lowercase_spelling hl record name)
  · rw [hnone name hname] at hascii
    cases hascii

theorem nameMatches_congr {query a b : Str} (h : lowercase a = lowercase b) :
    nameMatches lowercase query a = nameMatches lowercase query b := by
  rw [nameMatches, nameMatches, h]

theorem nodup_classes {record : JarRecord} (h : record.Derived) : record.classes.Nodup := by
  rw [h.1]
  exact nodup_classNames _

/-- Where names are kept, the right classes are reported. -/
theorem reportsExactly_of_kept (h : index.Built lowercase) (hl : Lowercases lowercase) {query : Str}
    (hkept : NamesKept lowercase index.jars query) :
    ReportsExactly lowercase index.jars query
      (index.jars.zipIdx.flatMap (reportedIn lowercase query)) where
  once := by
    refine List.nodup_flatMap.mpr ⟨fun jar hjar => ?_, ?_⟩
    · obtain ⟨record, j⟩ := jar
      have hrecord : record ∈ index.jars :=
        List.mem_of_getElem? (List.mem_zipIdx_iff_getElem?.mp hjar)
      unfold reportedIn
      split
      · exact List.nodup_nil
      · rename_i hsource
        refine List.Nodup.map_on ?_ ((nodup_classes (h.derived record hrecord)).filter _)
        intro a ha b hb heq
        obtain ⟨ha, hamatch⟩ := List.mem_filter.mp ha
        obtain ⟨hb, hbmatch⟩ := List.mem_filter.mp hb
        obtain ⟨haascii, haonly⟩ := hkept record hrecord
          (Bool.eq_false_iff.mpr hsource) a ha hamatch
        obtain ⟨hbascii, hbonly⟩ := hkept record hrecord
          (Bool.eq_false_iff.mpr hsource) b hb hbmatch
        have hnames := (ClassLocation.mk.inj heq).1
        rw [spelling_of_kept hl ha haascii haonly, spelling_of_kept hl hb hbascii hbonly] at hnames
        exact hnames
    · have hpositions : index.jars.zipIdx.Pairwise fun a b => a.2 ≠ b.2 := by
        refine List.pairwise_map.mp ?_
        rw [List.zipIdx_map_snd]
        exact List.nodup_range'
      refine hpositions.imp fun {a b} hne => ?_
      intro location ha hb
      have hposition : ∀ jar : JarRecord × Nat, location ∈ reportedIn lowercase query jar →
          location.jar = jar.2 := by
        intro jar hmem
        unfold reportedIn at hmem
        split at hmem
        · cases hmem
        · obtain ⟨c, -, rfl⟩ := List.mem_map.mp hmem
          rfl
      exact hne ((hposition a ha).symm.trans (hposition b hb))
  exactly name j := by
    rw [mem_reported]
    constructor
    · rintro ⟨record, hrecord, hsource, c, hc, hmatch, rfl⟩
      obtain ⟨hascii, honly⟩ := hkept record (List.mem_of_getElem? hrecord) hsource c hc hmatch
      rw [spelling_of_kept hl hc hascii honly]
      exact ⟨record, hrecord, hsource, hc, hmatch⟩
    · rintro ⟨record, hrecord, hsource, hname, hmatch⟩
      obtain ⟨hascii, honly⟩ := hkept record
        (List.mem_of_getElem? hrecord) hsource name hname hmatch
      exact ⟨record, hrecord, hsource, name, hname, hmatch, spelling_of_kept hl hname hascii honly⟩

/-- Where the right classes are reported, names are kept. -/
theorem kept_of_reportsExactly (hl : Lowercases lowercase) {jars : List JarRecord} {query : Str}
    (h : ReportsExactly lowercase jars query (jars.zipIdx.flatMap (reportedIn lowercase query))) :
    NamesKept lowercase jars query := by
  -- every class found is reported under its own name
  have hself : ∀ record ∈ jars, record.isSource = false → ∀ name ∈ record.classes,
      nameMatches lowercase query name = true → spelling record (lowercase name) = name := by
    intro record hrecord hsource name hname hmatch
    obtain ⟨j, hj⟩ := List.getElem?_of_mem hrecord
    have hreported := mem_reported.mpr ⟨record, hj, hsource, name, hname, hmatch, rfl⟩
    obtain ⟨record', hj', -, hspelled, hmatch'⟩ := (h.exactly _ _).mp hreported
    obtain rfl : record = record' := Option.some.inj (hj.symm.trans hj')
    -- the spelling and the class are reported alike, so they are one
    have hpart := (List.nodup_flatMap.mp h.once).1 (record, j)
      (List.mem_zipIdx_iff_getElem?.mpr hj)
    unfold reportedIn at hpart
    rw [if_neg (by simp [hsource])] at hpart
    refine List.inj_on_of_nodup_map hpart (List.mem_filter.mpr ⟨hspelled, hmatch'⟩)
      (List.mem_filter.mpr ⟨hname, hmatch⟩) ?_
    rw [lowercase_spelling hl]
  intro record hrecord hsource name hname hmatch
  have hspelling := hself record hrecord hsource name hname hmatch
  constructor
  · rcases spelling_cases record (lowercase name) with ⟨-, heq⟩ | ⟨heq, -⟩
    · rwa [hspelling] at heq
    · rw [hspelling] at heq
      rw [← heq]
      exact decide_eq_true rfl
  · intro other hother hlower
    have hmatch' : nameMatches lowercase query other = true :=
      (nameMatches_congr hlower).trans hmatch
    rw [← hself record hrecord hsource other hother hmatch', hlower, hspelling]

theorem ReportsExactly.perm {jars : List JarRecord} {query : Str} {a b : List ClassLocation}
    (h : ReportsExactly lowercase jars query a) (hperm : a.Perm b) :
    ReportsExactly lowercase jars query b where
  once := hperm.nodup_iff.mp h.once
  exactly name jar := hperm.mem_iff.symm.trans (h.exactly name jar)

/-- **Class search.**  With a limit above the number of classes, a search in a built index reports
the classes it should exactly when names are kept. -/
theorem searchClasses_exact_iff {P : Type} {env : BuildEnv P} {tables : CaseTables}
    (ht : tables.Standard) (henv : env.lowercase = tables.lower) {root : PathBuf}
    {jars : List (PathBuf × JarIdentity)} {maxResults : Nat}
    {persisted : Option (PathBuf → Option P)}
    {budget left : ArchiveBudget} {index : MavenIndex} {reuse : RecordReuse P}
    (hbuild : env.buildFromJars root jars maxResults persisted budget = .ok (index, reuse, left))
    (query : Str) {requested : Option Nat} (hlimit : index.classCount < index.limit requested) :
    ReportsExactly env.lowercase index.jars query
        (index.searchClasses env.lowercase query requested) ↔
      NamesKept env.lowercase index.jars query := by
  have hbuilt := built_of_buildFromJars hbuild
  have hl : Lowercases env.lowercase := by
    rw [henv]
    exact CaseTables.lowercases_lower ht
  have hperm := searchClasses_perm hbuilt query hlimit
  constructor
  · exact fun h => kept_of_reportsExactly hl (h.perm hperm)
  · exact fun h => (reportsExactly_of_kept hbuilt hl h).perm hperm.symm

/-- The build of a class directory with one file. -/
def directoryBuild (lowercase : Str → Str) (relative : List UInt8) (name : Str) :
    Except PreflightError (MavenIndex × RecordReuse StoredRecord × ArchiveBudget) :=
  let env := { sampleEnv with
    lowercase
    content := fun _ => .directory
      [some { relative, name := some name, isFile := true, bytes := some [1] }] }
  env.buildFromJars [47] [([47, 106], sampleIdentity)] 10 none
    { entries := 9, names := 99, jarEntries := 10 }

/-- A class with a capital letter, found in small letters. -/
theorem searchClasses_exact_iff_ascii :
    ∃ index reuse left,
      directoryBuild CaseTables.asciiTables.lower [65] "Ab.class".toList
          = .ok (index, reuse, left) ∧
        index.searchClasses CaseTables.asciiTables.lower ['a'] none
          = [{ className := ['A', 'b'], jar := 0 }] ∧
        (ReportsExactly CaseTables.asciiTables.lower index.jars ['a']
            (index.searchClasses CaseTables.asciiTables.lower ['a'] none) ↔
          NamesKept CaseTables.asciiTables.lower index.jars ['a']) := by
  have hdecide : (directoryBuild CaseTables.asciiTables.lower [65] "Ab.class".toList).toOption.map
      (fun r => (r.1.classCount, r.1.limit none,
        r.1.searchClasses CaseTables.asciiTables.lower ['a'] none))
      = some (1, 10, [{ className := ['A', 'b'], jar := 0 }]) := by decide +kernel
  rcases hbuild : directoryBuild CaseTables.asciiTables.lower [65] "Ab.class".toList with
    e | ⟨index, reuse, left⟩
  · rw [hbuild] at hdecide
    cases hdecide
  · rw [hbuild] at hdecide
    obtain ⟨hcount, hrest⟩ := Prod.mk.inj (Option.some.inj hdecide)
    obtain ⟨hmax, hfound⟩ := Prod.mk.inj hrest
    refine ⟨index, reuse, left, rfl, hfound, ?_⟩
    exact searchClasses_exact_iff CaseTables.asciiTables_standard rfl hbuild ['a'] (by
      simp only at hcount hmax
      omega)

/-- One more letter than ASCII has. -/
def umlautTables : CaseTables :=
  { CaseTables.asciiTables with
    toLowercase := fun c => if c = 'Ä' then ['ä'] else toAsciiLowercase [c] }

/-- A class whose name starts with a capital beyond ASCII is reported in small letters. -/
theorem searchClasses_lowers_capital :
    ∃ index reuse left,
      directoryBuild umlautTables.lower [195, 132] "Ä.class".toList = .ok (index, reuse, left) ∧
        index.classCount < index.limit none ∧
        index.searchClasses umlautTables.lower ['ä'] none = [{ className := ['ä'], jar := 0 }] ∧
        ¬ ReportsExactly umlautTables.lower index.jars ['ä']
            (index.searchClasses umlautTables.lower ['ä'] none) := by
  have hdecide : (directoryBuild umlautTables.lower [195, 132] "Ä.class".toList).toOption.map
      (fun r => (r.1.classCount, r.1.limit none, r.1.searchClasses umlautTables.lower ['ä'] none))
      = some (1, 10, [{ className := ['ä'], jar := 0 }]) := by decide +kernel
  have hclasses : (directoryBuild umlautTables.lower [195, 132] "Ä.class".toList).toOption.map
      (fun r => r.1.jars.map JarRecord.classes) = some [[['Ä']]] := by decide +kernel
  rcases hbuild : directoryBuild umlautTables.lower [195, 132] "Ä.class".toList with
    e | ⟨index, reuse, left⟩
  · rw [hbuild] at hdecide
    cases hdecide
  · rw [hbuild] at hdecide hclasses
    obtain ⟨hcount, hrest⟩ := Prod.mk.inj (Option.some.inj hdecide)
    obtain ⟨hmax, hfound⟩ := Prod.mk.inj hrest
    have hclasses := Option.some.inj hclasses
    simp only at hcount hmax hclasses hfound
    refine ⟨index, reuse, left, rfl, by omega, hfound, fun h => ?_⟩
    have hreported : { className := ['ä'], jar := 0 }
        ∈ index.searchClasses umlautTables.lower ['ä'] none := by
      rw [hfound]
      exact List.mem_singleton.mpr rfl
    obtain ⟨record, hrecord, -, hname, -⟩ := (h.exactly _ _).mp hreported
    have hmem : record.classes ∈ index.jars.map JarRecord.classes :=
      List.mem_map_of_mem (List.mem_of_getElem? hrecord)
    rw [hclasses, List.mem_singleton] at hmem
    rw [hmem] at hname
    exact absurd hname (by decide)

end Index
end MavenMcp
