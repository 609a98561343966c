/-
# The digest of the environment

A classpath may depend on variables of the environment.  `src/index_cache/maven_environment.rs`
selects them by their names and feeds the names, and then names and values, to a hash, each with the
byte `0xff` behind it, "so adjacent values cannot shift into each other".

Names are texts and have no such byte, but values may have one.  `digest_identifies_iff` says when
the bytes that are fed identify what was selected: exactly when no name stands, between two such
bytes, where the value in front of it could end or its own value begin (`Delimited.Shifted`).  The
order in which the environment is listed never matters.
-/
import Mathlib.Data.List.Sort
import MavenMcp.Lib.Delimited
import MavenMcp.Lib.Table
import MavenMcp.Lib.Text
import MavenMcp.Lib.Utf8

namespace MavenMcp
namespace IndexCache

open Text

/-! ## 1. Selection -/

abbrev OsString := List UInt8

/-- A map from names to values; it is listed in any order. -/
abbrev Environment := Table OsString OsString

/-- `SERVER_ONLY_ENVIRONMENT`. -/
def serverOnlyEnvironment : List Str :=
  ["MAX_RESULTS".toList, "MAX_SOURCE_BYTES".toList, "MAX_PROJECT_INDEXES".toList,
    "MAX_PROJECT_INDEX_BYTES".toList, "MAX_HEAVY_JOBS".toList, "MAX_QUEUED_HEAVY_JOBS".toList,
    "MAX_XML_BYTES".toList, "MAX_JAR_ENTRIES".toList, "MAX_INDEX_ENTRIES".toList,
    "MAX_INDEX_NAME_BYTES".toList, "MAX_INDEX_CACHE_BYTES".toList,
    "MAX_MAVEN_OUTPUT_BYTES".toList, "MAX_MCP_RESPONSE_BYTES".toList,
    "MAX_MCP_RESULT_CACHE_BYTES".toList, "MAVEN_TIMEOUT_SECONDS".toList,
    "MAVEN_MCP_INDEX_CACHE".toList, "MAVEN_MCP_CACHE_DIR".toList, "MAVEN_MCP_RUNTIME_DIR".toList,
    "RUST_LOG".toList]

/-- `MAVEN_ENVIRONMENT_NAMES`. -/
def mavenEnvironmentNames : List Str :=
  ["HOME".toList, "JAVA_HOME".toList, "JAVA_TOOL_OPTIONS".toList, "JDK_JAVA_OPTIONS".toList,
    "M2_HOME".toList, "PATH".toList]

/-- `MAVEN_ENVIRONMENT_PREFIXES`. -/
def mavenEnvironmentPrefixes : List Str := ["MAVEN_".toList, "MVNW_".toList, "JENV_".toList]

/-- `PROXY_SUFFIXES`. -/
def proxySuffixes : List Str := ["_PROXY".toList, "_proxy".toList]

def takesPart (name : Str) (referenced : Option (List Str)) : Bool :=
  if name ∈ serverOnlyEnvironment then false
  else
    match referenced with
    | none => true
    | some referenced =>
      name ∈ mavenEnvironmentNames
        || mavenEnvironmentPrefixes.any (fun front => startsWith front name)
        || proxySuffixes.any (fun tail => endsWith tail name)
        || name ∈ referenced

/-- The two digests: of every variable that can matter, and of those that are referenced. -/
inductive Digest
  | environment
  | referenced
deriving DecidableEq, Repr

/-- The filter of `environment_digest`. -/
def environmentTakes (referenced : Option (List Str)) (name : OsString) : Bool :=
  match Utf8.decode name with
  | some name => takesPart name referenced
  | none => referenced.isNone

/-- The filter of `referenced_digest`. -/
def referencedTakes (referenced : List Str) (name : OsString) : Bool :=
  (Utf8.decode name).any fun name => name ∈ referenced && name ∉ serverOnlyEnvironment

/-- The filter of a digest with a set of referenced names. -/
def Digest.takes (referenced : List Str) : Digest → OsString → Bool
  | .environment => environmentTakes (some referenced)
  | .referenced => referencedTakes referenced

/-- `OsString::cmp` answers less or equal. -/
def NameLe (a b : OsString) : Prop := (List.compareLex Ord.compare a b).isLE = true

instance : DecidableRel NameLe := fun _ _ => inferInstanceAs (Decidable (_ = true))

/-- The names of the map that the selected variables are collected into. -/
def selectedNames (takes : OsString → Bool) (env : Environment) : List OsString :=
  (env.keys.filter takes).insertionSort NameLe

/-- The entries of that map, in the order of their names. -/
def selected (takes : OsString → Bool) (env : Environment) : List (OsString × OsString) :=
  (selectedNames takes env).filterMap fun name =>
    (env.lookup name).map fun value => (name, value)

/-! ## 2. Feeding the hash -/

/-- `FNV_OFFSET`. -/
def fnvOffset : UInt64 := 0xcbf29ce484222325

/-- `FNV_PRIME`. -/
def fnvPrime : UInt64 := 0x0000010000000001b3

/-- The separator. -/
def mark : UInt8 := 0xff

/-- One byte after another. -/
def feed (hash : UInt64) (bytes : List UInt8) : UInt64 :=
  bytes.foldl (fun hash byte => (hash ^^^ byte.toUInt64) * fnvPrime) hash

def fnv1a (hash : UInt64) (bytes : List UInt8) : UInt64 := feed hash (bytes ++ [mark])

def selectionDigest (selected : List (OsString × OsString)) : UInt64 :=
  let names := selected.foldl (fun hash (name, _) => fnv1a hash name) fnvOffset
  selected.foldl (fun hash (name, value) => fnv1a (fnv1a hash name) value) (fnv1a names [])

def environmentDigest (env : Environment) (referenced : Option (List Str)) : UInt64 :=
  selectionDigest (selected (environmentTakes referenced) env)

def referencedDigest (env : Environment) (referenced : List Str) : UInt64 :=
  selectionDigest (selected (referencedTakes referenced) env)

/-- The bytes that are fed to the hash. -/
def fed (selected : List (OsString × OsString)) : List UInt8 :=
  Delimited.header mark (selected.map Prod.fst) ++ Delimited.written mark selected

theorem feed_append (hash : UInt64) (a b : List UInt8) :
    feed hash (a ++ b) = feed (feed hash a) b := List.foldl_append

/-- **What is fed** is all that the digest depends on. -/
theorem selectionDigest_eq (selected : List (OsString × OsString)) :
    selectionDigest selected = feed fnvOffset (fed selected) := by
  have hnames : ∀ (pairs : List (OsString × OsString)) (hash : UInt64),
      pairs.foldl (fun hash (name, _) => fnv1a hash name) hash
        = feed hash ((pairs.map Prod.fst).flatMap (· ++ [mark])) := by
    intro pairs
    induction pairs with
    | nil => exact fun _ => rfl
    | cons pair pairs ih =>
      intro hash
      rw [List.foldl_cons, ih, List.map_cons, List.flatMap_cons, feed_append]
      rfl
  have hpairs : ∀ (pairs : List (OsString × OsString)) (hash : UInt64),
      pairs.foldl (fun hash (name, value) => fnv1a (fnv1a hash name) value) hash
        = feed hash (Delimited.written mark pairs) := by
    intro pairs
    induction pairs with
    | nil => exact fun _ => rfl
    | cons pair pairs ih =>
      intro hash
      obtain ⟨name, value⟩ := pair
      have hwritten : Delimited.written mark ((name, value) :: pairs)
          = (name ++ [mark]) ++ ((value ++ [mark]) ++ Delimited.written mark pairs) := by
        simp [Delimited.written_cons]
      rw [List.foldl_cons, ih, hwritten, feed_append, feed_append]
      rfl
  rw [selectionDigest, hnames, hpairs, fnv1a, ← feed_append, ← feed_append, List.nil_append, fed,
    Delimited.header, List.append_assoc]

/-! ## 3. What is selected -/

section

variable {takes : OsString → Bool} {env env' : Environment} {pairs : List (OsString × OsString)}

theorem nameLe_antisymm {a b : OsString} (h : NameLe a b) (h' : NameLe b a) : a = b := by
  have heq : List.compareLex Ord.compare a b = .eq := Std.OrientedCmp.isLE_antisymm h h'
  exact Std.LawfulEqCmp.eq_of_compare heq

instance : IsTrans OsString NameLe where
  trans _ _ _ h h' := by
    change (List.compareLex Ord.compare _ _).isLE = true
    exact Std.TransCmp.isLE_trans h h'

instance : Std.Total NameLe where
  total a b := by
    have hswap : List.compareLex Ord.compare a b = (List.compareLex Ord.compare b a).swap :=
      Std.OrientedCmp.eq_swap
    change (List.compareLex Ord.compare a b).isLE = true ∨
      (List.compareLex Ord.compare b a).isLE = true
    rw [hswap]
    cases List.compareLex Ord.compare b a with
    | lt => exact .inr rfl
    | eq => exact .inr rfl
    | gt => exact .inl rfl

theorem mem_selectedNames {name : OsString} :
    name ∈ selectedNames takes env ↔ name ∈ env.keys ∧ takes name = true := by
  rw [selectedNames, List.mem_insertionSort, List.mem_filter]

theorem nodup_selectedNames : (selectedNames takes env).Nodup :=
  (List.perm_insertionSort _ _).nodup_iff.mpr (env.keys_nodup.filter takes)

theorem sorted_selectedNames : (selectedNames takes env).Pairwise NameLe :=
  List.pairwise_insertionSort _ _

/-- The names of what is selected. -/
theorem map_fst_selected : (selected takes env).map Prod.fst = selectedNames takes env := by
  have hall : ∀ names : List OsString, (∀ name ∈ names, name ∈ env.keys) →
      (names.filterMap fun name => (env.lookup name).map fun value => (name, value)).map Prod.fst
        = names := by
    intro names
    induction names with
    | nil => exact fun _ => rfl
    | cons name names ih =>
      intro hnames
      obtain ⟨hname, hnames⟩ := List.forall_mem_cons.mp hnames
      obtain ⟨value, hvalue⟩ := Option.isSome_iff_exists.mp (AList.lookup_isSome.mpr hname)
      rw [List.filterMap_cons, hvalue, Option.map_some, List.map_cons, ih hnames]
  exact hall _ fun name hname => (mem_selectedNames.mp hname).1

/-- **The order** in which an environment is listed does not matter. -/
theorem selected_of_perm (h : env.entries.Perm env'.entries) :
    selected takes env = selected takes env' := by
  have hkeys : env.keys.Perm env'.keys := h.map _
  have hnames : selectedNames takes env = selectedNames takes env' := by
    refine List.Perm.eq_of_pairwise (fun _ _ _ _ => nameLe_antisymm) sorted_selectedNames
      sorted_selectedNames ?_
    exact (List.perm_insertionSort _ _).trans
      ((hkeys.filter takes).trans (List.perm_insertionSort _ _).symm)
  rw [selected, selected, hnames]
  exact congrArg (List.filterMap · _) (funext fun name => by rw [AList.perm_lookup h])

/-- An environment with these entries. -/
def ofPairs (pairs : List (OsString × OsString)) (h : (pairs.map Prod.fst).Nodup) :
    Environment where
  entries := pairs.map fun pair => ⟨pair.1, pair.2⟩
  nodupKeys := by
    rw [List.NodupKeys, List.keys, List.map_map]
    exact h

theorem selected_ofPairs (h : (pairs.map Prod.fst).Nodup)
    (hsorted : (pairs.map Prod.fst).Pairwise NameLe)
    (htakes : ∀ pair ∈ pairs, takes pair.1 = true) : selected takes (ofPairs pairs h) = pairs := by
  have hkeys : (ofPairs pairs h).keys = pairs.map Prod.fst := by
    rw [AList.keys, List.keys, ofPairs, List.map_map]
    rfl
  have hnames : selectedNames takes (ofPairs pairs h) = pairs.map Prod.fst := by
    have hall : (pairs.map Prod.fst).filter takes = pairs.map Prod.fst := by
      refine List.filter_eq_self.mpr fun name hname => ?_
      obtain ⟨pair, hpair, rfl⟩ := List.mem_map.mp hname
      exact htakes pair hpair
    rw [selectedNames, hkeys, hall, hsorted.insertionSort_eq]
  rw [selected, hnames, List.filterMap_map]
  have hlookup : ∀ pair ∈ pairs, ((fun name => ((ofPairs pairs h).lookup name).map fun value =>
      (name, value)) ∘ Prod.fst) pair = some pair := by
    intro pair hpair
    have hmem : (⟨pair.1, pair.2⟩ : Sigma fun _ => OsString) ∈ (ofPairs pairs h).entries :=
      List.mem_map.mpr ⟨pair, hpair, rfl⟩
    change ((ofPairs pairs h).lookup pair.1).map _ = some pair
    rw [AList.mem_lookup_iff.mpr hmem, Option.map_some]
  rw [List.filterMap_congr hlookup, List.filterMap_some]

end

/-! ## 4. What the bytes identify -/

/-- A text has no byte `0xff`. -/
theorem mark_not_mem_encode (text : Str) : mark ∉ Utf8.encode text := by
  intro h
  obtain ⟨c, -, hmem⟩ := List.mem_flatMap.mp h
  have hbounds := Utf8.toNat_bounds c
  have hbyte : ∀ n, n < 0xff → mark = UInt8.ofNat n → False := by
    intro n hn heq
    have hnat := congrArg UInt8.toNat heq
    rw [Utf8.toNat_ofNat (by omega)] at hnat
    exact absurd hnat (by change 255 ≠ n; omega)
  unfold Utf8.encodeChar at hmem
  generalize c.toNat = n at hbounds hmem
  simp only at hmem
  split at hmem
  · exact hbyte _ (by omega) (List.mem_singleton.mp hmem)
  · split at hmem
    · simp only [List.mem_cons, List.not_mem_nil, or_false] at hmem
      rcases hmem with heq | heq
      all_goals exact hbyte _ (by omega) heq
    · split at hmem
      · simp only [List.mem_cons, List.not_mem_nil, or_false] at hmem
        rcases hmem with heq | heq | heq
        all_goals exact hbyte _ (by omega) heq
      · simp only [List.mem_cons, List.not_mem_nil, or_false] at hmem
        rcases hmem with heq | heq | heq | heq
        all_goals exact hbyte _ (by omega) heq

/-- Only texts are selected by name. -/
theorem mark_not_mem_of_takes {digest : Digest} {referenced : List Str} {name : OsString}
    (h : digest.takes referenced name = true) : mark ∉ name := by
  have htext : ∃ text, Utf8.decode name = some text := by
    cases hdecode : Utf8.decode name with
    | some text => exact ⟨text, rfl⟩
    | none =>
      cases digest with
      | environment =>
        rw [Digest.takes, environmentTakes, hdecode] at h
        cases h
      | referenced =>
        rw [Digest.takes, referencedTakes, hdecode] at h
        cases h
  obtain ⟨text, hdecode⟩ := htext
  rw [Utf8.decode_eq_some_iff.mp hdecode]
  exact mark_not_mem_encode text

section

variable {takes : OsString → Bool} {env env' : Environment}

/-- Only the first name may be empty. -/
theorem nil_not_mem_tail {name : OsString} {names : List OsString}
    (hsorted : (name :: names).Pairwise NameLe) (hnodup : (name :: names).Nodup) : [] ∉ names := by
  intro hmem
  have hle : NameLe name [] := List.rel_of_pairwise_cons hsorted hmem
  cases name with
  | nil => exact (List.nodup_cons.mp hnodup).1 hmem
  | cons b name => cases hle

/-- **The names** are identified by the bytes, and so is what follows them. -/
theorem names_of_fed (htakes : ∀ name, takes name = true → mark ∉ name)
    (h : fed (selected takes env) = fed (selected takes env')) :
    selectedNames takes env = selectedNames takes env' ∧
      Delimited.written mark (selected takes env)
        = Delimited.written mark (selected takes env') := by
  have hmark : ∀ {env : Environment}, ∀ name ∈ selectedNames takes env, mark ∉ name :=
    fun name hname => htakes name (mem_selectedNames.mp hname).2
  -- no names are told from some by the length, some from others by cutting off the first
  have hnone : ∀ {env env' : Environment}, selectedNames takes env = [] →
      fed (selected takes env) = fed (selected takes env') → selectedNames takes env' = [] := by
    intro env env' hnil hfed
    have hempty : selected takes env = [] := by
      rw [← List.map_eq_nil_iff (f := Prod.fst), map_fst_selected, hnil]
    rw [hempty, fed, fed, map_fst_selected] at hfed
    cases hnames : selectedNames takes env' with
    | nil => rfl
    | cons name names =>
      rw [hnames, Delimited.header_cons] at hfed
      have hlength := congrArg List.length hfed
      simp [Delimited.header] at hlength
      omega
  cases hnames : selectedNames takes env with
  | nil =>
    have hnames' := hnone hnames h
    rw [fed, fed, map_fst_selected, map_fst_selected, hnames, hnames'] at h
    exact ⟨hnames'.symm, (List.cons.inj h).2⟩
  | cons name names =>
    cases hnames' : selectedNames takes env' with
    | nil =>
      rw [hnone hnames' h.symm] at hnames
      cases hnames
    | cons name' names' =>
      have htail : ∀ {env : Environment} {name : OsString} {names : List OsString},
          selectedNames takes env = name :: names → [] ∉ names := fun heq =>
        nil_not_mem_tail (heq ▸ sorted_selectedNames) (heq ▸ nodup_selectedNames)
      have hwords : ∀ word ∈ name :: names, mark ∉ word := hnames ▸ hmark
      have hwords' : ∀ word ∈ name' :: names', mark ∉ word := hnames' ▸ hmark
      rw [fed, fed, map_fst_selected, map_fst_selected, hnames, hnames', Delimited.header_cons,
        Delimited.header_cons, List.append_assoc, List.append_assoc] at h
      obtain ⟨rfl, hrest⟩ := Delimited.cut (hwords _ List.mem_cons_self)
        (hwords' _ List.mem_cons_self) h
      obtain ⟨rfl, hwritten⟩ := Delimited.header_cut (List.forall_mem_cons.mp hwords).2
        (List.forall_mem_cons.mp hwords').2 (htail hnames) (htail hnames') hrest
      exact ⟨rfl, hwritten⟩

/-- **The bytes identify** a selection exactly where no name stands in a wrong place. -/
theorem fed_injective_iff (htakes : ∀ name, takes name = true → mark ∉ name) (env : Environment) :
    (∀ env', fed (selected takes env') = fed (selected takes env) →
      selected takes env' = selected takes env) ↔
      ¬ Delimited.Shifted mark (selected takes env) := by
  have hmark : ∀ pair ∈ selected takes env, mark ∉ pair.1 := by
    intro pair hpair
    have hname : pair.1 ∈ selectedNames takes env := by
      rw [← map_fst_selected]
      exact List.mem_map_of_mem hpair
    exact htakes _ (mem_selectedNames.mp hname).2
  rw [← Delimited.written_injective_iff hmark]
  constructor
  · intro h pairs hnames hwritten
    have hnodup : (pairs.map Prod.fst).Nodup := by
      rw [hnames, map_fst_selected]
      exact nodup_selectedNames
    have hselected : selected takes (ofPairs pairs hnodup) = pairs := by
      refine selected_ofPairs hnodup ?_ fun pair hpair => ?_
      · rw [hnames, map_fst_selected]
        exact sorted_selectedNames
      · have hmem : pair.1 ∈ pairs.map Prod.fst := List.mem_map_of_mem hpair
        rw [hnames, map_fst_selected] at hmem
        exact (mem_selectedNames.mp hmem).2
    have hfed := h (ofPairs pairs hnodup) (by rw [hselected, fed, fed, hnames, hwritten])
    rwa [hselected] at hfed
  · intro h env' hfed
    obtain ⟨hnames, hwritten⟩ := names_of_fed htakes hfed
    exact h _ (by rw [map_fst_selected, map_fst_selected, hnames]) hwritten

end

def home : OsString := Utf8.encode "HOME".toList

def path : OsString := Utf8.encode "PATH".toList

/-- An environment with these values of `HOME` and `PATH`. -/
def homeAndPath (homeValue pathValue : OsString) : Environment :=
  ofPairs [(home, homeValue), (path, pathValue)] (show [home, path].Nodup by decide)

/-- The name of `PATH` stands in the value of `HOME`. -/
def pathInHome : Environment := homeAndPath (1 :: mark :: (path ++ [mark, 2])) [3]

/-- The name of `PATH` stands in its own value. -/
def pathInPath : Environment := homeAndPath [1] (2 :: mark :: (path ++ [mark, 3]))

end IndexCache
end MavenMcp
