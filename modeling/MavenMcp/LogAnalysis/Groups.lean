/-
# Grouped reports

`--group-by` of `src/bin/maven-agent-log.rs`.  Events are counted by the values they have before
redaction and are shown under what redaction leaves of those values: `collect` remembers which
group each event is in, `count` counts after the events were redacted, and groups that redaction
made look alike are numbered.

`Identified` is what `collect` knows of the events seen so far, and `Counted` what `count` knows.
-/
import MavenMcp.Lib.OrderedMap
import MavenMcp.LogAnalysis.Accounting

namespace MavenMcp.LogAnalysis

open Attempt (Triple)
open Text

/-! ## 1. Keys -/

inductive GroupBy
  | day
  | month
  | ide
  | agent
  | project
  | session
  | category
deriving DecidableEq, Repr

def CommandCategory.asStr : CommandCategory → Str
  | maven => "maven".toList
  | jarInspection => "jar_inspection".toList
  | classInspection => "class_inspection".toList
  | pomInspection => "pom_inspection".toList
  | resourceInspection => "resource_inspection".toList
  | shell => "shell".toList

def groupKey (groupBy : GroupBy) (event : CommandEvent) : Str :=
  (match groupBy with
    | .day => event.timestamp.bind (slice · 0 10)
    | .month => event.timestamp.bind (slice · 0 7)
    | .ide => some event.ide
    | .agent => event.agent
    | .project => event.project
    | .session => event.session
    | .category => some event.category.asStr).getD "<unknown>".toList

/-! ## 2. Groups -/

structure GroupCount where
  group : Str
  count : Nat
deriving DecidableEq, Repr

/-- What `size_of` answers for the types of the tables. -/
structure GroupSizes where
  usize : Nat
  str : Nat
  optionalUsize : Nat
  optionalString : Nat
  groupCount : Nat
deriving DecidableEq, Repr

abbrev StrMap (α : Type) := OrderedMap Str α strCompare

/-- The original values with a number for each, and the number of each event. -/
structure RawGroups where
  identities : StrMap Nat
  eventIdentity : List Nat
  charged : Nat

/-- `charge_tracked`: the answer is what `charged` is afterwards. -/
def chargeTracked (charged bytes : Nat) : Attempt LimitExceeded StateBudget Nat := do
  charge bytes
  pure (charged + bytes)

section

variable (sizes : GroupSizes) (groupBy : GroupBy)

/-- One round of the loop of `collect`. -/
def collectEvent (raw : RawGroups) (event : CommandEvent) :
    Attempt LimitExceeded StateBudget RawGroups :=
  let key := groupKey groupBy event
  match raw.identities.lookup key with
  | some index => pure { raw with eventIdentity := raw.eventIdentity ++ [index] }
  | none => do
    let next := raw.identities.size
    let charged ← chargeTracked raw.charged (byteLen key + sizes.usize + entryOverheadBytes)
    pure
      { identities := raw.identities.insert key next
        eventIdentity := raw.eventIdentity ++ [next]
        charged }

def RawGroups.collect (events : List CommandEvent) :
    Attempt LimitExceeded StateBudget RawGroups := do
  let charged ← chargeTracked 0 (events.length * sizes.usize)
  events.foldlM (collectEvent sizes groupBy)
    { identities := .empty, eventIdentity := [], charged }

/-- The tables of `count`. -/
structure Counting where
  labels : List (Option Str)
  counts : List Nat
  kept : Nat

/-- One round of the loop of `count`. -/
def countEvent (s : Counting) (entry : Nat × CommandEvent) :
    Attempt LimitExceeded StateBudget Counting :=
  let counts := s.counts.modify entry.1 (· + 1)
  match s.labels[entry.1]?.join with
  | some _ => pure { s with counts }
  | none => do
    let label := groupKey groupBy entry.2
    let kept ← chargeTracked s.kept (byteLen label + entryOverheadBytes)
    pure { labels := s.labels.set entry.1 (some label), counts, kept }

/-- `SUFFIX_TABLE_ENTRY_BYTES`. -/
def suffixTableEntryBytes : Nat := sizes.str + sizes.usize + entryOverheadBytes

/-- The labels seen so far and the suffixes given. -/
structure Suffixes where
  seen : StrMap Nat
  suffixes : List (Option Nat)

/-- `charge_tracked` of the suffix tables; the state is the budget and `tables`. -/
def chargeTables (bytes : Nat) : Attempt LimitExceeded (StateBudget × Nat) Unit :=
  .of fun s =>
    match s.1.charge bytes with
    | (.ok (), budget) => (.ok (), budget, s.2 + bytes)
    | (.error e, budget) => (.error e, budget, s.2)

/-- A label is charged when it is seen for the first time. -/
def chargeUnseen (index : Option Nat) : Attempt LimitExceeded (StateBudget × Nat) Unit :=
  match index with
  | none => chargeTables (suffixTableEntryBytes sizes)
  | some _ => pure ()

/-- One round of the second loop of `collect_suffixes`. -/
def suffixGroup (occurrences : StrMap Nat) (s : Suffixes) (group : GroupCount) :
    Attempt LimitExceeded (StateBudget × Nat) Suffixes :=
  if (occurrences.lookup group.group).getD 0 < 2 then
    pure { s with suffixes := s.suffixes ++ [none] }
  else do
    chargeUnseen sizes (s.seen.lookup group.group)
    let index := (s.seen.lookup group.group).getD 0 + 1
    pure { seen := s.seen.insert group.group index, suffixes := s.suffixes ++ [some index] }

/-- How often each label occurs. -/
def occurrencesOf (groups : List GroupCount) : StrMap Nat :=
  groups.foldl (fun map group => map.insert group.group ((map.lookup group.group).getD 0 + 1))
    .empty

def collectSuffixes (groups : List GroupCount) :
    Attempt LimitExceeded (StateBudget × Nat) (List (Option Nat)) := do
  chargeTables (groups.length * (suffixTableEntryBytes sizes + sizes.optionalUsize))
  let s ← groups.foldlM (suffixGroup sizes (occurrencesOf groups))
    { seen := .empty, suffixes := [] }
  pure s.suffixes

/-- A label with its number. -/
def numbered (label : Str) (index : Nat) : Str :=
  label ++ " [".toList ++ Nat.toDigits 10 index ++ "]".toList

/-- The last loop of `disambiguate_labels`. -/
def applySuffix (entry : GroupCount × Option Nat) : Attempt LimitExceeded StateBudget GroupCount :=
  match entry.2 with
  | none => pure entry.1
  | some index => do
    let label := numbered entry.1.group index
    charge (byteLen label - byteLen entry.1.group)
    pure { entry.1 with group := label }

def disambiguateLabels (groups : List GroupCount) :
    Attempt LimitExceeded StateBudget (List GroupCount) := do
  let suffixes ← .of fun budget =>
    match (collectSuffixes sizes groups).answer (budget, 0) with
    | (suffixes, budget, tables) => (suffixes, budget.release tables)
  (groups.zip suffixes).mapM applySuffix

/-- The groups in the order of their original values. -/
def groupsOf (raw : RawGroups) (s : Counting) : List GroupCount :=
  raw.identities.values.map fun identity =>
    { group := (s.labels[identity]?.join).getD [], count := (s.counts[identity]?).getD 0 }

def RawGroups.count (raw : RawGroups) (redacted : List CommandEvent) :
    Attempt LimitExceeded StateBudget (List GroupCount) := do
  let identityCount := raw.identities.size
  let workspace ← chargeTracked 0 (identityCount * (sizes.optionalString + sizes.usize))
  let s ← (raw.eventIdentity.zip redacted).foldlM (countEvent groupBy)
    { labels := List.replicate identityCount none, counts := List.replicate identityCount 0
      kept := 0 }
  let _ ← chargeTracked s.kept (identityCount * sizes.groupCount)
  release (workspace + raw.charged)
  disambiguateLabels sizes (groupsOf raw s)

/-- Without settings nothing is redacted. -/
def redactReport (eventSizes : Sizes) (u : Unicode) (settings : Option RedactionSettings)
    (events : List CommandEvent) : Attempt LimitExceeded StateBudget (List CommandEvent) :=
  match settings with
  | none => pure events
  | some settings => redactEventsWithin eventSizes u settings events

/-- What `main` does with the filtered events of a grouped report. -/
def groupedReport (eventSizes : Sizes) (u : Unicode) (settings : Option RedactionSettings)
    (events : List CommandEvent) : Attempt LimitExceeded StateBudget (List GroupCount) := do
  let raw ← RawGroups.collect sizes groupBy events
  let redacted ← redactReport eventSizes u settings events
  raw.count sizes groupBy redacted

end

/-! ## 3. The original values -/

section

variable {groupBy : GroupBy} {seen events : List CommandEvent} {raw : RawGroups}

/-- Each event has the number of its value, and the numbers are those below the number of values. -/
structure Identified (groupBy : GroupBy) (seen : List CommandEvent) (raw : RawGroups) : Prop where
  keys : ∀ key, key ∈ raw.identities.keys ↔ ∃ event ∈ seen, groupKey groupBy event = key
  identity : raw.eventIdentity.map some
    = seen.map fun event => raw.identities.lookup (groupKey groupBy event)
  numbers : raw.identities.values.Perm (List.range raw.identities.size)

theorem identified_nil (charged : Nat) :
    Identified groupBy [] { identities := .empty, eventIdentity := [], charged } where
  keys key := by simp [OrderedMap.keys, OrderedMap.empty]
  identity := rfl
  numbers := .refl _

theorem Identified.known (h : Identified groupBy seen raw) {event : CommandEvent} {index : Nat}
    (hindex : raw.identities.lookup (groupKey groupBy event) = some index) :
    Identified groupBy (seen ++ [event])
      { raw with eventIdentity := raw.eventIdentity ++ [index] } where
  keys key := by
    rw [h.keys key]
    constructor
    · rintro ⟨e, he, hkey⟩
      exact ⟨e, List.mem_append_left _ he, hkey⟩
    · rintro ⟨e, he, hkey⟩
      rcases List.mem_append.mp he with he | he
      · exact ⟨e, he, hkey⟩
      · obtain rfl := List.mem_singleton.mp he
        exact (h.keys key).mp (OrderedMap.mem_keys_iff.mpr ⟨index, hkey ▸ hindex⟩)
  identity := by rw [List.map_append, List.map_append, h.identity, List.map_singleton,
    List.map_singleton, hindex]
  numbers := h.numbers

theorem Identified.new (h : Identified groupBy seen raw) {event : CommandEvent} (charged : Nat)
    (hnone : raw.identities.lookup (groupKey groupBy event) = none) :
    Identified groupBy (seen ++ [event])
      { identities := raw.identities.insert (groupKey groupBy event) raw.identities.size
        eventIdentity := raw.eventIdentity ++ [raw.identities.size], charged } where
  keys key := by
    rw [OrderedMap.mem_keys_iff]
    simp only [OrderedMap.lookup_insert, List.mem_append, List.mem_singleton]
    constructor
    · rintro ⟨v, hv⟩
      split at hv
      · rename_i heq
        exact ⟨event, .inr rfl, heq.symm⟩
      · obtain ⟨e, he, hkey⟩ := (h.keys key).mp (OrderedMap.mem_keys_iff.mpr ⟨v, hv⟩)
        exact ⟨e, .inl he, hkey⟩
    · rintro ⟨e, he | rfl, hkey⟩
      · obtain ⟨v, hv⟩ := OrderedMap.mem_keys_iff.mp ((h.keys key).mpr ⟨e, he, hkey⟩)
        split
        · exact ⟨_, rfl⟩
        · exact ⟨v, hv⟩
      · exact ⟨_, if_pos hkey.symm⟩
  identity := by
    rw [List.map_append, List.map_append, h.identity, List.map_singleton, List.map_singleton,
      OrderedMap.lookup_insert, if_pos rfl]
    refine congrArg (· ++ _) (List.map_congr_left fun e he => ?_)
    rw [OrderedMap.lookup_insert, if_neg]
    intro heq
    obtain ⟨v, hv⟩ := OrderedMap.mem_keys_iff.mp ((h.keys _).mpr ⟨e, he, heq⟩)
    exact Option.some_ne_none v (hv.symm.trans hnone)
  numbers := by
    refine (OrderedMap.perm_values_insert _ hnone).trans ?_
    rw [OrderedMap.size_insert _ hnone, List.range_succ]
    exact (h.numbers.cons _).trans (List.perm_append_singleton _ _).symm

variable {start : StateBudget} {n : Nat}

theorem triple_chargeTracked (charged bytes : Nat) :
    Triple (At start (n + charged)) (chargeTracked charged bytes)
      (fun after budget => after = charged + bytes ∧ At start (n + after) budget)
      (Sound start n) :=
  (triple_charge (Nat.le_add_right n charged)).bind fun _ =>
    .pure fun _ h => ⟨rfl, h.congr (Nat.add_assoc _ _ _)⟩

variable (start n) in
theorem collectEvent_identified (sizes : GroupSizes) (h : Identified groupBy seen raw)
    (event : CommandEvent) :
    Triple (At start (n + raw.charged)) (collectEvent sizes groupBy raw event)
      (fun raw budget => Identified groupBy (seen ++ [event]) raw ∧
        At start (n + raw.charged) budget) (Sound start n) := by
  rw [collectEvent]
  split
  · rename_i index hindex
    exact .pure fun budget hat => ⟨h.known hindex, hat⟩
  · rename_i hnone
    refine (triple_chargeTracked raw.charged _).bind fun charged => .assume ?_
    rintro -
    exact .pure fun budget hat => ⟨h.new charged hnone, hat⟩

variable (start n) in
theorem collect_identified (sizes : GroupSizes) (events : List CommandEvent) :
    Triple (At start n) (RawGroups.collect sizes groupBy events)
      (fun raw budget => Identified groupBy events raw ∧ At start (n + raw.charged) budget)
      (Sound start n) := by
  have hloop : ∀ (events seen : List CommandEvent) (raw : RawGroups),
      Identified groupBy seen raw →
        Triple (At start (n + raw.charged)) (events.foldlM (collectEvent sizes groupBy) raw)
          (fun raw budget => Identified groupBy (seen ++ events) raw ∧
            At start (n + raw.charged) budget) (Sound start n) := by
    intro events
    induction events with
    | nil =>
      intro seen raw h
      rw [List.append_nil]
      exact .pure fun budget hat => ⟨h, hat⟩
    | cons event events ih =>
      intro seen raw h
      rw [List.foldlM_cons]
      refine (collectEvent_identified start n sizes h event).bind fun raw' => .assume fun h' => ?_
      have hrest := ih (seen ++ [event]) raw' h'
      rwa [List.append_assoc, List.singleton_append] at hrest
  refine (triple_chargeTracked (n := n) 0 _).bind fun charged => .assume ?_
  rintro -
  exact hloop events [] _ (identified_nil charged)

end

/-! ## 4. Counts and labels -/

section

variable {groupBy : GroupBy} {start : StateBudget} {n size : Nat} {s : Counting}
  {seen : List (Nat × CommandEvent)}

/-- What a label in the table was charged with. -/
def labelBytes (label : Option Str) : Nat :=
  (label.map fun label => byteLen label + entryOverheadBytes).getD 0

/-- The label of a number: that of the first event which has it. -/
def firstLabel (groupBy : GroupBy) (seen : List (Nat × CommandEvent)) (identity : Nat) :
    Option Str :=
  (seen.find? fun entry => entry.1 = identity).map fun entry => groupKey groupBy entry.2

/-- The tables say what was seen of each number. -/
structure Counted (groupBy : GroupBy) (size : Nat) (seen : List (Nat × CommandEvent))
    (s : Counting) : Prop where
  labels : s.labels = (List.range size).map (firstLabel groupBy seen)
  counts : s.counts = (List.range size).map fun identity => (seen.map Prod.fst).count identity
  kept : s.kept = (s.labels.map labelBytes).sum

theorem counted_nil : Counted groupBy size []
    { labels := List.replicate size none, counts := List.replicate size 0, kept := 0 } where
  labels := by
    rw [show firstLabel groupBy [] = fun _ => none from rfl, List.map_const', List.length_range]
  counts := by simp [List.map_const']
  kept := by simp [labelBytes]

theorem firstLabel_concat (seen : List (Nat × CommandEvent)) (entry : Nat × CommandEvent)
    (identity : Nat) :
    firstLabel groupBy (seen ++ [entry]) identity
      = (firstLabel groupBy seen identity).or
        (if entry.1 = identity then some (groupKey groupBy entry.2) else none) := by
  rw [firstLabel, firstLabel, List.find?_append]
  cases seen.find? fun entry => entry.1 = identity with
  | some e => rfl
  | none =>
    by_cases h : entry.1 = identity
    · simp [h]
    · simp [h]

theorem Counted.label (h : Counted groupBy size seen s) {identity : Nat} (hlt : identity < size) :
    s.labels[identity]?.join = firstLabel groupBy seen identity := by
  simp [h.labels, hlt]

theorem counts_concat (h : Counted groupBy size seen s) (entry : Nat × CommandEvent) :
    s.counts.modify entry.1 (· + 1)
      = (List.range size).map fun identity => ((seen ++ [entry]).map Prod.fst).count identity := by
  rw [h.counts]
  refine List.ext_getElem? fun i => ?_
  rw [List.getElem?_modify, List.getElem?_map, List.getElem?_map]
  rcases Nat.lt_or_ge i size with hlt | hge
  · rw [List.getElem?_range hlt]
    by_cases heq : entry.1 = i
    · simp [heq]
    · simp [heq]
  · simp [hge]

theorem Counted.again (h : Counted groupBy size seen s) {entry : Nat × CommandEvent}
    (hlt : entry.1 < size) {label : Str} (hlabel : s.labels[entry.1]?.join = some label) :
    Counted groupBy size (seen ++ [entry])
      { s with counts := s.counts.modify entry.1 (· + 1) } where
  labels := by
    rw [h.label hlt] at hlabel
    rw [h.labels]
    refine List.map_congr_left fun identity _ => ?_
    rw [firstLabel_concat]
    by_cases heq : entry.1 = identity
    · rw [← heq, hlabel]
      rfl
    · rw [if_neg heq, Option.or_none]
  counts := counts_concat h entry
  kept := h.kept

theorem sum_set_none {labels : List (Option Str)} {i : Nat} (hi : i < labels.length)
    (hnone : labels[i]?.join = none) (label : Str) :
    ((labels.set i (some label)).map labelBytes).sum
      = (labels.map labelBytes).sum + (byteLen label + entryOverheadBytes) := by
  have hget : labels[i] = none := by simpa [List.getElem?_eq_getElem hi] using hnone
  have hsplit : labels = labels.take i ++ none :: labels.drop (i + 1) := by
    rw [← hget, List.getElem_cons_drop, List.take_append_drop]
  rw [List.set_eq_take_append_cons_drop, if_pos hi]
  conv_rhs => rw [hsplit]
  simp only [List.map_append, List.map_cons, List.sum_append, List.sum_cons, labelBytes,
    Option.map_some, Option.getD_some, Option.map_none, Option.getD_none]
  omega

theorem Counted.first (h : Counted groupBy size seen s) {entry : Nat × CommandEvent}
    (hlt : entry.1 < size) (hnone : s.labels[entry.1]?.join = none) :
    Counted groupBy size (seen ++ [entry])
      { labels := s.labels.set entry.1 (some (groupKey groupBy entry.2))
        counts := s.counts.modify entry.1 (· + 1)
        kept := s.kept + (byteLen (groupKey groupBy entry.2) + entryOverheadBytes) } where
  labels := by
    have hfirst := (h.label hlt).symm.trans hnone
    rw [h.labels]
    refine List.ext_getElem? fun i => ?_
    rw [List.getElem?_set, List.getElem?_map, List.getElem?_map]
    by_cases heq : entry.1 = i
    · subst heq
      rw [if_pos rfl, List.getElem?_range hlt, List.length_map, List.length_range, if_pos hlt]
      simp [firstLabel_concat, hfirst]
    · rw [if_neg heq]
      refine Option.map_congr fun j hj => ?_
      have hij : j = i := by
        rcases Nat.lt_or_ge i size with hi | hi
        · rw [List.getElem?_range hi] at hj
          exact (Option.some.inj hj).symm
        · simp [hi] at hj
      rw [firstLabel_concat, hij, if_neg heq, Option.or_none]
  counts := counts_concat h entry
  kept := by
    have hlength : entry.1 < s.labels.length := by simpa [h.labels] using hlt
    rw [sum_set_none hlength hnone, h.kept]

variable (start n) in
theorem countEvent_counted (h : Counted groupBy size seen s) {entry : Nat × CommandEvent}
    (hlt : entry.1 < size) :
    Triple (At start (n + s.kept)) (countEvent groupBy s entry)
      (fun s budget => Counted groupBy size (seen ++ [entry]) s ∧ At start (n + s.kept) budget)
      (Sound start n) := by
  rw [countEvent]
  split
  · rename_i label hlabel
    exact .pure fun budget hat => ⟨h.again hlt hlabel, hat⟩
  · rename_i hnone
    refine (triple_chargeTracked s.kept _).bind fun kept => .assume ?_
    rintro rfl
    exact .pure fun budget hat => ⟨h.first hlt hnone, hat⟩

variable (start n) in
theorem countLoop_counted (entries seen : List (Nat × CommandEvent)) (s : Counting)
    (h : Counted groupBy size seen s) (hlt : ∀ entry ∈ entries, entry.1 < size) :
    Triple (At start (n + s.kept)) (entries.foldlM (countEvent groupBy) s)
      (fun s budget => Counted groupBy size (seen ++ entries) s ∧ At start (n + s.kept) budget)
      (Sound start n) := by
  induction entries generalizing seen s with
  | nil =>
    rw [List.append_nil]
    exact .pure fun budget hat => ⟨h, hat⟩
  | cons entry entries ih =>
    rw [List.foldlM_cons]
    refine (countEvent_counted start n h (hlt _ List.mem_cons_self)).bind fun s' =>
      .assume fun h' => ?_
    have hrest := ih (seen ++ [entry]) s' h' fun e he => hlt e (List.mem_cons_of_mem _ he)
    rwa [List.append_assoc, List.singleton_append] at hrest

end

end MavenMcp.LogAnalysis
