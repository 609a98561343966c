/-
# Grouped reports

The groups that `maven-agent-log --group-by` reports.

* `groupedReport_counts`: every original value is reported once, in the order of these values, with
  the number of its events, whatever redaction does to them; and of all that the grouping was
  charged with, the budget keeps the groups alone.
* `groupedReport_labels`: the labels differ, unless a numbered label is that of another group.
-/
import Mathlib.Algebra.BigOperators.Group.List.Lemmas
import Mathlib.Data.List.Count
import MavenMcp.LogAnalysis.Labels

namespace MavenMcp.LogAnalysis

open Attempt (Triple)
open Text

section

variable {groupBy : GroupBy} {events redacted : List CommandEvent} {raw : RawGroups}
  {start : StateBudget} {n : Nat}

/-- The label of an original value: that of the first event which had it. -/
def groupLabel (groupBy : GroupBy) (events redacted : List CommandEvent) (key : Str) : Option Str :=
  ((events.zip redacted).find? fun pair => groupKey groupBy pair.1 = key).map fun pair =>
    groupKey groupBy pair.2

/-- The group of an original value. -/
def groupOf (groupBy : GroupBy) (events redacted : List CommandEvent) (key : Str) : GroupCount where
  group := (groupLabel groupBy events redacted key).getD []
  count := events.countP fun event => groupKey groupBy event = key

theorem find_zip {f : CommandEvent → Option Nat} {identity : Nat} {key : Str} :
    ∀ {ids : List Nat} {events : List CommandEvent} (redacted : List CommandEvent),
      ids.map some = events.map f →
        (∀ event ∈ events, f event = some identity ↔ groupKey groupBy event = key) →
          firstLabel groupBy (ids.zip redacted) identity = groupLabel groupBy events redacted key
  | [], [], _, _, _ => rfl
  | [], _ :: _, _, h, _ => by cases h
  | _ :: _, [], _, h, _ => by cases h
  | _ :: _, _ :: _, [], _, _ => rfl
  | id :: ids, event :: events, r :: redacted, h, hiff => by
    simp only [List.map_cons, List.cons.injEq] at h
    obtain ⟨hid, h⟩ := h
    have hrest := find_zip redacted h fun e he => hiff e (List.mem_cons_of_mem _ he)
    have hhead := hiff event List.mem_cons_self
    rw [← hid] at hhead
    rw [firstLabel, groupLabel, List.zip_cons_cons, List.zip_cons_cons, List.find?_cons,
      List.find?_cons]
    by_cases heq : id = identity
    · simp [heq, hhead.mp (congrArg some heq)]
    · simp only [heq, mt hhead.mpr fun hsome => heq (Option.some.inj hsome), decide_false]
      exact hrest

section

variable (h : Identified groupBy events raw)

include h

theorem Identified.nodup : raw.identities.values.Nodup :=
  h.numbers.nodup_iff.mpr List.nodup_range

theorem Identified.lookup_iff {key : Str} {identity : Nat}
    (hkey : raw.identities.lookup key = some identity) (event : CommandEvent) :
    raw.identities.lookup (groupKey groupBy event) = some identity ↔ groupKey groupBy event = key :=
  ⟨fun hevent => OrderedMap.key_of_value h.nodup hevent hkey, fun heq => heq ▸ hkey⟩

theorem Identified.lt_of_mem {identity : Nat} (hmem : identity ∈ raw.identities.values) :
    identity < raw.identities.size := List.mem_range.mp (h.numbers.mem_iff.mp hmem)

theorem Identified.identity_lt {identity : Nat} (hmem : identity ∈ raw.eventIdentity) :
    identity < raw.identities.size := by
  have hsome : some identity ∈ events.map fun event =>
      raw.identities.lookup (groupKey groupBy event) :=
    h.identity ▸ List.mem_map_of_mem hmem
  obtain ⟨event, -, hevent⟩ := List.mem_map.mp hsome
  exact h.lt_of_mem (List.mem_map.mpr ⟨_, OrderedMap.mem_entries_iff.mpr hevent, rfl⟩)

theorem Identified.length : raw.eventIdentity.length = events.length := by
  simpa using congrArg List.length h.identity

theorem Identified.count_identity {key : Str} {identity : Nat}
    (hkey : raw.identities.lookup key = some identity) :
    raw.eventIdentity.count identity = events.countP fun event => groupKey groupBy event = key := by
  rw [← List.count_map_of_injective raw.eventIdentity some (Option.some_injective _), h.identity,
    List.count, List.countP_map]
  refine List.countP_congr fun event _ => ?_
  simpa using h.lookup_iff hkey event

/-- **The groups** of the tables are those of the original values, in their order. -/
theorem Identified.groupsOf_eq {s : Counting} (hlen : redacted.length = events.length)
    (hs : Counted groupBy raw.identities.size (raw.eventIdentity.zip redacted) s) :
    groupsOf raw s = raw.identities.keys.map (groupOf groupBy events redacted) := by
  rw [groupsOf, OrderedMap.values, OrderedMap.keys, List.map_map, List.map_map]
  refine List.map_congr_left fun entry hentry => ?_
  have hkey : raw.identities.lookup entry.1 = some entry.2 := OrderedMap.mem_entries_iff.mp hentry
  have hlt := h.lt_of_mem (List.mem_map_of_mem (f := Prod.snd) hentry)
  have hfst : (raw.eventIdentity.zip redacted).map Prod.fst = raw.eventIdentity :=
    List.map_fst_zip (by rw [h.length, hlen])
  simp only [Function.comp_apply, groupOf, GroupCount.mk.injEq]
  constructor
  · rw [hs.label hlt, find_zip redacted h.identity fun event _ => h.lookup_iff hkey event]
  · rw [hs.counts, List.getElem?_map, List.getElem?_range hlt, hfst]
    exact h.count_identity hkey

/-- Every value was given a label. -/
theorem Identified.label_isSome (hlen : redacted.length = events.length) {key : Str}
    (hkey : key ∈ raw.identities.keys) : (groupLabel groupBy events redacted key).isSome := by
  obtain ⟨event, hevent, hkey⟩ := (h.keys key).mp hkey
  obtain ⟨i, hi, rfl⟩ := List.mem_iff_getElem.mp hevent
  have hzip : (events[i], redacted[i]) ∈ events.zip redacted := by
    refine List.mem_iff_getElem.mpr ⟨i, ?_, List.getElem_zip⟩
    rw [List.length_zip]
    omega
  rw [groupLabel, Option.isSome_map, List.find?_isSome]
  exact ⟨_, hzip, by simpa using hkey⟩

/-- What was charged for the labels. -/
theorem Identified.kept_eq {s : Counting} (hlen : redacted.length = events.length)
    (hs : Counted groupBy raw.identities.size (raw.eventIdentity.zip redacted) s) :
    s.kept = groupBytes (groupsOf raw s) + raw.identities.size * entryOverheadBytes := by
  have hperm : ((List.range raw.identities.size).map fun identity =>
      labelBytes (s.labels[identity]?.join)).Perm
        (raw.identities.values.map fun identity => labelBytes (s.labels[identity]?.join)) :=
    h.numbers.symm.map _
  have hlabels : s.labels.map labelBytes = (List.range raw.identities.size).map fun identity =>
      labelBytes (s.labels[identity]?.join) := by
    conv_lhs => rw [hs.labels]
    rw [List.map_map]
    exact List.map_congr_left fun identity hmem =>
      congrArg labelBytes (hs.label (List.mem_range.mp hmem)).symm
  have heach : ∀ identity ∈ raw.identities.values, labelBytes (s.labels[identity]?.join)
      = byteLen ((s.labels[identity]?.join).getD []) + entryOverheadBytes := by
    intro identity hmem
    obtain ⟨entry, hentry, rfl⟩ := List.mem_map.mp hmem
    have hkey : raw.identities.lookup entry.1 = some entry.2 := OrderedMap.mem_entries_iff.mp hentry
    rw [hs.label (h.lt_of_mem hmem),
      find_zip redacted h.identity fun event _ => h.lookup_iff hkey event]
    obtain ⟨label, hlabel⟩ := Option.isSome_iff_exists.mp
      (h.label_isSome hlen (List.mem_map_of_mem (f := Prod.fst) hentry))
    rw [hlabel]
    rfl
  calc s.kept = (raw.identities.values.map fun identity =>
        labelBytes (s.labels[identity]?.join)).sum := by rw [hs.kept, hlabels, hperm.sum_eq]
    _ = (raw.identities.values.map fun identity =>
        byteLen ((s.labels[identity]?.join).getD []) + entryOverheadBytes).sum := by
      rw [List.map_congr_left heach]
    _ = groupBytes (groupsOf raw s) + raw.identities.size * entryOverheadBytes := by
      rw [List.sum_map_add, List.map_const', List.sum_replicate, groupBytes, groupsOf, List.map_map]
      simp [OrderedMap.values, OrderedMap.size, Function.comp_def]

end

/-- What the budget keeps of a grouped report. -/
def reportBytes (sizes : GroupSizes) (groups : List GroupCount) : Nat :=
  groupBytes groups + groups.length * (entryOverheadBytes + sizes.groupCount)

variable (start n) in
theorem count_at (sizes : GroupSizes) (h : Identified groupBy events raw)
    (hlen : redacted.length = events.length) :
    Triple (At start (n + raw.charged)) (raw.count sizes groupBy redacted)
      (fun groups budget =>
        groups = disambiguated (raw.identities.keys.map (groupOf groupBy events redacted)) ∧
          At start (n + reportBytes sizes groups) budget) (Sound start n) := by
  have hlow : ∀ m budget, n ≤ m → Sound start m budget → Sound start n budget := by
    rintro m budget hle ⟨k, hk, hat⟩
    exact hat.sound (by omega)
  refine Triple.bind ((triple_chargeTracked (n := n + raw.charged) 0 _).conseq (fun _ => id)
    (fun _ _ => id) (hlow _ · (by omega))) fun workspace => .assume ?_
  rintro -
  refine Triple.bind (Q := fun s budget => Counted groupBy raw.identities.size
      (raw.eventIdentity.zip redacted) s ∧ At start (n + raw.charged + workspace + s.kept) budget)
    ?_ fun s => .assume fun hs => ?_
  · refine (countLoop_counted start (n + raw.charged + workspace) _ [] _ counted_nil
      fun entry hentry => h.identity_lt (List.of_mem_zip hentry).1).conseq
        (fun _ hat => hat) (fun _ _ => id) (hlow _ · (by omega))
  have hkept := h.kept_eq hlen hs
  have hlength : (groupsOf raw s).length = raw.identities.size := by
    simp [groupsOf, OrderedMap.values, OrderedMap.size]
  refine Triple.bind ((triple_chargeTracked (n := n + raw.charged + workspace) s.kept _).conseq
    (fun _ => id) (fun _ _ => id) (hlow _ · (by omega))) fun total => .assume fun htotal => ?_
  refine Triple.bind (Q := fun _ => At start (n + total)) ((triple_release
    (n := n + raw.charged + workspace + total) (by omega)).conseq (fun _ => id)
      (fun _ _ hat => hat.congr (by omega)) fun _ => id) fun _ => ?_
  -- the tables are given back; what is left are the groups
  have hbytes : total = raw.identities.size * (entryOverheadBytes + sizes.groupCount)
      + groupBytes (groupsOf raw s) := by
    rw [htotal, hkept, Nat.mul_add]
    omega
  refine (disambiguateLabels_at (n := n + raw.identities.size
    * (entryOverheadBytes + sizes.groupCount)) sizes (groupsOf raw s)).conseq
      (fun _ hat => hat.congr (by omega)) (fun groups budget ⟨heq, hat⟩ => ?_) (hlow _ · (by omega))
  subst heq
  refine ⟨by rw [h.groupsOf_eq hlen hs], hat.congr ?_⟩
  rw [reportBytes, length_disambiguated, hlength]
  omega

/-- What the redaction of a report leaves of its events. -/
def Redacts (u : Unicode) (events redacted : List CommandEvent) : Option RedactionSettings → Prop
  | none => redacted = events
  | some _ => ∃ tables, redacted = events.map (redactEvent u tables)

theorem Redacts.length {u : Unicode} {settings : Option RedactionSettings}
    (h : Redacts u events redacted settings) : redacted.length = events.length := by
  cases settings with
  | none => exact congrArg List.length h
  | some settings =>
    obtain ⟨tables, rfl⟩ := h
    exact List.length_map _

theorem redactEach_eq (sizes : Sizes) (u : Unicode) (tables : Tables) (events : List CommandEvent) :
    Triple (fun _ => True) (redactEach sizes u tables events)
      (fun redacted _ => redacted = events.map (redactEvent u tables)) fun _ => True := by
  induction events with
  | nil => exact .pure fun _ _ => rfl
  | cons event events ih =>
    rw [redactEach]
    refine Triple.bind (Q := fun _ _ => True) (.intro (fun _ _ _ _ _ => trivial)
      fun _ _ _ _ _ => trivial) fun _ => ih.bind fun redacted => .pure fun _ h => ?_
    rw [h]
    rfl

theorem redactEventsWithin_redacts (sizes : Sizes) (u : Unicode) (settings : RedactionSettings)
    (events : List CommandEvent) :
    Triple (fun _ => True) (redactEventsWithin sizes u settings events)
      (fun redacted _ => Redacts u events redacted (some settings)) fun _ => True := by
  intro budget _
  rw [redactEventsWithin, Attempt.answer_of]
  generalize (discover settings events).answer { tables := .empty, budget } = r
  rcases r with ⟨e | ⟨⟩, s⟩
  · trivial
  · have heach := redactEach_eq sizes u s.tables events s.budget trivial
    simp only
    generalize (redactEach sizes u s.tables events).answer s.budget = r at heach ⊢
    rcases r with ⟨e | redacted, after⟩
    · trivial
    · exact ⟨s.tables, heach⟩

theorem sum_countP_keys {keys : List Str} (hnodup : keys.Nodup)
    (hkeys : ∀ key, key ∈ keys ↔ ∃ event ∈ events, groupKey groupBy event = key) :
    (keys.map fun key => events.countP fun event => groupKey groupBy event = key).sum
      = events.length := by
  have hperm : keys.Perm (events.map (groupKey groupBy)).dedup := by
    refine (List.perm_ext_iff_of_nodup hnodup (List.nodup_dedup _)).mpr fun key => ?_
    rw [List.mem_dedup, List.mem_map, hkeys key]
  have hsum := List.sum_map_count_dedup_eq_length (events.map (groupKey groupBy))
  rw [List.length_map] at hsum
  rw [(hperm.map _).sum_eq, ← hsum]
  refine congrArg List.sum (List.map_congr_left fun key _ => ?_)
  unfold List.count
  rw [List.countP_map]
  exact List.countP_congr fun event _ => by simp

variable (start n) in
/-- The groups of a report, and what they are charged. -/
theorem groupedReport_at (eventSizes : Sizes) (sizes : GroupSizes) (u : Unicode)
    (settings : Option RedactionSettings) (groupBy : GroupBy) (events : List CommandEvent) :
    Triple (At start (n + retainedBytes eventSizes events))
      (groupedReport sizes groupBy eventSizes u settings events)
      (fun groups budget => ∃ (redacted : List CommandEvent) (raw : RawGroups),
        (Redacts u events redacted settings ∧ Identified groupBy events raw) ∧
        groups = disambiguated (raw.identities.keys.map (groupOf groupBy events redacted)) ∧
        At start (n + retainedBytes eventSizes redacted + reportBytes sizes groups) budget)
      (Sound start n) := by
  have hlow : ∀ m budget, n ≤ m → Sound start m budget → Sound start n budget := by
    rintro m budget hle ⟨k, hk, hat⟩
    exact hat.sound (by omega)
  refine Triple.bind ((collect_identified start (n + retainedBytes eventSizes events) sizes
    events).conseq (fun _ => id) (fun _ _ => id) (hlow _ · (by omega))) fun raw =>
      .assume fun h => ?_
  refine Triple.bind (Q := fun redacted budget => Redacts u events redacted settings ∧
    At start (n + retainedBytes eventSizes redacted + raw.charged) budget) ?_ fun redacted =>
      .assume fun hredacts => ?_
  · cases settings with
    | none => exact .pure fun _ hat => ⟨rfl, hat⟩
    | some settings =>
      refine ((redactEventsWithin_redacts eventSizes u settings events).and
        (redactEventsWithin_at eventSizes start (n := n + raw.charged) settings events)).conseq
          (fun _ hat => ⟨trivial, hat.congr (by omega)⟩)
          (fun _ _ hat => ⟨hat.1, hat.2.congr (by omega)⟩) fun _ hsound =>
            hlow _ _ (by omega) hsound.2
  · exact (count_at start (n + retainedBytes eventSizes redacted) sizes h hredacts.length).conseq
      (fun _ => id) (fun groups budget ⟨heq, hat⟩ => ⟨redacted, raw, ⟨hredacts, h⟩, heq, hat⟩)
      (hlow _ · (by omega))

/-- **A grouped report** has one group for each original value, in the order of the values; no
event is lost or counted twice, and the budget keeps the events and the groups alone. -/
theorem groupedReport_counts (start : StateBudget) (n : Nat) (eventSizes : Sizes)
    (sizes : GroupSizes) (u : Unicode) (settings : Option RedactionSettings) (groupBy : GroupBy)
    (events : List CommandEvent) :
    Triple (At start (n + retainedBytes eventSizes events))
      (groupedReport sizes groupBy eventSizes u settings events)
      (fun groups budget => ∃ (redacted : List CommandEvent) (keys : List Str),
        Redacts u events redacted settings ∧
        keys.Pairwise (fun a b => strCompare a b = .lt) ∧
        (∀ key, key ∈ keys ↔ ∃ event ∈ events, groupKey groupBy event = key) ∧
        groups = disambiguated (keys.map (groupOf groupBy events redacted)) ∧
        groups.map GroupCount.count = keys.map (fun key =>
          events.countP fun event => groupKey groupBy event = key) ∧
        (groups.map GroupCount.count).sum = events.length ∧
        At start (n + retainedBytes eventSizes redacted + reportBytes sizes groups) budget)
      (Sound start n) := by
  refine (groupedReport_at start n eventSizes sizes u settings groupBy events).conseq
    (fun _ => id) ?_ fun _ => id
  rintro groups budget ⟨redacted, raw, ⟨hredacts, h⟩, heq, hat⟩
  have hcounts : groups.map GroupCount.count = raw.identities.keys.map (fun key =>
      events.countP fun event => groupKey groupBy event = key) := by
    rw [heq, map_count_disambiguated, List.map_map]
    rfl
  refine ⟨redacted, raw.identities.keys, hredacts, raw.identities.sorted, h.keys, heq, hcounts, ?_,
    hat⟩
  rw [hcounts]
  exact sum_countP_keys (OrderedMap.nodup_keys _) h.keys

/-- A command without a category of its own. -/
def recordedUnder (ide : Str) : CommandEvent where
  timestamp := none
  ide
  agent := none
  project := none
  session := none
  tool := "bash".toList
  cwd := none
  command := "ls".toList
  category := .shell
  callId := none
  maven := none
  provenance := []

/-- The budget of three such commands. -/
def threeRecorded : StateBudget := { StateBudget.new 1000 with used := 24 }

theorem at_threeRecorded : At (.new 1000) (0 + retainedBytes ⟨1, 1, 1, 1, 1⟩
    (["b".toList, "a".toList, "b".toList].map recordedUnder)) threeRecorded where
  eq := by decide
  within := by decide

theorem groupedReport_counts_threeRecorded :
    ∃ groups budget redacted,
      (groupedReport ⟨8, 16, 16, 24, 32⟩ .ide ⟨1, 1, 1, 1, 1⟩ .asciiOnly none
        (["b".toList, "a".toList, "b".toList].map recordedUnder)).answer threeRecorded
          = (.ok groups, budget) ∧
      groups.map GroupCount.count = [1, 2] ∧ (groups.map GroupCount.count).sum = 3 ∧
      At (.new 1000) (0 + retainedBytes ⟨1, 1, 1, 1, 1⟩ redacted
        + reportBytes ⟨8, 16, 16, 24, 32⟩ groups) budget := by
  have hanswer : (groupedReport ⟨8, 16, 16, 24, 32⟩ .ide ⟨1, 1, 1, 1, 1⟩ .asciiOnly none
      (["b".toList, "a".toList, "b".toList].map recordedUnder)).answer threeRecorded
        = (.ok [⟨"a".toList, 1⟩, ⟨"b".toList, 2⟩], { StateBudget.new 1000 with used := 186 }) := by
    decide +kernel
  obtain ⟨redacted, keys, -, -, -, -, -, hsum, hat⟩ := (groupedReport_counts (.new 1000) 0
    ⟨1, 1, 1, 1, 1⟩ ⟨8, 16, 16, 24, 32⟩ .asciiOnly none .ide _).ok at_threeRecorded hanswer
  exact ⟨_, _, redacted, hanswer, rfl, hsum, hat⟩

end

end MavenMcp.LogAnalysis
