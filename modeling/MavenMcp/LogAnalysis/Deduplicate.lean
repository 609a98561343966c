/-
# One event for each call

A call is recorded more than once: its command grows while it is edited, and files are mirrored.
`deduplicate_events_within` merges the events of one identity into the first of them, which takes
the longest command and the earliest time.

* `dedupLoop_tracks`: the loop keeps one survivor for each key, with every event of the key merged
  into it (`Merging.Merged`).
* `fold1_perm_iff`: which event survives a group depends on the order exactly when the events with
  the longest command differ in more than their time.
* `deduplicate_iff`: so the events that survive depend on the order in which logs are read, and a
  second pass changes nothing only where the keys of the survivors differ.
-/
import Mathlib.Data.List.Perm.Subperm
import MavenMcp.Lib.Merging
import MavenMcp.Lib.Table
import MavenMcp.LogAnalysis.Events

namespace MavenMcp.LogAnalysis

open Text Merging

/-! ## 1. Identities -/

/-- What tells calls apart, beside the fields of the key. -/
inductive DedupIdentity
  | id (callId : Str)
  | event (text : Str)
deriving DecidableEq, Repr

structure DedupKey where
  ide : Str
  agent : Option Str
  project : Option Str
  /-- The session, or the provenance of an event without one. -/
  session : Str
  tool : Str
  identity : DedupIdentity
deriving DecidableEq, Repr

def nul : Char := Char.ofNat 0

/-- Time, directory and command, as one text. -/
def untimedText (event : CommandEvent) : Str :=
  nul :: (event.cwd.getD [] ++ nul :: event.command)

def dedupIdentity (event : CommandEvent) : Option DedupIdentity :=
  match event.callId with
  | some id => some (.id id)
  | none => event.timestamp.map fun time => .event (time ++ untimedText event)

def dedupKey (event : CommandEvent) : Option DedupKey :=
  (dedupIdentity event).map fun identity =>
    { ide := event.ide, agent := event.agent, project := event.project
      session := event.session.getD event.provenance, tool := event.tool, identity }

def DedupIdentity.text : DedupIdentity → Str
  | .id callId => callId
  | .event text => text

variable (sizes : Sizes)

def dedupKeyBytes (key : DedupKey) : Nat :=
  sizes.dedupKey + entryOverheadBytes + byteLen key.ide + optionalLen key.agent
    + optionalLen key.project + byteLen key.session + byteLen key.tool + byteLen key.identity.text

/-! ## 2. Merging two events -/

/-- The earlier of two times, where there are two. -/
def earliest : Option Str → Option Str → Option Str
  | some a, some b => some (if strLe a b then a else b)
  | some a, none => some a
  | none, b => b

/-- The shorter command, and of two commands of one length the first. -/
def commandLe (a b : Str) : Bool :=
  decide (byteLen a < byteLen b) || decide (byteLen a = byteLen b) && strLe a b

/-- The more complete of two events: the first, unless the second has the longer command. -/
def moreComplete (previous event : CommandEvent) : CommandEvent :=
  if commandLe event.command previous.command then previous else event

def mergeEvents (previous event : CommandEvent) : CommandEvent :=
  { moreComplete previous event with timestamp := earliest previous.timestamp event.timestamp }

/-! ## 3. The loop -/

structure DedupState where
  calls : Table DedupKey Nat
  result : List CommandEvent
  /-- The bytes of the keys. -/
  charged : Nat
  inBounds : ∀ key index, calls.lookup key = some index → index < result.length

def DedupState.empty : DedupState :=
  { calls := ∅, result := [], charged := 0, inBounds := nofun }

namespace DedupState

/-- `result.push`. -/
def push (s : DedupState) (event : CommandEvent) : DedupState :=
  { s with
    result := s.result ++ [event]
    inBounds := fun key index h => by
      have hlt := s.inBounds key index h
      rw [List.length_append]
      omega }

/-- `calls.insert(key, result.len())` and `result.push`. -/
def pushCall (s : DedupState) (key : DedupKey) (event : CommandEvent) (bytes : Nat) : DedupState :=
  { calls := s.calls.insert key s.result.length
    result := s.result ++ [event]
    charged := s.charged + bytes
    inBounds := fun key' index h => by
      rw [List.length_append, List.length_singleton]
      rcases AList.lookup_insert_eq_some.mp h with ⟨-, rfl⟩ | ⟨-, h⟩
      · exact Nat.lt_succ_self _
      · exact Nat.lt_succ_of_lt (s.inBounds key' index h) }

/-- The survivor at an index, replaced. -/
def replace (s : DedupState) (index : Nat) (survivor : CommandEvent) : DedupState :=
  { s with
    result := s.result.set index survivor
    inBounds := fun key index' h => by
      rw [List.length_set]
      exact s.inBounds key index' h }

end DedupState

/-- One event. -/
def dedupEvent (event : CommandEvent) (s : DedupState) (budget : StateBudget) :
    Except LimitExceeded DedupState × StateBudget :=
  match dedupKey event with
  | none => (.ok (s.push event), budget)
  | some key =>
    match h : s.calls.lookup key with
    | some index =>
      have := s.inBounds key index h
      let previous := s.result[index]
      let mergedBytes := previous.retainedBytes sizes + event.retainedBytes sizes
      let survivor := mergeEvents previous event
      match (budget.release mergedBytes).charge (survivor.retainedBytes sizes) with
      | (.error e, budget) => (.error e, budget.release s.charged)
      | (.ok (), budget) => (.ok (s.replace index survivor), budget)
    | none =>
      match budget.charge (dedupKeyBytes sizes key) with
      | (.error e, budget) => (.error e, budget.release s.charged)
      | (.ok (), budget) => (.ok (s.pushCall key event (dedupKeyBytes sizes key)), budget)

def dedupLoop : List CommandEvent → DedupState → StateBudget →
    Except LimitExceeded DedupState × StateBudget
  | [], s, budget => (.ok s, budget)
  | event :: events, s, budget =>
    match dedupEvent sizes event s budget with
    | (.error e, budget) => (.error e, budget)
    | (.ok s, budget) => dedupLoop events s budget

def deduplicateEventsWithin (events : List CommandEvent) (budget : StateBudget) :
    Except LimitExceeded (List CommandEvent) × StateBudget :=
  match dedupLoop sizes events .empty budget with
  | (.error e, budget) => (.error e, budget)
  | (.ok s, budget) => (.ok (sortEvents s.result), budget.release s.charged)

/-! ## 4. Survivors -/

section

variable {events : List CommandEvent} {event : CommandEvent} {s t : DedupState}
  {budget after : StateBudget}

/-- The state after these events; each survivor stands beside the key of its calls. -/
structure Tracks (events : List CommandEvent) (s : DedupState)
    (entries : List (Option DedupKey × CommandEvent)) : Prop where
  result : entries.map Prod.snd = s.result
  calls : ∀ key index, s.calls.lookup key = some index ↔
    (entries.map Prod.fst)[index]? = some (some key)
  merged : Merged dedupKey mergeEvents events entries

theorem tracks_empty : Tracks [] .empty [] where
  result := rfl
  calls := fun _ _ => iff_of_false nofun nofun
  merged := merged_nil

theorem Tracks.push {entries : List (Option DedupKey × CommandEvent)} (h : Tracks events s entries)
    (hkey : dedupKey event = none) :
    Tracks (events ++ [event]) (s.push event) (entries ++ [(none, event)]) where
  result := by
    rw [List.map_append, h.result]
    rfl
  calls := fun key index => by
    change s.calls.lookup key = some index ↔ _
    rw [h.calls, List.map_append, List.getElem?_append]
    split
    · exact Iff.rfl
    · rename_i hlen
      rw [List.getElem?_eq_none (Nat.le_of_not_lt hlen)]
      refine iff_of_false nofun fun hget => ?_
      have hmem := List.mem_of_getElem? hget
      cases List.mem_singleton.mp hmem
  merged := h.merged.push_none hkey

theorem Tracks.pushCall {entries : List (Option DedupKey × CommandEvent)} {key : DedupKey}
    (h : Tracks events s entries) (hkey : dedupKey event = some key)
    (hnew : s.calls.lookup key = none) (bytes : Nat) :
    Tracks (events ++ [event]) (s.pushCall key event bytes) (entries ++ [(some key, event)]) where
  result := by
    rw [List.map_append, h.result]
    rfl
  calls := fun key' index => by
    have hlength : s.result.length = (entries.map Prod.fst).length := by
      rw [← h.result, List.length_map, List.length_map]
    change (s.calls.insert key s.result.length).lookup key' = some index ↔ _
    have hother : ∀ i, (entries.map Prod.fst)[i]? ≠ some (some key) := fun i hget => by
      cases hnew.symm.trans ((h.calls key i).mpr hget)
    rw [AList.lookup_insert_eq_some, h.calls, List.map_append, List.getElem?_append, hlength]
    split
    · rename_i hlt
      constructor
      · rintro (⟨-, rfl⟩ | ⟨-, hget⟩)
        · exact absurd hlt (Nat.lt_irrefl _)
        · exact hget
      · refine fun hget => .inr ⟨?_, hget⟩
        rintro rfl
        exact hother index hget
    · rename_i hlt
      rw [List.getElem?_eq_none (Nat.le_of_not_lt hlt), List.map_singleton,
        List.getElem?_singleton]
      constructor
      · rintro (⟨rfl, rfl⟩ | ⟨-, hget⟩)
        · rw [Nat.sub_self, if_pos rfl]
        · cases hget
      · intro hget
        split at hget
        · cases hget
          exact .inl ⟨rfl, by omega⟩
        · cases hget
  merged := by
    refine h.merged.push_new hkey fun e he hfst => ?_
    obtain ⟨index, hindex⟩ := List.getElem?_of_mem he
    have hlookup := (h.calls key index).mpr (by rw [List.getElem?_map, hindex, ← hfst]; rfl)
    rw [hnew] at hlookup
    cases hlookup

theorem Tracks.replace {entries : List (Option DedupKey × CommandEvent)} {key : DedupKey}
    {index : Nat} (h : Tracks events s entries) (hkey : dedupKey event = some key)
    (hlookup : s.calls.lookup key = some index) (hlt : index < s.result.length) :
    ∃ entries', Tracks (events ++ [event])
      (s.replace index (mergeEvents s.result[index] event)) entries' := by
  have hindex : index < entries.length := by
    rw [← h.result, List.length_map] at hlt
    exact hlt
  rcases hentry : entries[index] with ⟨owner, survivor⟩
  have howner : owner = some key := by
    have hget := (h.calls key index).mp hlookup
    rw [List.getElem?_map, List.getElem?_eq_getElem hindex, hentry] at hget
    exact Option.some.inj hget
  have hsurvivor : s.result[index] = survivor := by
    simp only [← h.result, List.getElem_map, hentry]
  subst howner
  refine ⟨entries.set index (some key, mergeEvents survivor event), ?_, fun key' index' => ?_, ?_⟩
  · rw [List.map_set, h.result, hsurvivor]
    rfl
  · change s.calls.lookup key' = some index' ↔ _
    have hsame : (entries.map Prod.fst).set index (some key) = entries.map Prod.fst := by
      have hlength : index < (entries.map Prod.fst).length := by rwa [List.length_map]
      have hfst : (entries.map Prod.fst)[index] = some key := by rw [List.getElem_map, hentry]
      rw [← hfst, List.set_getElem_self]
    rw [h.calls, List.map_set, hsame]
  · rw [List.set_eq_take_append_cons_drop, if_pos hindex]
    refine Merged.merge_into ?_ hkey
    rw [← hentry, List.getElem_cons_drop hindex, List.take_append_drop]
    exact h.merged

/-- **One event** is pushed or merged. -/
theorem dedupEvent_tracks {entries : List (Option DedupKey × CommandEvent)}
    (h : Tracks events s entries) (hstep : dedupEvent sizes event s budget = (.ok t, after)) :
    ∃ entries', Tracks (events ++ [event]) t entries' := by
  unfold dedupEvent at hstep
  split at hstep
  · rename_i hkey
    obtain ⟨hok, -⟩ := Prod.mk.inj hstep
    cases hok
    exact ⟨_, h.push hkey⟩
  · rename_i key hkey
    split at hstep
    · rename_i index hlookup
      simp only at hstep
      split at hstep
      · cases (Prod.mk.inj hstep).1
      · obtain ⟨hok, -⟩ := Prod.mk.inj hstep
        cases hok
        exact h.replace hkey hlookup _
    · rename_i hlookup
      split at hstep
      · cases (Prod.mk.inj hstep).1
      · obtain ⟨hok, -⟩ := Prod.mk.inj hstep
        cases hok
        exact ⟨_, h.pushCall hkey hlookup _⟩

/-- **All events.** -/
theorem dedupLoop_tracks {events' : List CommandEvent}
    {entries : List (Option DedupKey × CommandEvent)} (h : Tracks events s entries)
    (hloop : dedupLoop sizes events' s budget = (.ok t, after)) :
    ∃ entries', Tracks (events ++ events') t entries' := by
  induction events' generalizing events s budget entries with
  | nil =>
    obtain ⟨hok, -⟩ := Prod.mk.inj hloop
    cases hok
    exact ⟨entries, by rwa [List.append_nil]⟩
  | cons event events' ih =>
    unfold dedupLoop at hloop
    split at hloop
    · cases (Prod.mk.inj hloop).1
    · rename_i hstep
      obtain ⟨entries', h'⟩ := dedupEvent_tracks sizes h hstep
      rw [← List.singleton_append, ← List.append_assoc]
      exact ih h' hloop

/-! ## 5. Without a limit -/

theorem charge_unlimited (h : budget.limit = none) (bytes : Nat) :
    budget.charge bytes = (.ok (), { budget with used := budget.used + bytes }) := by
  rw [StateBudget.charge, h]
  rfl

theorem dedupEvent_unlimited (h : budget.limit = none) (event : CommandEvent) (s : DedupState) :
    ∃ t after, dedupEvent sizes event s budget = (.ok t, after) ∧ after.limit = none := by
  unfold dedupEvent
  split
  · exact ⟨_, _, rfl, h⟩
  · split
    · have hrelease : ∀ bytes, (budget.release bytes).limit = none := fun _ => h
      simp only [charge_unlimited (hrelease _)]
      exact ⟨_, _, rfl, h⟩
    · rw [charge_unlimited h]
      exact ⟨_, _, rfl, h⟩

theorem dedupLoop_unlimited (h : budget.limit = none) (events : List CommandEvent)
    (s : DedupState) : ∃ t after, dedupLoop sizes events s budget = (.ok t, after) := by
  induction events generalizing s budget with
  | nil => exact ⟨_, _, rfl⟩
  | cons event events ih =>
    obtain ⟨t, after, hstep, hafter⟩ := dedupEvent_unlimited sizes h event s
    rw [dedupLoop, hstep]
    exact ih hafter t

theorem limit_unlimited : StateBudget.unlimited.limit = none := rfl

theorem deduplicateEventsWithin_unlimited (events : List CommandEvent) :
    ∃ result, (deduplicateEventsWithin sizes events .unlimited).1 = .ok result := by
  obtain ⟨t, after, hloop⟩ := dedupLoop_unlimited sizes limit_unlimited events .empty
  rw [deduplicateEventsWithin, hloop]
  exact ⟨_, rfl⟩

/-- `deduplicate_events`; an unlimited budget cannot be exceeded. -/
def deduplicateEvents (events : List CommandEvent) : List CommandEvent :=
  match h : (deduplicateEventsWithin sizes events .unlimited).1 with
  | .ok result => result
  | .error _ => absurd (deduplicateEventsWithin_unlimited sizes events) (by rw [h]; exact nofun)

/-- **What survives**: the survivors of the keys, in the order of `sort_events`. -/
theorem deduplicateEvents_merged (events : List CommandEvent) :
    ∃ entries, Merged dedupKey mergeEvents events entries ∧
      deduplicateEvents sizes events = sortEvents (entries.map Prod.snd) := by
  obtain ⟨t, after, hloop⟩ := dedupLoop_unlimited sizes limit_unlimited events .empty
  obtain ⟨entries, h⟩ := dedupLoop_tracks sizes tracks_empty hloop
  refine ⟨entries, h.merged, ?_⟩
  unfold deduplicateEvents
  split
  · rename_i result hresult
    rw [deduplicateEventsWithin, hloop] at hresult
    obtain rfl := Except.ok.inj hresult
    rw [h.result]
  · rename_i e he
    rw [deduplicateEventsWithin, hloop] at he
    cases he

end

/-! ## 6. The survivor of a group -/

theorem commandLe_trans {a b c : Str} (h : commandLe a b = true) (h' : commandLe b c = true) :
    commandLe a c = true := by
  simp only [commandLe, Bool.or_eq_true, Bool.and_eq_true, decide_eq_true_eq] at h h' ⊢
  rcases h with h | ⟨h, hle⟩
  · omega
  · rcases h' with h' | ⟨h', hle'⟩
    · omega
    · exact .inr ⟨h.trans h', strLe_trans hle hle'⟩

theorem commandLe_total (a b : Str) : commandLe a b = true ∨ commandLe b a = true := by
  simp only [commandLe, Bool.or_eq_true, Bool.and_eq_true, decide_eq_true_eq]
  rcases Nat.lt_trichotomy (byteLen a) (byteLen b) with h | h | h
  · exact .inl (.inl h)
  · rcases strLe_total a b with hle | hle
    · exact .inl (.inr ⟨h, hle⟩)
    · exact .inr (.inr ⟨h.symm, hle⟩)
  · exact .inr (.inl h)

/-- No later than; an event without a time is later than all others. -/
def timeLe : Option Str → Option Str → Bool
  | _, none => true
  | none, some _ => false
  | some a, some b => strLe a b

theorem timeLe_trans {a b c : Option Str} (h : timeLe a b = true) (h' : timeLe b c = true) :
    timeLe a c = true := by
  cases c with
  | none => cases a <;> rfl
  | some c =>
    cases b with
    | none => cases h'
    | some b =>
      cases a with
      | none => cases h
      | some a => exact strLe_trans h h'

theorem timeLe_antisymm {a b : Option Str} (h : timeLe a b = true) (h' : timeLe b a = true) :
    a = b := by
  cases a with
  | none =>
    cases b with
    | none => rfl
    | some b => cases h
  | some a =>
    cases b with
    | none => cases h'
    | some b => rw [strLe_antisymm h h']

/-- The earlier of two times is one of them, and no later than both. -/
theorem earliest_cases (a b : Option Str) :
    earliest a b = a ∧ timeLe a b = true ∨ earliest a b = b ∧ timeLe b a = true := by
  cases a with
  | none =>
    cases b with
    | none => exact .inl ⟨rfl, rfl⟩
    | some b => exact .inr ⟨rfl, rfl⟩
  | some a =>
    cases b with
    | none => exact .inl ⟨rfl, rfl⟩
    | some b =>
      simp only [earliest]
      by_cases h : strLe a b = true
      · exact .inl ⟨by rw [if_pos h], h⟩
      · exact .inr ⟨by rw [if_neg h], (strLe_total a b).resolve_left h⟩

/-- The event has the longest command of these. -/
def Longest (events : List CommandEvent) (a : CommandEvent) : Prop :=
  a ∈ events ∧ ∀ b ∈ events, commandLe b.command a.command = true

/-- The event has the earliest time of these. -/
def Earliest (events : List CommandEvent) (a : CommandEvent) : Prop :=
  a ∈ events ∧ ∀ b ∈ events, timeLe a.timestamp b.timestamp = true

theorem longest_singleton (a : CommandEvent) : Longest [a] a :=
  ⟨List.mem_singleton_self a, fun _ hb => by
    rw [List.mem_singleton.mp hb]
    exact (commandLe_total a.command a.command).elim id id⟩

theorem earliest_singleton (a : CommandEvent) : Earliest [a] a :=
  ⟨List.mem_singleton_self a, fun _ hb => by
    rw [List.mem_singleton.mp hb]
    rcases earliest_cases a.timestamp a.timestamp with ⟨-, h⟩ | ⟨-, h⟩
    all_goals exact h⟩

theorem Longest.concat {l : List CommandEvent} {a : CommandEvent} (h : Longest l a)
    (b : CommandEvent) : Longest (l ++ [b]) (moreComplete a b) := by
  unfold moreComplete
  split
  · rename_i hle
    refine ⟨List.mem_append_left _ h.1, fun c hc => ?_⟩
    rcases List.mem_append.mp hc with hc | hc
    · exact h.2 c hc
    · rw [List.mem_singleton.mp hc]
      exact hle
  · rename_i hle
    have hlt := (commandLe_total a.command b.command).resolve_right hle
    refine ⟨List.mem_append_right _ (List.mem_singleton_self b), fun c hc => ?_⟩
    rcases List.mem_append.mp hc with hc | hc
    · exact commandLe_trans (h.2 c hc) hlt
    · exact (longest_singleton b).2 c hc

theorem Earliest.concat {l : List CommandEvent} {a : CommandEvent} (h : Earliest l a)
    (b : CommandEvent) :
    ∃ c, Earliest (l ++ [b]) c ∧ earliest a.timestamp b.timestamp = c.timestamp := by
  rcases earliest_cases a.timestamp b.timestamp with ⟨heq, hle⟩ | ⟨heq, hle⟩
  · refine ⟨a, ⟨List.mem_append_left _ h.1, fun c hc => ?_⟩, heq⟩
    rcases List.mem_append.mp hc with hc | hc
    · exact h.2 c hc
    · rw [List.mem_singleton.mp hc]
      exact hle
  · refine ⟨b, ⟨List.mem_append_right _ (List.mem_singleton_self b), fun c hc => ?_⟩, heq⟩
    rcases List.mem_append.mp hc with hc | hc
    · exact timeLe_trans hle (h.2 c hc)
    · exact (earliest_singleton b).2 c hc

/-- **The survivor** is an event with the longest command, at the earliest time. -/
theorem survivor_of_fold1 {l : List CommandEvent} {x : CommandEvent}
    (h : fold1 mergeEvents l = some x) :
    ∃ a c, Longest l a ∧ Earliest l c ∧ x = { a with timestamp := c.timestamp } := by
  induction l using List.reverseRecOn generalizing x with
  | nil => cases h
  | append_singleton l b ih =>
    rw [fold1_concat] at h
    cases hfold : fold1 mergeEvents l with
    | none =>
      rw [hfold] at h
      obtain rfl := Option.some.inj h
      rw [fold1_eq_none.mp hfold]
      exact ⟨b, b, longest_singleton b, earliest_singleton b, rfl⟩
    | some y =>
      rw [hfold] at h
      obtain rfl := Option.some.inj h
      obtain ⟨a, c, ha, hc, rfl⟩ := ih hfold
      obtain ⟨d, hd, htime⟩ := hc.concat b
      refine ⟨moreComplete a b, d, ha.concat b, hd, ?_⟩
      simp only [Option.map_some, Option.getD_some, mergeEvents, moreComplete, htime]
      split <;> rfl

/-- When the first event has the longest command, it survives. -/
theorem foldl_mergeEvents_first {a : CommandEvent} {l : List CommandEvent}
    (h : ∀ b ∈ l, commandLe b.command a.command = true) (time : Option Str) :
    ∃ time', l.foldl mergeEvents { a with timestamp := time } = { a with timestamp := time' } := by
  induction l generalizing time with
  | nil => exact ⟨time, rfl⟩
  | cons b l ih =>
    have hfirst : mergeEvents { a with timestamp := time } b
        = { a with timestamp := earliest time b.timestamp } := by
      simp only [mergeEvents, moreComplete, h b List.mem_cons_self, if_true]
    rw [List.foldl_cons, hfirst]
    exact ih (fun c hc => h c (List.mem_cons_of_mem b hc)) _

/-- An event without its time. -/
def CommandEvent.untimed (event : CommandEvent) : CommandEvent := { event with timestamp := none }

/-- **The order of a group** makes no difference exactly when the events with its longest command
differ in their time only. -/
theorem fold1_perm_iff (events : List CommandEvent) :
    (∀ l : List CommandEvent, l.Perm events →
      fold1 mergeEvents l = fold1 mergeEvents events) ↔
      ∀ a b, Longest events a → Longest events b → a.untimed = b.untimed := by
  constructor
  · intro h a b ha hb
    -- Either of the two may stand first.
    have hfirst : ∀ a, Longest events a → ∃ time,
        fold1 mergeEvents events = some { a with timestamp := time } := by
      intro a ha
      have hperm := (List.perm_cons_erase ha.1).symm
      obtain ⟨time, htime⟩ := foldl_mergeEvents_first
        (fun b hb => ha.2 b (List.mem_of_mem_erase hb)) a.timestamp
      exact ⟨time, by rw [← h _ hperm, fold1, htime]⟩
    obtain ⟨time, htime⟩ := hfirst a ha
    obtain ⟨time', htime'⟩ := hfirst b hb
    have huntimed := congrArg CommandEvent.untimed (Option.some.inj (htime.symm.trans htime'))
    exact huntimed
  · intro h l hl
    cases hfold : fold1 mergeEvents l with
    | none =>
      rw [fold1_eq_none.mp hfold] at hl
      rw [List.nil_perm.mp hl]
      rfl
    | some x =>
      cases hfold' : fold1 mergeEvents events with
      | none =>
        rw [fold1_eq_none.mp hfold', List.perm_nil] at hl
        rw [hl] at hfold
        cases hfold
      | some y =>
        obtain ⟨a, c, ha, hc, rfl⟩ := survivor_of_fold1 hfold
        obtain ⟨a', c', ha', hc', rfl⟩ := survivor_of_fold1 hfold'
        have hcommand := h a a' ⟨hl.mem_iff.mp ha.1, fun b hb => ha.2 b (hl.mem_iff.mpr hb)⟩ ha'
        have htime := timeLe_antisymm (hc.2 c' (hl.mem_iff.mpr hc'.1))
          (hc'.2 c (hl.mem_iff.mp hc.1))
        rw [htime]
        exact congrArg (fun e : CommandEvent => some { e with timestamp := c'.timestamp }) hcommand

/-! ## 7. A second pass -/

/-- No two of these events have one key. -/
def Distinct (events : List CommandEvent) : Prop :=
  ∀ key : DedupKey, (group dedupKey events (some key)).length ≤ 1

theorem Distinct.tail {event : CommandEvent} {events : List CommandEvent}
    (h : Distinct (event :: events)) : Distinct events := by
  intro key
  have hle := h key
  rw [← List.singleton_append, group_append, List.length_append] at hle
  omega

theorem Distinct.head {event : CommandEvent} {events : List CommandEvent}
    (h : Distinct (event :: events)) {key : DedupKey} (hkey : dedupKey event = some key) :
    ∀ other ∈ events, dedupKey other ≠ some key := by
  intro other hmem hother
  have hle := h key
  rw [← List.singleton_append, group_append, group_singleton_self hkey, List.length_append,
    List.length_singleton] at hle
  have hpos := List.length_pos_of_mem (mem_group.mpr ⟨hmem, hother⟩)
  omega

/-- Events with different keys are kept as they are. -/
theorem dedupLoop_distinct {events : List CommandEvent} (h : Distinct events)
    {s t : DedupState} {budget after : StateBudget}
    (hfresh : ∀ event ∈ events, ∀ key, dedupKey event = some key → s.calls.lookup key = none)
    (hloop : dedupLoop sizes events s budget = (.ok t, after)) :
    t.result = s.result ++ events := by
  induction events generalizing s budget with
  | nil =>
    obtain ⟨hok, -⟩ := Prod.mk.inj hloop
    cases hok
    exact (List.append_nil _).symm
  | cons event events ih =>
    unfold dedupLoop at hloop
    split at hloop
    · cases (Prod.mk.inj hloop).1
    · rename_i u budget' hstep
      have hrest : ∀ other ∈ events, ∀ key, dedupKey other = some key →
          s.calls.lookup key = none := fun other hmem => hfresh other (List.mem_cons_of_mem _ hmem)
      unfold dedupEvent at hstep
      split at hstep
      · obtain ⟨hok, -⟩ := Prod.mk.inj hstep
        cases hok
        have hresult : t.result = (s.push event).result ++ events := ih h.tail hrest hloop
        rw [hresult, DedupState.push, List.append_assoc, List.singleton_append]
      · rename_i key hkey
        split at hstep
        · rename_i index hlookup
          cases hlookup.symm.trans (hfresh event List.mem_cons_self key hkey)
        · split at hstep
          · cases (Prod.mk.inj hstep).1
          · obtain ⟨hok, -⟩ := Prod.mk.inj hstep
            cases hok
            have hpushed : ∀ other ∈ events, ∀ key', dedupKey other = some key' →
                (s.calls.insert key s.result.length).lookup key' = none := by
              intro other hmem key' hkey'
              have hne : key' ≠ key := by
                rintro rfl
                exact h.head hkey other hmem hkey'
              rw [AList.lookup_insert_ne hne]
              exact hrest other hmem key' hkey'
            have hresult : t.result = (s.pushCall key event (dedupKeyBytes sizes key)).result
                ++ events := ih h.tail hpushed hloop
            rw [hresult, DedupState.pushCall, List.append_assoc, List.singleton_append]

/-- **A second pass** over sorted events changes nothing exactly when their keys differ. -/
theorem deduplicateEvents_eq_self_iff {events : List CommandEvent}
    (hsorted : sortEvents events = events) :
    deduplicateEvents sizes events = events ↔ Distinct events := by
  constructor
  · intro h key
    obtain ⟨entries, hmerged, hresult⟩ := deduplicateEvents_merged sizes events
    have hlength := (sortEvents_perm (entries.map Prod.snd)).length_eq
    rw [← hresult, h, List.length_map] at hlength
    exact hmerged.length_group_le hlength.le key
  · intro h
    obtain ⟨t, after, hloop⟩ := dedupLoop_unlimited sizes limit_unlimited events .empty
    have hresult := dedupLoop_distinct sizes h (fun _ _ _ _ => rfl) hloop
    unfold deduplicateEvents
    split
    · rename_i result hok
      rw [deduplicateEventsWithin, hloop] at hok
      rw [← Except.ok.inj hok, hresult]
      exact hsorted
    · rename_i e he
      rw [deduplicateEventsWithin, hloop] at he
      cases he

theorem distinct_perm {a b : List CommandEvent} (h : a.Perm b) : Distinct a ↔ Distinct b :=
  forall_congr' fun key => by rw [(group_perm h (some key)).length_eq]

/-- A survivor has a key. -/
theorem key_of_survivor {events : List CommandEvent} {key : DedupKey} {x : CommandEvent}
    (h : fold1 mergeEvents (group dedupKey events (some key)) = some x) :
    ∃ key', dedupKey x = some key' := by
  obtain ⟨a, c, ha, hc, rfl⟩ := survivor_of_fold1 h
  have hkey := (mem_group.mp ha.1).2
  have hle := hc.2 a ha.1
  unfold dedupKey dedupIdentity at hkey ⊢
  cases hid : a.callId with
  | some id => exact ⟨_, rfl⟩
  | none =>
    rw [hid] at hkey
    cases htime : a.timestamp with
    | none =>
      rw [htime] at hkey
      cases hkey
    | some time =>
      rw [htime] at hle
      cases hearliest : c.timestamp with
      | none =>
        rw [hearliest] at hle
        cases hle
      | some earlier => exact ⟨_, rfl⟩

/-- The keys of the survivors. -/
theorem distinct_survivors_iff {events : List CommandEvent}
    {entries : List (Option DedupKey × CommandEvent)}
    (h : Merged dedupKey mergeEvents events entries) :
    Distinct (entries.map Prod.snd) ↔
      ∀ key key' x y, fold1 mergeEvents (group dedupKey events (some key)) = some x →
        fold1 mergeEvents (group dedupKey events (some key')) = some y →
          dedupKey x = dedupKey y → key = key' := by
  have hgroup : ∀ k, group dedupKey (entries.map Prod.snd) (some k)
      = (entries.filter fun e => dedupKey e.2 = some k).map Prod.snd := by
    intro k
    rw [group, List.filter_map]
    rfl
  constructor
  · intro hdistinct key key' x y hx hy hsame
    obtain ⟨k, hk⟩ := key_of_survivor hx
    have hmem : (some key, x) ∈ entries.filter fun e => dedupKey e.2 = some k :=
      List.mem_filter.mpr ⟨h.mem_iff.mpr hx, decide_eq_true hk⟩
    have hmem' : (some key', y) ∈ entries.filter fun e => dedupKey e.2 = some k :=
      List.mem_filter.mpr ⟨h.mem_iff.mpr hy, decide_eq_true (hsame.symm.trans hk)⟩
    have hle := hdistinct k
    rw [hgroup, List.length_map] at hle
    have heq := eq_of_length_le_one hle hmem hmem'
    exact Option.some.inj (Prod.mk.inj heq).1
  · intro hkeys k
    rw [hgroup, List.length_map]
    cases hfilter : entries.filter fun e => dedupKey e.2 = some k with
    | nil => exact Nat.zero_le 1
    | cons e rest =>
      have hkept : ∀ e ∈ entries.filter fun e => dedupKey e.2 = some k,
          ∃ key, e.1 = some key ∧ fold1 mergeEvents (group dedupKey events (some key)) = some e.2 ∧
            dedupKey e.2 = some k := by
        intro e he
        obtain ⟨hmem, hk⟩ := List.mem_filter.mp he
        rw [decide_eq_true_eq] at hk
        obtain ⟨owner, x⟩ := e
        cases owner with
        | none => cases hk.symm.trans (h.key_eq_none hmem)
        | some key => exact ⟨key, rfl, h.mem_iff.mp hmem, hk⟩
      obtain ⟨key, -, hx, hk⟩ := hkept e (by rw [hfilter]; exact List.mem_cons_self)
      -- They are all kept under one key, and so there is one of them.
      have hsame : ∀ e ∈ entries, (decide (dedupKey e.2 = some k) && decide (e.1 = some key))
          = decide (dedupKey e.2 = some k) := by
        intro e he
        by_cases hek : dedupKey e.2 = some k
        · obtain ⟨key', howner, hy, -⟩ :=
            hkept e (List.mem_filter.mpr ⟨he, decide_eq_true hek⟩)
          rw [howner, hkeys key' key _ _ hy hx (hek.trans hk.symm), decide_eq_true rfl,
            Bool.and_true]
        · rw [decide_eq_false hek, Bool.false_and]
      have hone := h.length_le key
      rw [kept, List.length_map] at hone
      rw [← hfilter, ← List.filter_congr hsame, ← List.filter_filter]
      exact (List.filter_sublist.length_le).trans hone

/-! ## 8. The order of the logs -/

/-- The events whose de-duplication is what its comment says. -/
structure OrderFree (events : List CommandEvent) : Prop where
  /-- Two events of one call with its longest command differ in their time only. -/
  longest : ∀ key a b, Longest (group dedupKey events (some key)) a →
    Longest (group dedupKey events (some key)) b → a.untimed = b.untimed
  /-- The longest events of two calls, at the earliest times of their calls, have different keys. -/
  keys : ∀ key a c key' a' c',
    Longest (group dedupKey events (some key)) a → Earliest (group dedupKey events (some key)) c →
    Longest (group dedupKey events (some key')) a' →
    Earliest (group dedupKey events (some key')) c' →
    dedupKey { a with timestamp := c.timestamp } = dedupKey { a' with timestamp := c'.timestamp } →
    key = key'

/-- What survives a group whose longest events differ in their time only. -/
theorem fold1_of_longest {events : List CommandEvent} {a c : CommandEvent}
    (h : ∀ a b, Longest events a → Longest events b → a.untimed = b.untimed)
    (ha : Longest events a) (hc : Earliest events c) :
    fold1 mergeEvents events = some { a with timestamp := c.timestamp } := by
  cases hfold : fold1 mergeEvents events with
  | none =>
    rw [fold1_eq_none.mp hfold] at ha
    cases ha.1
  | some x =>
    obtain ⟨a', c', ha', hc', rfl⟩ := survivor_of_fold1 hfold
    rw [timeLe_antisymm (hc'.2 c hc.1) (hc.2 c' hc'.1)]
    exact congrArg (fun e : CommandEvent => some { e with timestamp := c.timestamp })
      (h a' a ha' ha)

/-- **When de-duplication is independent of the order of the logs.**  The same events survive every
order of the same events, and a second pass changes nothing, exactly when the events with the
longest command of a call differ in their time only and no two calls get one key from their earliest
times. -/
theorem deduplicate_iff (events : List CommandEvent) :
    ((∀ events', events'.Perm events →
        (deduplicateEvents sizes events').Perm (deduplicateEvents sizes events)) ∧
      deduplicateEvents sizes (deduplicateEvents sizes events) = deduplicateEvents sizes events) ↔
      OrderFree events := by
  have hperm := perm_survivors_iff (deduplicateEvents sizes)
    (fun items => by
      obtain ⟨entries, hmerged, hresult⟩ := deduplicateEvents_merged sizes items
      exact ⟨entries, hmerged, hresult ▸ sortEvents_perm _⟩) events
  obtain ⟨entries, hmerged, hresult⟩ := deduplicateEvents_merged sizes events
  have hsorted : sortEvents (deduplicateEvents sizes events) = deduplicateEvents sizes events := by
    rw [hresult, sortEvents_sortEvents]
  rw [hperm, deduplicateEvents_eq_self_iff sizes hsorted, hresult,
    distinct_perm (sortEvents_perm _), distinct_survivors_iff hmerged]
  constructor
  · rintro ⟨hgroups, hkeys⟩
    have hlongest := fun key => (fold1_perm_iff _).mp (hgroups key)
    exact ⟨hlongest, fun key a c key' a' c' ha hc ha' hc' hsame =>
      hkeys key key' _ _ (fold1_of_longest (hlongest key) ha hc)
        (fold1_of_longest (hlongest key') ha' hc') hsame⟩
  · intro h
    refine ⟨fun key => (fold1_perm_iff _).mpr (h.longest key), fun key key' x y hx hy hsame => ?_⟩
    obtain ⟨a, c, ha, hc, rfl⟩ := survivor_of_fold1 hx
    obtain ⟨a', c', ha', hc', rfl⟩ := survivor_of_fold1 hy
    exact h.keys key a c key' a' c' ha hc ha' hc' hsame

/-- A text before the first NUL is known from the whole. -/
theorem eq_of_append_nul {a b x y : Str} (ha : nul ∉ a) (hb : nul ∉ b)
    (h : a ++ nul :: x = b ++ nul :: y) : a = b := by
  rcases List.append_eq_append_iff.mp h with ⟨rest, rfl, hrest⟩ | ⟨rest, rfl, hrest⟩
  · cases rest with
    | nil => exact (List.append_nil a).symm
    | cons c rest =>
      rw [(List.cons.inj hrest).1] at hb
      exact absurd (List.mem_append_right _ List.mem_cons_self) hb
  · cases rest with
    | nil => exact List.append_nil b
    | cons c rest =>
      rw [(List.cons.inj hrest).1] at ha
      exact absurd (List.mem_append_right _ List.mem_cons_self) ha

/-- Giving an event another time of its call does not change its key, where no time has a NUL. -/
theorem dedupKey_at {events : List CommandEvent}
    (hnul : ∀ event ∈ events, ∀ time, event.timestamp = some time → nul ∉ time) {key : DedupKey}
    {a c : CommandEvent} (ha : a ∈ group dedupKey events (some key))
    (hc : c ∈ group dedupKey events (some key)) :
    dedupKey { a with timestamp := c.timestamp } = some key := by
  obtain ⟨hmem, hkey⟩ := mem_group.mp ha
  obtain ⟨hmem', hkey'⟩ := mem_group.mp hc
  obtain ⟨identity, hid, rfl⟩ := Option.map_eq_some_iff.mp hkey
  obtain ⟨identity', hid', hsame⟩ := Option.map_eq_some_iff.mp hkey'
  obtain rfl : identity' = identity := congrArg DedupKey.identity hsame
  suffices hgoal : dedupIdentity { a with timestamp := c.timestamp } = some identity' by
    rw [dedupKey, hgoal]
    rfl
  unfold dedupIdentity at hid hid' ⊢
  cases hcall : a.callId with
  | some id =>
    rw [hcall] at hid
    exact hid
  | none =>
    rw [hcall] at hid
    obtain ⟨time, htime, rfl⟩ := Option.map_eq_some_iff.mp hid
    cases hcall' : c.callId with
    | some id =>
      rw [hcall'] at hid'
      cases hid'
    | none =>
      rw [hcall'] at hid'
      obtain ⟨time', htime', htext⟩ := Option.map_eq_some_iff.mp hid'
      have heq := eq_of_append_nul (hnul c hmem' time' htime') (hnul a hmem time htime)
        (DedupIdentity.event.inj htext)
      simp only [htime', Option.map_some, heq]
      rfl

/-- Without a NUL in a time, only the longest events matter. -/
theorem orderFree_of_longest {events : List CommandEvent}
    (hnul : ∀ event ∈ events, ∀ time, event.timestamp = some time → nul ∉ time)
    (h : ∀ key a b, Longest (group dedupKey events (some key)) a →
      Longest (group dedupKey events (some key)) b → a.untimed = b.untimed) : OrderFree events where
  longest := h
  keys := fun key a c key' a' c' ha hc ha' hc' hsame => by
    rw [dedupKey_at hnul ha.1 hc.1, dedupKey_at hnul ha'.1 hc'.1] at hsame
    exact Option.some.inj hsame

/-- One call that two logs record in two directories. -/
def recordedIn (cwd : Str) : CommandEvent :=
  { timestamp := none, ide := ['c'], agent := none, project := none, session := some ['s']
    tool := ['b'], cwd := some cwd, command := ['l', 's'], category := .shell
    callId := some ['1'], maven := none, provenance := [] }

/-- The first directory that is read survives. -/
theorem deduplicate_cwd :
    [recordedIn ['y'], recordedIn ['x']].Perm [recordedIn ['x'], recordedIn ['y']] ∧
      deduplicateEvents ⟨0, 0, 0, 0, 0⟩ [recordedIn ['x'], recordedIn ['y']]
        = [recordedIn ['x']] ∧
      deduplicateEvents ⟨0, 0, 0, 0, 0⟩ [recordedIn ['y'], recordedIn ['x']]
        = [recordedIn ['y']] ∧
      ¬ (deduplicateEvents ⟨0, 0, 0, 0, 0⟩ [recordedIn ['y'], recordedIn ['x']]).Perm
        (deduplicateEvents ⟨0, 0, 0, 0, 0⟩ [recordedIn ['x'], recordedIn ['y']]) := by
  have hfirst : deduplicateEvents ⟨0, 0, 0, 0, 0⟩ [recordedIn ['x'], recordedIn ['y']]
      = [recordedIn ['x']] := by decide +kernel
  have hsecond : deduplicateEvents ⟨0, 0, 0, 0, 0⟩ [recordedIn ['y'], recordedIn ['x']]
      = [recordedIn ['y']] := by decide +kernel
  refine ⟨.swap _ _ _, hfirst, hsecond, ?_⟩
  rw [hfirst, hsecond]
  decide

end MavenMcp.LogAnalysis
