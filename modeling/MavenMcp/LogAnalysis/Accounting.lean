/-
# The books of the budget

An analysis reads sources, filters what it read, merges duplicates and redacts the rest, and all of
these share one budget.  `At start n budget` says that the budget holds `n` bytes and has never been
given back more than it held; each reader and each operation has one triple about it.

* `readEventLog_adds`: a source charges the events that it answers; what its tables were charged
  with is given back, and a source that fails leaves the budget as it was.
* `deduplicateEventsWithin_at`, `rechargesSurvivors`: a survivor is never larger than the two events
  that were merged, so that charging it again cannot fail.
* `redactEventsWithin_at`: an event that grows is charged for its growth.
* `run_conserves`: so the budget of an analysis holds its events and nothing else, after every
  sequence of operations.
-/
import Mathlib.Algebra.Order.BigOperators.Group.List
import Mathlib.Algebra.Order.Group.Nat
import MavenMcp.LogAnalysis.Deduplicate
import MavenMcp.LogAnalysis.Privacy
import MavenMcp.LogAnalysis.Sources

namespace MavenMcp.LogAnalysis

open Attempt (Triple)

/-! ## 1. Charges -/

/-- The budget that holds `n` bytes, and has kept its books as at the start. -/
structure At (start : StateBudget) (n : Nat) (budget : StateBudget) : Prop where
  eq : budget = { start with used := n }
  within : start.limit.all (n ≤ ·) = true

/-- A budget that holds `low` bytes or more. -/
def Sound (start : StateBudget) (low : Nat) (budget : StateBudget) : Prop :=
  ∃ n, low ≤ n ∧ At start n budget

section

variable {start budget budget' : StateBudget} {n m low bytes : Nat} {ε : Type}

theorem At.sound (h : At start n budget) (hlow : low ≤ n) : Sound start low budget :=
  ⟨n, hlow, h⟩

theorem At.used (h : At start n budget) : budget.used = n := by rw [h.eq]

theorem At.overdrawn (h : At start n budget) : budget.overdrawn = start.overdrawn := by rw [h.eq]

theorem Sound.overdrawn (h : Sound start low budget) : budget.overdrawn = start.overdrawn := by
  obtain ⟨n, -, hat⟩ := h
  exact hat.overdrawn

/-- Less than is within the limit is within it. -/
theorem At.mono (h : At start n budget) (hle : m ≤ n) : At start m { start with used := m } where
  eq := rfl
  within := by
    have hwithin := h.within
    cases hlimit : start.limit with
    | none => rfl
    | some limit =>
      rw [hlimit] at hwithin
      exact decide_eq_true (Nat.le_trans hle (of_decide_eq_true hwithin))

theorem At.congr (h : At start n budget) (heq : n = m) : At start m budget := heq ▸ h

/-- A charge is entered, or refused. -/
theorem At.charge (h : At start n budget) (bytes : Nat) :
    (∃ after, budget.charge bytes = (.ok (), after) ∧ At start (n + bytes) after) ∨
      budget.charge bytes = (.error .state, budget) := by
  obtain ⟨rfl, -⟩ := h
  by_cases hfits : start.limit.all (n + bytes ≤ ·) = true
  · exact .inl ⟨_, if_pos hfits, rfl, hfits⟩
  · exact .inr (if_neg hfits)

/-- A budget that has held that much has room for the charge. -/
theorem At.charge_of_le (h : At start n budget) (hm : At start m budget')
    (hle : m + bytes ≤ n) : (budget'.charge bytes).1 = .ok () := by
  have hfits := (h.mono hle).within
  rw [hm.eq]
  exact congrArg Prod.fst (if_pos hfits)

theorem triple_charge (hlow : low ≤ n) :
    Triple (At start n) (charge bytes) (fun _ => At start (n + bytes)) (Sound start low) := by
  refine .intro (fun budget _ after h hx => ?_) fun budget _ after h hx => ?_
  · rcases h.charge bytes with ⟨_, hok, hat⟩ | herror
    · cases hok.symm.trans hx
      exact hat
    · cases herror.symm.trans hx
  · rcases h.charge bytes with ⟨_, hok, -⟩ | herror
    · cases hok.symm.trans hx
    · cases herror.symm.trans hx
      exact h.sound hlow

/-- What is charged may be given back. -/
theorem At.release (h : At start n budget) (hle : bytes ≤ n) :
    At start (n - bytes) (budget.release bytes) := by
  have heq : budget.release bytes = { start with used := n - bytes } := by
    rw [h.eq, StateBudget.release]
    simp [Nat.not_lt_of_le hle]
  rw [heq]
  exact h.mono (Nat.sub_le n bytes)

theorem triple_release (hle : bytes ≤ n) {E : StateBudget → Prop} :
    Triple (At start n) (release bytes : Attempt ε StateBudget Unit)
      (fun _ => At start (n - bytes)) E := fun _ h => h.release hle

theorem triple_usedBytes {E : StateBudget → Prop} :
    Triple (At start n) (usedBytes : Attempt ε StateBudget Nat)
      (fun used budget => used = n ∧ At start n budget) E := fun _ h => ⟨h.used, h⟩

end

/-! ## 2. Readers -/

section

variable {sizes : Sizes} {decoding : Decoding} {start : StateBudget} {n : Nat}

/-- The events of a log are charged, beside `n` other bytes. -/
def Holds (sizes : Sizes) (start : StateBudget) (n : Nat) (log : EventLog) : StateBudget → Prop :=
  At start (n + retainedBytes sizes log.events)

/-- A reader that charges the events that it adds. -/
def Adds (sizes : Sizes) (start : StateBudget) (n : Nat) (log : EventLog) (x : Reading EventLog) :
    Prop :=
  Triple (Holds sizes start n log) x (Holds sizes start n) (Sound start 0)

theorem adds_pure {log log' : EventLog} (h : log'.events = log.events) :
    Adds sizes start n log (pure log') :=
  Triple.pure fun _ hs => hs.congr (by rw [h])

theorem pushEvent_adds (log : EventLog) (event : CommandEvent) :
    Adds sizes start n log (pushEvent sizes log event) := by
  refine (triple_charge (Nat.zero_le _)).mapError.bind fun _ => .pure fun _ hs => ?_
  refine hs.congr ?_
  simp only [retainedBytes_append, retainedBytes_cons, retainedBytes_nil, Nat.add_zero,
    Nat.add_assoc]

mutual

/-- **Every value.** -/
theorem extract_adds (ide : Str) : ∀ (value : Json) (inherited : Metadata) (bare : Bool)
    (log : EventLog), Adds sizes start n log (extract sizes decoding ide value inherited bare log)
  | .array items, inherited, bare, log => by
    rw [extract]
    exact extractAll_adds ide items inherited bare log
  | .object object, inherited, bare, log => by
    rw [extract]
    refine .ite (fun _ => adds_pure rfl) fun _ => .ite (fun _ => ?_) fun _ => ?_
    · split
      · exact adds_pure rfl
      · exact adds_pure rfl
      · exact pushEvent_adds log _
    · exact Triple.foldlM (fun key _ log => extractField_adds ide object key _ log) log
  | .null, _, _, log | .bool _, _, _, log | .number _, _, _, log | .string _, _, _, log => by
    unfold extract
    exact adds_pure rfl

theorem extractAll_adds (ide : Str) : ∀ (items : List Json) (inherited : Metadata) (bare : Bool)
    (log : EventLog),
    Adds sizes start n log (extractAll sizes decoding ide items inherited bare log)
  | [], inherited, bare, log => by
    rw [extractAll]
    exact adds_pure rfl
  | child :: items, inherited, bare, log => by
    rw [extractAll]
    exact (extract_adds ide child inherited bare log).bind fun log =>
      extractAll_adds ide items inherited bare log

theorem extractField_adds (ide : Str) : ∀ (fields : List (Str × Json)) (key : Str)
    (metadata : Metadata) (log : EventLog),
    Adds sizes start n log (extractField sizes decoding ide fields key metadata log)
  | [], key, metadata, log => by
    rw [extractField]
    exact adds_pure rfl
  | field :: fields, key, metadata, log => by
    rw [extractField]
    exact .ite (fun _ => extractChild_adds ide field metadata log) fun _ =>
      extractField_adds ide fields key metadata log

theorem extractChild_adds (ide : Str) : ∀ (field : Str × Json) (metadata : Metadata)
    (log : EventLog), Adds sizes start n log (extractChild sizes decoding ide field metadata log)
  | (_, child), metadata, log => by
    rw [extractChild]
    exact extract_adds ide child metadata false log

end

section

variable {I E : StateBudget → Prop}

/-- The outside changes no books. -/
theorem triple_answered {α : Type} (h : ∀ budget, I budget → E budget) (x : Option α) :
    Triple I (answered x) (fun _ => I) E := by
  cases x with
  | none => exact .throw h
  | some a => exact .pure fun _ => id

theorem triple_require (h : ∀ budget, I budget → E budget) (p : Bool) (e : ReadError) :
    Triple I (require p e) (fun _ => I) E :=
  .ite (fun _ => .pure fun _ => id) fun _ => .throw h

end

/-- Reading from an empty log. -/
theorem adds_empty {log : EventLog} {x : Reading EventLog} (h : Adds sizes start n log x)
    (hempty : log.events = []) :
    Triple (At start n) x (Holds sizes start n) (Sound start 0) :=
  h.weaken fun _ hs => hs.congr (by rw [hempty]; rfl)

/-- What was charged beside the events is given back at the end. -/
theorem triple_release_beside {bytes : Nat} (log : EventLog) :
    Triple (Holds sizes start (n + bytes) log) (do release bytes; pure log : Reading EventLog)
      (Holds sizes start n) (Sound start 0) :=
  (triple_release (by omega)).bind fun _ => .pure fun _ hs => hs.congr (by omega)

theorem sound_of_at {m : Nat} : ∀ budget, At start m budget → Sound start 0 budget :=
  fun _ h => h.sound (Nat.zero_le m)

theorem readDocument_adds (file : LogFile) (source : LogSource) (limits : ResourceLimits) :
    Triple (At start n) (readDocument sizes decoding file source limits)
      (Holds sizes start n) (Sound start 0) := by
  refine (triple_answered sound_of_at _).bind fun length => ?_
  refine (triple_require sound_of_at _ _).bind fun _ => ?_
  refine (triple_charge (Nat.zero_le n)).mapError.bind fun _ => ?_
  refine (triple_answered sound_of_at _).bind fun value => ?_
  exact (adds_empty (extract_adds _ value _ true _) rfl).bind fun log => triple_release_beside log

section

variable {σ : Type} {I : σ → StateBudget → Prop}

/-- What holds of the state between two lines. -/
theorem triple_forEachLine (file : LogFile) (maxRecordBytes : Nat) (visit : σ → Str → Reading σ)
    (hI : ∀ s budget, I s budget → Sound start 0 budget)
    (h : ∀ s line, Triple (I s) (visit s line) I (Sound start 0)) (s : σ) :
    Triple (I s) (forEachLine file maxRecordBytes visit s) (fun r => I r.1) (Sound start 0) := by
  refine (triple_answered (hI s) file.content).bind fun content => ?_
  refine Triple.foldlM (I := fun r => I r.1) (fun record _ r => ?_) (s, 0)
  cases record with
  | line text => exact (h r.1 text).bind fun _ => .pure fun _ => id
  | oversized => exact .pure fun _ => id
  | invalid => exact .throw (hI r.1)
  | failed => exact .throw (hI r.1)

variable (decoding) in
/-- What holds of the state between two rows. -/
theorem triple_forEachDatabaseRow (database : Database) (name : Str) (limits : ResourceLimits)
    (visit : σ → Json.Object → Reading σ)
    (hI : ∀ s budget, I s budget → Sound start 0 budget)
    (h : ∀ s row, Triple (I s) (visit s row) I (Sound start 0)) (s : σ) :
    Triple (I s) (forEachDatabaseRow decoding database name limits visit s) (fun r => I r.1)
      (Sound start 0) := by
  refine (triple_answered (hI s) (database.table name)).bind fun table => ?_
  refine Triple.foldlM (I := fun r => I r.1) (fun row _ r => ?_) (s, 0)
  refine (triple_answered (hI r.1) row).bind fun row => ?_
  split
  · exact .pure fun _ => id
  · exact (h r.1 _).bind fun _ => .pure fun _ => id

end

theorem codexLine_adds (s : EventLog × Metadata) (line : Str) :
    Triple (Holds sizes start n s.1) (codexLine sizes decoding s line)
      (fun s => Holds sizes start n s.1) (Sound start 0) := by
  unfold codexLine
  refine .ite (fun _ => .pure fun _ => id) fun _ => ?_
  split
  · exact .pure fun _ => id
  · split
    · exact .pure fun _ => id
    · exact (extract_adds _ _ _ true s.1).bind fun _ => .pure fun _ => id

theorem readCodex_adds (file : LogFile) (limits : ResourceLimits) :
    Triple (At start n) (readCodex sizes decoding file limits) (Holds sizes start n)
      (Sound start 0) := by
  have hlines := triple_forEachLine file limits.maxRecordBytes (codexLine sizes decoding)
    (I := fun s => Holds sizes start n s.1) (fun _ => sound_of_at) codexLine_adds
  refine Triple.bind ?_ fun _ => .pure fun _ => id
  exact (hlines _).weaken fun _ hs => hs

theorem intellijLine_adds (log : EventLog) (line : Str) :
    Adds sizes start n log (intellijLine sizes decoding log line) := by
  unfold intellijLine
  split
  · exact adds_pure rfl
  · exact pushEvent_adds log _

theorem readIntellij_adds (file : LogFile) (limits : ResourceLimits) :
    Triple (At start n) (readIntellij sizes decoding file limits) (Holds sizes start n)
      (Sound start 0) := by
  have hlines := triple_forEachLine file limits.maxRecordBytes (intellijLine sizes decoding)
    (I := Holds sizes start n) (fun _ => sound_of_at) intellijLine_adds
  refine Triple.bind ?_ fun _ => .pure fun _ => id
  exact (hlines _).weaken fun _ hs => hs

variable (start) in
/-- **A table** whose entries are charged. -/
theorem remember_charges {V : Type} (size : V → Nat) (map : Table Str V) (id : Str) (value : V) :
    Triple (At start (n + map.sumEntries (entryBytes size))) (remember size map id value)
      (fun map => At start (n + map.sumEntries (entryBytes size))) (Sound start 0) := by
  refine (triple_charge (Nat.zero_le _)).mapError.bind fun _ => ?_
  cases hlookup : map.lookup id with
  | none =>
    have hsum := AList.sumEntries_insert_of_none (v := value) (entryBytes size) hlookup
    refine Triple.bind
      (Q := fun _ => At start (n + map.sumEntries (entryBytes size) + entryBytes size id value))
      (.pure fun _ hs => hs) fun _ => .pure fun _ hs => ?_
    exact hs.congr (by omega)
  | some previous =>
    have hsum := AList.sumEntries_insert_of_lookup (w := value) (entryBytes size) hlookup
    refine (triple_release (by omega)).bind fun _ => .pure fun _ hs => ?_
    exact hs.congr (by omega)

/-- What the tables of a database are charged with. -/
def KiloTables.bytes (sizes : Sizes) (tables : KiloTables) : Nat :=
  tables.sessions.sumEntries (entryBytes (Metadata.retainedBytes sizes))
    + tables.messages.sumEntries (entryBytes (agentBytes sizes))

theorem kiloMetadataRow_charges (name : Str) (tables : KiloTables) (row : Json.Object) :
    Triple (At start (n + tables.bytes sizes)) (kiloMetadataRow sizes name tables row)
      (fun tables => At start (n + tables.bytes sizes)) (Sound start 0) := by
  unfold kiloMetadataRow
  simp only
  split
  · exact .pure fun _ => id
  · refine .ite (fun _ => ?_) fun _ => ?_
    · have hsessions := fun id value =>
        remember_charges (n := n + tables.messages.sumEntries (entryBytes (agentBytes sizes)))
          start (Metadata.retainedBytes sizes) tables.sessions id value
      refine ((hsessions _ _).weaken fun _ hs => ?_).bind fun _ => .pure fun _ hs => ?_
      · exact hs.congr (by simp only [KiloTables.bytes]; omega)
      · exact hs.congr (by simp only [KiloTables.bytes]; omega)
    · have hmessages := fun id value =>
        remember_charges start (agentBytes sizes) tables.messages id value
          (n := n + tables.sessions.sumEntries (entryBytes (Metadata.retainedBytes sizes)))
      refine ((hmessages _ _).weaken fun _ hs => ?_).bind fun _ => .pure fun _ hs => ?_
      · exact hs.congr (by simp only [KiloTables.bytes]; omega)
      · exact hs.congr (by simp only [KiloTables.bytes]; omega)

theorem kiloMetadataTable_charges (database : Database) (limits : ResourceLimits)
    (s : KiloTables × Nat) (name : Str) :
    Triple (At start (n + s.1.bytes sizes))
      (kiloMetadataTable sizes decoding database limits s name)
      (fun s => At start (n + s.1.bytes sizes)) (Sound start 0) := by
  refine .ite (fun _ => ?_) fun _ => .pure fun _ => id
  have hrows := triple_forEachDatabaseRow decoding database name limits
    (kiloMetadataRow sizes name) (I := fun tables => At start (n + tables.bytes sizes))
    (fun _ => sound_of_at) (kiloMetadataRow_charges name)
  exact (hrows s.1).bind fun _ => .pure fun _ => id

theorem kiloColumn_adds (row : Json.Object) (metadata : Metadata) (log : EventLog) (key : Str) :
    Adds sizes start n log (kiloColumn sizes decoding row metadata log key) := by
  unfold kiloColumn
  split
  · exact adds_pure rfl
  · exact extract_adds _ _ _ true log
  · exact extract_adds _ _ _ true log
  · exact .ite (fun _ => adds_pure rfl) fun _ => adds_pure rfl

theorem kiloRow_adds (tables : KiloTables) (log : EventLog) (row : Json.Object) :
    Adds sizes start n log (kiloRow sizes decoding tables log row) := by
  have hcall : Adds sizes start n log
      (kiloCall sizes decoding row (kiloMetadata tables row) log) :=
    .ite (fun _ => extract_adds _ _ _ true log) fun _ => adds_pure rfl
  refine .ite (fun _ => adds_pure rfl) fun _ => hcall.bind fun log => ?_
  exact Triple.foldlM (fun key _ log => kiloColumn_adds row _ log key) log

theorem kiloTable_adds (database : Database) (limits : ResourceLimits) (tables : KiloTables)
    (log : EventLog) (name : Str) :
    Adds sizes start n log (kiloTable sizes decoding database limits tables log name) := by
  have hrows := triple_forEachDatabaseRow decoding database name limits
    (kiloRow sizes decoding tables) (I := Holds sizes start n) (fun _ => sound_of_at)
    (kiloRow_adds tables)
  exact (hrows log).bind fun _ => .pure fun _ => id

theorem readKilo_adds (file : LogFile) (limits : ResourceLimits) :
    Triple (At start n) (readKilo sizes decoding file limits) (Holds sizes start n)
      (Sound start 0) := by
  refine (triple_answered sound_of_at _).bind fun database => ?_
  refine triple_usedBytes.bind fun before => .assume ?_
  rintro rfl
  refine Triple.bind (Q := fun tables => At start (before + tables.1.bytes sizes)) ?_
    fun tables => ?_
  · exact Triple.foldlM (fun name _ s => kiloMetadataTable_charges database limits s name)
      (⟨∅, ∅⟩, 0)
  refine triple_usedBytes.bind fun charged => .assume ?_
  rintro rfl
  have hevents : Adds sizes start (before + tables.1.bytes sizes)
      { EventLog.empty with oversizedRecords := tables.2 }
      (database.names.foldlM (kiloTable sizes decoding database limits tables.1)
        { EventLog.empty with oversizedRecords := tables.2 }) :=
    Triple.foldlM (fun name _ log => kiloTable_adds database limits tables.1 log name) _
  rw [Nat.add_sub_cancel_left]
  exact (adds_empty hevents rfl).bind fun log => triple_release_beside log

theorem readResolved_adds (file : LogFile) (source : LogSource) (limits : ResourceLimits) :
    Triple (At start n) (readResolved sizes decoding file source limits) (Holds sizes start n)
      (Sound start 0) := by
  cases source with
  | kilo => exact readKilo_adds file limits
  | intelliJ => exact readIntellij_adds file limits
  | codex => exact readCodex_adds file limits
  | auto => exact readDocument_adds file .auto limits
  | vsCode => exact readDocument_adds file .vsCode limits
  | vsCodeInsiders => exact readDocument_adds file .vsCodeInsiders limits

/-- Provenance is not counted. -/
theorem retainedBytes_provenance (events : List CommandEvent) (provenance : Str) :
    retainedBytes sizes (events.map fun event => { event with provenance })
      = retainedBytes sizes events := by
  rw [retainedBytes, List.map_map]
  rfl

variable (sizes decoding start) in
theorem readSource_adds (file : LogFile) (source : LogSource) (limits : ResourceLimits) :
    Triple (At start n) (readSource sizes decoding file source limits) (Holds sizes start n)
      (Sound start 0) := by
  have hresolve : Triple (At start n) (resolveSource file.path source) (fun _ => At start n)
      (Sound start 0) := by
    cases source with
    | auto =>
      refine .intro (fun budget _ after h hx => ?_) fun budget _ after h hx => ?_
      · cases (Prod.mk.inj hx).2
        exact h
      · cases (Prod.mk.inj hx).2
        exact sound_of_at _ h
    | _ => exact .pure fun _ => id
  refine hresolve.bind fun source => (readResolved_adds file source limits).bind fun log => ?_
  exact .pure fun _ hs => hs.congr (by rw [retainedBytes_provenance])

theorem readEventLog_answer (file : LogFile) (source : LogSource) (limits : ResourceLimits)
    (budget : StateBudget) :
    (readEventLog sizes decoding file source limits).answer budget =
      match (readSource sizes decoding file source limits).answer budget with
      | (.error e, after) => (.error e, after.restore budget.used)
      | (.ok log, after) => (.ok log, after) := rfl

variable (sizes decoding start) in
/-- **A source**: a read that succeeds charges its events and nothing else; one that fails leaves
everything as it was. -/
theorem readEventLog_adds (file : LogFile) (source : LogSource) (limits : ResourceLimits) :
    Triple (At start n) (readEventLog sizes decoding file source limits) (Holds sizes start n)
      (At start n) := by
  have hread := readSource_adds sizes decoding start (n := n) file source limits
  refine .intro (fun budget log after h hx => ?_) fun budget e after h hx => ?_
  · rw [readEventLog_answer] at hx
    split at hx
    · cases hx
    · rename_i hok
      cases hx
      exact hread.ok h hok
  · rw [readEventLog_answer] at hx
    split at hx
    · rename_i herror
      cases hx
      obtain ⟨m, -, hat⟩ := hread.error h herror
      rw [hat.eq, h.used]
      exact h.mono (Nat.le_refl n)
    · cases hx

end

/-! ## 3. Filter and duplicates -/

section

variable {sizes : Sizes} {start budget after : StateBudget} {n : Nat} {events : List CommandEvent}

variable (sizes) in
theorem retainedBytes_filter_le (p : CommandEvent → Bool) (events : List CommandEvent) :
    retainedBytes sizes (events.filter p) ≤ retainedBytes sizes events := by
  induction events with
  | nil => exact Nat.le_refl _
  | cons event events ih =>
    rw [List.filter_cons]
    split
    · rw [retainedBytes_cons, retainedBytes_cons]
      omega
    · rw [retainedBytes_cons]
      omega

/-- **The filter** gives back what it drops. -/
theorem filterEventsWithin_at (h : At start (n + retainedBytes sizes events) budget)
    (filter : EventFilter) :
    At start (n + retainedBytes sizes (filterEventsWithin sizes events filter budget).1)
      (filterEventsWithin sizes events filter budget).2 := by
  have hle := retainedBytes_filter_le sizes filter.keeps events
  exact (h.release (by omega)).congr (by
    simp only [filterEventsWithin, filterEvents]
    omega)

variable (sizes) in
theorem optionalLen_timestamp_le (event : CommandEvent) :
    optionalLen event.timestamp ≤ event.retainedBytes sizes := by
  simp only [CommandEvent.retainedBytes, List.map_cons, List.sum_cons]
  omega

variable (sizes) in
/-- **The survivor** of a merge is no larger than the two events. -/
theorem retainedBytes_mergeEvents_le (previous event : CommandEvent) :
    (mergeEvents previous event).retainedBytes sizes
      ≤ previous.retainedBytes sizes + event.retainedBytes sizes := by
  have hmore : moreComplete previous event = previous ∨ moreComplete previous event = event := by
    unfold moreComplete
    split
    · exact .inl rfl
    · exact .inr rfl
  have htime := earliest_cases previous.timestamp event.timestamp
  have hprevious := optionalLen_timestamp_le sizes previous
  have hevent := optionalLen_timestamp_le sizes event
  have hmerged : (mergeEvents previous event).retainedBytes sizes
      + optionalLen (moreComplete previous event).timestamp
        = (moreComplete previous event).retainedBytes sizes
          + optionalLen (earliest previous.timestamp event.timestamp) :=
    (moreComplete previous event).retainedBytes_timestamp sizes _
  rcases hmore with hmore | hmore
  · rw [hmore] at hmerged
    rcases htime with ⟨htime, -⟩ | ⟨htime, -⟩
    · rw [htime] at hmerged
      omega
    · rw [htime] at hmerged
      omega
  · rw [hmore] at hmerged
    rcases htime with ⟨htime, -⟩ | ⟨htime, -⟩
    · rw [htime] at hmerged
      omega
    · rw [htime] at hmerged
      omega

/-- The survivors so far, the events to come and the keys are charged. -/
def DedupState.bytes (sizes : Sizes) (s : DedupState) : Nat :=
  retainedBytes sizes s.result + s.charged

variable (sizes) in
theorem retainedBytes_set {index : Nat} (survivor : CommandEvent) (h : index < events.length) :
    retainedBytes sizes (events.set index survivor) + (events[index]).retainedBytes sizes
      = retainedBytes sizes events + survivor.retainedBytes sizes := by
  rw [List.set_eq_take_append_cons_drop, if_pos h]
  conv_rhs => rw [← List.take_append_drop index events, ← List.getElem_cons_drop h]
  simp only [retainedBytes_append, retainedBytes_cons]
  omega

/-- **The survivor is charged again** without fail. -/
theorem charge_survivor (h : At start n budget) {previous event : CommandEvent}
    (hle : previous.retainedBytes sizes + event.retainedBytes sizes ≤ n) :
    ((budget.release (previous.retainedBytes sizes + event.retainedBytes sizes)).charge
      ((mergeEvents previous event).retainedBytes sizes)).1 = .ok () := by
  have hsurvivor := retainedBytes_mergeEvents_le sizes previous event
  exact h.charge_of_le (h.release hle) (by omega)

/-- What one event does to the survivors and the budget. -/
theorem dedupEvent_cases (event : CommandEvent) (s : DedupState) (budget : StateBudget) :
    (dedupKey event = none ∧ dedupEvent sizes event s budget = (.ok (s.push event), budget)) ∨
      (∃ key index, ∃ h : index < s.result.length, dedupKey event = some key ∧
        s.calls.lookup key = some index ∧
        dedupEvent sizes event s budget =
          match (budget.release (s.result[index].retainedBytes sizes
              + event.retainedBytes sizes)).charge
                ((mergeEvents s.result[index] event).retainedBytes sizes) with
          | (.error e, budget) => (.error e, budget.release s.charged)
          | (.ok (), budget) =>
            (.ok (s.replace index (mergeEvents s.result[index] event)), budget)) ∨
      ∃ key, dedupKey event = some key ∧ s.calls.lookup key = none ∧
        dedupEvent sizes event s budget =
          match budget.charge (dedupKeyBytes sizes key) with
          | (.error e, budget) => (.error e, budget.release s.charged)
          | (.ok (), budget) =>
            (.ok (s.pushCall key event (dedupKeyBytes sizes key)), budget) := by
  unfold dedupEvent
  split
  · rename_i hkey
    exact .inl ⟨hkey, rfl⟩
  · rename_i key hkey
    split
    · rename_i index hlookup
      exact .inr (.inl ⟨key, index, s.inBounds key index hlookup, hkey, hlookup, rfl⟩)
    · rename_i hlookup
      exact .inr (.inr ⟨key, hkey, hlookup, rfl⟩)

variable (sizes start) in
/-- **One event.** -/
theorem dedupEvent_at (event : CommandEvent) (s : DedupState) :
    Triple (At start (n + (s.bytes sizes + event.retainedBytes sizes)))
      (.of (dedupEvent sizes event s)) (fun t => At start (n + t.bytes sizes)) (Sound start n) := by
  have hbytes : s.bytes sizes = retainedBytes sizes s.result + s.charged := rfl
  intro budget h
  rw [Attempt.answer_of]
  rcases dedupEvent_cases event s budget with ⟨-, hstep⟩ | ⟨key, index, hlt, -, -, hstep⟩ |
    ⟨key, -, -, hstep⟩
  · -- an event without an identity
    rw [hstep]
    refine At.congr h ?_
    simp only [DedupState.bytes, DedupState.push, retainedBytes_append, retainedBytes_cons,
      retainedBytes_nil]
    omega
  · -- it is merged into the survivor of its key
    have hset := retainedBytes_set sizes (mergeEvents s.result[index] event) hlt
    have hle : s.result[index].retainedBytes sizes ≤ retainedBytes sizes s.result :=
      List.le_sum_of_mem (List.mem_map_of_mem (List.getElem_mem hlt))
    have hroom : s.result[index].retainedBytes sizes + event.retainedBytes sizes
        ≤ n + (s.bytes sizes + event.retainedBytes sizes) := by omega
    have hcharged := charge_survivor h hroom
    rcases (h.release hroom).charge ((mergeEvents s.result[index] event).retainedBytes sizes) with
      ⟨after, hok, hat⟩ | herror
    · rw [hstep, hok]
      refine hat.congr ?_
      change _ = n + (retainedBytes sizes (s.result.set index _) + s.charged)
      omega
    · rw [herror] at hcharged
      cases hcharged
  · -- its key is new
    rcases h.charge (dedupKeyBytes sizes key) with ⟨after, hok, hat⟩ | herror
    · rw [hstep, hok]
      refine hat.congr ?_
      simp only [DedupState.bytes, DedupState.pushCall, retainedBytes_append, retainedBytes_cons,
        retainedBytes_nil]
      omega
    · rw [hstep, herror]
      exact (h.release (by omega)).sound (by omega)

variable (sizes start) in
/-- **All events.** -/
theorem dedupLoop_at (events : List CommandEvent) (s : DedupState) :
    Triple (At start (n + (s.bytes sizes + retainedBytes sizes events)))
      (.of (dedupLoop sizes events s)) (fun t => At start (n + t.bytes sizes)) (Sound start n) := by
  induction events generalizing s with
  | nil => exact fun budget h => h
  | cons event events ih =>
    have hloop : Attempt.of (dedupLoop sizes (event :: events) s)
        = Attempt.of (dedupEvent sizes event s) >>= fun s => .of (dedupLoop sizes events s) := by
      funext budget
      change dedupLoop sizes (event :: events) s budget = Attempt.answer _ budget
      rw [Attempt.answer_bind, Attempt.answer_of, dedupLoop]
      rcases dedupEvent sizes event s budget with ⟨e | t, after⟩
      · rfl
      · rfl
    rw [hloop]
    -- the events to come are charged beside what one event works on
    have hevent := dedupEvent_at sizes start
      (n := n + retainedBytes sizes events) event s
    have hlow : ∀ budget, Sound start (n + retainedBytes sizes events) budget →
        Sound start n budget := by
      rintro budget ⟨m, hle, hat⟩
      exact hat.sound (by omega)
    refine (hevent.conseq (fun budget h => h.congr ?_) (fun _ _ => id) hlow).bind
      fun t => (ih t).weaken fun budget h => h.congr (by omega)
    rw [retainedBytes_cons]
    omega

variable (sizes start) in
/-- **Duplicates**: what is left is charged, and nothing beside it. -/
theorem deduplicateEventsWithin_at (events : List CommandEvent) :
    Triple (At start (n + retainedBytes sizes events)) (.of (deduplicateEventsWithin sizes events))
      (fun result => At start (n + retainedBytes sizes result)) (Sound start n) := by
  have hloop := dedupLoop_at sizes start (n := n) events .empty
  intro budget h
  have hend := hloop budget (h.congr (by
    change _ = n + (0 + 0 + retainedBytes sizes events)
    omega))
  rw [Attempt.answer_of] at hend ⊢
  unfold deduplicateEventsWithin
  generalize dedupLoop sizes events .empty budget = r at hend ⊢
  rcases r with ⟨e | s, after⟩
  · exact hend
  · have hsort := retainedBytes_perm sizes (sortEvents_perm s.result)
    refine (At.release hend ?_).congr ?_
    · simp only [DedupState.bytes]
      omega
    · simp only [DedupState.bytes]
      omega

/-- Where a call is met again, the charge of the survivor is granted. -/
def RechargesSurvivors (sizes : Sizes) (events : List CommandEvent) (budget : StateBudget) : Prop :=
  ∀ (before later : List CommandEvent) (event : CommandEvent) (s : DedupState) (after : StateBudget)
    (key : DedupKey) (index : Nat) (h : index < s.result.length),
    events = before ++ event :: later →
    dedupLoop sizes before .empty budget = (.ok s, after) →
    dedupKey event = some key → s.calls.lookup key = some index →
    ((after.release (s.result[index].retainedBytes sizes + event.retainedBytes sizes)).charge
      ((mergeEvents s.result[index] event).retainedBytes sizes)).1 = .ok ()

theorem rechargesSurvivors (h : At start (n + retainedBytes sizes events) budget) :
    RechargesSurvivors sizes events budget := by
  intro before later event s after key index hlt hevents hloop _ _
  subst hevents
  rw [retainedBytes_append, retainedBytes_cons] at h
  have hbefore := dedupLoop_at sizes start
    (n := n + event.retainedBytes sizes + retainedBytes sizes later) before .empty
  have hat := hbefore.ok (h.congr (by
    change _ = _ + (0 + 0 + retainedBytes sizes before)
    omega)) hloop
  have hle : s.result[index].retainedBytes sizes ≤ retainedBytes sizes s.result :=
    List.le_sum_of_mem (List.mem_map_of_mem (List.getElem_mem hlt))
  refine charge_survivor hat ?_
  simp only [DedupState.bytes]
  omega

end

/-! ## 4. Redaction -/

section

variable {sizes : Sizes} {u : Unicode} {start : StateBudget} {n : Nat}

/-- The tables are charged, beside `n` other bytes. -/
def Discovered (start : StateBudget) (n : Nat) (s : Discovery) : Prop :=
  At start (n + s.tables.charged) s.budget

/-- A discovery that charges what it keeps, whether it fails or not. -/
abbrev Charges (start : StateBudget) (n : Nat) (x : Discovering) : Prop :=
  Triple (Discovered start n) x (fun _ => Discovered start n) (Discovered start n)

theorem chargeEntry_charges (bytes : Nat) : Charges start n (chargeEntry bytes) := by
  intro s h
  rw [chargeEntry, Attempt.answer_of]
  rcases At.charge h bytes with ⟨after, hok, hat⟩ | herror
  · rw [hok]
    exact hat.congr (Nat.add_assoc _ _ _)
  · rw [herror]
    exact h

theorem addReplacement_charges (pattern replacement : Str) :
    Charges start n (addReplacement pattern replacement) := by
  refine Triple.bind (Triple.get (Q := fun _ => Discovered start n) fun _ h => h) fun s => ?_
  refine .ite (fun _ => .pure fun _ => id) fun _ => ?_
  exact (chargeEntry_charges _).bind fun _ => .modify fun _ h => h

theorem addUser_charges (user : Str) : Charges start n (addUser user) := by
  refine Triple.bind (Triple.get (Q := fun _ => Discovered start n) fun _ h => h) fun s => ?_
  refine .ite (fun _ => .pure fun _ => id) fun _ => ?_
  exact (chargeEntry_charges _).bind fun _ => .modify fun _ h => h

theorem each_charges {α : Type} {f : α → Discovering} (h : ∀ item, Charges start n (f item))
    (items : List α) : Charges start n (each items f) :=
  Triple.foldlM (I := fun _ => Discovered start n) (fun item _ _ => h item) ()

theorem discoverEvent_charges (found : List Str) (event : CommandEvent) :
    Charges start n (discoverEvent found event) :=
  (each_charges addUser_charges _).bind fun _ =>
    each_charges (fun path => addReplacement_charges path _) _

theorem discoverEvents_charges (found : List Str) (events : List CommandEvent) :
    Charges start n (discoverEvents found events) := by
  cases events with
  | nil => exact .pure fun _ => id
  | cons event events =>
    exact (discoverEvent_charges found event).bind fun _ =>
      each_charges (discoverEvent_charges []) events

variable (start) in
theorem discover_charges (settings : RedactionSettings) (events : List CommandEvent) :
    Charges start n (discover settings events) := by
  refine (each_charges (fun home => addReplacement_charges home _) _).bind fun _ => ?_
  refine (discoverEvents_charges _ events).bind fun _ => ?_
  refine (each_charges (fun workspace => addReplacement_charges _ _) _).bind fun _ => ?_
  exact each_charges (fun pattern => addReplacement_charges pattern _) _

/-- An event that changes its size. -/
theorem adjust_at (before after : Nat) :
    Triple (At start (n + before)) (adjust before after) (fun _ => At start (n + after))
      (Sound start n) := by
  refine .ite (fun hlt => ?_) fun hle => ?_
  · refine (triple_charge (Nat.le_add_right n before)).conseq (fun _ => id) (fun _ budget h => ?_)
      fun _ => id
    exact h.congr (by omega)
  · refine (triple_release (by omega)).conseq (fun _ => id) (fun _ budget h => ?_) fun _ => id
    exact h.congr (by omega)

variable (sizes start) in
theorem redactEach_at (tables : Tables) (events : List CommandEvent) :
    Triple (At start (n + retainedBytes sizes events)) (redactEach sizes u tables events)
      (fun events => At start (n + retainedBytes sizes events)) (Sound start n) := by
  induction events generalizing n with
  | nil => exact .pure fun _ => id
  | cons event events ih =>
    have hlow : ∀ m budget, Sound start (n + m) budget → Sound start n budget := by
      rintro m budget ⟨k, hle, hat⟩
      exact hat.sound (by omega)
    rw [redactEach]
    refine Triple.bind (Q := fun _ => At start (n + retainedBytes sizes events
      + (redactEvent u tables event).retainedBytes sizes)) ?_ fun _ => ?_
    · refine (adjust_at (n := n + retainedBytes sizes events) _ _).conseq (fun _ h => h.congr ?_)
        (fun _ _ => id) (hlow _)
      rw [retainedBytes_cons]
      omega
    · refine Triple.bind ((ih (n := n + (redactEvent u tables event).retainedBytes sizes)).conseq
        (fun _ h => h.congr (by omega)) (fun _ _ => id) (hlow _)) fun events => ?_
      refine .pure fun _ h => h.congr ?_
      rw [retainedBytes_cons]
      omega

variable (sizes start) in
/-- **Redaction**: what the events have grown is charged; the tables are not. -/
theorem redactEventsWithin_at (settings : RedactionSettings) (events : List CommandEvent) :
    Triple (At start (n + retainedBytes sizes events)) (redactEventsWithin sizes u settings events)
      (fun events => At start (n + retainedBytes sizes events)) (Sound start n) := by
  intro budget h
  have hdiscover := discover_charges start (n := n + retainedBytes sizes events) settings
    events { tables := .empty, budget } h
  rw [redactEventsWithin, Attempt.answer_of]
  generalize (discover settings events).answer { tables := .empty, budget } = r at hdiscover ⊢
  rcases r with ⟨e | ⟨⟩, s⟩
  · refine At.sound (At.release hdiscover (Nat.le_add_left _ _)) ?_
    omega
  · have heach := redactEach_at sizes start (u := u)
      (n := n + s.tables.charged) s.tables events s.budget (At.congr hdiscover (by omega))
    simp only
    generalize (redactEach sizes u s.tables events).answer s.budget = r at heach ⊢
    rcases r with ⟨e | events', after⟩
    · obtain ⟨m, hle, hat⟩ := heach
      exact (hat.release (by omega)).sound (by omega)
    · exact (At.release heach (by omega)).congr (by omega)

end

/-! ## 5. Analyses -/

inductive Operation
  | read (file : LogFile) (source : LogSource) (limits : ResourceLimits)
  | filter (filter : EventFilter)
  | deduplicate
  | sort
  | redact (settings : RedactionSettings)

/-- The events that were collected, and what they are charged to. -/
structure Analysis where
  events : List CommandEvent
  budget : StateBudget
deriving DecidableEq, Repr

/-- Where the operations take place. -/
structure Surroundings where
  sizes : Sizes
  decoding : Decoding
  unicode : Unicode

namespace Analysis

def new (limit : Nat) : Analysis := { events := [], budget := .new limit }

variable (env : Surroundings)

/-- One operation.  A source that cannot be read contributes nothing; the analysis ends where
another operation fails. -/
def step (analysis : Analysis) : Operation → Option Analysis
  | .read file source limits =>
    match (readEventLog env.sizes env.decoding file source limits).answer analysis.budget with
    | (.ok log, budget) => some { events := analysis.events ++ log.events, budget }
    | (.error _, budget) => some { analysis with budget }
  | .filter filter =>
    let (events, budget) := filterEventsWithin env.sizes analysis.events filter analysis.budget
    some { events, budget }
  | .deduplicate =>
    match deduplicateEventsWithin env.sizes analysis.events analysis.budget with
    | (.ok events, budget) => some { events, budget }
    | (.error _, _) => none
  | .sort => some { analysis with events := sortEvents analysis.events }
  | .redact settings =>
    match (redactEventsWithin env.sizes env.unicode settings analysis.events).answer
        analysis.budget with
    | (.ok events, budget) => some { events, budget }
    | (.error _, _) => none

def run (analysis : Analysis) (operations : List Operation) : Option Analysis :=
  operations.foldlM (step env) analysis

/-- The budget holds the events and nothing else. -/
def Balanced (limit : Nat) (analysis : Analysis) : Prop :=
  At (.new limit) (retainedBytes env.sizes analysis.events) analysis.budget

/-- What an operation answers and leaves: used bytes equal to those of the events it answers, and
nothing given back that was not charged, even by one that fails. -/
def Settles (analysis : Analysis) (x : Attempt LimitExceeded StateBudget (List CommandEvent)) :
    Prop :=
  (∀ events budget, x.answer analysis.budget = (.ok events, budget) →
    budget.used = retainedBytes env.sizes events) ∧
  (x.answer analysis.budget).2.overdrawn = false

/-- **Conservation** in a state: the books are right, and whatever comes next keeps them. -/
structure Conserves (analysis : Analysis) : Prop where
  used : analysis.budget.used = retainedBytes env.sizes analysis.events
  overdrawn : analysis.budget.overdrawn = false
  read : ∀ file source limits,
    let (result, after) :=
      (readEventLog env.sizes env.decoding file source limits).answer analysis.budget
    after.overdrawn = false ∧
      match result with
      | .ok log => after.used = analysis.budget.used + retainedBytes env.sizes log.events
      | .error _ => after.used = analysis.budget.used
  filter : ∀ filter, analysis.Settles env
    (.of fun budget => ((filterEventsWithin env.sizes analysis.events filter budget).map .ok id))
  deduplicate : analysis.Settles env (.of (deduplicateEventsWithin env.sizes analysis.events))
  recharge : RechargesSurvivors env.sizes analysis.events analysis.budget
  redact : ∀ settings,
    analysis.Settles env (redactEventsWithin env.sizes env.unicode settings analysis.events)

section

variable {env} {limit : Nat} {analysis after : Analysis}

theorem balanced_new : Balanced env limit (new limit) where
  eq := rfl
  within := decide_eq_true (Nat.zero_le limit)

/-- What is known of an operation on the events settles it. -/
theorem Balanced.settles (h : Balanced env limit analysis)
    {x : Attempt LimitExceeded StateBudget (List CommandEvent)} {m : Nat}
    (hx : Triple (At (.new limit) (retainedBytes env.sizes analysis.events)) x
      (fun events => At (.new limit) (retainedBytes env.sizes events)) (Sound (.new limit) m)) :
    analysis.Settles env x := by
  refine ⟨fun events budget hanswer => (hx.ok h hanswer).used, ?_⟩
  have hend := hx _ h
  generalize x.answer analysis.budget = r at hend ⊢
  rcases r with ⟨e | events, budget⟩
  · exact hend.overdrawn
  · exact hend.overdrawn

theorem Balanced.conserves (h : Balanced env limit analysis) : Conserves env analysis where
  used := h.used
  overdrawn := h.overdrawn
  read file source limits := by
    have hread := readEventLog_adds env.sizes env.decoding (.new limit)
      (n := retainedBytes env.sizes analysis.events) file source limits
      analysis.budget h
    rw [h.used]
    generalize (readEventLog env.sizes env.decoding file source limits).answer analysis.budget = r
      at hread ⊢
    rcases r with ⟨e | log, budget⟩
    · exact ⟨hread.overdrawn, hread.used⟩
    · exact ⟨hread.overdrawn, hread.used⟩
  filter filter := h.settles (m := 0) fun budget hat => by
    rw [← Nat.zero_add (retainedBytes _ _)] at hat
    exact (filterEventsWithin_at hat filter).congr (Nat.zero_add _)
  deduplicate := by
    have hdedup := deduplicateEventsWithin_at env.sizes (.new limit) (n := 0)
      analysis.events
    simp only [Nat.zero_add] at hdedup
    exact h.settles hdedup
  recharge := rechargesSurvivors (At.congr h (Nat.zero_add _).symm)
  redact settings := by
    have hredact := redactEventsWithin_at env.sizes (.new limit) (u := env.unicode)
      (n := 0) settings analysis.events
    simp only [Nat.zero_add] at hredact
    exact h.settles hredact

/-- An operation that succeeded, and what is known of it. -/
theorem Balanced.of_triple (h : Balanced env limit analysis)
    {x : Attempt LimitExceeded StateBudget (List CommandEvent)} {E : StateBudget → Prop}
    (hx : Triple (At (.new limit) (0 + retainedBytes env.sizes analysis.events)) x
      (fun events => At (.new limit) (0 + retainedBytes env.sizes events)) E)
    {events : List CommandEvent} {budget : StateBudget}
    (hanswer : x.answer analysis.budget = (.ok events, budget)) :
    Balanced env limit { events, budget } :=
  At.congr (hx.ok (At.congr h (Nat.zero_add _).symm) hanswer) (Nat.zero_add _)

/-- **One operation.** -/
theorem Balanced.step (h : Balanced env limit analysis) {operation : Operation}
    (hstep : analysis.step env operation = some after) : Balanced env limit after := by
  cases operation with
  | read file source limits =>
    have hread := readEventLog_adds env.sizes env.decoding (.new limit)
      (n := retainedBytes env.sizes analysis.events) file source limits
    simp only [Analysis.step] at hstep
    split at hstep
    · rename_i log budget hanswer
      cases hstep
      exact At.congr (hread.ok h hanswer) (retainedBytes_append _ _ _).symm
    · rename_i e budget hanswer
      cases hstep
      exact hread.error h hanswer
  | filter filter =>
    cases hstep
    exact At.congr (filterEventsWithin_at (At.congr h (Nat.zero_add _).symm) filter)
      (Nat.zero_add _)
  | deduplicate =>
    simp only [Analysis.step] at hstep
    split at hstep
    · rename_i events budget hanswer
      cases hstep
      exact h.of_triple (deduplicateEventsWithin_at _ _ analysis.events) hanswer
    · cases hstep
  | sort =>
    cases hstep
    exact At.congr h (retainedBytes_perm _ (sortEvents_perm _)).symm
  | redact settings =>
    simp only [Analysis.step] at hstep
    split at hstep
    · rename_i events budget hanswer
      cases hstep
      exact h.of_triple (redactEventsWithin_at _ _ settings analysis.events) hanswer
    · cases hstep

theorem Balanced.run {operations : List Operation} (h : Balanced env limit analysis)
    (hrun : analysis.run env operations = some after) : Balanced env limit after := by
  induction operations generalizing analysis with
  | nil =>
    cases hrun
    exact h
  | cons operation operations ih =>
    rw [Analysis.run, List.foldlM_cons] at hrun
    obtain ⟨next, hstep, hrest⟩ := Option.bind_eq_some_iff.mp hrun
    exact ih (h.step hstep) hrest

/-- **A whole analysis** keeps its books. -/
theorem run_conserves {operations : List Operation}
    (hrun : (new limit).run env operations = some analysis) : Conserves env analysis :=
  (balanced_new.run hrun).conserves

/-- A file whose one record is a call of a shell. -/
def recordedCall : LogFile where
  path := []
  length := some 10
  document := some (.object [("toolId".toList, .string "bash".toList),
    ("arguments".toList, .object [("command".toList, .string "mvn test".toList)])])
  workspaces := []
  content := none
  database := none

theorem run_conserves_recordedCall :
    ∃ analysis,
      (new 1000).run ⟨⟨1, 1, 1, 1, 1⟩, ⟨fun _ => none, isAsciiDigit⟩, .asciiOnly⟩
        [.read recordedCall .vsCode ⟨100, 100, 100⟩, .deduplicate] = some analysis ∧
      analysis.events.length = 1 ∧
      Conserves ⟨⟨1, 1, 1, 1, 1⟩, ⟨fun _ => none, isAsciiDigit⟩, .asciiOnly⟩ analysis := by
  have hrun : ((new 1000).run ⟨⟨1, 1, 1, 1, 1⟩, ⟨fun _ => none, isAsciiDigit⟩, .asciiOnly⟩
      [.read recordedCall .vsCode ⟨100, 100, 100⟩, .deduplicate]).map (·.events.length)
        = some 1 := by decide +kernel
  obtain ⟨analysis, hanalysis, hlength⟩ := Option.map_eq_some_iff.mp hrun
  exact ⟨analysis, hanalysis, hlength, run_conserves hanalysis⟩

end

end Analysis

end MavenMcp.LogAnalysis
