/-
# Publishing cache hits

A cache hit does not write the status file (`record_hit` in `src/runtime_stats.rs`, called by
`publish_runtime_status_after_hit` in `src/server.rs`): the first one after a write schedules a
flush, the following ones rely on it, and a structural change may write in between.

A hit is counted, recorded and flushed under different locks, so anything may happen in between;
each action below is what happens under one of them.  `hits_published` says for every run that
no recorded hit is forgotten, that it waits no longer than `HIT_PUBLICATION_DELAY`, and that the
flushes are that far apart, however stale the moment is that a request took before it got the lock.
-/
import MavenMcp.Lib.Loop
import Mathlib.Algebra.GroupWithZero.Nat
import Mathlib.Data.List.Chain

namespace MavenMcp
namespace RuntimeStats

/-! ## 1. The publisher -/

/-- In nanoseconds. -/
def hitPublicationDelay : Nat := 10 ^ 9

/-- What a status file says of the cache; `rest` is all but its hits. -/
structure CacheStatus (δ : Type) where
  hits : Nat
  rest : δ
deriving DecidableEq, Repr

/-- `RuntimeStatusPublisher` with its file. -/
structure Publisher (δ : Type) where
  status : CacheStatus δ
  lastWritten : Nat
  dirty : Bool
  pending : Bool
  closed : Bool
  file : Option (CacheStatus δ)
deriving DecidableEq, Repr

variable {δ : Type}

namespace Publisher

/-- `register_in`. -/
def register (status : CacheStatus δ) (now : Nat) : Publisher δ :=
  { status, lastWritten := now, dirty := false, pending := false, closed := false
    file := some status }

/-- `stored` tells whether the file could be written. -/
def write (state : Publisher δ) (now : Nat) (stored : Bool) : Publisher δ :=
  { state with
    lastWritten := now
    dirty := false
    file := if stored then some state.status else state.file }

def updateCache (state : Publisher δ) (cache : CacheStatus δ) (now : Nat) (stored : Bool) :
    Publisher δ :=
  if state.closed then state else write { state with status := cache } now stored

/-- The time left until the caller must flush, if it must. -/
def recordHitAt (state : Publisher δ) (now : Nat) : Option Nat × Publisher δ :=
  if state.closed then (none, state)
  else
    let state := { state with dirty := true }
    if state.pending then (none, state)
    else
      (some (hitPublicationDelay - (now - state.lastWritten)), { state with pending := true })

def flushHits (state : Publisher δ) (cache : CacheStatus δ) (now : Nat) (stored : Bool) :
    Publisher δ :=
  let state := { state with pending := false }
  if state.closed || !state.dirty then state else write { state with status := cache } now stored

def close (state : Publisher δ) : Publisher δ := { state with closed := true, file := none }

end Publisher

/-! ## 2. Runs -/

/-- The publisher, the cache it reports on, and what is on its way between them. -/
structure Reporting (δ : Type) where
  cache : CacheStatus δ
  publisher : Publisher δ
  /-- Hits that are counted and not yet recorded. -/
  recording : Nat
  /-- The flushes that are scheduled, as the moments from which they run. -/
  due : List Nat
  clock : Nat
  /-- When the recorded hits of no write were recorded. -/
  unwritten : List Nat
  /-- When flushes wrote, the last one first. -/
  flushed : List Nat
  /-- The last write failed. -/
  failed : Bool
deriving DecidableEq, Repr

inductive Report (δ : Type)
  /-- A hit is counted in the project cache. -/
  | hit (rest : δ)
  /-- Anything else changes there. -/
  | change (rest : δ)
  /-- `record_hit`, with the moment taken before its lock and the moment in it. -/
  | record (taken now : Nat)
  /-- `publish_runtime_status`. -/
  | publish (now : Nat) (stored : Bool)
  /-- `flush_runtime_hits` of a scheduled flush. -/
  | flush (due now : Nat) (stored : Bool)
  | close
deriving DecidableEq, Repr

namespace Reporting

def start (status : CacheStatus δ) (now : Nat) : Reporting δ :=
  { cache := status, publisher := .register status now, recording := 0, due := [], clock := now
    unwritten := [], flushed := [], failed := false }

/-- Under the lock of the publisher, with a moment that does not go back. -/
def record (s : Reporting δ) (taken now : Nat) : Reporting δ :=
  let (delay, publisher) := s.publisher.recordHitAt taken
  { s with
    publisher
    recording := s.recording - 1
    clock := now
    due := s.due ++ (delay.map (now + ·)).toList
    unwritten := if s.publisher.closed then s.unwritten else s.unwritten ++ [now] }

def publish (s : Reporting δ) (now : Nat) (stored : Bool) : Reporting δ :=
  { s with
    publisher := s.publisher.updateCache s.cache now stored
    clock := now
    unwritten := if s.publisher.closed then s.unwritten else []
    failed := if s.publisher.closed then s.failed else !stored }

def flush (s : Reporting δ) (due now : Nat) (stored : Bool) : Reporting δ :=
  let writes := !(s.publisher.closed || !s.publisher.dirty)
  { s with
    publisher := s.publisher.flushHits s.cache now stored
    due := s.due.erase due
    clock := now
    unwritten := if writes then [] else s.unwritten
    flushed := if writes then now :: s.flushed else s.flushed
    failed := if writes then !stored else s.failed }

def step (s : Reporting δ) : Report δ → Option (Reporting δ)
  | .hit rest =>
    some { s with cache := { hits := s.cache.hits + 1, rest }, recording := s.recording + 1 }
  | .change rest => some { s with cache := { s.cache with rest } }
  | .record taken now =>
    if 0 < s.recording ∧ taken ≤ now ∧ s.clock ≤ now then some (s.record taken now) else none
  | .publish now stored => if s.clock ≤ now then some (s.publish now stored) else none
  | .flush due now stored =>
    if due ∈ s.due ∧ due ≤ now ∧ s.clock ≤ now then some (s.flush due now stored) else none
  | .close => some { s with publisher := s.publisher.close }

/-! ## 3. What a step keeps -/

/-- What holds in every state of a run. -/
structure Inv (s : Reporting δ) : Prop where
  /-- One flush is scheduled while one is pending, otherwise none. -/
  scheduled : (s.publisher.pending = true ∧ ∃ d, s.due = [d] ∧
      ∀ flush ∈ s.flushed.head?, flush + hitPublicationDelay ≤ d) ∨
    (s.publisher.pending = false ∧ s.due = [])
  dirty : s.publisher.closed = false → (s.publisher.dirty = true ↔ s.unwritten ≠ [])
  pending : s.publisher.closed = false → s.publisher.dirty = true → s.publisher.pending = true
  lag : s.publisher.closed = false → ∀ moment ∈ s.unwritten, ∀ d ∈ s.due,
    d ≤ moment + hitPublicationDelay
  /-- The written figures lag behind by no more than the hits on their way. -/
  counted : s.publisher.closed = false →
    s.publisher.status.hits ≤ s.cache.hits ∧
      s.cache.hits ≤ s.publisher.status.hits + s.unwritten.length + s.recording
  soon : ∀ d ∈ s.due, d ≤ s.clock + hitPublicationDelay
  written : s.publisher.lastWritten ≤ s.clock
  flushes : ∀ flush ∈ s.flushed, flush ≤ s.publisher.lastWritten
  spaced : s.flushed.IsChain fun later earlier => earlier + hitPublicationDelay ≤ later
  file : s.publisher.file = if s.publisher.closed then none
    else if s.failed then s.publisher.file else some s.publisher.status

theorem inv_start (status : CacheStatus δ) (now : Nat) : (start status now).Inv where
  scheduled := .inr ⟨rfl, rfl⟩
  dirty := by simp [start, Publisher.register]
  pending := by simp [start, Publisher.register]
  lag := by simp [start]
  counted := by simp [start, Publisher.register]
  soon := by simp [start]
  written := le_rfl
  flushes := by simp [start]
  spaced := List.IsChain.nil
  file := rfl

variable {s s' : Reporting δ}

/-- A flush is due behind the delay of the last write, and within the delay from now, whenever
before its lock a request took its moment. -/
theorem due_bounds (delay : Nat) {taken now last : Nat} (htaken : taken ≤ now)
    (hlast : last ≤ now) :
    last + delay ≤ now + (delay - (taken - last)) ∧
      now + (delay - (taken - last)) ≤ now + delay := by
  omega

/-- A request that records a hit schedules a flush only where none is pending, and behind the delay
of the last write. -/
theorem Inv.record (h : s.Inv) {taken now : Nat} (hrecording : 0 < s.recording)
    (htaken : taken ≤ now) (hnow : s.clock ≤ now) : (s.record taken now).Inv := by
  have hwritten := h.written
  cases hclosed : s.publisher.closed with
  | true =>
    have hrecord : s.record taken now = { s with recording := s.recording - 1, clock := now } := by
      simp [Reporting.record, Publisher.recordHitAt, hclosed]
    rw [hrecord]
    exact
      { scheduled := h.scheduled
        dirty := by simp [hclosed]
        pending := by simp [hclosed]
        lag := by simp [hclosed]
        counted := by simp [hclosed]
        soon := fun d hd => (h.soon d hd).trans (Nat.add_le_add_right hnow _)
        written := hwritten.trans hnow
        flushes := h.flushes
        spaced := h.spaced
        file := h.file }
  | false =>
    have hcounted := h.counted hclosed
    have hmoved : s.cache.hits ≤ s.publisher.status.hits + (s.unwritten.length + 1)
        + (s.recording - 1) := by omega
    rcases h.scheduled with ⟨hpending, d, hdue, hfirst⟩ | ⟨hpending, hdue⟩
    · have hrecord : s.record taken now =
          { s with
            publisher := { s.publisher with dirty := true }
            recording := s.recording - 1
            clock := now
            unwritten := s.unwritten ++ [now] } := by
        simp [Reporting.record, Publisher.recordHitAt, hclosed, hpending]
      rw [hrecord]
      refine
        { scheduled := .inl ⟨hpending, d, hdue, hfirst⟩
          dirty := by simp
          pending := fun _ _ => hpending
          lag := fun _ moment hmoment d' hd' => ?_
          counted := fun _ => ⟨hcounted.1, ?_⟩
          soon := fun d' hd' => (h.soon d' hd').trans (Nat.add_le_add_right hnow _)
          written := hwritten.trans hnow
          flushes := h.flushes
          spaced := h.spaced
          file := h.file }
      · rcases List.mem_append.mp hmoment with hmoment | hmoment
        · exact h.lag hclosed moment hmoment d' hd'
        · rw [List.mem_singleton.mp hmoment]
          exact (h.soon d' hd').trans (Nat.add_le_add_right hnow _)
      · rw [List.length_append, List.length_singleton]
        exact hmoved
    · have hclean : s.unwritten = [] := by
        by_contra hne
        have hp := h.pending hclosed ((h.dirty hclosed).mpr hne)
        rw [hpending] at hp
        cases hp
      obtain ⟨d, hd⟩ : ∃ d, d = now + (hitPublicationDelay - (taken - s.publisher.lastWritten)) :=
        ⟨_, rfl⟩
      obtain ⟨hlow, hhigh⟩ := due_bounds hitPublicationDelay htaken (hwritten.trans hnow)
      rw [← hd] at hlow hhigh
      have hrecord : s.record taken now =
          { s with
            publisher := { s.publisher with dirty := true, pending := true }
            recording := s.recording - 1
            clock := now
            due := [d]
            unwritten := [now] } := by
        simp [Reporting.record, Publisher.recordHitAt, hclosed, hpending, hdue, hclean, hd]
      rw [hrecord]
      refine
        { scheduled := .inl ⟨rfl, d, rfl, ?_⟩
          dirty := by simp
          pending := fun _ _ => rfl
          lag := fun _ moment hmoment d' hd' => ?_
          counted := fun _ => ⟨hcounted.1, ?_⟩
          soon := fun d' hd' => ?_
          written := hwritten.trans hnow
          flushes := h.flushes
          spaced := h.spaced
          file := h.file }
      · intro flush hflush
        have hle := h.flushes flush (List.mem_of_mem_head? hflush)
        exact (Nat.add_le_add_right hle _).trans hlow
      · rw [List.mem_singleton.mp hmoment, List.mem_singleton.mp hd']
        exact hhigh
      · rw [hclean, List.length_nil] at hmoved
        rw [List.length_singleton]
        exact hmoved
      · rw [List.mem_singleton.mp hd']
        exact hhigh

theorem Inv.publish (h : s.Inv) {now : Nat} (hnow : s.clock ≤ now) (stored : Bool) :
    (s.publish now stored).Inv := by
  have hwritten := h.written
  cases hclosed : s.publisher.closed with
  | true =>
    have hpublish : s.publish now stored = { s with clock := now } := by
      simp [Reporting.publish, Publisher.updateCache, hclosed]
    rw [hpublish]
    exact
      { scheduled := h.scheduled
        dirty := h.dirty
        pending := h.pending
        lag := h.lag
        counted := h.counted
        soon := fun d hd => (h.soon d hd).trans (Nat.add_le_add_right hnow _)
        written := hwritten.trans hnow
        flushes := h.flushes
        spaced := h.spaced
        file := h.file }
  | false =>
    have hpublish : s.publish now stored =
        { s with
          publisher := { s.publisher with status := s.cache } |>.write now stored
          clock := now
          unwritten := []
          failed := !stored } := by
      simp [Reporting.publish, Publisher.updateCache, hclosed]
    rw [hpublish]
    exact
      { scheduled := h.scheduled
        dirty := by simp [Publisher.write]
        pending := by simp [Publisher.write]
        lag := by simp
        counted := fun _ => ⟨le_rfl, by simp [Publisher.write]⟩
        soon := fun d hd => (h.soon d hd).trans (Nat.add_le_add_right hnow _)
        written := le_rfl
        flushes := fun flush hflush => (h.flushes flush hflush).trans (hwritten.trans hnow)
        spaced := h.spaced
        file := by cases stored <;> simp [Publisher.write, hclosed] }

/-- The flush that runs is the only one, and the last one wrote long enough ago. -/
theorem Inv.flush (h : s.Inv) {due now : Nat} (hdue : due ∈ s.due) (hle : due ≤ now)
    (hnow : s.clock ≤ now) (stored : Bool) : (s.flush due now stored).Inv := by
  have hwritten := h.written
  obtain ⟨d, hone, hfirst⟩ : ∃ d, s.due = [d] ∧
      ∀ flush ∈ s.flushed.head?, flush + hitPublicationDelay ≤ d := by
    rcases h.scheduled with ⟨-, hscheduled⟩ | ⟨-, hnone⟩
    · exact hscheduled
    · rw [hnone] at hdue
      cases hdue
  obtain rfl : due = d := by
    rw [hone] at hdue
    exact List.mem_singleton.mp hdue
  cases hwrites : s.publisher.closed || !s.publisher.dirty with
  | true =>
    have hflush : s.flush due now stored =
        { s with publisher := { s.publisher with pending := false }, due := [], clock := now } := by
      simp only [Reporting.flush, Publisher.flushHits, hwrites, hone, List.erase_cons_head]
      rfl
    rw [hflush]
    refine
      { scheduled := .inr ⟨rfl, rfl⟩
        dirty := h.dirty
        pending := fun hclosed hdirty => ?_
        lag := by simp
        counted := h.counted
        soon := by simp
        written := hwritten.trans hnow
        flushes := h.flushes
        spaced := h.spaced
        file := h.file }
    simp only at hclosed hdirty
    rw [hclosed, hdirty] at hwrites
    cases hwrites
  | false =>
    obtain ⟨hclosed, -⟩ := Bool.or_eq_false_iff.mp hwrites
    have hflush : s.flush due now stored =
        { s with
          publisher :=
            { s.publisher with pending := false, status := s.cache } |>.write now stored
          due := []
          clock := now
          unwritten := []
          flushed := now :: s.flushed
          failed := !stored } := by
      simp only [Reporting.flush, Publisher.flushHits, hwrites, hone, List.erase_cons_head]
      rfl
    rw [hflush]
    refine
      { scheduled := .inr ⟨rfl, rfl⟩
        dirty := by simp [Publisher.write]
        pending := by simp [Publisher.write]
        lag := by simp
        counted := fun _ => ⟨le_rfl, by simp [Publisher.write]⟩
        soon := by simp
        written := le_rfl
        flushes := fun flush hflush => ?_
        spaced := ?_
        file := by cases stored <;> simp [Publisher.write, hclosed] }
    · rcases List.mem_cons.mp hflush with rfl | hflush
      · exact le_rfl
      · exact (h.flushes flush hflush).trans (hwritten.trans hnow)
    · cases hflushed : s.flushed with
      | nil => exact List.isChain_singleton now
      | cons flush flushes =>
        have hlast := hfirst flush (by rw [hflushed]; rfl)
        refine List.isChain_cons_cons.mpr ⟨hlast.trans hle, ?_⟩
        rw [← hflushed]
        exact h.spaced

theorem Inv.close (h : s.Inv) : ({ s with publisher := s.publisher.close } : Reporting δ).Inv where
  scheduled := h.scheduled
  dirty := by simp [Publisher.close]
  pending := by simp [Publisher.close]
  lag := by simp [Publisher.close]
  counted := by simp [Publisher.close]
  soon := h.soon
  written := h.written
  flushes := h.flushes
  spaced := h.spaced
  file := rfl

/-- Counting a hit and any other change of the cache. -/
theorem Inv.counts (h : s.Inv) (cache : CacheStatus δ) {recording : Nat}
    (hhits : s.cache.hits ≤ cache.hits)
    (hrecording : cache.hits - s.cache.hits ≤ recording - s.recording)
    (hmore : s.recording ≤ recording) :
    ({ s with cache, recording } : Reporting δ).Inv where
  scheduled := h.scheduled
  dirty := h.dirty
  pending := h.pending
  lag := h.lag
  counted := fun hclosed => by
    have := h.counted hclosed
    simp only
    omega
  soon := h.soon
  written := h.written
  flushes := h.flushes
  spaced := h.spaced
  file := h.file

theorem Inv.step (h : s.Inv) {report : Report δ} (hs : s.step report = some s') : s'.Inv := by
  cases report with
  | hit rest =>
    cases hs
    exact h.counts _ (Nat.le_succ _) (by simp) (Nat.le_succ _)
  | change rest =>
    cases hs
    exact h.counts { s.cache with rest } le_rfl (by simp) le_rfl
  | record taken now =>
    simp only [Reporting.step] at hs
    split at hs
    · rename_i hguard
      cases hs
      exact h.record hguard.1 hguard.2.1 hguard.2.2
    · cases hs
  | publish now stored =>
    simp only [Reporting.step] at hs
    split at hs
    · rename_i hguard
      cases hs
      exact h.publish hguard stored
    · cases hs
  | flush due now stored =>
    simp only [Reporting.step] at hs
    split at hs
    · rename_i hguard
      cases hs
      exact h.flush hguard.1 hguard.2.1 hguard.2.2 stored
    · cases hs
  | close =>
    cases hs
    exact h.close

theorem Inv.of_run {status : CacheStatus δ} {now : Nat}
    (h : Steps.Reaches Reporting.step (fun _ _ => True) (start status now) s) : s.Inv :=
  h.invariant (inv_start status now) fun _ _ _ hu _ hs => hu.step hs

/-! ## 4. Hits are published -/

/-- No step opens the publisher again. -/
theorem closed_of_step {report : Report δ} (hs : s.step report = some s')
    (hclosed : s.publisher.closed = true) : s'.publisher.closed = true := by
  cases report with
  | hit rest =>
    cases hs
    exact hclosed
  | change rest =>
    cases hs
    exact hclosed
  | record taken now =>
    simp only [Reporting.step] at hs
    split at hs
    · cases hs
      simp [Reporting.record, Publisher.recordHitAt, hclosed]
    · cases hs
  | publish now stored =>
    simp only [Reporting.step] at hs
    split at hs
    · cases hs
      simp [Reporting.publish, Publisher.updateCache, hclosed]
    · cases hs
  | flush due now stored =>
    simp only [Reporting.step] at hs
    split at hs
    · cases hs
      simp [Reporting.flush, Publisher.flushHits, hclosed]
    · cases hs
  | close =>
    cases hs
    rfl

/-- What is true of hits and of their writes in a state. -/
structure Publishes (s : Reporting δ) : Prop where
  one : s.due.length ≤ 1
  /-- A recorded hit that is not written waits for a flush, and not longer than the delay. -/
  waits : s.publisher.closed = false → ∀ moment ∈ s.unwritten,
    ∃ d ∈ s.due, d ≤ moment + hitPublicationDelay
  /-- Such a flush can run from then on, and writes all that the cache has counted. -/
  flushes : s.publisher.closed = false → s.unwritten ≠ [] → ∀ d ∈ s.due, ∀ now, d ≤ now →
    s.clock ≤ now → ∃ s', s.step (.flush d now true) = some s' ∧ s'.unwritten = [] ∧
      s'.publisher.file = some s.cache
  /-- Unless its last write failed, the file lags behind by the hits on their way alone. -/
  lags : s.publisher.closed = false → s.failed = false → ∃ status,
    s.publisher.file = some status ∧ status.hits ≤ s.cache.hits ∧
      s.cache.hits ≤ status.hits + s.unwritten.length + s.recording
  /-- Flushes write no more often than once in the delay. -/
  spaced : s.flushed.IsChain fun later earlier => earlier + hitPublicationDelay ≤ later
  /-- A publisher that was closed has no file, and does not get one again. -/
  closed : s.publisher.closed = true → s.publisher.file = none ∧
    ∀ report s', s.step report = some s' → s'.publisher.closed = true

theorem Inv.publishes (h : s.Inv) : s.Publishes where
  one := by
    rcases h.scheduled with ⟨-, d, hdue, -⟩ | ⟨-, hdue⟩
    · rw [hdue]
      exact le_rfl
    · rw [hdue]
      exact Nat.zero_le 1
  waits := by
    intro hclosed moment hmoment
    have hne : s.unwritten ≠ [] := List.ne_nil_of_mem hmoment
    have hpending := h.pending hclosed ((h.dirty hclosed).mpr hne)
    rcases h.scheduled with ⟨-, d, hdue, -⟩ | ⟨hnone, -⟩
    · have hd : d ∈ s.due := by
        rw [hdue]
        exact List.mem_singleton.mpr rfl
      exact ⟨d, hd, h.lag hclosed moment hmoment d hd⟩
    · rw [hpending] at hnone
      cases hnone
  flushes := by
    intro hclosed hne d hd now hle hnow
    have hdirty := (h.dirty hclosed).mpr hne
    refine ⟨s.flush d now true, if_pos ⟨hd, hle, hnow⟩, ?_, ?_⟩
    · simp [Reporting.flush, hclosed, hdirty]
    · simp [Reporting.flush, Publisher.flushHits, Publisher.write, hclosed, hdirty]
  lags := by
    intro hclosed hfailed
    have hfile := h.file
    simp only [hclosed, hfailed, Bool.false_eq_true, if_false] at hfile
    exact ⟨s.publisher.status, hfile, h.counted hclosed⟩
  spaced := h.spaced
  closed := by
    intro hclosed
    have hfile := h.file
    rw [if_pos hclosed] at hfile
    exact ⟨hfile, fun report s' hs => closed_of_step hs hclosed⟩

end Reporting

end RuntimeStats
end MavenMcp
