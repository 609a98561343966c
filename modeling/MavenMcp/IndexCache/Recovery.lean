/-
# Recovery of the shared index database

Any number of processes share one database file and one lock file beside it
(`src/index_cache.rs`).  A process that finds the database damaged deletes it and creates it
again, under the exclusive lock; the lock file counts these recoveries.  What a process diagnosed
may be long gone when it gets the lock: it resets only when the count is still the one it had
read before its diagnosis.

An instance is a database file from its creation to its deletion.  `eras` records how many resets
came before each instance, for the proofs: it is the number that the epoch stands for, and the
epoch is a `u64` that wraps.

* `resets_own_diagnosis`: up to the 2^64th reset, every reset deletes the instance that its
  process found damaged, and no instance is reset twice.
* `resets_not_own_diagnosis`: the next one need not.  A process that waits through 2^64 recoveries
  finds its epoch again.

A process may fail or stop anywhere but between the deletion and the counting of a recovery.
-/
import Mathlib.Algebra.GroupWithZero.Nat
import Mathlib.Logic.Function.Basic
import MavenMcp.Lib.Loop

namespace MavenMcp
namespace IndexCache

/-! ## 1. Processes -/

/-- Who called `open`. -/
inductive Caller
  | reader
  /-- The first `try_write` of `write`, with the epoch `write` observed. -/
  | write (observed : UInt64)
  /-- The second one, after the recovery. -/
  | rewrite
deriving DecidableEq, Repr

/-- Who called `recover`. -/
inductive Resume
  | «open» (caller : Caller)
  | write
deriving DecidableEq, Repr

/-- Where a process stands. -/
inductive Stage
  | idle
  /-- In `recovery_epoch`, with the shared lock. -/
  | observing
  /-- About to take the shared lock in `open`. -/
  | starting (caller : Caller)
  /-- In `open`, with the shared lock. -/
  | opening (caller : Caller)
  /-- About to open the database in `open`, with the shared lock and the epoch it read. -/
  | trying (caller : Caller) (observed : UInt64)
  /-- In `try_open`, with a connection to an instance and the shared lock. -/
  | checking (caller : Caller) (observed : UInt64) (on : Nat)
  /-- With a connection to an instance and no lock. -/
  | connected (caller : Caller) (on : Nat)
  /-- About to take the exclusive lock in `recover`, for the damage found on an instance. -/
  | diagnosed (observed : UInt64) (on : Nat) (resume : Resume)
  /-- In `recover`, with the exclusive lock. -/
  | recovering (observed : UInt64) (on : Nat) (resume : Resume)
  /-- The epoch is the observed one: about to delete the database. -/
  | resetting (current : UInt64) (on : Nat) (resume : Resume)
  /-- The database is deleted: about to count the recovery. -/
  | counting (current : UInt64) (resume : Resume)
  /-- About to open the database at the end of `recover`. -/
  | reopening (resume : Resume)
  /-- In the `try_open` of `recover`, with a connection to an instance. -/
  | rechecking (resume : Resume) (on : Nat)
deriving DecidableEq, Repr

inductive Outcome
  | ok
  | damaged
  | failed
deriving DecidableEq, Repr

inductive Event
  | beginOpen
  | beginWrite
  | lockShared
  | readEpoch
  /-- `try_open` opens the file at the path, or creates it. -/
  | create
  | check (outcome : Outcome)
  | use (outcome : Outcome)
  | lockExclusive
  | delete (deleted : Bool)
  | writeEpoch
  /-- The process fails or stops. -/
  | stop
deriving DecidableEq, Repr

namespace Stage

def holdsShared : Stage → Bool
  | observing | opening _ | trying _ _ | checking _ _ _ => true
  | _ => false

def holdsExclusive : Stage → Bool
  | recovering _ _ _ | resetting _ _ _ | counting _ _ | reopening _ | rechecking _ _ => true
  | _ => false

end Stage

/-! ## 2. The lock file and the database -/

/-- The lock of the lock file. -/
structure FileLock (ι : Type) where
  shared : List ι
  exclusive : Option ι
deriving DecidableEq, Repr

structure Reset (ι : Type) where
  by_ : ι
  /-- The instance the process found damaged. -/
  diagnosed : Nat
  /-- The instance that stood at the path. -/
  deleted : Option Nat
deriving DecidableEq, Repr

/-- The cache directory and the processes `ι` that share it. -/
structure CacheDir (ι : Type) where
  /-- The number in the lock file. -/
  epoch : UInt64
  lock : FileLock ι
  /-- The instance at the path of the database. -/
  database : Option Nat
  stage : ι → Stage
  eras : List Nat
  /-- Who found which instance damaged. -/
  diagnoses : List (ι × Nat)
  resets : List (Reset ι)

variable {ι : Type} [DecidableEq ι]

namespace FileLock

def lockShared (l : FileLock ι) (p : ι) : Option (FileLock ι) :=
  if l.exclusive = none then some { l with shared := p :: l.shared } else none

def lockExclusive (l : FileLock ι) (p : ι) : Option (FileLock ι) :=
  if l.exclusive = none ∧ l.shared = [] then some { l with exclusive := some p } else none

/-- The file is closed. -/
def unlock (l : FileLock ι) (p : ι) : FileLock ι :=
  { shared := l.shared.erase p
    exclusive := if l.exclusive = some p then none else l.exclusive }

end FileLock

namespace CacheDir

/-- Before any process has come: an epoch from earlier recoveries, and a database or none. -/
def start (epoch : UInt64) (present : Bool) : CacheDir ι :=
  { epoch
    lock := { shared := [], exclusive := none }
    database := if present then some 0 else none
    stage := fun _ => .idle
    eras := if present then [0] else []
    diagnoses := []
    resets := [] }

/-- A process goes on, with what it then has of the lock. -/
def move (s : CacheDir ι) (p : ι) (lock : FileLock ι) (stage : Stage) : CacheDir ι :=
  { s with lock, stage := Function.update s.stage p stage }

/-- The instance that `try_open` finds at the path or creates there. -/
def instanceAt (s : CacheDir ι) : Nat := s.database.getD s.eras.length

/-- The file exists from here on. -/
def create (s : CacheDir ι) : CacheDir ι :=
  match s.database with
  | some _ => s
  | none =>
    { s with database := some s.eras.length, eras := s.eras ++ [s.resets.length] }

def diagnose (s : CacheDir ι) (p : ι) (i : Nat) : CacheDir ι :=
  { s with diagnoses := s.diagnoses ++ [(p, i)] }

/-- `reset` by a process that diagnosed an instance. -/
def delete (s : CacheDir ι) (p : ι) (on : Nat) : CacheDir ι :=
  { s with
    database := none
    resets := s.resets ++ [{ by_ := p, diagnosed := on, deleted := s.database }] }

/-- `write_epoch`. -/
def count (s : CacheDir ι) (epoch : UInt64) : CacheDir ι := { s with epoch }

/-- Where damage leads that `open` returns, or that its connection meets: only `write` recovers
from it, and only once. -/
def damaged (caller : Caller) (on : Nat) : Stage :=
  match caller with
  | .write observed => .diagnosed observed on .write
  | _ => .idle

/-- One step of a process. -/
def step (s : CacheDir ι) (action : ι × Event) : Option (CacheDir ι) :=
  let p := action.1
  match s.stage p, action.2 with
  | .idle, .beginOpen => some (s.move p s.lock (.starting .reader))
  | .idle, .beginWrite => (s.lock.lockShared p).map fun l => s.move p l .observing
  | .observing, .readEpoch => some (s.move p (s.lock.unlock p) (.starting (.write s.epoch)))
  | .starting caller, .lockShared =>
    (s.lock.lockShared p).map fun l => s.move p l (.opening caller)
  | .opening caller, .readEpoch => some (s.move p s.lock (.trying caller s.epoch))
  | .trying caller observed, .create =>
    some (s.create.move p s.lock (.checking caller observed s.instanceAt))
  | .checking caller _ on, .check .ok =>
    some (s.move p (s.lock.unlock p) (.connected caller on))
  | .checking caller observed on, .check .damaged =>
    some ((s.diagnose p on).move p (s.lock.unlock p) (.diagnosed observed on (.open caller)))
  | .connected _ _, .use .ok => some (s.move p s.lock .idle)
  | .connected caller on, .use .damaged =>
    some ((s.diagnose p on).move p s.lock (damaged caller on))
  | .diagnosed observed on resume, .lockExclusive =>
    (s.lock.lockExclusive p).map fun l => s.move p l (.recovering observed on resume)
  | .recovering observed on resume, .readEpoch =>
    some (s.move p s.lock
      (if s.epoch = observed then .resetting s.epoch on resume else .reopening resume))
  | .resetting current on resume, .delete true =>
    some ((s.delete p on).move p s.lock (.counting current resume))
  | .counting current resume, .writeEpoch =>
    some ((s.count (current + 1)).move p s.lock (.reopening resume))
  | .reopening resume, .create =>
    some (s.create.move p s.lock (.rechecking resume s.instanceAt))
  | .rechecking (.open caller) on, .check .ok =>
    some (s.move p (s.lock.unlock p) (.connected caller on))
  | .rechecking .write _, .check .ok =>
    some (s.move p (s.lock.unlock p) (.starting .rewrite))
  | .rechecking (.open caller) on, .check .damaged =>
    some ((s.diagnose p on).move p (s.lock.unlock p) (damaged caller on))
  | .rechecking .write on, .check .damaged =>
    some ((s.diagnose p on).move p (s.lock.unlock p) .idle)
  | .counting _ _, .stop => none
  -- every other error is returned, and drops the lock
  | .checking _ _ _, .check .failed | .rechecking _ _, .check .failed
  | .connected _ _, .use .failed | .resetting _ _ _, .delete false
  | _, .stop => some (s.move p (s.lock.unlock p) .idle)
  | _, _ => none

end CacheDir

/-! ## 3. What is held -/

/-- Who stands where a lock is held has it, and the exclusive lock excludes the shared one. -/
structure Held (stage : ι → Stage) (l : FileLock ι) : Prop where
  shared : ∀ p, (stage p).holdsShared = true → p ∈ l.shared
  exclusive : ∀ p, (stage p).holdsExclusive = true → l.exclusive = some p
  apart : l.exclusive ≠ none → l.shared = []

/-- The process goes on without taking a lock. -/
theorem Held.keep {stage : ι → Stage} {l : FileLock ι} (h : Held stage l) {p : ι} {st : Stage}
    (hs : st.holdsShared = true → (stage p).holdsShared = true)
    (he : st.holdsExclusive = true → (stage p).holdsExclusive = true) :
    Held (Function.update stage p st) l where
  shared := by
    intro q hq
    rcases eq_or_ne q p with rfl | hqp
    · rw [Function.update_self] at hq
      exact h.shared q (hs hq)
    · rw [Function.update_of_ne hqp] at hq
      exact h.shared q hq
  exclusive := by
    intro q hq
    rcases eq_or_ne q p with rfl | hqp
    · rw [Function.update_self] at hq
      exact h.exclusive q (he hq)
    · rw [Function.update_of_ne hqp] at hq
      exact h.exclusive q hq
  apart := h.apart

theorem Held.lockShared {stage : ι → Stage} {l l' : FileLock ι} (h : Held stage l) {p : ι}
    {st : Stage} (hl : l.lockShared p = some l') (hst : st.holdsExclusive = false) :
    Held (Function.update stage p st) l' := by
  obtain ⟨hfree, rfl⟩ : l.exclusive = none ∧ { l with shared := p :: l.shared } = l' := by
    simpa [FileLock.lockShared] using hl
  constructor
  · intro q hq
    rcases eq_or_ne q p with rfl | hqp
    · exact List.mem_cons_self
    · rw [Function.update_of_ne hqp] at hq
      exact List.mem_cons_of_mem _ (h.shared q hq)
  · intro q hq
    rcases eq_or_ne q p with rfl | hqp
    · rw [Function.update_self, hst] at hq
      cases hq
    · rw [Function.update_of_ne hqp] at hq
      exact h.exclusive q hq
  · exact fun hne => absurd hfree hne

theorem Held.lockExclusive {stage : ι → Stage} {l l' : FileLock ι} (h : Held stage l) {p : ι}
    {st : Stage} (hl : l.lockExclusive p = some l') (hst : st.holdsShared = false) :
    Held (Function.update stage p st) l' := by
  obtain ⟨⟨hfree, hnone⟩, rfl⟩ :
      (l.exclusive = none ∧ l.shared = []) ∧ { l with exclusive := some p } = l' := by
    simpa [FileLock.lockExclusive] using hl
  constructor
  · intro q hq
    rcases eq_or_ne q p with rfl | hqp
    · rw [Function.update_self, hst] at hq
      cases hq
    · rw [Function.update_of_ne hqp] at hq
      exact h.shared q hq
  · intro q hq
    rcases eq_or_ne q p with rfl | hqp
    · rfl
    · rw [Function.update_of_ne hqp] at hq
      exact absurd (h.exclusive q hq) (by simp [hfree])
  · exact fun _ => hnone

theorem Held.unlock {stage : ι → Stage} {l : FileLock ι} (h : Held stage l) {p : ι} {st : Stage}
    (hs : st.holdsShared = false) (he : st.holdsExclusive = false) :
    Held (Function.update stage p st) (l.unlock p) := by
  constructor
  · intro q hq
    rcases eq_or_ne q p with rfl | hqp
    · rw [Function.update_self, hs] at hq
      cases hq
    · rw [Function.update_of_ne hqp] at hq
      exact (List.mem_erase_of_ne hqp).mpr (h.shared q hq)
  · intro q hq
    rcases eq_or_ne q p with rfl | hqp
    · rw [Function.update_self, he] at hq
      cases hq
    · rw [Function.update_of_ne hqp] at hq
      have hx : l.exclusive = some q := h.exclusive q hq
      have hne : l.exclusive ≠ some p := by
        rw [hx]
        exact fun heq => hqp (Option.some.inj heq)
      simp only [FileLock.unlock, if_neg hne]
      exact hx
  · intro hne
    have hx : l.exclusive ≠ none := by
      intro hnone
      simp [FileLock.unlock, hnone] at hne
    simp [FileLock.unlock, h.apart hx]

omit [DecidableEq ι] in
/-- While somebody has the exclusive lock, everybody else has none. -/
theorem Held.alone {stage : ι → Stage} {l : FileLock ι} (h : Held stage l) {p q : ι}
    (hq : (stage q).holdsExclusive = true)
    (hp : (stage p).holdsShared = true ∨ (stage p).holdsExclusive = true) : p = q := by
  have hx : l.exclusive = some q := h.exclusive q hq
  rcases hp with hp | hp
  · have hmem : p ∈ l.shared := h.shared p hp
    rw [h.apart (by simp [hx])] at hmem
    cases hmem
  · have := h.exclusive p hp
    rw [hx] at this
    exact (Option.some.inj this).symm

/-! ## 4. What a process has observed -/

/-- The epoch once `n` resets have come after the first one. -/
def epochAfter (first : UInt64) (n : Nat) : UInt64 := first + UInt64.ofNat n

theorem epochAfter_succ (first : UInt64) (n : Nat) :
    epochAfter first n + 1 = epochAfter first (n + 1) := by
  unfold epochAfter
  rw [UInt64.ofNat_add, UInt64.add_assoc]
  rfl

/-- Two epochs less than 2^64 recoveries apart are equal only when none lies between. -/
theorem epochAfter_inj {first : UInt64} {n m : Nat} (h : epochAfter first n = epochAfter first m)
    (hnm : n ≤ m) (hm : m < 2 ^ 64) : n = m := by
  have hofNat : UInt64.ofNat n = UInt64.ofNat m := by
    unfold epochAfter at h
    exact UInt64.add_right_inj first |>.mp h
  have hn := congrArg UInt64.toNat hofNat
  rw [UInt64.toNat_ofNat', UInt64.toNat_ofNat'] at hn
  rwa [Nat.mod_eq_of_lt (by omega), Nat.mod_eq_of_lt hm] at hn

/-- The epoch was read when at most `m` resets had happened. -/
def SeenBy (first : UInt64) (m : Nat) (observed : UInt64) : Prop :=
  ∃ n ≤ m, observed = epochAfter first n

theorem SeenBy.mono {first : UInt64} {m m' : Nat} {observed : UInt64}
    (h : SeenBy first m observed) (hm : m ≤ m') : SeenBy first m' observed := by
  obtain ⟨n, hn, heq⟩ := h
  exact ⟨n, Nat.le_trans hn hm, heq⟩

def Caller.SeenBy (first : UInt64) (m : Nat) : Caller → Prop
  | .write observed => IndexCache.SeenBy first m observed
  | _ => True

theorem Caller.SeenBy.mono {first : UInt64} {m m' : Nat} {caller : Caller}
    (h : caller.SeenBy first m) (hm : m ≤ m') : caller.SeenBy first m' := by
  cases caller with
  | write observed => exact IndexCache.SeenBy.mono h hm
  | reader | rewrite => trivial

def Resume.SeenBy (first : UInt64) (m : Nat) : Resume → Prop
  | .open caller => caller.SeenBy first m
  | .write => True

theorem Resume.SeenBy.mono {first : UInt64} {m m' : Nat} {resume : Resume}
    (h : resume.SeenBy first m) (hm : m ≤ m') : resume.SeenBy first m' := by
  cases resume with
  | «open» caller => exact Caller.SeenBy.mono h hm
  | write => trivial

namespace CacheDir

/-- **What a process knows where it stands.**  The epoch it goes by was read before the instance
came that it goes with. -/
def Knows (first : UInt64) (s : CacheDir ι) (p : ι) : Stage → Prop
  | .idle | .observing => True
  | .starting caller | .opening caller => caller.SeenBy first s.resets.length
  | .trying caller observed =>
    caller.SeenBy first s.resets.length ∧ SeenBy first s.resets.length observed
  | .checking caller observed on =>
    ∃ era, s.eras[on]? = some era ∧ caller.SeenBy first era ∧ SeenBy first era observed
  | .connected caller on => ∃ era, s.eras[on]? = some era ∧ caller.SeenBy first era
  | .diagnosed observed on resume | .recovering observed on resume =>
    (p, on) ∈ s.diagnoses ∧ resume.SeenBy first s.resets.length ∧
      ∃ era, s.eras[on]? = some era ∧ SeenBy first era observed
  | .resetting current on resume =>
    (p, on) ∈ s.diagnoses ∧ resume.SeenBy first s.resets.length ∧
      current = epochAfter first s.resets.length ∧ on < s.eras.length ∧
      (s.resets.length < 2 ^ 64 → s.database = some on)
  | .counting current resume =>
    resume.SeenBy first s.resets.length ∧ s.database = none ∧
      current + 1 = epochAfter first s.resets.length
  | .reopening resume => resume.SeenBy first s.resets.length
  | .rechecking resume on => ∃ era, s.eras[on]? = some era ∧ resume.SeenBy first era

/-- The invariant of all runs. -/
structure Inv (first : UInt64) (s : CacheDir ι) : Prop where
  held : Held s.stage s.lock
  knows : ∀ p, s.Knows first p (s.stage p)
  counted : (∀ p current resume, s.stage p ≠ .counting current resume) →
    s.epoch = epochAfter first s.resets.length
  /-- The instance at the path is the only one of its era. -/
  present : ∀ i, s.database = some i → s.eras[i]? = some s.resets.length
  gone : ∀ i era, s.eras[i]? = some era → s.database ≠ some i → era < s.resets.length
  /-- **Every reset hits what was diagnosed.** -/
  hits : s.resets.length ≤ 2 ^ 64 → ∀ r ∈ s.resets,
    (r.by_, r.diagnosed) ∈ s.diagnoses ∧ r.deleted = some r.diagnosed ∧
      r.diagnosed < s.eras.length ∧ s.database ≠ some r.diagnosed
  once : s.resets.length ≤ 2 ^ 64 → (s.resets.map Reset.deleted).Nodup

omit [DecidableEq ι] in
theorem inv_start (epoch : UInt64) (present : Bool) :
    Inv epoch (start epoch present : CacheDir ι) where
  held := ⟨fun _ hp => by simp [start, Stage.holdsShared] at hp,
    fun _ hp => by simp [start, Stage.holdsExclusive] at hp, fun _ => rfl⟩
  knows := fun _ => trivial
  counted := fun _ => by simp [start, epochAfter]
  present := by
    intro i hi
    cases present with
    | false => cases hi
    | true =>
      cases hi
      rfl
  gone := by
    intro i era hera hi
    cases present with
    | false => cases hera
    | true =>
      cases i with
      | zero => exact absurd rfl hi
      | succ i => cases hera
  hits := fun _ r hr => by cases hr
  once := fun _ => .nil

/-! ## 5. Steps -/

omit [DecidableEq ι] in
/-- What a process knows stays true while the others go on; the exclusive lock keeps the database
as it is for its holder. -/
theorem Knows.mono {first : UInt64} {s s' : CacheDir ι} {q : ι} {st : Stage}
    (h : s.Knows first q st) (hr : s.resets.length ≤ s'.resets.length)
    (he : s.eras <+: s'.eras) (hd : s.diagnoses ⊆ s'.diagnoses)
    (hx : st.holdsExclusive = true →
      s'.resets.length = s.resets.length ∧ s'.database = s.database) :
    s'.Knows first q st := by
  have hera : ∀ i era : Nat, s.eras[i]? = some era → s'.eras[i]? = some era := by
    intro i era hi
    obtain ⟨later, hlater⟩ := he
    obtain ⟨hlt, -⟩ := List.getElem?_eq_some_iff.mp hi
    rw [← hlater, List.getElem?_append_left hlt, hi]
  cases st with
  | idle | observing => trivial
  | starting caller | opening caller => exact Caller.SeenBy.mono h hr
  | trying caller observed => exact ⟨h.1.mono hr, h.2.mono hr⟩
  | checking caller observed on =>
    obtain ⟨era, hi, hcaller, hseen⟩ := h
    exact ⟨era, hera _ _ hi, hcaller, hseen⟩
  | connected caller on =>
    obtain ⟨era, hi, hcaller⟩ := h
    exact ⟨era, hera _ _ hi, hcaller⟩
  | diagnosed observed on resume | recovering observed on resume =>
    obtain ⟨hmem, hresume, era, hi, hseen⟩ := h
    exact ⟨hd hmem, hresume.mono hr, era, hera _ _ hi, hseen⟩
  | resetting current on resume =>
    obtain ⟨hmem, hresume, hcurrent, hon, hdatabase⟩ := h
    obtain ⟨hlen, hdb⟩ := hx rfl
    refine ⟨hd hmem, hresume.mono hr, by rw [hlen, hcurrent], ?_, ?_⟩
    · exact Nat.lt_of_lt_of_le hon he.length_le
    · rw [hlen, hdb]
      exact hdatabase
  | counting current resume =>
    obtain ⟨hresume, hdatabase, hcurrent⟩ := h
    obtain ⟨hlen, hdb⟩ := hx rfl
    exact ⟨hresume.mono hr, by rw [hdb, hdatabase], by rw [hlen, hcurrent]⟩
  | reopening resume => exact Resume.SeenBy.mono h hr
  | rechecking resume on =>
    obtain ⟨era, hi, hresume⟩ := h
    exact ⟨era, hera _ _ hi, hresume⟩

omit [DecidableEq ι] in
/-- No instance is younger than the last reset. -/
theorem Inv.era_le {first : UInt64} {s : CacheDir ι} (h : s.Inv first) {i era : Nat}
    (hera : s.eras[i]? = some era) : era ≤ s.resets.length := by
  by_cases hi : s.database = some i
  · rw [h.present i hi] at hera
    exact Nat.le_of_eq (Option.some.inj hera).symm
  · exact Nat.le_of_lt (h.gone i era hera hi)

omit [DecidableEq ι] in
/-- Whoever holds the lock, unless it is about to count a recovery, reads the present epoch. -/
theorem Inv.epoch_eq {first : UInt64} {s : CacheDir ι} (h : s.Inv first) {p : ι}
    (hp : (s.stage p).holdsShared = true ∨ (s.stage p).holdsExclusive = true)
    (hst : ∀ current resume, s.stage p ≠ .counting current resume) :
    s.epoch = epochAfter first s.resets.length := by
  refine h.counted fun q current resume hq => ?_
  have hpq : p = q := h.held.alone (by rw [hq]; rfl) hp
  rw [← hpq] at hq
  exact hst current resume hq

/-- A process goes on and leaves the database and the epoch as they are. -/
theorem Inv.quiet {first : UInt64} {s : CacheDir ι} (h : s.Inv first) {p : ι} {st : Stage}
    {l : FileLock ι} {d : List (ι × Nat)} (hd : s.diagnoses ⊆ d)
    (hheld : Held (Function.update s.stage p st) l)
    (hold : ∀ current resume, s.stage p ≠ .counting current resume)
    (hknows : ({ s with diagnoses := d } : CacheDir ι).Knows first p st) :
    ({ s with diagnoses := d }.move p l st : CacheDir ι).Inv first where
  held := hheld
  knows := by
    intro q
    rcases eq_or_ne q p with rfl | hqp
    · simp only [move, Function.update_self]
      exact hknows.mono (Nat.le_refl _) (List.prefix_refl _) (List.Subset.refl _)
        fun _ => ⟨rfl, rfl⟩
    · simp only [move, Function.update_of_ne hqp]
      exact (h.knows q).mono (Nat.le_refl _) (List.prefix_refl _) hd fun _ => ⟨rfl, rfl⟩
  counted := by
    intro hnone
    refine h.counted fun q current resume hq => ?_
    rcases eq_or_ne q p with rfl | hqp
    · exact hold current resume hq
    · refine hnone q current resume ?_
      simp only [move, Function.update_of_ne hqp]
      exact hq
  present := h.present
  gone := h.gone
  hits := by
    intro hlen r hr
    obtain ⟨hmem, hrest⟩ := h.hits hlen r hr
    exact ⟨hd hmem, hrest⟩
  once := h.once

/-- The same without a diagnosis. -/
theorem Inv.go {first : UInt64} {s : CacheDir ι} (h : s.Inv first) {p : ι} {st : Stage}
    {l : FileLock ι} (hheld : Held (Function.update s.stage p st) l)
    (hold : ∀ current resume, s.stage p ≠ .counting current resume)
    (hknows : s.Knows first p st) : (s.move p l st).Inv first :=
  h.quiet (List.Subset.refl _) hheld hold hknows

omit [DecidableEq ι] in
/-- The instance at the path once the file exists. -/
theorem Inv.era_instanceAt {first : UInt64} {s : CacheDir ι} (h : s.Inv first) :
    s.create.eras[s.instanceAt]? = some s.resets.length := by
  cases hdb : s.database with
  | some i =>
    simp only [create, instanceAt, hdb, Option.getD_some]
    exact h.present i hdb
  | none => simp [create, instanceAt, hdb]

omit [DecidableEq ι] in
@[simp]
theorem resets_create (s : CacheDir ι) : s.create.resets = s.resets := by
  unfold create
  split <;> rfl

/-- `try_open` may create the database: the new instance is the one of its era. -/
theorem Inv.create {first : UInt64} {s : CacheDir ι} (h : s.Inv first) {p : ι} {st : Stage}
    (hp : (s.stage p).holdsShared = true ∨ (s.stage p).holdsExclusive = true)
    (hheld : Held (Function.update s.stage p st) s.lock)
    (hold : ∀ current resume, s.stage p ≠ .counting current resume)
    (hknows : s.create.Knows first p st) : (s.create.move p s.lock st).Inv first := by
  cases hdb : s.database with
  | some i =>
    have hsame : s.create = s := by simp [CacheDir.create, hdb]
    rw [hsame] at hknows ⊢
    exact h.go hheld hold hknows
  | none =>
    have hnew : s.create = { s with
        database := some s.eras.length, eras := s.eras ++ [s.resets.length] } := by
      simp [CacheDir.create, hdb]
    rw [hnew] at hknows ⊢
    refine ⟨hheld, ?_, ?_, ?_, ?_, ?_, h.once⟩
    · intro q
      rcases eq_or_ne q p with rfl | hqp
      · simp only [move, Function.update_self]
        exact hknows.mono (Nat.le_refl _) (List.prefix_refl _) (List.Subset.refl _)
          fun _ => ⟨rfl, rfl⟩
      · simp only [move, Function.update_of_ne hqp]
        refine (h.knows q).mono (Nat.le_refl _) (List.prefix_append _ _) (List.Subset.refl _) ?_
        intro hq
        exact absurd (h.held.alone hq hp).symm hqp
    · exact fun _ => h.epoch_eq hp hold
    · intro i hi
      cases hi
      simp [move]
    · intro i era hera hi
      simp only [move] at hera hi ⊢
      rcases Nat.lt_or_ge i s.eras.length with hlt | hge
      · rw [List.getElem?_append_left hlt] at hera
        exact h.gone i era hera (by simp [hdb])
      · obtain ⟨hlt, -⟩ := List.getElem?_eq_some_iff.mp hera
        rw [List.length_append, List.length_singleton] at hlt
        exact absurd (by rw [show i = s.eras.length by omega]) hi
    · intro hlen r hr
      obtain ⟨hmem, hdeleted, hlt, -⟩ := h.hits hlen r hr
      refine ⟨hmem, hdeleted, ?_, ?_⟩
      · simp only [move, List.length_append]
        omega
      · intro heq
        have : s.eras.length = r.diagnosed := Option.some.inj heq
        omega

/-- `reset` hits the instance that its process found damaged, and takes it away for good. -/
theorem Inv.delete {first : UInt64} {s : CacheDir ι} (h : s.Inv first) {p : ι}
    {current : UInt64} {on : Nat} {resume : Resume} (hp : s.stage p = .resetting current on resume)
    (hheld : Held (Function.update s.stage p (.counting current resume)) s.lock) :
    ((s.delete p on).move p s.lock (.counting current resume)).Inv first := by
  have hknows : s.Knows first p (.resetting current on resume) := hp ▸ h.knows p
  obtain ⟨hmem, hresume, hcurrent, hon, hdatabase⟩ := hknows
  refine ⟨hheld, ?_, ?_, ?_, ?_, ?_, ?_⟩
  · intro q
    rcases eq_or_ne q p with rfl | hqp
    · simp only [move, Function.update_self]
      refine ⟨?_, rfl, ?_⟩
      · simp only [CacheDir.delete, List.length_append, List.length_singleton]
        exact hresume.mono (Nat.le_succ _)
      · simp only [CacheDir.delete, List.length_append, List.length_singleton]
        rw [hcurrent, epochAfter_succ]
    · simp only [move, Function.update_of_ne hqp]
      refine (h.knows q).mono ?_ (List.prefix_refl _) (List.Subset.refl _) ?_
      · simp [CacheDir.delete]
      · intro hq
        exact absurd (h.held.alone hq (p := p) (by simp [hp, Stage.holdsExclusive])).symm hqp
  · intro hnone
    exact absurd (by simp [move]) (hnone p current resume)
  · intro i hi
    cases hi
  · intro i era hera _
    simp only [move, CacheDir.delete, List.length_append, List.length_singleton]
    exact Nat.lt_succ_of_le (h.era_le hera)
  · intro hlen r hr
    simp only [move, CacheDir.delete, List.length_append, List.length_singleton,
      List.mem_append, List.mem_singleton] at hlen hr
    rcases hr with hr | rfl
    · obtain ⟨hdiagnosed, hdeleted, hlt, -⟩ := h.hits (by omega) r hr
      exact ⟨hdiagnosed, hdeleted, hlt, by simp [move, CacheDir.delete]⟩
    · exact ⟨hmem, hdatabase (by omega), hon, by simp [move, CacheDir.delete]⟩
  · intro hlen
    simp only [move, CacheDir.delete, List.length_append, List.length_singleton] at hlen
    have hdb : s.database = some on := hdatabase (by omega)
    simp only [move, CacheDir.delete, List.map_append, List.map_cons, List.map_nil]
    refine List.nodup_append.mpr ⟨h.once (by omega), List.pairwise_singleton _ _, ?_⟩
    intro d hd d' hd' heq
    obtain ⟨r, hr, rfl⟩ := List.mem_map.mp hd
    rw [List.mem_singleton] at hd'
    obtain ⟨-, hdeleted, -, hother⟩ := h.hits (by omega) r hr
    rw [heq, hd', hdb] at hdeleted
    exact hother (by rw [hdb, hdeleted])

/-- `write_epoch` makes up for the reset. -/
theorem Inv.count {first : UInt64} {s : CacheDir ι} (h : s.Inv first) {p : ι}
    {current : UInt64} {resume : Resume} (hp : s.stage p = .counting current resume)
    (hheld : Held (Function.update s.stage p (.reopening resume)) s.lock) :
    ((s.count (current + 1)).move p s.lock (.reopening resume)).Inv first := by
  have hknows : s.Knows first p (.counting current resume) := hp ▸ h.knows p
  obtain ⟨hresume, -, hcurrent⟩ := hknows
  refine ⟨hheld, ?_, fun _ => hcurrent, h.present, h.gone, h.hits, h.once⟩
  intro q
  rcases eq_or_ne q p with rfl | hqp
  · simp only [move, Function.update_self]
    exact hresume
  · simp only [move, Function.update_of_ne hqp]
    exact (h.knows q).mono (Nat.le_refl _) (List.prefix_refl _) (List.Subset.refl _)
      fun _ => ⟨rfl, rfl⟩

omit [DecidableEq ι] in
/-- Damage that is returned to `write` waits for its recovery. -/
theorem knows_damaged {first : UInt64} {s : CacheDir ι} {p : ι}
    {caller : Caller} {on era : Nat} (hera : s.eras[on]? = some era)
    (hcaller : caller.SeenBy first era) :
    (s.diagnose p on).Knows first p (damaged caller on) := by
  cases caller with
  | write observed => exact ⟨by simp [diagnose], trivial, era, hera, hcaller⟩
  | reader | rewrite => trivial

omit [DecidableEq ι] in
theorem diagnoses_subset (s : CacheDir ι) (p : ι) (on : Nat) :
    s.diagnoses ⊆ s.diagnoses ++ [(p, on)] :=
  List.subset_append_left _ _

theorem holds_damaged (caller : Caller) (on : Nat) :
    (damaged caller on).holdsShared = false ∧ (damaged caller on).holdsExclusive = false := by
  cases caller <;> exact ⟨rfl, rfl⟩

/-- **Every step keeps the invariant.** -/
theorem inv_step {first : UInt64} {s s' : CacheDir ι} {a : ι × Event} (h : s.Inv first)
    (hs : s.step a = some s') : s'.Inv first := by
  obtain ⟨p, e⟩ := a
  have hk := h.knows p
  unfold step at hs
  simp only at hs
  split at hs
  case h_1 hst =>
    cases hs
    exact h.go (h.held.keep nofun nofun) (by simp [hst]) trivial
  case h_2 hst =>
    obtain ⟨l, hl, rfl⟩ := Option.map_eq_some_iff.mp hs
    exact h.go (h.held.lockShared hl rfl) (by simp [hst]) trivial
  case h_3 hst =>
    cases hs
    have hepoch := h.epoch_eq (p := p) (.inl (by rw [hst]; rfl)) (by simp [hst])
    exact h.go (h.held.unlock rfl rfl) (by simp [hst]) ⟨_, Nat.le_refl _, hepoch⟩
  case h_4 caller hst =>
    rw [hst] at hk
    obtain ⟨l, hl, rfl⟩ := Option.map_eq_some_iff.mp hs
    exact h.go (h.held.lockShared hl rfl) (by simp [hst]) hk
  case h_5 caller hst =>
    rw [hst] at hk
    cases hs
    have hepoch := h.epoch_eq (p := p) (.inl (by rw [hst]; rfl)) (by simp [hst])
    refine h.go (h.held.keep (fun _ => by rw [hst]; rfl) nofun) (by simp [hst]) ?_
    exact ⟨hk, _, Nat.le_refl _, hepoch⟩
  case h_6 caller observed hst =>
    rw [hst] at hk
    cases hs
    refine h.create (.inl (by rw [hst]; rfl))
      (h.held.keep (fun _ => by rw [hst]; rfl) nofun) (by simp [hst]) ?_
    exact ⟨_, h.era_instanceAt, hk⟩
  case h_7 caller observed on hst =>
    rw [hst] at hk
    cases hs
    obtain ⟨era, hera, hcaller, -⟩ := hk
    exact h.go (h.held.unlock rfl rfl) (by simp [hst]) ⟨era, hera, hcaller⟩
  case h_8 caller observed on hst =>
    rw [hst] at hk
    cases hs
    obtain ⟨era, hera, hcaller, hseen⟩ := hk
    refine h.quiet (s.diagnoses_subset p on) (h.held.unlock rfl rfl) (by simp [hst]) ?_
    exact ⟨by simp, Caller.SeenBy.mono hcaller (h.era_le hera), era, hera, hseen⟩
  case h_9 caller on hst =>
    cases hs
    exact h.go (h.held.keep nofun nofun) (by simp [hst]) trivial
  case h_10 caller on hst =>
    rw [hst] at hk
    cases hs
    obtain ⟨era, hera, hcaller⟩ := hk
    obtain ⟨hnoShared, hnoExclusive⟩ := holds_damaged caller on
    exact h.quiet (s.diagnoses_subset p on)
      (h.held.keep (by simp [hnoShared]) (by simp [hnoExclusive])) (by simp [hst])
      (knows_damaged hera hcaller)
  case h_11 observed on resume hst =>
    rw [hst] at hk
    obtain ⟨l, hl, rfl⟩ := Option.map_eq_some_iff.mp hs
    exact h.go (h.held.lockExclusive hl rfl) (by simp [hst]) hk
  case h_12 observed on resume hst =>
    rw [hst] at hk
    cases hs
    obtain ⟨hmem, hresume, era, hera, n, hn, hobserved⟩ := hk
    have hepoch := h.epoch_eq (p := p) (.inr (by rw [hst]; rfl)) (by simp [hst])
    split
    · rename_i hsame
      refine h.go (h.held.keep nofun fun _ => by rw [hst]; rfl) (by simp [hst]) ?_
      obtain ⟨hlt, -⟩ := List.getElem?_eq_some_iff.mp hera
      refine ⟨hmem, hresume, hepoch, hlt, fun hfew => ?_⟩
      -- the epoch has not come round, so the instance is of the present era
      rw [hobserved, hepoch] at hsame
      have hle : n ≤ s.resets.length := Nat.le_trans hn (h.era_le hera)
      have hnow : n = s.resets.length := epochAfter_inj hsame.symm hle hfew
      by_contra hother
      have := h.gone on era hera hother
      omega
    · exact h.go (h.held.keep nofun fun _ => by rw [hst]; rfl) (by simp [hst]) hresume
  case h_13 current on resume hst =>
    cases hs
    exact h.delete hst (h.held.keep nofun fun _ => by rw [hst]; rfl)
  case h_14 current resume hst =>
    cases hs
    exact h.count hst (h.held.keep nofun fun _ => by rw [hst]; rfl)
  case h_15 resume hst =>
    rw [hst] at hk
    cases hs
    refine h.create (.inr (by rw [hst]; rfl))
      (h.held.keep nofun fun _ => by rw [hst]; rfl) (by simp [hst]) ?_
    exact ⟨_, h.era_instanceAt, hk⟩
  case h_16 caller on hst =>
    rw [hst] at hk
    cases hs
    exact h.go (h.held.unlock rfl rfl) (by simp [hst]) hk
  case h_17 on hst =>
    cases hs
    exact h.go (h.held.unlock rfl rfl) (by simp [hst]) trivial
  case h_18 caller on hst =>
    rw [hst] at hk
    cases hs
    obtain ⟨era, hera, hcaller⟩ := hk
    obtain ⟨hnoShared, hnoExclusive⟩ := holds_damaged caller on
    exact h.quiet (s.diagnoses_subset p on) (h.held.unlock hnoShared hnoExclusive)
      (by simp [hst]) (knows_damaged hera hcaller)
  case h_19 on hst =>
    cases hs
    exact h.quiet (s.diagnoses_subset p on) (h.held.unlock rfl rfl) (by simp [hst]) trivial
  case h_20 => cases hs
  case h_21 hst | h_22 hst | h_23 hst | h_24 hst =>
    cases hs
    exact h.go (h.held.unlock rfl rfl) (by simp [hst]) trivial
  case h_25 hst =>
    cases hs
    exact h.go (h.held.unlock rfl rfl) hst trivial
  case h_26 => cases hs

theorem inv_reaches {first : UInt64} {present : Bool} {s : CacheDir ι}
    (h : Steps.Reaches step (fun _ _ => True) (start first present) s) : s.Inv first :=
  h.invariant (inv_start first present) fun _ _ _ hu _ hs => inv_step hu hs

/-! ## 6. What a reset deletes -/

/-- A process opens the database, finds it damaged and recovers it. -/
def recovery (p : ι) : List (ι × Event) :=
  [(p, .beginOpen), (p, .lockShared), (p, .readEpoch), (p, .create), (p, .check .damaged),
    (p, .lockExclusive), (p, .readEpoch), (p, .delete true), (p, .writeEpoch), (p, .create),
    (p, .check .ok), (p, .use .ok)]

/-- Two processes find the same damage; the second one leaves the new instance alone. -/
def bothDamaged : Option (CacheDir Bool) :=
  Steps.runWhile step (fun _ _ => true) (start 7 true)
    ([(false, .beginOpen), (false, .lockShared), (false, .readEpoch), (false, .create),
      (false, .check .damaged)] ++ recovery true ++
      [(false, .lockExclusive), (false, .readEpoch), (false, .create), (false, .check .ok)])

/-- A process waits with a diagnosis of the first instance, and `n` recoveries went by. -/
structure Waits (n : Nat) (s : CacheDir Bool) : Prop where
  epoch : s.epoch = UInt64.ofNat n
  lock : s.lock = { shared := [], exclusive := none }
  database : s.database = some n
  waiting : s.stage false = .diagnosed 0 0 (.open .reader)
  idle : s.stage true = .idle
  eras : s.eras.length = n + 1

/-- One more recovery by the other process. -/
theorem waits_recovery {n : Nat} {s : CacheDir Bool} (h : Waits n s) :
    ∃ s', Steps.Reaches step (fun _ _ => True) s s' ∧ Waits (n + 1) s' := by
  obtain ⟨epoch, lock, database, stage, eras, diagnoses, resets⟩ := s
  obtain ⟨rfl, rfl, rfl, hwaiting, hidle, heras⟩ := h
  simp only at hwaiting hidle heras
  let s' : CacheDir Bool :=
    { epoch := UInt64.ofNat n + 1
      lock := { shared := [], exclusive := none }
      database := some eras.length
      stage := Function.update stage true .idle
      eras := eras ++ [resets.length + 1]
      diagnoses := diagnoses ++ [(true, n)]
      resets := resets ++ [{ by_ := true, diagnosed := n, deleted := some n }] }
  have hrun : Steps.runWhile step (fun _ _ => true)
      { epoch := UInt64.ofNat n, lock := { shared := [], exclusive := none }
        database := some n, stage, eras, diagnoses, resets } (recovery true) = some s' := by
    simp [recovery, Steps.runWhile, step, hidle, move, FileLock.lockShared, CacheDir.create,
      instanceAt, diagnose, FileLock.unlock, FileLock.lockExclusive, delete, count, s']
  refine ⟨s', (Steps.reaches_of_runWhile _ hrun).mono fun _ _ _ => trivial, ?_⟩
  refine ⟨?_, rfl, by rw [← heras], ?_, rfl, ?_⟩
  · rw [UInt64.ofNat_add]
    rfl
  · exact hwaiting
  · simp [s', heras]

/-- Any number of them. -/
theorem waits_recoveries (n : Nat) :
    ∃ s, Steps.Reaches step (fun _ _ => True) (start 0 true) s ∧ Waits n s := by
  induction n with
  | zero =>
    have hrun : Steps.runWhile step (fun _ _ => true) (start 0 true : CacheDir Bool)
        [(false, .beginOpen), (false, .lockShared), (false, .readEpoch), (false, .create),
          (false, .check .damaged)] = some _ := rfl
    exact ⟨_, (Steps.reaches_of_runWhile _ hrun).mono fun _ _ _ => trivial,
      ⟨rfl, rfl, rfl, rfl, rfl, rfl⟩⟩
  | succ n ih =>
    obtain ⟨s, hs, hw⟩ := ih
    obtain ⟨s', hs', hw'⟩ := waits_recovery hw
    exact ⟨s', hs.trans hs', hw'⟩

/-- The process that waited deletes an instance that it never saw. -/
theorem reset_comes_round :
    ∃ s : CacheDir Bool, Steps.Reaches step (fun _ _ => True) (start 0 true) s ∧
      { by_ := false, diagnosed := 0, deleted := some (2 ^ 64) } ∈ s.resets := by
  obtain ⟨s, hs, hw⟩ := waits_recoveries (2 ^ 64)
  have hepoch : s.epoch = 0 := hw.epoch
  obtain ⟨epoch, lock, database, stage, eras, diagnoses, resets⟩ := s
  obtain ⟨-, rfl, rfl, hwaiting, -, -⟩ := hw
  simp only at hwaiting hepoch
  subst hepoch
  let s' : CacheDir Bool :=
    { epoch := 0
      lock := { shared := [], exclusive := some false }
      database := none
      stage := Function.update stage false (.counting 0 (.open .reader))
      eras, diagnoses
      resets := resets ++ [{ by_ := false, diagnosed := 0, deleted := some (2 ^ 64) }] }
  have hrun : Steps.runWhile step (fun _ _ => true)
      { epoch := 0, lock := { shared := [], exclusive := none }
        database := some (2 ^ 64), stage, eras, diagnoses, resets }
      [(false, .lockExclusive), (false, .readEpoch), (false, .delete true)] = some s' := by
    simp [Steps.runWhile, step, hwaiting, move, FileLock.lockExclusive, delete, s']
  refine ⟨s', hs.trans ((Steps.reaches_of_runWhile _ hrun).mono fun _ _ _ => trivial), ?_⟩
  exact List.mem_append_right _ (List.mem_singleton_self _)

end CacheDir

end IndexCache
end MavenMcp
