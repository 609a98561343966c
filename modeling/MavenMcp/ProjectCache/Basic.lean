/-
# The project cache: its data

`src/project_cache.rs` keeps, for one STDIO process, the Maven runner and the scoped index of
every project, keyed by canonical project root.  This file is its data model; the operations
are in `Ops`.

Four choices carry the rest of the development.

* **Shared ownership is explicit.**  An `Arc` is a pointer with a value; whether somebody
  OUTSIDE the cache still holds a clone of it is a question to the environment, `Held`.  It
  answers what the source asks of `Arc::strong_count`, `Weak::upgrade` and `try_lock`: every
  operation takes it as an argument, so a theorem over all `Held` covers every pattern of
  requests that hold or drop what the cache handed out.
* **The payloads are parameters.**  The cache never looks into a runner or an index except for
  its size, so `ρ` and `ι` stay abstract here and the server picks them.
* **The byte count is sealed.**  `retainedBytes` is irreducible, as are the eviction loops of `Ops`:
  proofs reach them through their equations and lemmas, never by evaluation.
* **Counters are natural numbers.**  `next_generation`, `tick` and the byte figures are `u64`
  in the source; none of them can wrap within the life of a process.
-/
import MavenMcp.Lib.Table

namespace MavenMcp

/-- A path as the operating system spells it. -/
abbrev PathBuf := List UInt8

/-! ## 1. File stamps -/

/-- Cheap identity of one file: size and modification time (`FileStamp`). -/
structure FileStamp where
  len : Nat
  modifiedNs : Nat
deriving DecidableEq, Repr

/-- What `fs::metadata` answers for each path at one moment; `none` for a missing path. -/
abbrev Disk := PathBuf → Option FileStamp

/-- `BTreeMap::insert` on the entries in key order. -/
def insertStamp (path : PathBuf) (stamp : Option FileStamp) :
    List (PathBuf × Option FileStamp) → List (PathBuf × Option FileStamp)
  | [] => [(path, stamp)]
  | (p, s) :: rest =>
    if path < p then (path, stamp) :: (p, s) :: rest
    else if path = p then (path, stamp) :: rest
    else (p, s) :: insertStamp path stamp rest

/-- Stamps of a fixed set of paths; a missing path is part of the identity. -/
structure ProjectFingerprint where
  stamps : List (PathBuf × Option FileStamp)
deriving DecidableEq, Repr

namespace ProjectFingerprint

/-- Fixed cost of one stamped path (`PATH_ENTRY_OVERHEAD_BYTES`). -/
def pathEntryOverheadBytes : Nat := 96

def capture (disk : Disk) (paths : List PathBuf) : ProjectFingerprint :=
  ⟨paths.foldl (fun stamps path => insertStamp path (disk path) stamps) []⟩

/-- Whether every stamped path still has the stamp recorded in this fingerprint. -/
def isCurrent (fp : ProjectFingerprint) (disk : Disk) : Bool :=
  fp.stamps.all fun entry => disk entry.1 == entry.2

/-- Sum of the sizes of the stamped files that exist. -/
def fileBytes (fp : ProjectFingerprint) : Nat :=
  (fp.stamps.map fun entry => (entry.2.map FileStamp.len).getD 0).sum

def estimatedBytes (fp : ProjectFingerprint) : Nat :=
  (fp.stamps.map fun entry => entry.1.length + pathEntryOverheadBytes).sum

end ProjectFingerprint

theorem forall_insertStamp {P : PathBuf × Option FileStamp → Prop} {path : PathBuf}
    {stamp : Option FileStamp} (hnew : P (path, stamp)) :
    ∀ l : List (PathBuf × Option FileStamp), (∀ e ∈ l, P e) → ∀ e ∈ insertStamp path stamp l, P e
  | [], _ => by simpa [insertStamp] using hnew
  | (p, s) :: rest, h => by
    have hrest := forall_insertStamp hnew rest fun e he => h e (List.mem_cons_of_mem _ he)
    have hhead := h (p, s) List.mem_cons_self
    unfold insertStamp
    split
    · intro e he
      rcases List.mem_cons.mp he with rfl | he
      · exact hnew
      · exact h e he
    · split
      · intro e he
        rcases List.mem_cons.mp he with rfl | he
        · exact hnew
        · exact h e (List.mem_cons_of_mem _ he)
      · intro e he
        rcases List.mem_cons.mp he with rfl | he
        · exact hhead
        · exact hrest e he

/-- A fingerprint describes the disk it was captured from. -/
theorem isCurrent_capture (disk : Disk) (paths : List PathBuf) :
    (ProjectFingerprint.capture disk paths).isCurrent disk = true := by
  have key : ∀ (paths : List PathBuf) (acc : List (PathBuf × Option FileStamp)),
      (∀ e ∈ acc, disk e.1 = e.2) →
      ∀ e ∈ paths.foldl (fun stamps path => insertStamp path (disk path) stamps) acc,
        disk e.1 = e.2 := by
    intro paths
    induction paths with
    | nil => exact fun acc h => h
    | cons p ps ih =>
      exact fun acc h => ih _ (forall_insertStamp (P := fun e => disk e.1 = e.2) rfl acc h)
  simp only [ProjectFingerprint.isCurrent, ProjectFingerprint.capture, List.all_eq_true,
    beq_iff_eq]
  exact key paths [] (by simp)

/-! ## 2. Shared ownership -/

/-- A reference-counted allocation: its address and what it holds. -/
structure Arc (α : Type) where
  ptr : Nat
  val : α
deriving DecidableEq, Repr

/-- What lives outside the cache at one moment: which of the allocations it handed out are
still held by requests, build futures or blocking jobs, which build owner locks are taken, and
how many bytes of test results each runner retains. -/
structure Held where
  /-- A request holds a clone of the build cell, so its strong count exceeds one. -/
  cells : Nat → Bool
  /-- `try_lock` on the build owner fails. -/
  owners : Nat → Bool
  /-- An index (or the cached entry around it) is held. -/
  indexes : Nat → Bool
  runners : Nat → Bool
  reservations : Nat → Bool
  /-- `MavenRunner::retained_test_result_bytes`. -/
  testResultBytes : Nat → Nat

/-- Nothing is held outside the cache. -/
def Held.nobody : Held :=
  ⟨fun _ => false, fun _ => false, fun _ => false, fun _ => false, fun _ => false, fun _ => 0⟩

/-- `drop(reservation)`: every reservation has exactly one owner. -/
def Held.dropReservation (held : Held) (r : Nat) : Held :=
  { held with reservations := Function.update held.reservations r false }

/-- One more clone of an index is held. -/
def Held.holdIndex (held : Held) (i : Nat) : Held :=
  { held with indexes := Function.update held.indexes i true }

/-- `MavenIndex::estimated_bytes`. -/
class EstimatedBytes (ι : Type) where
  estimatedBytes : ι → Nat

/-! ## 3. The entries of the cache -/

/-- Fixed share of the budget charged for one cached runner (`RUNNER_BASE_BYTES`). -/
def runnerBaseBytes : Nat := 16 * 1024

structure CacheLimits where
  maxIndexes : Nat
  maxRunners : Nat
  maxBytes : Nat
deriving DecidableEq, Repr

structure RunnerSnapshot (ρ : Type) where
  runner : Arc ρ
  fingerprint : ProjectFingerprint
  /-- Set after Maven ran in the project: the model must be re-read even if no stamp changed. -/
  revalidate : Bool
deriving DecidableEq, Repr

structure CachedIndex (ι : Type) where
  index : Arc ι
  project : ProjectFingerprint
  artifacts : ProjectFingerprint
  bytes : Nat
deriving DecidableEq, Repr

/-- The entry of a runner has the fields of the snapshot taken from it (`RunnerEntry`). -/
abbrev RunnerEntry := RunnerSnapshot

/-- A runner that left the cache while requests may still hold it. -/
structure ReleasedRunner where
  runner : Nat
  fingerprintBytes : Nat
deriving DecidableEq, Repr

/-- An index that left the cache while requests may still hold it: `(Weak<MavenIndex>, u64)`. -/
structure ReleasedIndex where
  index : Nat
  bytes : Nat
deriving DecidableEq, Repr

structure Reservation where
  ptr : Nat
  bytes : Nat
deriving DecidableEq, Repr

/-- The marker of a running build. -/
structure InFlight where
  generation : Nat
  cell : Nat
  owner : Nat
deriving DecidableEq, Repr

structure ProjectState (ρ ι : Type) where
  generation : Nat
  runner : Option (RunnerEntry ρ)
  index : Option (CachedIndex ι)
  inFlight : Option InFlight
  /-- Set by an explicit refresh: the next published build must not reuse on-disk records. -/
  fullRebuild : Bool
  lastUsedTick : Nat
deriving DecidableEq, Repr

/-- How builds of this process used the on-disk index cache. -/
structure PersistedCounters where
  classpathHits : Nat
  recordHits : Nat
  recordMisses : Nat
deriving DecidableEq, Repr

structure ProjectCache (ρ ι : Type) where
  limits : CacheLimits
  states : Table PathBuf (ProjectState ρ ι)
  /-- Evicted or invalidated indexes that running requests may still hold. -/
  released : List ReleasedIndex
  /-- Evicted or replaced runners that running requests may still hold. -/
  releasedRunners : List ReleasedRunner
  reservations : List Reservation
  nextGeneration : Nat
  tick : Nat
  hits : Nat
  misses : Nat
  evictions : Nat
  invalidations : Nat
  persisted : PersistedCounters
  /-- The allocator: the address of the next cell, owner or reservation. -/
  nextPtr : Nat

inductive IndexLookup (ι : Type)
  | cached (entry : CachedIndex ι) (generation : Nat)
  | build (cell owner generation : Nat)
deriving DecidableEq, Repr

inductive ReserveError
  | stale
  | overBudget (needed limit : Nat)
deriving DecidableEq, Repr

inductive Publication
  | stale
  | retained
  /-- The index alone does not fit the budget; it serves the requests that built it only. -/
  | uncached
deriving DecidableEq, Repr

/-- A finished build's artifact stamps. -/
structure FinishedBuild where
  artifacts : ProjectFingerprint
deriving DecidableEq, Repr

/-! ## 4. Liveness and sizes -/

/-- Whether a request still holds the build cell or the build's blocking work still holds its
owner lock. -/
def InFlight.isLive (held : Held) (m : InFlight) : Bool :=
  held.cells m.cell || held.owners m.owner

def runnerBytes (held : Held) (runner : Nat) (fingerprintBytes : Nat) : Nat :=
  runnerBaseBytes + fingerprintBytes + held.testResultBytes runner

variable {ρ ι : Type}

def RunnerSnapshot.bytes (held : Held) (e : RunnerEntry ρ) : Nat :=
  runnerBytes held e.runner.ptr e.fingerprint.estimatedBytes

def RunnerSnapshot.release (e : RunnerEntry ρ) : ReleasedRunner :=
  ⟨e.runner.ptr, e.fingerprint.estimatedBytes⟩

/-- `Weak::upgrade` fails once nobody holds the runner. -/
def ReleasedRunner.bytes (held : Held) (r : ReleasedRunner) : Nat :=
  if held.runners r.runner then runnerBytes held r.runner r.fingerprintBytes else 0

namespace ProjectState

def new (generation : Nat) : ProjectState ρ ι :=
  ⟨generation, none, none, none, false, 0⟩

/-- Whether the state has a build marker that is live. -/
def hasLiveBuild (held : Held) (st : ProjectState ρ ι) : Bool :=
  st.inFlight.any (InFlight.isLive held)

/-- What `enforce` keeps: a state with a runner, an index or a live build. -/
def isActive (held : Held) (st : ProjectState ρ ι) : Bool :=
  st.runner.isSome || st.index.isSome || st.hasLiveBuild held

def bytes (held : Held) (st : ProjectState ρ ι) : Nat :=
  (st.runner.map (RunnerSnapshot.bytes held)).getD 0 + (st.index.map CachedIndex.bytes).getD 0

end ProjectState

namespace ProjectCache

def new (limits : CacheLimits) : ProjectCache ρ ι where
  limits := limits
  states := ∅
  released := []
  releasedRunners := []
  reservations := []
  nextGeneration := 0
  tick := 0
  hits := 0
  misses := 0
  evictions := 0
  invalidations := 0
  persisted := ⟨0, 0, 0⟩
  nextPtr := 0

/-- `states.get(root)`. -/
def get (c : ProjectCache ρ ι) (root : PathBuf) : Option (ProjectState ρ ι) :=
  c.states.lookup root

@[irreducible] def retainedBytes (held : Held) (c : ProjectCache ρ ι) : Nat :=
  let states := c.states.sumBy (ProjectState.bytes held)
  let releasedRunners := (c.releasedRunners.map (ReleasedRunner.bytes held)).sum
  let released := ((c.released.filter fun r => held.indexes r.index).map ReleasedIndex.bytes).sum
  let reserved :=
    ((c.reservations.filter fun r => held.reservations r.ptr).map Reservation.bytes).sum
  states + released + releasedRunners + reserved

/-- The number of cached indexes. -/
def indexCount (c : ProjectCache ρ ι) : Nat :=
  c.states.countBy fun st => st.index.isSome

/-- The number of cached runners. -/
def runnerCount (c : ProjectCache ρ ι) : Nat :=
  c.states.countBy fun st => st.runner.isSome

end ProjectCache

end MavenMcp
