/-
# The project cache: its operations

Every `pub fn` of `ProjectCache` that reads or writes a project's state, in the order of
`src/project_cache.rs`, and under it the private helpers they share: `invalidate`,
`releaseIndex`, `prune`, the two evictions and `enforce`.

The three `while` loops of `enforce` and the one of `reserve` run through `Loop.run`.  Each
round evicts one cached index or runner, so `slots`, the number of both, bounds the rounds;
`exits_enforceIndexes` and its companions say that the cut-off never shows: the loops end where
the source's `while` ends.
-/
import MavenMcp.Lib.Loop
import MavenMcp.ProjectCache.Basic

namespace MavenMcp
namespace ProjectCache

variable {ρ ι : Type}

/-! ## 1. Counters and single states -/

/-- `next_tick`: the counter is incremented and its new value is the tick. -/
def nextTick (c : ProjectCache ρ ι) : ProjectCache ρ ι := { c with tick := c.tick + 1 }

/-- `fresh_generation`: the counter is incremented and its new value is the generation. -/
def freshGeneration (c : ProjectCache ρ ι) : ProjectCache ρ ι :=
  { c with nextGeneration := c.nextGeneration + 1 }

/-- `states.get_mut(root)` followed by an update. -/
def update (c : ProjectCache ρ ι) (root : PathBuf) (f : ProjectState ρ ι → ProjectState ρ ι) :
    ProjectCache ρ ι :=
  { c with states := c.states.modify root f }

/-- `states.entry(root).or_insert_with(|| ProjectState::new(generation))`, updated. -/
def upsert (c : ProjectCache ρ ι) (root : PathBuf) (generation : Nat)
    (f : ProjectState ρ ι → ProjectState ρ ι) : ProjectCache ρ ι :=
  { c with states := c.states.insert root (f ((c.get root).getD (.new generation))) }

/-! ## 2. Pruning, releasing and invalidating -/

/-- Drop the build marker when no request waits for it and no blocking work holds its owner. -/
def pruneMarker (held : Held) (st : ProjectState ρ ι) : ProjectState ρ ι :=
  if st.inFlight.any (fun m => !m.isLive held) then { st with inFlight := none } else st

/-- Forgets released memory nobody holds any more and build markers of cancelled requests. -/
def prune (held : Held) (c : ProjectCache ρ ι) : ProjectCache ρ ι :=
  { c with
    released := c.released.filter fun r => held.indexes r.index
    releasedRunners := c.releasedRunners.filter fun r => held.runners r.runner
    states := c.states.mapVals (pruneMarker held)
    reservations := c.reservations.filter fun r => held.reservations r.ptr }

/-- The index of `root` leaves the cache; it stays accounted while somebody holds it. -/
def releaseIndex (held : Held) (c : ProjectCache ρ ι) (root : PathBuf) : ProjectCache ρ ι :=
  match (c.get root).bind ProjectState.index with
  | none => c
  | some entry =>
    let c := c.update root fun st => { st with index := none }
    prune held { c with released := c.released ++ [⟨entry.index.ptr, entry.bytes⟩] }

/-- A new generation for `root`: its marker and its index go. -/
def invalidate (held : Held) (c : ProjectCache ρ ι) (root : PathBuf) : ProjectCache ρ ι :=
  let c := c.freshGeneration
  match c.get root with
  | none => c
  | some _ =>
    let generation := c.nextGeneration
    let c := c.update root fun st => { st with generation := generation, inFlight := none }
    releaseIndex held { c with invalidations := c.invalidations + 1 } root

/-- The runner of `root` leaves the cache; it stays accounted while somebody holds it. -/
def releaseRunner (c : ProjectCache ρ ι) (root : PathBuf) : ProjectCache ρ ι :=
  match (c.get root).bind ProjectState.runner with
  | none => c
  | some entry =>
    let c := c.update root fun st => { st with runner := none }
    { c with releasedRunners := c.releasedRunners ++ [entry.release] }

/-! ## 3. Evictions -/

/-- Evicts the least recently used index of a project other than `protect`; `none` when there is
no victim. -/
def evictLeastRecentlyUsedIndex (held : Held) (protect : Option PathBuf)
    (c : ProjectCache ρ ι) : Option (ProjectCache ρ ι) :=
  let victim := c.states.minKey
    (fun root st => st.index.isSome && protect.all (fun p => decide (p ≠ root)))
    ProjectState.lastUsedTick
  victim.map fun root =>
    let c := releaseIndex held c root
    { c with evictions := c.evictions + 1 }

/-- Evicts the least recently used runner of a project other than `protect` that has no live
build; `none` when there is no victim. -/
def evictLeastRecentlyUsedRunner (held : Held) (protect : Option PathBuf)
    (c : ProjectCache ρ ι) : Option (ProjectCache ρ ι) :=
  let victim := c.states.minKey
    (fun root st => st.runner.isSome && !st.hasLiveBuild held &&
      protect.all (fun p => decide (p ≠ root)))
    ProjectState.lastUsedTick
  victim.map (releaseRunner c)

/-- What a round of the eviction loops can still evict. -/
def slots (c : ProjectCache ρ ι) : Nat := c.indexCount + c.runnerCount

/-- One round of `while indexes > max_indexes`. -/
def enforceIndexesRound (held : Held) (protect : Option PathBuf) (c : ProjectCache ρ ι) :
    Option (ProjectCache ρ ι) :=
  if c.indexCount > c.limits.maxIndexes then c.evictLeastRecentlyUsedIndex held protect else none

/-- One round of `while retained_bytes > max_bytes`: an index goes, or else a runner. -/
def enforceBytesRound (held : Held) (protect : Option PathBuf) (c : ProjectCache ρ ι) :
    Option (ProjectCache ρ ι) :=
  if c.retainedBytes held > c.limits.maxBytes then
    (c.evictLeastRecentlyUsedIndex held protect).or (c.evictLeastRecentlyUsedRunner held protect)
  else none

/-- One round of `while runners > max_runners`. -/
def enforceRunnersRound (held : Held) (protect : Option PathBuf) (c : ProjectCache ρ ι) :
    Option (ProjectCache ρ ι) :=
  if c.runnerCount > c.limits.maxRunners then c.evictLeastRecentlyUsedRunner held protect
  else none

/-- The eviction loops of `enforce`, before idle states are dropped. -/
@[irreducible] def enforceLimits (held : Held) (protect : Option PathBuf) (c : ProjectCache ρ ι) :
    ProjectCache ρ ι :=
  let c := prune held c
  let c := Loop.run (enforceIndexesRound held protect) c.slots c
  let c := Loop.run (enforceBytesRound held protect) c.slots c
  Loop.run (enforceRunnersRound held protect) c.slots c

@[irreducible] def enforce (held : Held) (protect : Option PathBuf) (c : ProjectCache ρ ι) :
    ProjectCache ρ ι :=
  let c := enforceLimits held protect c
  { c with states := c.states.retain (ProjectState.isActive held) }

/-! ## 4. The operations of requests -/

/-- Adds one build's use of the on-disk cache to the published counters. -/
def recordPersistedUse (c : ProjectCache ρ ι) (classpathHit : Bool)
    (recordHits recordMisses : Nat) : ProjectCache ρ ι :=
  { c with
    persisted :=
      { classpathHits := c.persisted.classpathHits + (if classpathHit then 1 else 0)
        recordHits := c.persisted.recordHits + recordHits
        recordMisses := c.persisted.recordMisses + recordMisses } }

def runner (c : ProjectCache ρ ι) (root : PathBuf) :
    ProjectCache ρ ι × Option (RunnerSnapshot ρ) :=
  let c := c.nextTick
  let c := c.update root fun st => { st with lastUsedTick := c.tick }
  (c, (c.get root).bind ProjectState.runner)

/-- The entry of a runner takes its place; a replaced runner stays accounted while held. -/
def placeRunner (c : ProjectCache ρ ι) (root : PathBuf) (entry : RunnerEntry ρ) :
    ProjectCache ρ ι :=
  let c := c.nextTick.freshGeneration
  let replaced := (c.get root).bind ProjectState.runner
  let c := c.upsert root c.nextGeneration fun st =>
    { st with runner := some entry, lastUsedTick := c.tick }
  { c with
    releasedRunners := c.releasedRunners ++ (replaced.map RunnerSnapshot.release).toList }

/-- Stores a freshly discovered runner.  A different fingerprint than the replaced runner's
invalidates the project's index and any running build. -/
def installRunner (held : Held) (c : ProjectCache ρ ι) (root : PathBuf) (runner : Arc ρ)
    (fingerprint : ProjectFingerprint) : ProjectCache ρ ι × RunnerSnapshot ρ :=
  let entry : RunnerEntry ρ := ⟨runner, fingerprint, false⟩
  let changed := ((c.get root).bind ProjectState.runner).any
    fun previous => decide (previous.fingerprint ≠ fingerprint)
  let c := if changed then invalidate held c root else c
  (enforce held (some root) (c.placeRunner root entry), entry)

/-- Drops the runner and everything derived from it after the model could not be re-read. -/
def discardProject (held : Held) (c : ProjectCache ρ ι) (root : PathBuf) : ProjectCache ρ ι :=
  enforce held none ((invalidate held c root).releaseRunner root)

/-- Marks the project as changed by a Maven execution. -/
def invalidateAfterMaven (held : Held) (c : ProjectCache ρ ι) (root : PathBuf) :
    ProjectCache ρ ι :=
  (invalidate held c root).update root fun st =>
    { st with runner := st.runner.map fun entry => { entry with revalidate := true } }

/-- Makes the project's builds read every archive again until one of them is published. -/
def requireFullRebuild (c : ProjectCache ρ ι) (root : PathBuf) : ProjectCache ρ ι :=
  let c := c.freshGeneration
  c.upsert root c.nextGeneration fun st => { st with fullRebuild := true }

def requiresFullRebuild (c : ProjectCache ρ ι) (root : PathBuf) : Bool :=
  (c.get root).any ProjectState.fullRebuild

/-- Clears `requireFullRebuild` after a build of `generation` was published. -/
def finishFullRebuild (c : ProjectCache ρ ι) (root : PathBuf) (generation : Nat) :
    ProjectCache ρ ι :=
  c.update root fun st =>
    if st.generation = generation then { st with fullRebuild := false } else st

def isCurrent (c : ProjectCache ρ ι) (root : PathBuf) (generation : Nat) : Bool :=
  (c.get root).any fun st => st.generation == generation

/-- Drops the index and abandons the running build, but only if the project is still in the
generation the caller observed. -/
def invalidateGeneration (held : Held) (c : ProjectCache ρ ι) (root : PathBuf)
    (generation : Nat) : ProjectCache ρ ι :=
  if c.isCurrent root generation then invalidate held c root else c

/-- The end of `lookup_index`: a cache miss joins the marker of the present generation or
leaves a new one. -/
def joinBuild (c : ProjectCache ρ ι) (root : PathBuf) : ProjectCache ρ ι × IndexLookup ι :=
  let c := { c with misses := c.misses + 1 }
  let generation := ((c.get root).map ProjectState.generation).getD 0
  match ((c.get root).bind ProjectState.inFlight).filter (·.generation == generation) with
  | some m => (c, .build m.cell m.owner generation)
  | none =>
    let marker : InFlight := ⟨generation, c.nextPtr, c.nextPtr + 1⟩
    let c := c.update root fun st => { st with inFlight := some marker }
    ({ c with nextPtr := c.nextPtr + 2 }, .build marker.cell marker.owner generation)

def lookupIndex (held : Held) (c : ProjectCache ρ ι) (root : PathBuf)
    (project : ProjectFingerprint) : ProjectCache ρ ι × IndexLookup ι :=
  let c := c.nextTick.freshGeneration
  let c := c.upsert root c.nextGeneration fun st => { st with lastUsedTick := c.tick }
  match (c.get root).bind ProjectState.index with
  | some entry =>
    if entry.project = project then
      (c, .cached entry (((c.get root).map ProjectState.generation).getD 0))
    -- The lookup still holds its clone of the entry while it invalidates.
    else joinBuild (invalidate (held.holdIndex entry.index.ptr) c root) root
  | none => joinBuild c root

def recordHit (c : ProjectCache ρ ι) (root : PathBuf) : ProjectCache ρ ι :=
  let c := { c with hits := c.hits + 1 }.nextTick
  c.update root fun st => { st with lastUsedTick := c.tick }

/-- One round of the loop of `reserve`: the served root keeps its runner. -/
def reserveRound (held : Held) (root : PathBuf) (bytes : Nat) (c : ProjectCache ρ ι) :
    Option (ProjectCache ρ ι) :=
  if c.retainedBytes held + bytes > c.limits.maxBytes then
    (c.evictLeastRecentlyUsedIndex held none).or (c.evictLeastRecentlyUsedRunner held (some root))
  else none

/-- Reserves `bytes` for a build of the given generation, evicting least recently used idle
indexes first.  Fails when the budget cannot hold the build. -/
def reserve (held : Held) (c : ProjectCache ρ ι) (root : PathBuf) (generation bytes : Nat) :
    ProjectCache ρ ι × Except ReserveError Nat :=
  let c := prune held c
  if c.isCurrent root generation then
    let c := Loop.run (reserveRound held root bytes) c.slots c
    if c.retainedBytes held + bytes > c.limits.maxBytes then
      (c, .error (.overBudget (c.retainedBytes held + bytes) c.limits.maxBytes))
    else
      ({ c with reservations := c.reservations ++ [⟨c.nextPtr, bytes⟩], nextPtr := c.nextPtr + 1 },
        .ok c.nextPtr)
  else (c, .error .stale)

/-- The entry of a published index takes its place and the build's marker goes. -/
def placeIndex (c : ProjectCache ρ ι) (root : PathBuf) (entry : CachedIndex ι) :
    ProjectCache ρ ι :=
  let c := c.nextTick
  c.update root fun st => { st with inFlight := none, index := some entry, lastUsedTick := c.tick }

/-- Publishes a finished build unless its generation was invalidated meanwhile.  The
reservation is consumed so the index is not counted twice. -/
def publish [EstimatedBytes ι] (held : Held) (c : ProjectCache ρ ι) (root : PathBuf)
    (generation : Nat) (index : Arc ι) (build : FinishedBuild) (project : ProjectFingerprint)
    (reservation : Nat) : ProjectCache ρ ι × Publication :=
  let held := held.dropReservation reservation
  let c := prune held c
  if c.isCurrent root generation then
    let bytes := EstimatedBytes.estimatedBytes index.val + build.artifacts.estimatedBytes
    if bytes > c.limits.maxBytes then
      -- Evicting every other project would not make room for it.
      let c := c.update root fun st => { st with inFlight := none }
      ({ c with released := c.released ++ [⟨index.ptr, bytes⟩] }, .uncached)
    else
      let c := enforce held (some root) (c.placeIndex root ⟨index, project, build.artifacts, bytes⟩)
      if c.retainedBytes held > c.limits.maxBytes then (releaseIndex held c root, .uncached)
      else (c, .retained)
  else (c, .stale)

/-- Clears the running-build marker after a failure so the next request retries. -/
def finishFailed (held : Held) (c : ProjectCache ρ ι) (root : PathBuf) (generation : Nat) :
    ProjectCache ρ ι :=
  enforce held none <| c.update root fun st =>
    if st.generation = generation then { st with inFlight := none } else st

end ProjectCache

end MavenMcp
