/-
# The server around the cache: its state

`src/server.rs` serves any number of requests at once.  A request runs `project_runner` and
`index_for` (and `refresh_project` or `invalidate_project` before them); it takes the lock of the
project cache for single calls, reads the disk between them, and awaits blocking jobs, Maven and
the builds of other requests.  Its state is the place where it stands in these functions with the
values it holds there: `RunnerStage` for `project_runner`, `BuildStage` for `build_index` and what
it calls, `Stage` for the rest.

What the claims of the source are about is recorded beside it, for proofs only: the moment a
request began (`begun`), how often a project was invalidated after Maven ran (`epoch`), the epoch
in which a model was read, a classpath resolved and a manifest stored, the fingerprint an index was
built for, the calls the cache received, and what was published.

A request that is cancelled leaves the blocking job it awaited to itself (`Job`).
-/
import MavenMcp.ProjectCache.Markers

namespace MavenMcp

/-! ## 1. What surrounds the server -/

/-- The disk over time, the parts of `project.rs` and `index_cache.rs` that read it, and the
configuration. -/
structure Host (W M : Type) where
  /-- The files as they are at each moment. -/
  files : Nat → W
  stat : W → Disk
  /-- `MavenRunner::discover_canonical_with_permit`: the reactor model, or why there is none. -/
  discover : PathBuf → W → Except String M
  /-- `MavenRunner::fingerprint_paths`. -/
  fingerprintPaths : M → List PathBuf
  /-- `classpath_context`, without the project scope it starts with. -/
  classpathContext : PathBuf → M → W → List UInt8
  limits : CacheLimits
  /-- The on-disk index cache is configured. -/
  indexCache : Bool

inductive ErrorCode
  | invalidParams
  | internalError
deriving DecidableEq, Repr

structure ErrorData where
  code : ErrorCode
  message : String
deriving DecidableEq, Repr

inductive HeavyWorkError
  | overloaded (running queued : Nat)
  | cancelled
  | failed
deriving DecidableEq, Repr

def HeavyWorkError.message : HeavyWorkError → String
  | .overloaded running queued =>
    s!"the server is overloaded: {running} heavy jobs are running and {queued} are queued " ++
      "(MAX_HEAVY_JOBS and MAX_QUEUED_HEAVY_JOBS); retry later"
  | .cancelled => "the request was cancelled"
  | .failed => "blocking work failed unexpectedly"

namespace ErrorData

/-- `heavy_work_error`. -/
def heavyWork (error : HeavyWorkError) : ErrorData := ⟨.internalError, error.message⟩

def changedRepeatedly : ErrorData :=
  ⟨.internalError,
    "the project changed repeatedly while its index was being built; retry the request"⟩

def mavenFailed (detail : String) : ErrorData :=
  ⟨.invalidParams, s!"cannot build Maven classpath for project index: {detail}"⟩

def classpathIncomplete : ErrorData :=
  ⟨.invalidParams, "Maven classpath output was truncated or malformed; the project index was " ++
    "not built because it would be incomplete"⟩

def noIndexableJars : ErrorData :=
  ⟨.invalidParams, "Maven classpath did not contain indexable local repository JARs"⟩

def overBudget (needed limit : Nat) : ErrorData :=
  ⟨.invalidParams, s!"building this project index needs an estimated {needed} bytes, which " ++
    s!"exceeds MAX_PROJECT_INDEX_BYTES ({limit})"⟩

/-- The error of a refresh keeps the code and says that the cache is already invalidated. -/
def refreshIncomplete (error : ErrorData) : ErrorData :=
  ⟨error.code,
    "the project cache was invalidated but the refresh did not complete: " ++ error.message⟩

end ErrorData

/-- What the environment answers where a request waits for it. -/
inductive MavenOutcome
  | success
  | failed (detail : String)
  | incomplete
deriving DecidableEq, Repr

/-- How `build_scoped_with` ends. -/
inductive Indexing
  | failed (error : String)
  | unindexed (message : String)
  | built (bytes recordsReused recordsBuilt : Nat)
deriving DecidableEq, Repr

inductive Reply
  /-- Nothing is asked: a locked section or a read of the project's files. -/
  | done
  /-- `HeavyWork::run` did not deliver the job's result. -/
  | refused (error : HeavyWorkError)
  /-- A job that changes the on-disk cache ended, with or without effect. -/
  | took (effective : Bool)
  /-- A job or a check found its stamps current, its manifest usable, its inputs settled. -/
  | judged (yes : Bool)
  | maven (outcome : MavenOutcome)
  | stamped (artifacts : ProjectFingerprint)
  | indexed (outcome : Indexing) (artifactsChanged : Bool)
deriving DecidableEq, Repr

/-! ## 2. What requests hold -/

variable {M : Type}

/-- A runner, with the epoch in which its model was read. -/
structure MavenRunner (M : Type) where
  project : M
  epoch : Nat
deriving DecidableEq, Repr

/-- An index, with the fingerprint it was built for and the epoch of its classpath. -/
structure MavenIndex where
  bytes : Nat
  project : ProjectFingerprint
  epoch : Nat
deriving DecidableEq, Repr

instance : EstimatedBytes MavenIndex := ⟨MavenIndex.bytes⟩

abbrev Snapshot (M : Type) := RunnerSnapshot (MavenRunner M)

inductive BuildOutcome
  | built (index : Arc MavenIndex)
  | stale
  | failed (error : ErrorData)
deriving DecidableEq, Repr

/-- What `index_for` holds once a lookup sent it to a build. -/
structure Ticket (M : Type) where
  cell : Nat
  owner : Nat
  generation : Nat
  snapshot : Snapshot M
deriving DecidableEq, Repr

/-- A classpath, with the epoch in which Maven resolved it.  `inputs` says that its resolution
inputs were captured, so that it may be stored. -/
structure ResolvedClasspath where
  context : List UInt8
  persisted : Bool
  inputs : Bool
  epoch : Nat
deriving DecidableEq, Repr

/-! ## 3. Where a request stands -/

/-- In `project_runner`. -/
inductive RunnerStage (M : Type)
  | snapshot
  | checking (cached : Option (Snapshot M))
  | discovering (cached : Option (Snapshot M))
  | discarding (cached : Option (Snapshot M)) (error : ErrorData)
  | capturing (cached : Option (Snapshot M)) (runner : Arc (MavenRunner M))
  | installing (cached : Option (Snapshot M)) (runner : Arc (MavenRunner M))
      (fingerprint : ProjectFingerprint)

/-- In `build_index`, `resolve_classpath`, `try_build_index` and `persist_build`. -/
inductive BuildStage
  /-- `owner.lock_owned().await`. -/
  | locking
  /-- The blocking manifest lookup. -/
  | resolving
  /-- Maven waits for the execution permit. -/
  | starting (context : List UInt8)
  | running (context : List UInt8) (epoch : Nat)
  /-- `capture_resolution_inputs`. -/
  | capturing (context : List UInt8) (epoch : Nat)
  | stamping (classpath : ResolvedClasspath)
  | reserving (classpath : ResolvedClasspath) (artifacts : ProjectFingerprint)
  /-- `requires_full_rebuild`. -/
  | asking (classpath : ResolvedClasspath) (artifacts : ProjectFingerprint) (reservation : Nat)
  | indexing (classpath : ResolvedClasspath) (artifacts : ProjectFingerprint) (reservation : Nat)
      (reuseRecords : Bool)
  | publishing (classpath : ResolvedClasspath) (artifacts : ProjectFingerprint)
      (reservation : Nat) (index : Arc MavenIndex) (recordsReused recordsBuilt : Nat)
      (changed : Bool)
  /-- The blocking write of `persist_build`. -/
  | persisting (classpath : ResolvedClasspath) (index : Arc MavenIndex)
  | rechecking (index : Arc MavenIndex)
  | forgetting (index : Arc MavenIndex)
  | failing (error : ErrorData)
  | finished (outcome : BuildOutcome)
deriving DecidableEq, Repr

/-- What a request returns. -/
inductive Answer (M : Type)
  | runner (snapshot : Snapshot M)
  | index (index : Arc MavenIndex)
  /-- `refresh_project` returns statistics and drops the index. -/
  | refreshed (index : MavenIndex)
  | invalidated

inductive Stage (M : Type)
  | invalidating
  | forgetting
  | runner (stage : RunnerStage M)
  | looking (snapshot : Snapshot M)
  /-- `artifacts_are_current` runs. -/
  | validating (snapshot : Snapshot M) (entry : CachedIndex MavenIndex) (generation : Nat)
  | validated (snapshot : Snapshot M) (entry : CachedIndex MavenIndex) (generation : Nat)
      (current : Bool)
  /-- `get_or_init` on the cell. -/
  | waiting (ticket : Ticket M)
  | building (ticket : Ticket M) (stage : BuildStage)
  | returned (answer : Except ErrorData (Answer M))

/-- Which of the four functions the request called. -/
inductive Purpose
  | runner
  | index
  | refresh
  | invalidate
deriving DecidableEq, Repr

structure Request (M : Type) where
  root : PathBuf
  purpose : Purpose
  /-- The rounds of `index_for` begun so far. -/
  attempts : Nat
  begun : Nat
  /-- The epoch its own invalidation began. -/
  epoch : Nat
  stage : Stage M

/-- What a blocking job that goes on without its request still does. -/
inductive Effect
  | nothing
  | forget (root : PathBuf)
  | store (root : PathBuf) (context : List UInt8) (fingerprint : ProjectFingerprint) (epoch : Nat)
  /-- The task of `BuildStatusGuard::drop`: it takes the owner lock once and drops it. -/
  | wake (owner : Nat) (taken : Bool)

structure Job (M : Type) where
  root : PathBuf
  /-- The build whose ownership moved into the job. -/
  build : Option (Ticket M)
  reservation : Option Nat
  index : Option Nat
  runner : Option Nat
  effect : Effect

/-- A stored `ClasspathManifest`. -/
structure ClasspathManifest where
  root : PathBuf
  context : List UInt8
  project : ProjectFingerprint
  epoch : Nat
deriving DecidableEq, Repr

/-- What was published, with the epoch of its root at that moment. -/
structure Published where
  root : PathBuf
  generation : Nat
  cell : Nat
  index : MavenIndex
  epoch : Nat
deriving DecidableEq, Repr

structure Server (M : Type) where
  cache : ProjectCache (MavenRunner M) MavenIndex
  calls : List (Held × ProjectCache.Op (MavenRunner M) MavenIndex)
  now : Nat
  manifests : List ClasspathManifest
  requests : Table Nat (Request M)
  /-- The build cells that were filled. -/
  filled : Table Nat BuildOutcome
  jobs : Table Nat (Job M)
  /-- How often `invalidate_after_maven` was called for each root. -/
  epoch : PathBuf → Nat
  /-- The allocator of runners, indexes and jobs. -/
  nextArc : Nat
  published : List Published
  testResultBytes : Nat → Nat

/-! ## 4. What is held at one moment -/

def RunnerStage.runners : RunnerStage M → List Nat
  | .snapshot => []
  | .checking cached | .discovering cached | .discarding cached _ =>
    (cached.map fun s => s.runner.ptr).toList
  | .capturing cached runner | .installing cached runner _ =>
    runner.ptr :: (cached.map fun s => s.runner.ptr).toList

/-- The build of the stage holds the owner lock. -/
def BuildStage.owns : BuildStage → Bool
  | .locking | .failing _ | .finished _ => false
  | _ => true

def BuildStage.indexes : BuildStage → List Nat
  | .publishing _ _ _ index _ _ _ | .persisting _ index | .rechecking index | .forgetting index
  | .finished (.built index) => [index.ptr]
  | _ => []

def BuildStage.reservations : BuildStage → List Nat
  | .asking _ _ reservation | .indexing _ _ reservation _ | .publishing _ _ reservation _ _ _ _ =>
    [reservation]
  | _ => []

/-- The build a request waits for, running it or not. -/
def Stage.ticket : Stage M → Option (Ticket M)
  | .waiting ticket | .building ticket _ => some ticket
  | _ => none

/-- The build a request runs. -/
def Stage.builds : Stage M → Option (Ticket M)
  | .building ticket _ => some ticket
  | _ => none

namespace Request

def ticket (req : Request M) : Option (Ticket M) := req.stage.ticket

/-- The owner lock the request holds. -/
def owns (req : Request M) : Option Nat :=
  match req.stage with
  | .building ticket stage => if stage.owns then some ticket.owner else none
  | _ => none

def runners (req : Request M) : List Nat :=
  match req.stage with
  | .runner stage => stage.runners
  | .looking s | .validating s _ _ | .validated s _ _ _ => [s.runner.ptr]
  | .waiting ticket | .building ticket _ => [ticket.snapshot.runner.ptr]
  | .returned (.ok (.runner s)) => [s.runner.ptr]
  | _ => []

/-- The indexes the request holds itself, beside the one in its cell. -/
def indexes (req : Request M) : List Nat :=
  match req.stage with
  | .validating _ entry _ | .validated _ entry _ _ => [entry.index.ptr]
  | .building _ stage => stage.indexes
  | .returned (.ok (.index index)) => [index.ptr]
  | _ => []

def reservations (req : Request M) : List Nat :=
  match req.stage with
  | .building _ stage => stage.reservations
  | _ => []

end Request

/-- The owner lock a job holds. -/
def Job.owns (job : Job M) : Option Nat :=
  match job.effect with
  | .wake owner true => some owner
  | _ => job.build.map Ticket.owner

namespace Server

def start (host : Host W M) : Server M where
  cache := .new host.limits
  calls := []
  now := 0
  manifests := []
  requests := ∅
  filled := ∅
  jobs := ∅
  epoch := fun _ => 0
  nextArc := 0
  published := []
  testResultBytes := fun _ => 0

/-- The owner lock is taken. -/
def taken (s : Server M) (owner : Nat) : Bool :=
  s.requests.values.any (fun req => decide (req.owns = some owner)) ||
    s.jobs.values.any fun job => decide (job.owns = some owner)

/-- The index a filled cell keeps. -/
def cellIndex (s : Server M) (cell : Nat) : Option Nat :=
  match s.filled.lookup cell with
  | some (.built index) => some index.ptr
  | _ => none

def held (s : Server M) : Held where
  cells cell := s.requests.values.any fun req => req.ticket.any fun t => decide (t.cell = cell)
  owners := s.taken
  indexes i :=
    (s.requests.values.any fun req => req.indexes.contains i ||
      req.ticket.any fun t => decide (s.cellIndex t.cell = some i)) ||
    s.jobs.values.any fun job => decide (job.index = some i)
  runners r :=
    (s.requests.values.any fun req => req.runners.contains r) ||
    s.jobs.values.any fun job => decide (job.runner = some r)
  reservations p :=
    (s.requests.values.any fun req => req.reservations.contains p) ||
    s.jobs.values.any fun job => decide (job.reservation = some p)
  testResultBytes := s.testResultBytes

/-- A request runs the build of the cell. -/
def isBuilt (s : Server M) (cell : Nat) : Bool :=
  s.requests.values.any fun req => req.stage.builds.any fun t => decide (t.cell = cell)

end Server

end MavenMcp
