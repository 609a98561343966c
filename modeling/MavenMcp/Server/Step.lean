/-
# The server around the cache: its steps

One definition for each function of `src/server.rs` between `project_runner` and
`refresh_project`: from the stage where a request stands in it, what the request does next.  A
step is what nothing can come between: ONE locked section of the cache, one read of the disk, or
one answer awaited.  `advance` puts the functions together, `Server.take` lets a request take
its step, and `step` is the machine: any request may go on at any time, be cancelled where it
awaits something, and the files may change between any two steps.
-/
import MavenMcp.Server.State

namespace MavenMcp

variable {W M : Type}

/-! ## 1. One step of a request -/

/-- How a step changes the on-disk index cache. -/
inductive Write
  | nothing
  | store (manifest : ClasspathManifest)
  | forget (root : PathBuf)
deriving DecidableEq, Repr

def Write.apply : Write → List ClasspathManifest → List ClasspathManifest
  | .nothing, manifests => manifests
  | .store m, manifests =>
    m :: manifests.filter fun x => !decide (x.root = m.root ∧ x.context = m.context)
  | .forget root, manifests => manifests.filter fun x => !decide (x.root = root)

def Effect.write : Effect → Write
  | .forget root => .forget root
  | .store root context fingerprint epoch => .store ⟨root, context, fingerprint, epoch⟩
  | .nothing | .wake _ _ => .nothing

/-- What a request does in one step. -/
structure Move (M : Type) where
  stage : Stage M
  /-- The locked section. -/
  ops : List (ProjectCache.Op (MavenRunner M) MavenIndex) := []
  write : Write := .nothing
  /-- The cell that is filled. -/
  fills : Option (Nat × BuildOutcome) := none
  /-- The section begins with `invalidate_after_maven`. -/
  invalidates : Bool := false
  /-- `index_for` begins another round. -/
  retries : Bool := false
  /-- A runner or an index is allocated. -/
  allocates : Bool := false
  publishes : Option Published := none

/-- `MAX_INDEX_BUILD_ATTEMPTS`. -/
def maxIndexBuildAttempts : Nat := 4

namespace Request

/-- The request ends with an error. -/
def refused (req : Request M) (error : ErrorData) : Stage M :=
  .returned (.error (if req.purpose = .refresh then error.refreshIncomplete else error))

/-- The request ends with an index. -/
def answered (req : Request M) (index : Arc MavenIndex) : Stage M :=
  .returned (.ok (if req.purpose = .refresh then .refreshed index.val else .index index))

/-- The end of a round of `index_for` that found no index. -/
def again (req : Request M) : Move M :=
  if req.attempts < maxIndexBuildAttempts then { stage := .runner .snapshot, retries := true }
  else { stage := req.refused .changedRepeatedly }

/-- What a request makes of the outcome in its cell. -/
def resolved (req : Request M) : BuildOutcome → Move M
  | .built index => { stage := req.answered index }
  | .failed error => { stage := req.refused error }
  | .stale => req.again

/-- What follows the invalidation once the stored classpaths are forgotten. -/
def afterInvalidation (req : Request M) : Stage M :=
  if req.purpose = .refresh then .runner .snapshot else .returned (.ok .invalidated)

/-- What follows `project_runner`. -/
def withRunner (req : Request M) (snapshot : Snapshot M) : Stage M :=
  if req.purpose = .runner then .returned (.ok (.runner snapshot)) else .looking snapshot

end Request

namespace Server

/-- The files as they are now. -/
def disk (host : Host W M) (s : Server M) : W := host.files s.now

/-- `ProjectFingerprint::is_current`. -/
def describes (host : Host W M) (s : Server M) (fp : ProjectFingerprint) : Bool :=
  fp.isCurrent (host.stat (s.disk host))

/-- `project_runner`. -/
def projectRunner (host : Host W M) (s : Server M) (req : Request M) : RunnerStage M → Move M
  | .snapshot =>
    { stage := .runner (.checking (s.cache.runner req.root).2), ops := [.runner req.root] }
  | .checking cached =>
    match cached with
    | some snapshot =>
      if snapshot.revalidate then { stage := .runner (.discovering cached) }
      else if s.describes host snapshot.fingerprint then { stage := req.withRunner snapshot }
      else { stage := .runner (.discovering cached) }
    | none => { stage := .runner (.discovering cached) }
  | .discovering cached =>
    match host.discover req.root (s.disk host) with
    | .ok project =>
      { stage := .runner (.capturing cached ⟨s.nextArc, project, s.epoch req.root⟩),
        allocates := true }
    | .error message => { stage := .runner (.discarding cached ⟨.invalidParams, message⟩) }
  | .discarding _ error => { stage := req.refused error, ops := [.discardProject req.root] }
  | .capturing cached runner =>
    let fingerprint :=
      .capture (host.stat (s.disk host)) (host.fingerprintPaths runner.val.project)
    { stage := .runner (.installing cached runner fingerprint) }
  | .installing _ runner fingerprint =>
    { stage := req.withRunner ⟨runner, fingerprint, false⟩,
      ops := [.installRunner req.root runner fingerprint] }

/-- The context of a build's classpath, as the files are now. -/
def classpathContext (host : Host W M) (s : Server M) (req : Request M) (t : Ticket M) :
    List UInt8 :=
  host.classpathContext req.root t.snapshot.runner.val.project (s.disk host)

/-- The manifest `load_classpath` finds. -/
def manifest (s : Server M) (root : PathBuf) (context : List UInt8) : Option ClasspathManifest :=
  s.manifests.find? fun m => decide (m.root = root ∧ m.context = context)

/-- The stored manifest of the build's context and fingerprint. -/
def reusable (host : Host W M) (s : Server M) (req : Request M) (t : Ticket M) :
    Option ClasspathManifest :=
  (s.manifest req.root (s.classpathContext host req t)).filter fun m =>
    decide (m.project = t.snapshot.fingerprint)

/-- `resolve_classpath`: the manifest lookup, Maven, and the capture of its inputs. -/
def resolveClasspath (host : Host W M) (s : Server M) (req : Request M) (t : Ticket M) :
    BuildStage → Reply → Option (Move M)
  | .resolving, .judged usable =>
    let context := s.classpathContext host req t
    match s.reusable host req t, usable with
    | some m, true => some { stage := .building t (.stamping ⟨context, true, true, m.epoch⟩) }
    | _, _ => some { stage := .building t (.starting context) }
  | .starting context, .done =>
    some { stage := .building t (.running context (s.epoch req.root)) }
  | .running context epoch, .maven .success =>
    if host.indexCache then some { stage := .building t (.capturing context epoch) }
    else some { stage := .building t (.stamping ⟨context, false, false, epoch⟩) }
  | .running _ _, .maven (.failed detail) =>
    some { stage := .building t (.failing (.mavenFailed detail)) }
  | .running _ _, .maven .incomplete =>
    some { stage := .building t (.failing .classpathIncomplete) }
  | .capturing context epoch, .judged settled =>
    some { stage := .building t (.stamping ⟨context, false, settled, epoch⟩) }
  | .resolving, .refused error | .capturing _ _, .refused error =>
    some { stage := .building t (.failing (.heavyWork error)) }
  | _, _ => none

/-- The use of the on-disk cache that a publication records first. -/
def persistedUse (host : Host W M) (req : Request M) (classpath : ResolvedClasspath)
    (reused built : Nat) : List (ProjectCache.Op (MavenRunner M) MavenIndex) :=
  if host.indexCache then [.recordPersistedUse req.root classpath.persisted reused built] else []

/-- The publication of a build. -/
def publication (req : Request M) (t : Ticket M) (artifacts : ProjectFingerprint)
    (reservation : Nat) (index : Arc MavenIndex) : ProjectCache.Op (MavenRunner M) MavenIndex :=
  .publish req.root t.generation index ⟨artifacts⟩ t.snapshot.fingerprint reservation

/-- Its answer. -/
def publicationAnswer (host : Host W M) (s : Server M) (req : Request M) (t : Ticket M)
    (classpath : ResolvedClasspath) (artifacts : ProjectFingerprint) (reservation : Nat)
    (index : Arc MavenIndex) (reused built : Nat) : Publication :=
  (ProjectCache.publish s.held
    (ProjectCache.performAll s.held s.cache (persistedUse host req classpath reused built)) req.root
    t.generation index ⟨artifacts⟩ t.snapshot.fingerprint reservation).2

/-- The locked section of `try_build_index` after the index was built. -/
def publishBuild (host : Host W M) (s : Server M) (req : Request M) (t : Ticket M)
    (classpath : ResolvedClasspath) (artifacts : ProjectFingerprint) (reservation : Nat)
    (index : Arc MavenIndex) (reused built : Nat) : Move M :=
  let used := persistedUse host req classpath reused built
  let publish := publication req t artifacts reservation index
  if s.publicationAnswer host req t classpath artifacts reservation index reused built = .stale then
    { stage := .building t (.finished .stale), ops := used ++ [publish] }
  else
    { stage := .building t
        (if host.indexCache then .persisting classpath index else .finished (.built index)),
      ops := used ++ [publish, .finishFullRebuild req.root t.generation],
      publishes := some ⟨req.root, t.generation, t.cell, index.val, s.epoch req.root⟩ }

/-- `try_build_index`, from the artifact stamps to the publication. -/
def tryBuildIndex (host : Host W M) (s : Server M) (req : Request M) (t : Ticket M) :
    BuildStage → Reply → Option (Move M)
  | .stamping _, .judged false =>
    some { stage := .building t (.failing .noIndexableJars) }
  | .stamping classpath, .stamped artifacts =>
    some { stage := .building t (.reserving classpath artifacts) }
  | .stamping _, .refused error | .indexing _ _ _ _, .refused error =>
    some { stage := .building t (.failing (.heavyWork error)) }
  | .reserving classpath artifacts, .done =>
    let bytes := artifacts.fileBytes
    let stage :=
      match (s.cache.reserve s.held req.root t.generation bytes).2 with
      | .ok reservation => .asking classpath artifacts reservation
      | .error .stale => .finished .stale
      | .error (.overBudget needed limit) => .failing (.overBudget needed limit)
    some { stage := .building t stage, ops := [.reserve req.root t.generation bytes] }
  | .asking classpath artifacts reservation, .done =>
    let reuse := !s.cache.requiresFullRebuild req.root
    some { stage := .building t (.indexing classpath artifacts reservation reuse) }
  | .indexing _ _ _ _, .indexed (.failed message) _ =>
    some { stage := .building t (.failing ⟨.internalError, message⟩) }
  | .indexing _ _ _ _, .indexed (.unindexed message) _ =>
    some { stage := .building t (.failing ⟨.invalidParams, message⟩) }
  | .indexing classpath artifacts reservation _, .indexed (.built bytes reused built) moved =>
    let index : Arc MavenIndex :=
      ⟨s.nextArc, bytes, t.snapshot.fingerprint, classpath.epoch⟩
    -- Files that changed while Maven and the indexer ran describe a different project.
    let changed := !s.describes host t.snapshot.fingerprint || moved
    some { stage := .building t
             (.publishing classpath artifacts reservation index reused built changed),
           allocates := true }
  | .publishing classpath artifacts reservation index reused built changed, .done =>
    if changed then
      some { stage := .building t (.finished .stale),
             ops := [.invalidateGeneration req.root t.generation] }
    else some (s.publishBuild host req t classpath artifacts reservation index reused built)
  | _, _ => none

/-- `persist_build`, after the publication. -/
def persistBuild (s : Server M) (req : Request M) (t : Ticket M) :
    BuildStage → Reply → Option (Move M)
  | .persisting classpath index, .took effective =>
    some { stage := .building t (.rechecking index),
           write :=
             if effective && classpath.inputs then
               .store ⟨req.root, classpath.context, t.snapshot.fingerprint, classpath.epoch⟩
             else .nothing }
  | .rechecking index, .done =>
    if s.cache.isCurrent req.root t.generation then
      some { stage := .building t (.finished (.built index)) }
    else some { stage := .building t (.forgetting index) }
  | .forgetting index, .took effective =>
    some { stage := .building t (.finished (.built index)),
           write := if effective then .forget req.root else .nothing }
  | _, _ => none

/-- `build_index`: the owner lock, the build, the end of a failure, and the cell. -/
def buildIndex (host : Host W M) (s : Server M) (req : Request M) (t : Ticket M) :
    BuildStage → Reply → Option (Move M)
  | .locking, .done =>
    if s.taken t.owner then none
    else if host.indexCache then some { stage := .building t .resolving }
    else some { stage := .building t (.starting []) }
  | .failing error, .done =>
    some { stage := .building t (.finished (.failed error)),
           ops := [.finishFailed req.root t.generation] }
  | .finished outcome, .done => some { req.resolved outcome with fills := some (t.cell, outcome) }
  | _, _ => none

/-- `index_for`, once `project_runner` gave it a snapshot. -/
def indexFor (s : Server M) (req : Request M) : Stage M → Reply → Option (Move M)
  | .looking snapshot, .done =>
    let stage :=
      match (ProjectCache.lookupIndex s.held s.cache req.root snapshot.fingerprint).2 with
      | .cached entry generation => .validating snapshot entry generation
      | .build cell owner generation => .waiting ⟨cell, owner, generation, snapshot⟩
    some { stage := stage, ops := [.lookupIndex req.root snapshot.fingerprint] }
  | .validating snapshot entry generation, .judged current =>
    some { stage := .validated snapshot entry generation current }
  | .validating _ _ _, .refused error => some { stage := req.refused (.heavyWork error) }
  | .validated _ entry generation current, .done =>
    if current then some { stage := req.answered entry.index, ops := [.recordHit req.root] }
    else some { req.again with ops := [.invalidateGeneration req.root generation] }
  | .waiting ticket, .done =>
    match s.filled.lookup ticket.cell with
    | some outcome => some (req.resolved outcome)
    | none =>
      -- `get_or_init` runs one initialiser at a time.
      if s.isBuilt ticket.cell then none else some { stage := .building ticket .locking }
  | _, _ => none

/-- `refresh_project` and `invalidate_project`, up to the forgotten classpaths. -/
def invalidateProject (host : Host W M) (req : Request M) :
    Stage M → Reply → Option (Move M)
  | .invalidating, .done =>
    some { stage := if host.indexCache then .forgetting else req.afterInvalidation,
           ops := .invalidateAfterMaven req.root ::
             if req.purpose = .refresh then [.requireFullRebuild req.root] else [],
           invalidates := true }
  | .forgetting, .took effective =>
    some { stage := req.afterInvalidation,
           write := if effective then .forget req.root else .nothing }
  | _, _ => none

/-- The next step of a request. -/
def advance (host : Host W M) (s : Server M) (req : Request M) (reply : Reply) :
    Option (Move M) :=
  match req.stage with
  | .runner stage => if reply = .done then some (s.projectRunner host req stage) else none
  | .building ticket stage =>
    (((s.buildIndex host req ticket stage reply).or
      (s.resolveClasspath host req ticket stage reply)).or
      (s.tryBuildIndex host req ticket stage reply)).or
      (s.persistBuild req ticket stage reply)
  | stage => (invalidateProject host req stage reply).or (s.indexFor req stage reply)

/-! ## 2. The machine -/

/-- The request as its step leaves it. -/
def moved (s : Server M) (req : Request M) (m : Move M) : Request M :=
  { req with
    stage := m.stage
    attempts := if m.retries then req.attempts + 1 else req.attempts
    epoch := if m.invalidates then s.epoch req.root + 1 else req.epoch }

/-- A request takes its step. -/
def take (s : Server M) (id : Nat) (req : Request M) (m : Move M) : Server M :=
  { s with
    cache := ProjectCache.performAll s.held s.cache m.ops
    calls := s.calls ++ m.ops.map (s.held, ·)
    manifests := Write.apply m.write s.manifests
    requests := s.requests.insert id (s.moved req m)
    filled :=
      match m.fills with
      | some (cell, outcome) => s.filled.insert cell outcome
      | none => s.filled
    epoch :=
      if m.invalidates then Function.update s.epoch req.root (s.epoch req.root + 1) else s.epoch
    nextArc := if m.allocates then s.nextArc + 1 else s.nextArc
    published := s.published ++ m.publishes.toList }

/-- Where a request can be cancelled, and the blocking job it then leaves behind. -/
def leftover (req : Request M) : Option (Option (Job M)) :=
  match req.stage with
  | .forgetting => some (some ⟨req.root, none, none, none, none, .forget req.root⟩)
  | .validating _ entry _ =>
    some (some ⟨req.root, none, none, some entry.index.ptr, none, .nothing⟩)
  | .waiting _ => some none
  | .building t stage =>
    match stage with
    | .locking | .starting _ | .running _ _ => some none
    | .resolving | .capturing _ _ =>
      some (some ⟨req.root, some t, none, none, some t.snapshot.runner.ptr, .nothing⟩)
    | .stamping _ => some (some ⟨req.root, some t, none, none, none, .nothing⟩)
    | .indexing _ _ reservation _ =>
      some (some ⟨req.root, some t, some reservation, none, none, .nothing⟩)
    | .persisting classpath _ =>
      some (some ⟨req.root, none, none, none, none,
        if classpath.inputs then
          .store req.root classpath.context t.snapshot.fingerprint classpath.epoch
        else .nothing⟩)
    | .forgetting _ => some (some ⟨req.root, none, none, none, none, .forget req.root⟩)
    | _ => none
  | _ => none

/-- The task that `BuildStatusGuard::drop` starts for a request that still awaited a build. -/
def waker (req : Request M) : Option (Job M) :=
  req.ticket.map fun t => ⟨req.root, none, none, none, none, .wake t.owner false⟩

/-- Put the job, if there is one, under the given number. -/
def addJob (jobs : Table Nat (Job M)) (id : Nat) : Option (Job M) → Table Nat (Job M)
  | some job => jobs.insert id job
  | none => jobs

/-- The request is dropped; its job goes on or is dropped as well. -/
def abandon (s : Server M) (id : Nat) (req : Request M) (job : Option (Job M)) : Server M :=
  { s with
    requests := s.requests.erase id
    jobs := addJob (addJob s.jobs s.nextArc job) (s.nextArc + 1) (waker req)
    nextArc := s.nextArc + 2 }

/-- A job without a request comes to its end, or the task of a dropped guard gets its lock. -/
def finishJob (s : Server M) (id : Nat) (job : Job M) (effective : Bool) : Option (Server M) :=
  match job.effect with
  | .wake owner false =>
    if s.taken owner then none
    else some { s with jobs := s.jobs.insert id { job with effect := .wake owner true } }
  | effect =>
    some { s with
      jobs := s.jobs.erase id
      manifests := (if effective then effect.write else .nothing).apply s.manifests }

end Server

/-- What can happen next. -/
inductive Action
  /-- Somebody changes files. -/
  | edit
  /-- The on-disk cache drops a manifest to stay within its budget, or with a damaged database. -/
  | evictManifest (root : PathBuf) (context : List UInt8)
  | retainTestResult (runner bytes : Nat)
  | arrive (id : Nat) (root : PathBuf) (purpose : Purpose)
  | advance (id : Nat) (reply : Reply)
  | cancel (id : Nat) (leavesJob : Bool)
  | endJob (id : Nat) (effective : Bool)
  /-- A request that returned drops its answer. -/
  | leave (id : Nat)
deriving DecidableEq, Repr

/-- A request as it arrives. -/
def Request.arriving (s : Server M) (root : PathBuf) (purpose : Purpose) : Request M where
  root := root
  purpose := purpose
  attempts := 1
  begun := s.now
  epoch := s.epoch root
  stage :=
    match purpose with
    | .refresh | .invalidate => .invalidating
    | .runner | .index => .runner .snapshot

open Server in
/-- The machine. -/
def step (host : Host W M) (s : Server M) : Action → Option (Server M)
  | .edit => some { s with now := s.now + 1 }
  | .evictManifest root context =>
    some { s with manifests :=
      s.manifests.filter fun x => !decide (x.root = root ∧ x.context = context) }
  | .retainTestResult runner bytes =>
    some { s with testResultBytes := Function.update s.testResultBytes runner bytes }
  | .arrive id root purpose =>
    match s.requests.lookup id with
    | some _ => none
    | none => some { s with requests := s.requests.insert id (.arriving s root purpose) }
  | .advance id reply =>
    (s.requests.lookup id).bind fun req =>
      (s.advance host req reply).map fun m => s.take id req m
  | .cancel id leavesJob =>
    (s.requests.lookup id).bind fun req =>
      (leftover req).map fun job => s.abandon id req (if leavesJob then job else none)
  | .endJob id effective =>
    (s.jobs.lookup id).bind fun job => s.finishJob id job effective
  | .leave id =>
    (s.requests.lookup id).bind fun req =>
      match req.stage with
      | .returned _ => some { s with requests := s.requests.erase id }
      | _ => none

/-- For runs on concrete inputs: the files are the number of edits made so far, and so are the
one stamp and the model. -/
def versionedHost (limits : CacheLimits) : Host Nat Nat where
  files t := t
  stat version path := if path = [112] then some ⟨version, 0⟩ else none
  discover _ version := .ok version
  fingerprintPaths _ := [[112]]
  classpathContext _ _ _ := []
  limits := limits
  indexCache := true

/-- The runs of the server in which every action is allowed by `ok` when it is taken. -/
abbrev Runs (host : Host W M) (ok : Server M → Action → Prop) (s : Server M) : Prop :=
  Steps.Reaches (step host) ok (Server.start host) s

end MavenMcp
