/-
# The server's steps, read backwards

`step` is a program; what the proofs need is its inversion: from a step that was taken, which of
the source's transitions it was, with its guard and its effect.  `BuildMoves`, `IndexMoves` and
`Moves` list the transitions of a request, `Stepped` those of the machine, and
`stepped_of_step` is the only place where `step` is unfolded.
-/
import MavenMcp.Server.Step

namespace MavenMcp

open ProjectCache (Op performAll)

variable {W M : Type}

/-! ## 1. The transitions of a build -/

namespace Server

/-- `resolve_classpath`: no transition of it calls the cache. -/
inductive Resolves (host : Host W M) (s : Server M) (req : Request M) (t : Ticket M) :
    BuildStage → Reply → BuildStage → Prop
  | reused (m : ClasspathManifest) : s.reusable host req t = some m →
      Resolves host s req t .resolving (.judged true)
        (.stamping ⟨s.classpathContext host req t, true, true, m.epoch⟩)
  | missed (usable : Bool) : Resolves host s req t .resolving (.judged usable)
      (.starting (s.classpathContext host req t))
  | started (context : List UInt8) :
      Resolves host s req t (.starting context) .done (.running context (s.epoch req.root))
  | ran (context : List UInt8) (epoch : Nat) : host.indexCache = true →
      Resolves host s req t (.running context epoch) (.maven .success) (.capturing context epoch)
  | ranUncached (context : List UInt8) (epoch : Nat) : host.indexCache = false →
      Resolves host s req t (.running context epoch) (.maven .success)
        (.stamping ⟨context, false, false, epoch⟩)
  | captured (context : List UInt8) (epoch : Nat) (settled : Bool) :
      Resolves host s req t (.capturing context epoch) (.judged settled)
        (.stamping ⟨context, false, settled, epoch⟩)
  | refused (error : HeavyWorkError) :
      Resolves host s req t .resolving (.refused error) (.failing (.heavyWork error))
  | captureRefused (context : List UInt8) (epoch : Nat) (error : HeavyWorkError) :
      Resolves host s req t (.capturing context epoch) (.refused error)
        (.failing (.heavyWork error))
  | failed (context : List UInt8) (epoch : Nat) (outcome : MavenOutcome) (error : ErrorData) :
      Resolves host s req t (.running context epoch) (.maven outcome) (.failing error)

theorem resolves_of_move {host : Host W M} {s : Server M} {req : Request M} {t : Ticket M}
    {b : BuildStage} {reply : Reply} {m : Move M}
    (h : s.resolveClasspath host req t b reply = some m) :
    ∃ b', m = { stage := .building t b' } ∧ Resolves host s req t b reply b' := by
  unfold resolveClasspath at h
  split at h
  · simp only at h
    split at h
    · rename_i stored hr
      exact ⟨_, (Option.some.inj h).symm, .reused stored hr⟩
    · exact ⟨_, (Option.some.inj h).symm, .missed _⟩
  · exact ⟨_, (Option.some.inj h).symm, .started _⟩
  · split at h
    · rename_i hc
      exact ⟨_, (Option.some.inj h).symm, .ran _ _ hc⟩
    · rename_i hc
      exact ⟨_, (Option.some.inj h).symm, .ranUncached _ _ (by simpa using hc)⟩
  · exact ⟨_, (Option.some.inj h).symm, .failed _ _ _ _⟩
  · exact ⟨_, (Option.some.inj h).symm, .failed _ _ _ _⟩
  · exact ⟨_, (Option.some.inj h).symm, .captured _ _ _⟩
  · exact ⟨_, (Option.some.inj h).symm, .refused _⟩
  · exact ⟨_, (Option.some.inj h).symm, .captureRefused _ _ _⟩
  · cases h

/-- The transitions of a build, from the owner lock to the cell. -/
inductive BuildMoves (host : Host W M) (s : Server M) (req : Request M) (t : Ticket M) :
    BuildStage → Reply → Move M → Prop
  | locked (b : BuildStage) : s.taken t.owner = false → b = .resolving ∨ b = .starting [] →
      BuildMoves host s req t .locking .done { stage := .building t b }
  | resolves {b : BuildStage} {reply : Reply} (b' : BuildStage) :
      Resolves host s req t b reply b' →
      BuildMoves host s req t b reply { stage := .building t b' }
  | stampingFailed (cp : ResolvedClasspath) (reply : Reply) (error : ErrorData) :
      BuildMoves host s req t (.stamping cp) reply { stage := .building t (.failing error) }
  | stamped (cp : ResolvedClasspath) (artifacts : ProjectFingerprint) :
      BuildMoves host s req t (.stamping cp) (.stamped artifacts)
        { stage := .building t (.reserving cp artifacts) }
  | reserved (cp : ResolvedClasspath) (artifacts : ProjectFingerprint) (reservation : Nat) :
      BuildMoves host s req t (.reserving cp artifacts) .done
        { stage := .building t (.asking cp artifacts reservation),
          ops := [.reserve req.root t.generation artifacts.fileBytes] }
  | reserveStale (cp : ResolvedClasspath) (artifacts : ProjectFingerprint) :
      s.cache.isCurrent req.root t.generation = false →
      BuildMoves host s req t (.reserving cp artifacts) .done
        { stage := .building t (.finished .stale),
          ops := [.reserve req.root t.generation artifacts.fileBytes] }
  | overBudget (cp : ResolvedClasspath) (artifacts : ProjectFingerprint) (needed limit : Nat) :
      BuildMoves host s req t (.reserving cp artifacts) .done
        { stage := .building t (.failing (.overBudget needed limit)),
          ops := [.reserve req.root t.generation artifacts.fileBytes] }
  | asked (cp : ResolvedClasspath) (artifacts : ProjectFingerprint) (reservation : Nat) :
      BuildMoves host s req t (.asking cp artifacts reservation) .done
        { stage := .building t (.indexing cp artifacts reservation
            (!s.cache.requiresFullRebuild req.root)) }
  | indexingFailed (cp : ResolvedClasspath) (artifacts : ProjectFingerprint) (reservation : Nat)
      (reuse : Bool) (reply : Reply) (error : ErrorData) :
      BuildMoves host s req t (.indexing cp artifacts reservation reuse) reply
        { stage := .building t (.failing error) }
  | indexed (cp : ResolvedClasspath) (artifacts : ProjectFingerprint) (reservation : Nat)
      (reuse : Bool) (bytes reused built : Nat) (moved : Bool) :
      BuildMoves host s req t (.indexing cp artifacts reservation reuse)
        (.indexed (.built bytes reused built) moved)
        { stage := .building t (.publishing cp artifacts reservation
            ⟨s.nextArc, bytes, t.snapshot.fingerprint, cp.epoch⟩ reused built
            (!s.describes host t.snapshot.fingerprint || moved)),
          allocates := true }
  | abandoned (cp : ResolvedClasspath) (artifacts : ProjectFingerprint) (reservation : Nat)
      (index : Arc MavenIndex) (reused built : Nat) :
      BuildMoves host s req t (.publishing cp artifacts reservation index reused built true) .done
        { stage := .building t (.finished .stale),
          ops := [.invalidateGeneration req.root t.generation] }
  | publishedStale (cp : ResolvedClasspath) (artifacts : ProjectFingerprint) (reservation : Nat)
      (index : Arc MavenIndex) (reused built : Nat) :
      s.publicationAnswer host req t cp artifacts reservation index reused built = .stale →
      BuildMoves host s req t (.publishing cp artifacts reservation index reused built false) .done
        { stage := .building t (.finished .stale),
          ops := persistedUse host req cp reused built ++
            [publication req t artifacts reservation index] }
  | published (cp : ResolvedClasspath) (artifacts : ProjectFingerprint) (reservation : Nat)
      (index : Arc MavenIndex) (reused built : Nat) (b : BuildStage) :
      s.publicationAnswer host req t cp artifacts reservation index reused built ≠ .stale →
      (host.indexCache = true ∧ b = .persisting cp index ∨ b = .finished (.built index)) →
      BuildMoves host s req t (.publishing cp artifacts reservation index reused built false) .done
        { stage := .building t b,
          ops := persistedUse host req cp reused built ++
            [publication req t artifacts reservation index,
              .finishFullRebuild req.root t.generation],
          publishes := some ⟨req.root, t.generation, t.cell, index.val, s.epoch req.root⟩ }
  | persisted (cp : ResolvedClasspath) (index : Arc MavenIndex) (effective : Bool) :
      BuildMoves host s req t (.persisting cp index) (.took effective)
        { stage := .building t (.rechecking index),
          write :=
            if effective && cp.inputs then
              .store ⟨req.root, cp.context, t.snapshot.fingerprint, cp.epoch⟩
            else .nothing }
  | rechecked (index : Arc MavenIndex) : s.cache.isCurrent req.root t.generation = true →
      BuildMoves host s req t (.rechecking index) .done
        { stage := .building t (.finished (.built index)) }
  | outdated (index : Arc MavenIndex) : s.cache.isCurrent req.root t.generation = false →
      BuildMoves host s req t (.rechecking index) .done
        { stage := .building t (.forgetting index) }
  | forgot (index : Arc MavenIndex) (effective : Bool) :
      BuildMoves host s req t (.forgetting index) (.took effective)
        { stage := .building t (.finished (.built index)),
          write := if effective then .forget req.root else .nothing }
  | failed (error : ErrorData) :
      BuildMoves host s req t (.failing error) .done
        { stage := .building t (.finished (.failed error)),
          ops := [.finishFailed req.root t.generation] }
  | filled (outcome : BuildOutcome) :
      BuildMoves host s req t (.finished outcome) .done
        { req.resolved outcome with fills := some (t.cell, outcome) }

theorem buildMoves_of_build {host : Host W M} {s : Server M} {req : Request M} {t : Ticket M}
    {b : BuildStage} {reply : Reply} {m : Move M}
    (h : s.buildIndex host req t b reply = some m) : BuildMoves host s req t b reply m := by
  unfold buildIndex at h
  split at h
  · split at h
    · cases h
    · rename_i hfree
      have hfree : s.taken t.owner = false := by simpa using hfree
      split at h
      · cases h
        exact .locked _ hfree (.inl rfl)
      · cases h
        exact .locked _ hfree (.inr rfl)
  · cases h
    exact .failed _
  · cases h
    exact .filled _
  · cases h

theorem buildMoves_of_try {host : Host W M} {s : Server M} {req : Request M} {t : Ticket M}
    {b : BuildStage} {reply : Reply} {m : Move M}
    (h : s.tryBuildIndex host req t b reply = some m) : BuildMoves host s req t b reply m := by
  unfold tryBuildIndex at h
  split at h
  · cases h
    exact .stampingFailed _ _ _
  · cases h
    exact .stamped _ _
  · cases h
    exact .stampingFailed _ _ _
  · cases h
    exact .indexingFailed _ _ _ _ _ _
  · rename_i cp artifacts
    cases h
    have hr := ProjectCache.reserve_spec s.held s.cache req.root t.generation artifacts.fileBytes
    cases ha : (s.cache.reserve s.held req.root t.generation artifacts.fileBytes).2 with
    | ok p =>
      exact .reserved cp artifacts p
    | error e =>
      cases e with
      | stale =>
        rw [ha] at hr
        cases hr with
        | stale hc =>
          exact .reserveStale cp artifacts hc
      | overBudget needed limit =>
        exact .overBudget cp artifacts needed limit
  · cases h
    exact .asked _ _ _
  · cases h
    exact .indexingFailed _ _ _ _ _ _
  · cases h
    exact .indexingFailed _ _ _ _ _ _
  · cases h
    exact .indexed _ _ _ _ _ _ _ _
  · split at h
    · rename_i hch
      cases h
      rw [hch]
      exact .abandoned _ _ _ _ _ _
    · rename_i cp artifacts p index reused built changed hch
      have hch : changed = false := by simpa using hch
      subst hch
      cases h
      unfold publishBuild
      split
      · rename_i ha
        exact .publishedStale _ _ _ _ _ _ ha
      · rename_i ha
        refine .published _ _ _ _ _ _ _ ha ?_
        split
        · rename_i hc
          exact .inl ⟨hc, rfl⟩
        · exact .inr rfl
  · cases h

theorem buildMoves_of_persist {host : Host W M} {s : Server M} {req : Request M} {t : Ticket M}
    {b : BuildStage} {reply : Reply} {m : Move M}
    (h : s.persistBuild req t b reply = some m) : BuildMoves host s req t b reply m := by
  unfold persistBuild at h
  split at h
  · cases h
    exact .persisted _ _ _
  · split at h
    · rename_i hc
      cases h
      exact .rechecked _ hc
    · rename_i hc
      cases h
      exact .outdated _ (by simpa using hc)
  · cases h
    exact .forgot _ _
  · cases h

/-! ## 2. The transitions of a request -/

/-- The transitions outside `project_runner` and outside a build. -/
inductive IndexMoves (host : Host W M) (s : Server M) (req : Request M) :
    Stage M → Reply → Move M → Prop
  | invalidates : IndexMoves host s req .invalidating .done
      { stage := if host.indexCache then .forgetting else req.afterInvalidation,
        ops := .invalidateAfterMaven req.root ::
          if req.purpose = .refresh then [.requireFullRebuild req.root] else [],
        invalidates := true }
  | forgot (effective : Bool) : IndexMoves host s req .forgetting (.took effective)
      { stage := req.afterInvalidation,
        write := if effective then .forget req.root else .nothing }
  | cached (snapshot : Snapshot M) (entry : CachedIndex MavenIndex) (generation : Nat) :
      (ProjectCache.lookupIndex s.held s.cache req.root snapshot.fingerprint).2
        = .cached entry generation →
      IndexMoves host s req (.looking snapshot) .done
        { stage := .validating snapshot entry generation,
          ops := [.lookupIndex req.root snapshot.fingerprint] }
  | joined (snapshot : Snapshot M) (cell owner generation : Nat) :
      (ProjectCache.lookupIndex s.held s.cache req.root snapshot.fingerprint).2
        = .build cell owner generation →
      IndexMoves host s req (.looking snapshot) .done
        { stage := .waiting ⟨cell, owner, generation, snapshot⟩,
          ops := [.lookupIndex req.root snapshot.fingerprint] }
  | validated (snapshot : Snapshot M) (entry : CachedIndex MavenIndex) (generation : Nat)
      (current : Bool) :
      IndexMoves host s req (.validating snapshot entry generation) (.judged current)
        { stage := .validated snapshot entry generation current }
  | refused (snapshot : Snapshot M) (entry : CachedIndex MavenIndex) (generation : Nat)
      (error : HeavyWorkError) :
      IndexMoves host s req (.validating snapshot entry generation) (.refused error)
        { stage := req.refused (.heavyWork error) }
  | hit (snapshot : Snapshot M) (entry : CachedIndex MavenIndex) (generation : Nat) :
      IndexMoves host s req (.validated snapshot entry generation true) .done
        { stage := req.answered entry.index, ops := [.recordHit req.root] }
  | outdated (snapshot : Snapshot M) (entry : CachedIndex MavenIndex) (generation : Nat) :
      IndexMoves host s req (.validated snapshot entry generation false) .done
        { req.again with ops := [.invalidateGeneration req.root generation] }
  | resolved (t : Ticket M) (outcome : BuildOutcome) :
      s.filled.lookup t.cell = some outcome →
      IndexMoves host s req (.waiting t) .done (req.resolved outcome)
  | begins (t : Ticket M) : s.filled.lookup t.cell = none → s.isBuilt t.cell = false →
      IndexMoves host s req (.waiting t) .done { stage := .building t .locking }

theorem indexMoves_of_invalidate {host : Host W M} {s : Server M} {req : Request M}
    {stage : Stage M} {reply : Reply} {m : Move M}
    (h : invalidateProject host req stage reply = some m) :
    IndexMoves host s req stage reply m := by
  unfold invalidateProject at h
  split at h
  · cases h
    exact .invalidates
  · cases h
    exact .forgot _
  · cases h

theorem indexMoves_of_index {host : Host W M} {s : Server M} {req : Request M}
    {stage : Stage M} {reply : Reply} {m : Move M} (h : s.indexFor req stage reply = some m) :
    IndexMoves host s req stage reply m := by
  unfold indexFor at h
  split at h
  · rename_i snapshot
    cases h
    cases ha : (ProjectCache.lookupIndex s.held s.cache req.root snapshot.fingerprint).2 with
    | cached entry generation => exact .cached snapshot entry generation ha
    | build cell owner generation => exact .joined snapshot cell owner generation ha
  · cases h
    exact .validated _ _ _ _
  · cases h
    exact .refused _ _ _ _
  · split at h
    · rename_i hc
      cases h
      rw [hc]
      exact .hit _ _ _
    · rename_i entry generation current hc
      have hc : current = false := by simpa using hc
      subst hc
      cases h
      exact .outdated _ _ _
  · split at h
    · rename_i outcome hf
      cases h
      exact .resolved _ outcome hf
    · rename_i hf
      split at h
      · cases h
      · rename_i hb
        cases h
        exact .begins _ hf (by simpa using hb)
  · cases h

/-- **The transitions of a request.** -/
inductive Moves (host : Host W M) (s : Server M) (req : Request M) :
    Stage M → Reply → Move M → Prop
  | runner (stage : RunnerStage M) :
      Moves host s req (.runner stage) .done (s.projectRunner host req stage)
  | index {stage : Stage M} {reply : Reply} {m : Move M} :
      IndexMoves host s req stage reply m → Moves host s req stage reply m
  | build {t : Ticket M} {b : BuildStage} {reply : Reply} {m : Move M} :
      BuildMoves host s req t b reply m → Moves host s req (.building t b) reply m

theorem moves_of_advance {host : Host W M} {s : Server M} {req : Request M} {reply : Reply}
    {m : Move M} (h : s.advance host req reply = some m) :
    Moves host s req req.stage reply m := by
  unfold advance at h
  generalize req.stage = stage at h
  split at h
  · split at h
    · rename_i hr
      cases h
      rw [hr]
      exact .runner _
    · cases h
  · simp only [Option.or_eq_some_iff] at h
    rcases h with ((h | ⟨_, h⟩) | ⟨_, h⟩) | ⟨_, h⟩
    · exact .build (buildMoves_of_build h)
    · obtain ⟨b', rfl, hr⟩ := resolves_of_move h
      exact .build (.resolves b' hr)
    · exact .build (buildMoves_of_try h)
    · exact .build (buildMoves_of_persist h)
  · rcases Option.or_eq_some_iff.mp h with h | ⟨_, h⟩
    · exact .index (indexMoves_of_invalidate h)
    · exact .index (indexMoves_of_index h)

/-! ## 3. The transitions of the machine -/

/-- The request `id` is in flight. -/
def Has (s : Server M) (id : Nat) (req : Request M) : Prop := s.requests.lookup id = some req

theorem Has.lookup {s : Server M} {id : Nat} {req : Request M} (h : s.Has id req) :
    s.requests.lookup id = some req := h

/-- A job without a request is running. -/
def HasJob (s : Server M) (id : Nat) (job : Job M) : Prop := s.jobs.lookup id = some job

/-- **The transitions of the machine.** -/
inductive Stepped (host : Host W M) (s : Server M) : Action → Server M → Prop
  | edit : Stepped host s .edit { s with now := s.now + 1 }
  | evicted (root : PathBuf) (context : List UInt8) :
      Stepped host s (.evictManifest root context)
        { s with manifests :=
          s.manifests.filter fun x => !decide (x.root = root ∧ x.context = context) }
  | tested (runner bytes : Nat) : Stepped host s (.retainTestResult runner bytes)
      { s with testResultBytes := Function.update s.testResultBytes runner bytes }
  | arrived (id : Nat) (root : PathBuf) (purpose : Purpose) : s.requests.lookup id = none →
      Stepped host s (.arrive id root purpose)
        { s with requests := s.requests.insert id (.arriving s root purpose) }
  | advanced (id : Nat) (req : Request M) (reply : Reply) (m : Move M) : s.Has id req →
      Moves host s req req.stage reply m →
      Stepped host s (.advance id reply) (s.take id req m)
  | cancelled (id : Nat) (leavesJob : Bool) (req : Request M) (job : Option (Job M)) :
      s.Has id req → leftover req = some job →
      Stepped host s (.cancel id leavesJob)
        (s.abandon id req (if leavesJob then job else none))
  | woke (id : Nat) (effective : Bool) (job : Job M) (owner : Nat) : s.HasJob id job →
      job.effect = .wake owner false → s.taken owner = false →
      Stepped host s (.endJob id effective)
        { s with jobs := s.jobs.insert id { job with effect := .wake owner true } }
  | ended (id : Nat) (effective : Bool) (job : Job M) (write : Write) : s.HasJob id job →
      write = (if effective then job.effect.write else .nothing) →
      Stepped host s (.endJob id effective)
        { s with jobs := s.jobs.erase id, manifests := write.apply s.manifests }
  | left (id : Nat) (req : Request M) (answer : Except ErrorData (Answer M)) : s.Has id req →
      req.stage = .returned answer →
      Stepped host s (.leave id) { s with requests := s.requests.erase id }

theorem stepped_of_finishJob {host : Host W M} {s s' : Server M} {id : Nat} {job : Job M}
    {effective : Bool} (hj : s.HasJob id job) (h : s.finishJob id job effective = some s') :
    Stepped host s (.endJob id effective) s' := by
  unfold finishJob at h
  split at h
  · rename_i owner he
    split at h
    · cases h
    · rename_i hfree
      cases h
      exact .woke id effective job owner hj he (by simpa using hfree)
  · cases h
    exact .ended id effective job _ hj rfl

/-- **The inversion of a step.** -/
theorem stepped_of_step {host : Host W M} {s s' : Server M} {a : Action}
    (h : step host s a = some s') : Stepped host s a s' := by
  cases a with
  | edit =>
    cases h
    exact .edit
  | evictManifest root context =>
    cases h
    exact .evicted root context
  | retainTestResult runner bytes =>
    cases h
    exact .tested runner bytes
  | arrive id root purpose =>
    simp only [step] at h
    split at h
    · cases h
    · rename_i hn
      cases h
      exact .arrived id root purpose hn
  | advance id reply =>
    simp only [step, Option.bind_eq_some_iff, Option.map_eq_some_iff] at h
    obtain ⟨req, hreq, m, hm, rfl⟩ := h
    exact .advanced id req reply m hreq (moves_of_advance hm)
  | cancel id leavesJob =>
    simp only [step, Option.bind_eq_some_iff, Option.map_eq_some_iff] at h
    obtain ⟨req, hreq, job, hjob, rfl⟩ := h
    exact .cancelled id leavesJob req job hreq hjob
  | endJob id effective =>
    simp only [step, Option.bind_eq_some_iff] at h
    obtain ⟨job, hjob, h⟩ := h
    exact stepped_of_finishJob hjob h
  | leave id =>
    simp only [step, Option.bind_eq_some_iff] at h
    obtain ⟨req, hreq, h⟩ := h
    split at h
    · rename_i answer hs
      cases h
      exact .left id req answer hreq hs
    · cases h

/-- **The induction over runs**, on the transitions. -/
theorem runs_invariant {host : Host W M} {ok : Server M → Action → Prop} {P : Server M → Prop}
    (h₀ : P (start host))
    (hstep : ∀ s a s', P s → ok s a → Stepped host s a s' → P s') {s : Server M}
    (hrun : Runs host ok s) : P s :=
  hrun.invariant h₀ fun u v a hu hok hs => hstep u a v hu hok (stepped_of_step hs)

/-- Time does not go back. -/
theorem Stepped.now_le {host : Host W M} {s s' : Server M} {a : Action}
    (h : Stepped host s a s') : s.now ≤ s'.now := by
  cases h with
  | edit => exact Nat.le_succ _
  | _ => exact Nat.le_refl _

/-! ## 4. Requests after a transition -/

theorem has_take {s : Server M} {id id' : Nat} {req req' : Request M} {m : Move M} :
    (s.take id req m).Has id' req' ↔
      (id' = id ∧ req' = s.moved req m) ∨ (id' ≠ id ∧ s.Has id' req') :=
  AList.lookup_insert_eq_some

/-! ## 5. The ends of a round

A request that ends a round of `index_for`, or is in `project_runner`, changes nothing outside
itself but for its locked section. -/

/-- Where the end of a round leads. -/
theorem stage_resolved (req : Request M) (outcome : BuildOutcome) :
    (∃ index, outcome = .built index ∧ (req.resolved outcome).stage = req.answered index) ∨
    (req.resolved outcome).stage = .runner .snapshot ∨
    ∃ error, (req.resolved outcome).stage = req.refused error := by
  cases outcome with
  | built index => exact .inl ⟨index, rfl, rfl⟩
  | failed error => exact .inr (.inr ⟨error, rfl⟩)
  | stale =>
    simp only [Request.resolved, Request.again]
    split
    · exact .inr (.inl rfl)
    · exact .inr (.inr ⟨_, rfl⟩)

theorem stage_again (req : Request M) :
    req.again.stage = .runner .snapshot ∨ ∃ error, req.again.stage = req.refused error := by
  unfold Request.again
  split
  · exact .inl rfl
  · exact .inr ⟨_, rfl⟩

@[simp] theorem ops_resolved (req : Request M) (o : BuildOutcome) : (req.resolved o).ops = [] := by
  cases o with
  | stale =>
    simp only [Request.resolved, Request.again]
    split <;> rfl
  | _ => rfl

@[simp] theorem invalidates_resolved (req : Request M) (o : BuildOutcome) :
    (req.resolved o).invalidates = false := by
  cases o with
  | stale =>
    simp only [Request.resolved, Request.again]
    split <;> rfl
  | _ => rfl

@[simp] theorem write_resolved (req : Request M) (o : BuildOutcome) :
    (req.resolved o).write = .nothing := by
  cases o with
  | stale =>
    simp only [Request.resolved, Request.again]
    split <;> rfl
  | _ => rfl

@[simp] theorem fills_resolved (req : Request M) (o : BuildOutcome) :
    (req.resolved o).fills = none := by
  cases o with
  | stale =>
    simp only [Request.resolved, Request.again]
    split <;> rfl
  | _ => rfl

@[simp] theorem publishes_resolved (req : Request M) (o : BuildOutcome) :
    (req.resolved o).publishes = none := by
  cases o with
  | stale =>
    simp only [Request.resolved, Request.again]
    split <;> rfl
  | _ => rfl

/-- The fields of the move that begins another round. -/
theorem again_frame (req : Request M) :
    req.again.invalidates = false ∧ req.again.write = .nothing ∧ req.again.fills = none ∧
      req.again.publishes = none := by
  unfold Request.again
  split <;> exact ⟨rfl, rfl, rfl, rfl⟩

/-- `project_runner` changes nothing outside the cache. -/
theorem projectRunner_frame (host : Host W M) (s : Server M) (req : Request M)
    (stage : RunnerStage M) :
    (s.projectRunner host req stage).invalidates = false ∧
    (s.projectRunner host req stage).write = .nothing ∧
    (s.projectRunner host req stage).fills = none ∧
    (s.projectRunner host req stage).publishes = none := by
  cases stage with
  | checking cached =>
    cases cached with
    | none => exact ⟨rfl, rfl, rfl, rfl⟩
    | some snapshot =>
      simp only [projectRunner]
      split
      · exact ⟨rfl, rfl, rfl, rfl⟩
      · split <;> exact ⟨rfl, rfl, rfl, rfl⟩
  | discovering cached =>
    simp only [projectRunner]
    split <;> exact ⟨rfl, rfl, rfl, rfl⟩
  | _ => exact ⟨rfl, rfl, rfl, rfl⟩

/-- What follows a runner: another stage of `project_runner`, a lookup, or the end. -/
theorem stage_projectRunner (host : Host W M) (s : Server M) (req : Request M)
    (stage : RunnerStage M) :
    (∃ next, (s.projectRunner host req stage).stage = .runner next) ∨
    (∃ snapshot, (s.projectRunner host req stage).stage = req.withRunner snapshot) ∨
    ∃ error, (s.projectRunner host req stage).stage = req.refused error := by
  cases stage with
  | checking cached =>
    cases cached with
    | none => exact .inl ⟨_, rfl⟩
    | some snapshot =>
      simp only [projectRunner]
      split
      · exact .inl ⟨_, rfl⟩
      · split
        · exact .inr (.inl ⟨_, rfl⟩)
        · exact .inl ⟨_, rfl⟩
  | discovering cached =>
    simp only [projectRunner]
    split
    · exact .inl ⟨_, rfl⟩
    · exact .inl ⟨_, rfl⟩
  | discarding cached error => exact .inr (.inr ⟨_, rfl⟩)
  | installing cached runner fp => exact .inr (.inl ⟨_, rfl⟩)
  | snapshot => exact .inl ⟨_, rfl⟩
  | capturing cached runner => exact .inl ⟨_, rfl⟩

end Server

end MavenMcp
