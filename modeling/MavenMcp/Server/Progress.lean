/-
# Requests come to an end

Requests wait for each other: for the outcome of a build that another one runs, for the owner lock
that an abandoned job still holds, and a changed project sends them back to the start.  Nothing of
this can go on for ever.

* Every step of a request takes it closer to its answer (`Request.rank`, `rank_of_moves`): a round
  of `index_for` only goes forward, and there are at most `MAX_INDEX_BUILD_ATTEMPTS` rounds.
* Whoever waits, waits for somebody who can go on (`exists_step_of_taken`, `exists_step_of_builds`):
  a request that waits for a cell waits for its builder, a builder waits for the lock alone, and who
  has a lock waits for nobody.

Together: left to themselves, all requests return (`requests_return`).
-/
import MavenMcp.Server.Locks

namespace MavenMcp

variable {W M : Type}

/-! ## 1. How far a request is from its answer -/

def RunnerStage.rank : RunnerStage M → Nat
  | .snapshot => 21
  | .checking _ => 20
  | .discovering _ => 19
  | .capturing _ _ => 18
  | .installing _ _ _ => 17
  | .discarding _ _ => 1

def BuildStage.rank : BuildStage → Nat
  | .locking => 14
  | .resolving => 13
  | .starting _ => 12
  | .running _ _ => 11
  | .capturing _ _ => 10
  | .stamping _ => 9
  | .reserving _ _ => 8
  | .asking _ _ _ => 7
  | .indexing _ _ _ _ => 6
  | .publishing _ _ _ _ _ _ _ => 5
  | .persisting _ _ => 4
  | .rechecking _ => 3
  | .forgetting _ => 2
  | .failing _ => 2
  | .finished _ => 1

def Stage.rank : Stage M → Nat
  | .invalidating => 23
  | .forgetting => 22
  | .runner stage => stage.rank
  | .looking _ => 16
  | .waiting _ => 15
  | .building _ stage => stage.rank
  | .validating _ _ _ => 2
  | .validated _ _ _ _ => 1
  | .returned _ => 0

/-- The steps that a request may still take: those of its round, and the rounds behind it. -/
def Request.rank (req : Request M) : Nat :=
  (maxIndexBuildAttempts - req.attempts) * 24 + req.stage.rank

namespace Server

theorem rank_refused (req : Request M) (error : ErrorData) : (req.refused error).rank = 0 := rfl

theorem rank_answered (req : Request M) (index : Arc MavenIndex) : (req.answered index).rank = 0 :=
  rfl

theorem rank_afterInvalidation (req : Request M) : req.afterInvalidation.rank ≤ 21 := by
  unfold Request.afterInvalidation
  split
  · exact le_rfl
  · exact Nat.zero_le _

theorem rank_withRunner (req : Request M) (snapshot : Snapshot M) :
    (req.withRunner snapshot).rank ≤ 16 := by
  unfold Request.withRunner
  split
  · exact Nat.zero_le _
  · exact le_rfl

/-- A move within a round. -/
theorem rank_moved {s : Server M} {req : Request M} {m : Move M} (hretries : m.retries = false)
    (h : m.stage.rank < req.stage.rank) : (s.moved req m).rank < req.rank := by
  simp only [Request.rank, moved, hretries, Bool.false_eq_true, if_false]
  omega

/-- Another round begins only where one is left. -/
theorem rank_again {s : Server M} {req : Request M} {m : Move M}
    (hstage : m.stage = req.again.stage) (hretries : m.retries = req.again.retries)
    (h : 0 < req.stage.rank) :
    (s.moved req m).rank < req.rank := by
  unfold Request.again at hstage hretries
  split at hstage
  · rename_i hleft
    rw [if_pos hleft] at hretries
    have hrank : (Stage.runner RunnerStage.snapshot : Stage M).rank = 21 := rfl
    simp only [Request.rank, moved, hstage, hretries, if_true, hrank]
    omega
  · rename_i hleft
    rw [if_neg hleft] at hretries
    refine rank_moved hretries ?_
    rw [hstage, rank_refused]
    exact h

theorem rank_resolved {s : Server M} {req : Request M} {m : Move M} (outcome : BuildOutcome)
    (hstage : m.stage = (req.resolved outcome).stage)
    (hretries : m.retries = (req.resolved outcome).retries) (h : 0 < req.stage.rank) :
    (s.moved req m).rank < req.rank := by
  cases outcome with
  | built index => exact rank_moved hretries (by rw [hstage]; exact h)
  | failed error => exact rank_moved hretries (by rw [hstage]; exact h)
  | stale => exact rank_again hstage hretries h

theorem rank_projectRunner (host : Host W M) (s : Server M) (req : Request M)
    (stage : RunnerStage M) :
    (s.projectRunner host req stage).retries = false ∧
      (s.projectRunner host req stage).stage.rank < stage.rank := by
  have hrunner (snapshot : Snapshot M) : (req.withRunner snapshot).rank < 17 :=
    Nat.lt_succ_of_le (rank_withRunner req snapshot)
  cases stage with
  | checking cached =>
    cases cached with
    | none => exact ⟨rfl, Nat.le_of_ble_eq_true rfl⟩
    | some snapshot =>
      simp only [projectRunner]
      split
      · exact ⟨rfl, Nat.le_of_ble_eq_true rfl⟩
      · split
        · exact ⟨rfl, (hrunner snapshot).trans (Nat.le_of_ble_eq_true rfl)⟩
        · exact ⟨rfl, Nat.le_of_ble_eq_true rfl⟩
  | discovering cached =>
    simp only [projectRunner]
    split
    · exact ⟨rfl, Nat.le_of_ble_eq_true rfl⟩
    · exact ⟨rfl, Nat.le_of_ble_eq_true rfl⟩
  | installing cached runner fingerprint => exact ⟨rfl, hrunner _⟩
  | _ => exact ⟨rfl, Nat.le_of_ble_eq_true rfl⟩

theorem rank_of_indexMoves {host : Host W M} {s : Server M} {req : Request M} {reply : Reply}
    {m : Move M} (h : IndexMoves host s req req.stage reply m) :
    (s.moved req m).rank < req.rank := by
  generalize hstage : req.stage = stage at h
  cases h with
  | invalidates =>
    refine rank_moved rfl ?_
    rw [hstage]
    have hafter := rank_afterInvalidation req
    split
    · exact Nat.le_of_ble_eq_true rfl
    · exact Nat.lt_succ_of_le (hafter.trans (Nat.le_of_ble_eq_true rfl))
  | forgot effective =>
    refine rank_moved rfl ?_
    rw [hstage]
    exact Nat.lt_succ_of_le (rank_afterInvalidation req)
  | cached => exact rank_moved rfl (by rw [hstage]; exact Nat.le_of_ble_eq_true rfl)
  | joined => exact rank_moved rfl (by rw [hstage]; exact Nat.le_of_ble_eq_true rfl)
  | validated => exact rank_moved rfl (by rw [hstage]; exact Nat.le_of_ble_eq_true rfl)
  | refused => exact rank_moved rfl (by rw [hstage]; exact Nat.le_of_ble_eq_true rfl)
  | hit => exact rank_moved rfl (by rw [hstage]; exact Nat.le_of_ble_eq_true rfl)
  | outdated => exact rank_again rfl rfl (by rw [hstage]; exact Nat.le_of_ble_eq_true rfl)
  | resolved t outcome =>
    exact rank_resolved outcome rfl rfl (by rw [hstage]; exact Nat.le_of_ble_eq_true rfl)
  | begins => exact rank_moved rfl (by rw [hstage]; exact Nat.le_of_ble_eq_true rfl)

theorem rank_of_resolves {host : Host W M} {s : Server M} {req : Request M} {t : Ticket M}
    {b b' : BuildStage} {reply : Reply} (h : Resolves host s req t b reply b') :
    b'.rank < b.rank := by
  cases h <;> exact Nat.le_of_ble_eq_true rfl

theorem rank_of_buildMoves {host : Host W M} {s : Server M} {req : Request M} {t : Ticket M}
    {b : BuildStage} {reply : Reply} {m : Move M} (hstage : req.stage = .building t b)
    (h : BuildMoves host s req t b reply m) : (s.moved req m).rank < req.rank := by
  have hrank : req.stage.rank = b.rank := by rw [hstage]; rfl
  cases h with
  | locked b' _ hb' =>
    refine rank_moved rfl ?_
    rw [hrank]
    rcases hb' with rfl | rfl
    · exact Nat.le_of_ble_eq_true rfl
    · exact Nat.le_of_ble_eq_true rfl
  | resolves b' hr =>
    refine rank_moved rfl ?_
    rw [hrank]
    exact rank_of_resolves hr
  | published cp artifacts reservation index reused built b' _ hb' =>
    refine rank_moved rfl ?_
    rw [hrank]
    rcases hb' with ⟨_, rfl⟩ | rfl
    · exact Nat.le_of_ble_eq_true rfl
    · exact Nat.le_of_ble_eq_true rfl
  | filled outcome =>
    exact rank_resolved outcome rfl rfl (by rw [hrank]; exact Nat.le_of_ble_eq_true rfl)
  | _ => exact rank_moved rfl (by rw [hrank]; exact Nat.le_of_ble_eq_true rfl)

/-- **Every step of a request takes it closer to its answer.** -/
theorem rank_of_moves {host : Host W M} {s : Server M} {req : Request M} {reply : Reply}
    {m : Move M} (h : Moves host s req req.stage reply m) : (s.moved req m).rank < req.rank := by
  generalize hstage : req.stage = stage at h
  cases h with
  | runner stage =>
    obtain ⟨hretries, hrank⟩ := rank_projectRunner host s req stage
    exact rank_moved hretries (by rw [hstage]; exact hrank)
  | index h =>
    rw [← hstage] at h
    exact rank_of_indexMoves h
  | build h => exact rank_of_buildMoves hstage h

/-! ## 2. Whoever waits, waits for somebody -/

end Server

/-- Nothing arrives, is cancelled or is changed from outside. -/
def Action.internal : Action → Bool
  | .advance _ _ | .endJob _ _ => true
  | _ => false

namespace Server

variable (host : Host W M) {s : Server M}

/-- Some request or job can take a step. -/
def CanStep (s : Server M) : Prop :=
  ∃ a : Action, a.internal = true ∧ (step host s a).isSome = true

variable {host}

theorem canStep_of_advance {id : Nat} {req : Request M} (hreq : s.Has id req) {reply : Reply}
    (h : (s.advance host req reply).isSome = true) : CanStep host s := by
  obtain ⟨m, hm⟩ := Option.isSome_iff_exists.mp h
  refine ⟨.advance id reply, rfl, ?_⟩
  simp only [step, hreq.lookup, Option.bind_some, hm, Option.map_some, Option.isSome_some]

/-- A build that has its lock waits for its environment alone. -/
theorem isSome_advance_of_owns {req : Request M} {t : Ticket M} {b : BuildStage}
    (hstage : req.stage = .building t b) (h : b ≠ .locking) :
    ∃ reply, (s.advance host req reply).isSome = true := by
  cases b with
  | locking => exact absurd rfl h
  | resolving =>
    refine ⟨.judged false, ?_⟩
    simp only [advance, hstage, buildIndex, resolveClasspath, Option.none_or]
    cases s.reusable host req t <;> rfl
  | starting context => exact ⟨.done, by rw [advance, hstage]; rfl⟩
  | running context epoch => exact ⟨.maven .incomplete, by rw [advance, hstage]; rfl⟩
  | capturing context epoch => exact ⟨.judged true, by rw [advance, hstage]; rfl⟩
  | stamping cp => exact ⟨.judged false, by rw [advance, hstage]; rfl⟩
  | reserving cp artifacts => exact ⟨.done, by rw [advance, hstage]; rfl⟩
  | asking cp artifacts reservation => exact ⟨.done, by rw [advance, hstage]; rfl⟩
  | indexing cp artifacts reservation reuse =>
    exact ⟨.indexed (.failed "") false, by rw [advance, hstage]; rfl⟩
  | publishing cp artifacts reservation index reused built changed =>
    refine ⟨.done, ?_⟩
    simp only [advance, hstage, buildIndex, resolveClasspath, tryBuildIndex, Option.none_or]
    cases changed <;> rfl
  | persisting cp index => exact ⟨.took true, by rw [advance, hstage]; rfl⟩
  | rechecking index =>
    refine ⟨.done, ?_⟩
    simp only [advance, hstage, buildIndex, resolveClasspath, tryBuildIndex, persistBuild,
      Option.none_or]
    split <;> rfl
  | forgetting index => exact ⟨.took true, by rw [advance, hstage]; rfl⟩
  | failing error => exact ⟨.done, by rw [advance, hstage]; rfl⟩
  | finished outcome => exact ⟨.done, by rw [advance, hstage]; rfl⟩

theorem exclusive_of_runs {ok : Server M → Action → Prop} (hrun : Runs host ok s) : Exclusive s :=
  (runs_invariant (P := fun s => Coherent s ∧ Exclusive s)
    ⟨coherent_start host, exclusive_start host⟩
    (fun _ _ _ h _ hs => ⟨h.1.step hs, h.2.step h.1 hs⟩) hrun).2

/-- A job comes to its end, unless it is the task of a dropped guard and its lock is taken. -/
theorem canStep_of_job {id : Nat} {job : Job M} (hjob : s.HasJob id job)
    (h : ∀ owner, job.effect = .wake owner false → s.taken owner = false) : CanStep host s := by
  refine ⟨.endJob id true, rfl, ?_⟩
  have hlook : s.jobs.lookup id = some job := hjob
  simp only [step, hlook, Option.bind_some, finishJob]
  split
  · rename_i owner heffect
    rw [if_neg (by rw [h owner heffect]; decide)]
    rfl
  · rfl

/-- Who has a lock waits for nobody. -/
theorem canStep_of_taken (hx : Exclusive s) {owner : Nat} (h : s.taken owner = true) :
    CanStep host s := by
  rw [taken, Bool.or_eq_true] at h
  rcases h with h | h
  · obtain ⟨req, hreq, howns⟩ := List.any_eq_true.mp h
    obtain ⟨id, hid⟩ := AList.mem_values.mp hreq
    rw [decide_eq_true_eq] at howns
    unfold Request.owns at howns
    split at howns
    · rename_i t b hstage
      have hne : b ≠ .locking := by
        rintro rfl
        cases howns
      have hgoes : ∃ reply, (s.advance host req reply).isSome = true :=
        isSome_advance_of_owns hstage hne
      obtain ⟨reply, hreply⟩ := hgoes
      exact canStep_of_advance hid hreply
    · cases howns
  · obtain ⟨job, hjob, howns⟩ := List.any_eq_true.mp h
    obtain ⟨id, hid⟩ := AList.mem_values.mp hjob
    rw [decide_eq_true_eq] at howns
    refine canStep_of_job hid fun owner' heffect => ?_
    -- the task of a dropped guard that still waits has no lock itself
    rw [Job.owns, heffect] at howns
    obtain ⟨t, hbuild, -⟩ := Option.map_eq_some_iff.mp howns
    rw [hx.working id job t hid hbuild] at heffect
    cases heffect

/-- A builder waits for the lock alone. -/
theorem canStep_of_builds (hx : Exclusive s) {id : Nat} {t : Ticket M} {b : BuildStage}
    (h : s.Builds id t b) : CanStep host s := by
  obtain ⟨req, hreq, hstage⟩ := h
  by_cases hlock : b = .locking
  · subst hlock
    by_cases htaken : s.taken t.owner = true
    · exact canStep_of_taken hx htaken
    · have hdone : (s.advance host req .done).isSome = true := by
        simp only [advance, hstage, buildIndex, if_neg htaken]
        split <;> rfl
      exact canStep_of_advance hreq hdone
  · have hgoes : ∃ reply, (s.advance host req reply).isSome = true :=
      isSome_advance_of_owns hstage hlock
    obtain ⟨reply, hreply⟩ := hgoes
    exact canStep_of_advance hreq hreply

/-- A request that has not returned goes on, or its builder does. -/
theorem canStep_of_request (hx : Exclusive s) {id : Nat} {req : Request M} (hreq : s.Has id req)
    (hlive : ∀ answer, req.stage ≠ .returned answer) : CanStep host s := by
  have hgoes (reply : Reply) (h : (s.advance host req reply).isSome = true) : CanStep host s :=
    canStep_of_advance hreq h
  cases hstage : req.stage with
  | invalidating => exact hgoes .done (by rw [advance, hstage]; rfl)
  | forgetting => exact hgoes (.took true) (by rw [advance, hstage]; rfl)
  | runner stage => exact hgoes .done (by rw [advance, hstage]; rfl)
  | looking snapshot => exact hgoes .done (by rw [advance, hstage]; rfl)
  | validating snapshot entry generation =>
    exact hgoes (.judged true) (by rw [advance, hstage]; rfl)
  | validated snapshot entry generation current =>
    refine hgoes .done ?_
    simp only [advance, hstage, invalidateProject, indexFor, Option.none_or]
    split <;> rfl
  | building t b => exact canStep_of_builds hx ⟨req, hreq, hstage⟩
  | returned answer => exact absurd hstage (hlive answer)
  | waiting t =>
    cases hfilled : s.filled.lookup t.cell with
    | some outcome =>
      refine hgoes .done ?_
      simp only [advance, hstage, invalidateProject, indexFor, Option.none_or, hfilled,
        Option.isSome_some]
    | none =>
      by_cases hbuilt : s.isBuilt t.cell = true
      · obtain ⟨builder, hmem, hbuilds⟩ := List.any_eq_true.mp hbuilt
        obtain ⟨id', hid'⟩ := AList.mem_values.mp hmem
        cases hstage' : builder.stage with
        | building t' b => exact canStep_of_builds hx ⟨builder, hid', hstage'⟩
        | _ => simp [hstage', Stage.builds] at hbuilds
      · refine hgoes .done ?_
        simp only [advance, hstage, invalidateProject, indexFor, Option.none_or, hfilled,
          if_neg hbuilt, Option.isSome_some]

/-! ## 3. Nothing goes on for ever -/

end Server

/-- What is left of a job: its end, and for the task of a dropped guard its lock. -/
def Job.rank (job : Job M) : Nat :=
  match job.effect with
  | .wake _ false => 2
  | _ => 1

namespace Server

/-- All that is left to do. -/
def work (s : Server M) : Nat := s.requests.sumBy Request.rank + s.jobs.sumBy Job.rank

theorem job_rank_pos (job : Job M) : 0 < job.rank := by
  unfold Job.rank
  split
  · decide
  · decide

theorem work_of_stepped {host : Host W M} {s s' : Server M} {a : Action}
    (ha : a.internal = true) (h : Stepped host s a s') : s'.work < s.work := by
  cases h with
  | advanced id req reply m hreq hm =>
    have hrank := rank_of_moves hm
    have hsum := AList.sumBy_insert_of_lookup (w := s.moved req m) Request.rank hreq.lookup
    simp only [work, take]
    omega
  | woke id effective job owner hjob heffect hfree =>
    have hsum := AList.sumBy_insert_of_lookup (w := { job with effect := .wake owner true })
      Job.rank (show s.jobs.lookup id = some job from hjob)
    have hold : job.rank = 2 := by simp only [Job.rank, heffect]
    have hnew : Job.rank { job with effect := .wake owner true } = 1 := rfl
    simp only [work]
    omega
  | ended id effective job write hjob hw =>
    have hsum := AList.sumBy_erase_of_lookup Job.rank (show s.jobs.lookup id = some job from hjob)
    have hpos := job_rank_pos job
    simp only [work]
    omega
  | _ => cases ha

theorem length_add_work_le {host : Host W M} : ∀ (as : List Action) {s s' : Server M},
    (∀ a ∈ as, a.internal = true) → Steps.run (step host) s as = some s' →
      as.length + s'.work ≤ s.work
  | [], s, s', _, h => by
    cases h
    exact (Nat.zero_add _).le
  | a :: as, s, s', hinternal, h => by
    obtain ⟨t, hstep, hrest⟩ := Option.bind_eq_some_iff.mp h
    have hfirst := work_of_stepped (hinternal a List.mem_cons_self) (stepped_of_step hstep)
    have hle := length_add_work_le as (fun b hb => hinternal b (List.mem_cons_of_mem a hb)) hrest
    rw [List.length_cons]
    omega

/-! ## 4. One request among others -/

end Server

/-- The action is a step of the request. -/
def Action.advances (id : Nat) : Action → Bool
  | .advance id' _ => decide (id' = id)
  | _ => false

/-- The action ends the request, without an answer or with it. -/
def Action.ends (id : Nat) : Action → Bool
  | .cancel id' _ | .leave id' => decide (id' = id)
  | _ => false

namespace Server

/-- A request stays, and only its own steps change it. -/
theorem has_of_stepped {host : Host W M} {s s' : Server M} {a : Action} {id : Nat}
    {req : Request M} (hreq : s.Has id req) (ha : a.ends id = false) (h : Stepped host s a s') :
    ∃ req', s'.Has id req' ∧ (if a.advances id then 1 else 0) + req'.rank ≤ req.rank := by
  have hkept {t : Server M} (ht : t.Has id req) (hother : a.advances id = false) :
      ∃ req', t.Has id req' ∧ (if a.advances id then 1 else 0) + req'.rank ≤ req.rank :=
    ⟨req, ht, by rw [hother]; exact (Nat.zero_add _).le⟩
  cases h with
  | advanced id' req' reply m hreq' hm =>
    by_cases hid : id' = id
    · subst hid
      obtain rfl : req' = req := Option.some.inj (hreq'.symm.trans hreq)
      have hrank := rank_of_moves hm
      refine ⟨s.moved req' m, has_take.mpr (.inl ⟨rfl, rfl⟩), ?_⟩
      simp only [Action.advances, decide_true, if_true]
      omega
    · exact hkept (has_take.mpr (.inr ⟨fun h => hid h.symm, hreq⟩)) (decide_eq_false hid)
  | arrived id' root purpose hnone =>
    refine hkept (AList.lookup_insert_eq_some.mpr (.inr ⟨?_, hreq⟩)) rfl
    rintro rfl
    rw [hreq.lookup] at hnone
    cases hnone
  | cancelled id' leavesJob req' job hreq' hjob =>
    have hid : id' ≠ id := of_decide_eq_false ha
    exact hkept (AList.lookup_erase_eq_some.mpr ⟨fun h => hid h.symm, hreq⟩) rfl
  | left id' req' answer hreq' hstage =>
    have hid : id' ≠ id := of_decide_eq_false ha
    exact hkept (AList.lookup_erase_eq_some.mpr ⟨fun h => hid h.symm, hreq⟩) rfl
  | edit => exact hkept hreq rfl
  | evicted => exact hkept hreq rfl
  | tested => exact hkept hreq rfl
  | woke => exact hkept hreq rfl
  | ended => exact hkept hreq rfl

theorem advances_le {host : Host W M} : ∀ (as : List Action) {s s' : Server M} {id : Nat}
    {req : Request M}, s.Has id req → (∀ a ∈ as, a.ends id = false) →
      Steps.run (step host) s as = some s' → as.countP (Action.advances id) ≤ req.rank
  | [], _, _, _, _, _, _, _ => Nat.zero_le _
  | a :: as, s, s', id, req, hreq, hends, h => by
    obtain ⟨t, hstep, hrest⟩ := Option.bind_eq_some_iff.mp h
    obtain ⟨req', hreq', hrank⟩ :=
      has_of_stepped hreq (hends a List.mem_cons_self) (stepped_of_step hstep)
    have hle := advances_le as hreq' (fun b hb => hends b (List.mem_cons_of_mem a hb)) hrest
    rw [List.countP_cons]
    omega

theorem rank_arriving (s : Server M) (root : PathBuf) (purpose : Purpose) :
    (Request.arriving s root purpose).rank ≤ 95 := by
  cases purpose <;> exact Nat.le_of_ble_eq_true rfl

/-! ## 5. Requests return -/

/-- How what is in flight in a state comes to its end. -/
structure Returns (host : Host W M) (s : Server M) : Prop where
  /-- Left to itself the server takes a bounded number of steps. -/
  bounded : ∀ (as : List Action) s', (∀ a ∈ as, a.internal = true) →
    Steps.run (step host) s as = some s' → as.length ≤ s.work
  /-- It stops only where every request has returned and no job is left. -/
  stops : ¬ CanStep host s → (∀ id req, s.Has id req → ∃ answer, req.stage = .returned answer) ∧
    ∀ id job, ¬ s.HasJob id job
  /-- Whatever else happens, a request takes at most 95 steps from its arrival to its answer. -/
  each : ∀ id root purpose (as : List Action) s', (∀ a ∈ as, a.ends id = false) →
    Steps.run (step host) s (.arrive id root purpose :: as) = some s' →
      as.countP (Action.advances id) ≤ 95

/-- **Requests return**: from every state of every run, with whatever was cancelled or changed on
the way. -/
theorem requests_return {host : Host W M} {ok : Server M → Action → Prop} {s : Server M}
    (hrun : Runs host ok s) : Returns host s where
  bounded := fun as s' hinternal h => by
    have := length_add_work_le as hinternal h
    omega
  stops := by
    have hx := exclusive_of_runs hrun
    intro hstuck
    refine ⟨fun id req hreq => ?_, fun id job hjob => hstuck ?_⟩
    · by_contra hlive
      exact hstuck (canStep_of_request hx hreq (not_exists.mp hlive))
    · by_cases htaken : ∃ owner, job.effect = .wake owner false ∧ s.taken owner = true
      · obtain ⟨owner, -, htaken⟩ := htaken
        exact canStep_of_taken hx htaken
      · refine canStep_of_job hjob fun owner heffect => ?_
        rw [← Bool.not_eq_true]
        exact fun htrue => htaken ⟨owner, heffect, htrue⟩
  each := by
    intro id root purpose as s' hends h
    obtain ⟨t, hstep, hrest⟩ := Option.bind_eq_some_iff.mp h
    have hreq : t.Has id (.arriving s root purpose) := by
      cases stepped_of_step hstep with
      | arrived => exact AList.lookup_insert_eq_some.mpr (.inl ⟨rfl, rfl⟩)
    exact (advances_le as hreq hends hrest).trans (rank_arriving s root purpose)

/-- A build is cancelled while its first job runs, and another request waits for its outcome. -/
theorem requests_return_cancelled :
    let host := versionedHost ⟨4, 16, 100000000⟩
    ∃ s : Server Nat, Runs host (fun _ _ => True) s ∧ s.work = 90 ∧ Returns host s := by
  intro host
  have hplayed : (Steps.runWhile (step host) (fun _ _ => true) (start host)
      (List.flatten [[.arrive 0 [97] .index], List.replicate 8 (.advance 0 .done),
        [.arrive 1 [97] .index], List.replicate 3 (.advance 1 .done), [.cancel 0 true]])).map
      (fun s => (s.work, s.jobs.values.length)) = some (90, 2) := by decide +kernel
  obtain ⟨s, hs, hstate⟩ := Option.map_eq_some_iff.mp hplayed
  have hrun := (Steps.reaches_of_runWhile _ hs).mono fun _ _ _ => trivial
  exact ⟨s, hrun, (Prod.mk.inj hstate).1, requests_return hrun⟩

end Server

end MavenMcp
