/-
# The pool of heavy jobs

`HeavyWork::run` of `src/blocking.rs`: a request takes an admission slot or is turned away, waits
for a running slot, and hands both to a blocking thread that runs its closure.  The closure
outlives a request that is dropped, and then the slots stay with it.

* `HeavyWork.step` is one step of the pool: a submission, the shutdown, or a move of one job.
  The request, its token and the blocking thread move on their own, so that every interleaving is
  a list of actions.  In particular the thread looks at the token (`check`) before it calls the
  closure (`start`), and the token may be cancelled in between.
* `Moves` says once what a move can do; the invariants are read off it.
* `orderly_of_reached`: what holds of every state of every run.
-/
import MavenMcp.Lib.Loop
import MavenMcp.Lib.Slots
import MavenMcp.Server.State

namespace MavenMcp
namespace Blocking

/-! ## 1. The pool -/

structure HeavyWorkLimits where
  /-- Jobs allowed to execute at the same time. -/
  running : Nat
  /-- Further jobs allowed to wait for a running slot. -/
  queued : Nat
deriving DecidableEq, Repr

def usizeMax : Nat := 2 ^ 64 - 1

/-- `Semaphore::MAX_PERMITS`: a semaphore is not made with more. -/
def maxPermits : Nat := usizeMax / 8

/-- `limits.running.saturating_add(limits.queued)`. -/
def HeavyWorkLimits.capacity (limits : HeavyWorkLimits) : Nat :=
  min (limits.running + limits.queued) usizeMax

/-- How the blocking function of a job ended. -/
inductive Outcome (T : Type)
  | value (v : T)
  /-- It found the job cancelled and did not call the closure. -/
  | skipped
  | panicked
deriving DecidableEq, Repr

/-- The future that `run` returned. -/
inductive Request (T : Type)
  | awaiting
  | dropped
  | answered (result : Except HeavyWorkError T)

/-- Where the closure of a job is. -/
inductive Work (T : Type)
  /-- Turned away. -/
  | refused
  /-- With an admission slot, before a running slot is free. -/
  | waiting
  /-- The request was cancelled while it waited: the closure is dropped. -/
  | abandoned
  /-- On a blocking thread, with both slots. -/
  | spawned
  /-- The thread found the job not cancelled. -/
  | cleared
  | executing
  | returned (outcome : Outcome T)
  /-- The slots are dropped one after the other, the admission slot first. -/
  | releasing (outcome : Outcome T)
  | over (outcome : Outcome T)
deriving DecidableEq, Repr

structure Job (T : Type) where
  request : Request T
  /-- The job's own token is cancelled. -/
  cancelled : Bool
  work : Work T

structure Permits where
  running : Nat
  admitted : Nat
deriving DecidableEq, Repr

structure HeavyWork (T : Type) where
  limits : HeavyWorkLimits
  /-- The free permits of the two semaphores. -/
  permits : Permits
  shutdown : Bool
  jobs : List (Job T)

variable {T : Type}

/-- `HeavyWork::new`, which panics when a semaphore cannot be made. -/
def HeavyWork.new (limits : HeavyWorkLimits) : Option (HeavyWork T) :=
  if limits.running ≤ maxPermits ∧ limits.capacity ≤ maxPermits then
    some ⟨limits, ⟨limits.running, limits.capacity⟩, false, []⟩
  else none

/-- `token.is_cancelled()`, for the token of a job: a child of the pool's. -/
def HeavyWork.isCancelled (s : HeavyWork T) (job : Job T) : Bool := s.shutdown || job.cancelled

/-- `active_jobs`. -/
def HeavyWork.activeJobs (s : HeavyWork T) : Nat := s.limits.capacity - s.permits.admitted

/-! ## 2. The steps -/

inductive Move (T : Type)
  /-- The caller drops the future. -/
  | drop
  /-- The waiting request sees its token cancelled. -/
  | giveUp
  /-- It gets a running slot and spawns the blocking function. -/
  | acquire
  /-- The blocking function asks whether the job is cancelled. -/
  | check
  /-- It calls the closure. -/
  | start
  | finish (v : T)
  | panic
  | releaseAdmitted
  | releaseRunning
  /-- The request gets the outcome and answers. -/
  | deliver
deriving DecidableEq, Repr

inductive Action (T : Type)
  | submit
  | shutdown
  | job (i : Nat) (m : Move T)
deriving DecidableEq, Repr

/-- What `run` makes of the outcome. -/
def answer (cancelled : Bool) : Outcome T → Except HeavyWorkError T
  | .value v => if cancelled then .error .cancelled else .ok v
  | .skipped => .error .cancelled
  | .panicked => .error .failed

/-- A move of one job; `cancelled` is what its token says. -/
def move (cancelled : Bool) (p : Permits) : Job T → Move T → Option (Permits × Job T)
  -- dropping the future cancels the token; a waiting request drops its admission slot, too
  | ⟨.awaiting, _, .waiting⟩, .drop =>
    some ({ p with admitted := p.admitted + 1 }, ⟨.dropped, true, .abandoned⟩)
  | ⟨.awaiting, _, work⟩, .drop => some (p, ⟨.dropped, true, work⟩)
  | ⟨.awaiting, _, .waiting⟩, .giveUp =>
    if cancelled then
      some ({ p with admitted := p.admitted + 1 },
        ⟨.answered (.error .cancelled), true, .abandoned⟩)
    else none
  | ⟨.awaiting, c, .waiting⟩, .acquire =>
    if 0 < p.running then some ({ p with running := p.running - 1 }, ⟨.awaiting, c, .spawned⟩)
    else none
  | ⟨r, c, .spawned⟩, .check =>
    some (p, ⟨r, c, if cancelled then .returned .skipped else .cleared⟩)
  | ⟨r, c, .cleared⟩, .start => some (p, ⟨r, c, .executing⟩)
  | ⟨r, c, .executing⟩, .finish v => some (p, ⟨r, c, .returned (.value v)⟩)
  | ⟨r, c, .executing⟩, .panic => some (p, ⟨r, c, .returned .panicked⟩)
  | ⟨r, c, .returned o⟩, .releaseAdmitted =>
    some ({ p with admitted := p.admitted + 1 }, ⟨r, c, .releasing o⟩)
  | ⟨r, c, .releasing o⟩, .releaseRunning =>
    some ({ p with running := p.running + 1 }, ⟨r, c, .over o⟩)
  -- the guard is disarmed before the answer
  | ⟨.awaiting, c, .over o⟩, .deliver => some (p, ⟨.answered (answer cancelled o), c, .over o⟩)
  | _, _ => none

/-- A job that finds no admission slot free. -/
def overloaded (limits : HeavyWorkLimits) : Job T :=
  ⟨.answered (.error (.overloaded limits.running limits.queued)), false, .refused⟩

namespace HeavyWork

def step (s : HeavyWork T) : Action T → Option (HeavyWork T)
  | .submit =>
    if s.permits.admitted = 0 then some { s with jobs := s.jobs ++ [overloaded s.limits] }
    else some { s with
      permits := { s.permits with admitted := s.permits.admitted - 1 }
      jobs := s.jobs ++ [⟨.awaiting, false, .waiting⟩] }
  | .shutdown => some { s with shutdown := true }
  | .job i m => do
    let job ← s.jobs[i]?
    let (permits, job') ← move (s.isCancelled job) s.permits job m
    some { s with permits := permits, jobs := s.jobs.set i job' }

/-- `t` comes after `s`, whatever happens in between. -/
def Before (s t : HeavyWork T) : Prop := Steps.Reaches step (fun _ _ => True) s t

end HeavyWork

/-! ## 3. What a move can do -/

namespace Work

/-- The job counts as running or waiting. -/
def isAdmitted : Work T → Bool
  | .waiting | .spawned | .cleared | .executing | .returned _ => true
  | .refused | .abandoned | .releasing _ | .over _ => false

/-- The job holds a running slot. -/
def isRunning : Work T → Bool
  | .spawned | .cleared | .executing | .returned _ | .releasing _ => true
  | .refused | .waiting | .abandoned | .over _ => false

def isExecuting : Work T → Bool
  | .executing => true
  | _ => false

/-- The closure was called, or nothing can keep it from being called. -/
def isStarted : Work T → Bool
  | .cleared | .executing => true
  | _ => false

end Work

/-- **The moves of a job**, as a relation. -/
inductive Moves (cancelled : Bool) (p : Permits) : Job T → Move T → Permits → Job T → Prop
  | leave (c : Bool) : Moves cancelled p ⟨.awaiting, c, .waiting⟩ .drop
      ⟨p.running, p.admitted + 1⟩ ⟨.dropped, true, .abandoned⟩
  | drop (c : Bool) (work : Work T) (hwork : work ≠ .waiting) :
      Moves cancelled p ⟨.awaiting, c, work⟩ .drop p ⟨.dropped, true, work⟩
  | giveUp (c : Bool) (hcancelled : cancelled = true) :
      Moves cancelled p ⟨.awaiting, c, .waiting⟩ .giveUp ⟨p.running, p.admitted + 1⟩
        ⟨.answered (.error .cancelled), true, .abandoned⟩
  | acquire (c : Bool) (hfree : 0 < p.running) :
      Moves cancelled p ⟨.awaiting, c, .waiting⟩ .acquire ⟨p.running - 1, p.admitted⟩
        ⟨.awaiting, c, .spawned⟩
  | skip (r : Request T) (c : Bool) (hcancelled : cancelled = true) :
      Moves cancelled p ⟨r, c, .spawned⟩ .check p ⟨r, c, .returned .skipped⟩
  | clear (r : Request T) (c : Bool) (hcancelled : cancelled = false) :
      Moves cancelled p ⟨r, c, .spawned⟩ .check p ⟨r, c, .cleared⟩
  | start (r : Request T) (c : Bool) :
      Moves cancelled p ⟨r, c, .cleared⟩ .start p ⟨r, c, .executing⟩
  | finish (r : Request T) (c : Bool) (v : T) :
      Moves cancelled p ⟨r, c, .executing⟩ (.finish v) p ⟨r, c, .returned (.value v)⟩
  | panic (r : Request T) (c : Bool) :
      Moves cancelled p ⟨r, c, .executing⟩ .panic p ⟨r, c, .returned .panicked⟩
  | releaseAdmitted (r : Request T) (c : Bool) (o : Outcome T) :
      Moves cancelled p ⟨r, c, .returned o⟩ .releaseAdmitted ⟨p.running, p.admitted + 1⟩
        ⟨r, c, .releasing o⟩
  | releaseRunning (r : Request T) (c : Bool) (o : Outcome T) :
      Moves cancelled p ⟨r, c, .releasing o⟩ .releaseRunning ⟨p.running + 1, p.admitted⟩
        ⟨r, c, .over o⟩
  | deliver (c : Bool) (o : Outcome T) :
      Moves cancelled p ⟨.awaiting, c, .over o⟩ .deliver p
        ⟨.answered (answer cancelled o), c, .over o⟩

/-- **A move does one of these things.** -/
theorem moves_of_move {cancelled : Bool} {p p' : Permits} {job job' : Job T} {m : Move T}
    (h : move cancelled p job m = some (p', job')) : Moves cancelled p job m p' job' := by
  unfold move at h
  split at h
  · cases h
    exact .leave _
  · rename_i c work hwork
    cases h
    exact .drop c work fun h' => hwork h'
  · split at h
    · rename_i hc
      cases h
      exact .giveUp _ hc
    · cases h
  · split at h
    · rename_i hfree
      cases h
      exact .acquire _ hfree
    · cases h
  · cases h
    cases hc : cancelled with
    | true => exact .skip _ _ rfl
    | false => exact .clear _ _ rfl
  all_goals cases h
  · exact .start _ _
  · exact .finish _ _ _
  · exact .panic _ _
  · exact .releaseAdmitted _ _ _
  · exact .releaseRunning _ _ _
  · exact .deliver _ _

/-- A request without a slot left is turned away; any other takes one. -/
inductive HeavyWork.Takes (s : HeavyWork T) : Action T → HeavyWork T → Prop
  | reject (hfull : s.permits.admitted = 0) :
      Takes s .submit { s with jobs := s.jobs ++ [overloaded s.limits] }
  | accept (hfree : 0 < s.permits.admitted) :
      Takes s .submit { s with
        permits := ⟨s.permits.running, s.permits.admitted - 1⟩
        jobs := s.jobs ++ [⟨.awaiting, false, .waiting⟩] }
  | shutdown : Takes s .shutdown { s with shutdown := true }
  | job {i : Nat} {m : Move T} {job job' : Job T} {p : Permits} (hjob : s.jobs[i]? = some job)
      (hmove : Moves (s.isCancelled job) s.permits job m p job') :
      Takes s (.job i m) { s with permits := p, jobs := s.jobs.set i job' }

/-- **What a step can do.** -/
theorem HeavyWork.takes_of_step {s s' : HeavyWork T} {a : Action T} (h : s.step a = some s') :
    s.Takes a s' := by
  cases a with
  | submit =>
    simp only [HeavyWork.step] at h
    split at h
    · rename_i hfull
      cases h
      exact .reject hfull
    · rename_i hfree
      cases h
      exact .accept (Nat.pos_of_ne_zero hfree)
  | shutdown =>
    cases h
    exact .shutdown
  | job i m =>
    obtain ⟨job, hjob, h⟩ := Option.bind_eq_some_iff.mp h
    obtain ⟨⟨p, job'⟩, hmove, h⟩ := Option.bind_eq_some_iff.mp h
    cases h
    exact .job hjob (moves_of_move hmove)

/-! ## 4. The books of the two semaphores -/

theorem Moves.running {cancelled : Bool} {p p' : Permits} {job job' : Job T} {m : Move T}
    (h : Moves cancelled p job m p' job') :
    p'.running + job'.work.isRunning.toNat = p.running + job.work.isRunning.toNat := by
  cases h with
  | acquire c hfree =>
    simp [Work.isRunning]
    omega
  | _ => simp [Work.isRunning]

theorem Moves.admitted {cancelled : Bool} {p p' : Permits} {job job' : Job T} {m : Move T}
    (h : Moves cancelled p job m p' job') :
    p'.admitted + job'.work.isAdmitted.toNat = p.admitted + job.work.isAdmitted.toNat := by
  cases h <;> simp [Work.isAdmitted]

/-- A token stays cancelled. -/
theorem Moves.cancelled {cancelled : Bool} {p p' : Permits} {job job' : Job T} {m : Move T}
    (h : Moves cancelled p job m p' job') (hc : job.cancelled = true) : job'.cancelled = true := by
  cases h <;> first | exact hc | rfl

/-- The blocking function ended without a call of the closure. -/
def Work.isSkipped : Work T → Bool
  | .returned .skipped | .releasing .skipped | .over .skipped => true
  | _ => false

theorem Moves.skipped {cancelled : Bool} {p p' : Permits} {job job' : Job T} {m : Move T}
    (h : Moves cancelled p job m p' job') (hs : job'.work.isSkipped = true) :
    job.work.isSkipped = true ∨ cancelled = true ∨ job'.cancelled = true := by
  cases h with
  | skip r c hc => exact .inr (.inl hc)
  | drop | deliver => exact .inl hs
  | releaseAdmitted r c o | releaseRunning r c o =>
    cases o <;> simp_all [Work.isSkipped]
  | _ => simp [Work.isSkipped] at hs

theorem Moves.dropped {cancelled : Bool} {p p' : Permits} {job job' : Job T} {m : Move T}
    (h : Moves cancelled p job m p' job') (hd : job'.request = .dropped) :
    job.request = .dropped ∨ cancelled = true ∨ job'.cancelled = true := by
  cases h with
  | leave | drop => exact .inr (.inr rfl)
  | acquire | giveUp | deliver => cases hd
  | _ => exact .inl hd

namespace HeavyWork

theorem isCancelled_of_moves {s : HeavyWork T} {p : Permits} {job job' : Job T} {m : Move T}
    (h : Moves (s.isCancelled job) s.permits job m p job') (hc : s.isCancelled job = true) :
    s.isCancelled job' = true := by
  rw [isCancelled, Bool.or_eq_true] at hc ⊢
  exact hc.imp_right h.cancelled

/-- Only cancelled jobs have `P`. -/
def Only (P : Job T → Prop) (s : HeavyWork T) : Prop :=
  ∀ (i : Nat) (job : Job T), s.jobs[i]? = some job → P job → s.isCancelled job = true

/-- What no new job has, and no move gives to a job that is not cancelled. -/
theorem Takes.only {P : Job T → Prop} {s s' : HeavyWork T} {a : Action T} (h : s.Takes a s')
    (ho : s.Only P) (hnew : ∀ r, r ≠ .dropped → ∀ w, w.isSkipped = false → ¬P ⟨r, false, w⟩)
    (hP : ∀ c p job m p' job', Moves c p job m p' job' → P job' →
      P job ∨ c = true ∨ job'.cancelled = true) : s'.Only P := by
  have happend : ∀ (r : Request T) (w : Work T), r ≠ .dropped → w.isSkipped = false →
      ∀ (i : Nat) (job : Job T), (s.jobs ++ [⟨r, false, w⟩])[i]? = some job → P job →
        s.isCancelled job = true := by
    intro r w hr hw i job hi hjob
    rcases List.mem_append.mp (List.mem_of_getElem? hi) with hmem | hmem
    · obtain ⟨k, hk⟩ := List.getElem?_of_mem hmem
      exact ho k job hk hjob
    · rw [List.mem_singleton.mp hmem] at hjob
      exact absurd hjob (hnew r hr w hw)
  cases h with
  | reject hfull => exact happend _ .refused (by simp) rfl
  | accept hfree => exact happend .awaiting .waiting (by simp) rfl
  | shutdown => exact fun i job hi hs => rfl
  | @job i m job job' p hi hmove =>
    intro k job₁ hk hjob
    replace hk : (s.jobs.set i job')[k]? = some job₁ := hk
    rw [List.getElem?_set] at hk
    split at hk
    · split at hk
      · obtain rfl := Option.some.inj hk
        rcases hP _ _ _ _ _ _ hmove hjob with hold | hc | hc
        · have hc := isCancelled_of_moves hmove (ho i job hi hold)
          exact hc
        · have hc := isCancelled_of_moves hmove hc
          exact hc
        · exact Bool.or_eq_true_iff.mpr (.inr hc)
      · cases hk
    · exact ho k job₁ hk hjob

/-- What the code keeps true of the pool. -/
structure WellFormed (s : HeavyWork T) : Prop where
  running : Slots.Balanced (fun job => job.work.isRunning) s.limits.running s.permits.running
    s.jobs
  admitted : Slots.Balanced (fun job => job.work.isAdmitted) s.limits.capacity
    s.permits.admitted s.jobs
  skipped : s.Only fun job => job.work.isSkipped = true
  dropped : s.Only fun job => job.request = .dropped

theorem wellFormed_new {limits : HeavyWorkLimits} {s : HeavyWork T} (h : new limits = some s) :
    s.WellFormed ∧ s.limits = limits := by
  unfold new at h
  split at h
  · cases h
    have honly : ∀ P : Job T → Prop,
        Only P ⟨limits, ⟨limits.running, limits.capacity⟩, false, []⟩ := by
      intro P i job hjob
      simp at hjob
    exact ⟨⟨.empty _ _, .empty _ _, honly _, honly _⟩, rfl⟩
  · cases h

theorem Takes.wellFormed {s s' : HeavyWork T} {a : Action T} (h : s.Takes a s')
    (hw : s.WellFormed) : s'.WellFormed := by
  have hskipped : s'.Only fun job => job.work.isSkipped = true :=
    h.only hw.skipped (fun r _ w hw' hs => by simp [hw'] at hs) fun _ _ _ _ _ _ hm => hm.skipped
  have hdropped : s'.Only fun job => job.request = .dropped :=
    h.only hw.dropped (fun r hr w _ hd => hr hd) fun _ _ _ _ _ _ hm => hm.dropped
  cases h with
  | reject hfull =>
    exact ⟨hw.running.append rfl, hw.admitted.append rfl, hskipped, hdropped⟩
  | accept hfree =>
    refine ⟨hw.running.append rfl, hw.admitted.append ?_, hskipped, hdropped⟩
    simp [Work.isAdmitted]
    omega
  | shutdown => exact ⟨hw.running, hw.admitted, hskipped, hdropped⟩
  | job hjob hmove =>
    exact ⟨hw.running.set hjob hmove.running, hw.admitted.set hjob hmove.admitted, hskipped,
      hdropped⟩

theorem Takes.limits_eq {s s' : HeavyWork T} {a : Action T} (h : s.Takes a s') :
    s'.limits = s.limits := by
  cases h <;> rfl

/-- The pools that a run reaches. -/
theorem wellFormed_of_before {limits : HeavyWorkLimits} {s₀ s : HeavyWork T}
    (h₀ : new limits = some s₀) (h : s₀.Before s) : s.WellFormed ∧ s.limits = limits := by
  refine h.invariant (P := fun s => s.WellFormed ∧ s.limits = limits) (wellFormed_new h₀) ?_
  intro u v a ⟨hw, hl⟩ _ hstep
  have htakes := takes_of_step hstep
  exact ⟨htakes.wellFormed hw, htakes.limits_eq.trans hl⟩

/-! ## 5. What stays true of a cancelled job -/

/-- Job `i` is there, it is cancelled, and it has `P`. -/
def Cancelled (P : Job T → Prop) (i : Nat) (s : HeavyWork T) : Prop :=
  ∃ job, s.jobs[i]? = some job ∧ s.isCancelled job = true ∧ P job

/-- What no move of a cancelled job destroys, no step does. -/
theorem Takes.cancelled {P : Job T → Prop} {s s' : HeavyWork T} {a : Action T} {i : Nat}
    (h : s.Takes a s') (hc : Cancelled P i s)
    (hP : ∀ p job m p' job', Moves true p job m p' job' → P job → P job') : Cancelled P i s' := by
  obtain ⟨job, hi, hcancelled, hjob⟩ := hc
  have hlt : i < s.jobs.length := (List.getElem?_eq_some_iff.mp hi).1
  cases h with
  | reject hfull => exact ⟨job, (List.getElem?_append_left hlt).trans hi, hcancelled, hjob⟩
  | accept hfree => exact ⟨job, (List.getElem?_append_left hlt).trans hi, hcancelled, hjob⟩
  | shutdown => exact ⟨job, hi, rfl, hjob⟩
  | @job k m moved job' p hk hmove =>
    by_cases hik : k = i
    · subst hik
      obtain rfl := Option.some.inj (hi.symm.trans hk)
      have hstill := isCancelled_of_moves hmove hcancelled
      refine ⟨job', List.getElem?_set_self hlt, hstill, ?_⟩
      rw [hcancelled] at hmove
      exact hP _ _ _ _ _ hmove hjob
    · exact ⟨job, (List.getElem?_set_ne hik).trans hi, hcancelled, hjob⟩

/-- The same for every run. -/
theorem Before.cancelled {P : Job T → Prop} {s t : HeavyWork T} {i : Nat} (h : s.Before t)
    (hc : Cancelled P i s)
    (hP : ∀ p job m p' job', Moves true p job m p' job' → P job → P job') : Cancelled P i t :=
  h.invariant (P := Cancelled P i) hc fun _ _ _ hu _ hstep => (takes_of_step hstep).cancelled hu hP

end HeavyWork

/-- The request has not delivered a result. -/
def Job.Undelivered (job : Job T) : Prop := ∀ v, job.request ≠ .answered (.ok v)

theorem Moves.undelivered {p p' : Permits} {job job' : Job T} {m : Move T}
    (h : Moves true p job m p' job') (hu : job.Undelivered) : job'.Undelivered := by
  cases h with
  | deliver c o =>
    intro v hv
    cases o <;> simp [answer] at hv
  | leave | drop | giveUp | acquire => simp [Job.Undelivered]
  | _ => exact hu

/-- A cancelled job is not let through to its closure. -/
theorem Moves.unstarted {p p' : Permits} {job job' : Job T} {m : Move T}
    (h : Moves true p job m p' job') (hu : job.work.isStarted = false) :
    job'.work.isStarted = false := by
  cases h with
  | clear r c hc => cases hc
  | drop c work hwork => exact hu
  | start r c => cases hu
  | _ => rfl

theorem Moves.abandoned {p p' : Permits} {job job' : Job T} {m : Move T}
    (h : Moves true p job m p' job') (ha : job.work = .abandoned) : job'.work = .abandoned := by
  cases h <;> first | exact ha | cases ha

/-! ## 6. Bounded work -/

namespace HeavyWork

/-- The closures that execute. -/
def executing (s : HeavyWork T) : Nat := s.jobs.countP fun job => job.work.isExecuting

/-- The jobs that run or wait. -/
def admittedJobs (s : HeavyWork T) : Nat := s.jobs.countP fun job => job.work.isAdmitted

theorem executing_le (s : HeavyWork T) :
    s.executing ≤ s.jobs.countP fun job => job.work.isRunning := by
  refine List.countP_mono_left fun job _ h => ?_
  cases hw : job.work <;> simp_all [Work.isExecuting, Work.isRunning]

/-- `active_jobs` counts the jobs that hold an admission slot. -/
theorem WellFormed.activeJobs_eq {s : HeavyWork T} (h : s.WellFormed) :
    s.activeJobs = s.admittedJobs := by
  have hbalance : s.permits.admitted + s.admittedJobs = s.limits.capacity := h.admitted
  unfold activeJobs
  omega

/-- A pool that could be made has room for all it promises. -/
theorem capacity_of_new {limits : HeavyWorkLimits} {s : HeavyWork T} (h : new limits = some s) :
    limits.capacity = limits.running + limits.queued := by
  unfold new at h
  split at h
  · rename_i hmax
    have hcapacity : limits.capacity ≤ maxPermits := hmax.2
    have hlt : maxPermits < usizeMax := by decide
    unfold HeavyWorkLimits.capacity at hcapacity ⊢
    omega
  · cases h

/-- **Bounded work**: what holds of the pool in state `s`, and of the next step from there. -/
structure Orderly (s : HeavyWork T) : Prop where
  executing_le : s.executing ≤ s.limits.running
  admitted_le : s.admittedJobs ≤ s.limits.running + s.limits.queued
  /-- A submission is turned away only when all slots are taken, so that at least as many jobs as
  the queue has places have not begun to execute or are not given back. -/
  rejected : ∀ s', s.step .submit = some s' → s'.jobs = s.jobs ++ [overloaded s.limits] →
    s.admittedJobs = s.limits.running + s.limits.queued ∧
      s.limits.queued ≤ s.admittedJobs - s.executing
  /-- A running slot comes back from a job whose blocking function has ended: the closure
  returned or panicked, or was not called because the job was cancelled. -/
  running_back : ∀ a s', s.step a = some s' → s.permits.running < s'.permits.running →
    ∃ i job o, a = .job i .releaseRunning ∧ s.jobs[i]? = some job ∧ job.work = .releasing o ∧
      (o = .skipped → s.isCancelled job = true)
  /-- So does an admission slot, or it comes from a request cancelled while it waited, whose
  closure is never called. -/
  admitted_back : ∀ a s', s.step a = some s' → s.permits.admitted < s'.permits.admitted →
    ∃ i job, s.jobs[i]? = some job ∧
      ((∃ o, a = .job i .releaseAdmitted ∧ job.work = .returned o ∧
          (o = .skipped → s.isCancelled job = true)) ∨
        (job.work = .waiting ∧
          ∀ t, s'.Before t → t.Cancelled (fun job => job.work = .abandoned) i))
  /-- Dropping a request cancels its job. -/
  dropped : s.Only fun job => job.request = .dropped
  /-- A job cancelled before its request answered never delivers a result. -/
  undelivered : ∀ i, s.Cancelled Job.Undelivered i →
    ∀ t, s.Before t → t.Cancelled Job.Undelivered i
  /-- The closure of a job cancelled before its thread asked is never called. -/
  unstarted : ∀ i, s.Cancelled (fun job => job.work.isStarted = false) i →
    ∀ t, s.Before t → t.Cancelled (fun job => job.work.isStarted = false) i

/-- A submission that is turned away finds no permit. -/
theorem Takes.full {s s' : HeavyWork T} (h : s.Takes .submit s')
    (hjobs : s'.jobs = s.jobs ++ [overloaded s.limits]) : s.permits.admitted = 0 := by
  cases h with
  | reject hfull => exact hfull
  | accept hfree => simp [overloaded] at hjobs

theorem Takes.running_back {s s' : HeavyWork T} {a : Action T} (h : s.Takes a s')
    (hback : s.permits.running < s'.permits.running) :
    ∃ i job o, a = .job i .releaseRunning ∧ s.jobs[i]? = some job ∧ job.work = .releasing o := by
  cases h with
  | reject | shutdown | accept => simp at hback
  | @job i m job job' p hjob hmove =>
    cases hmove with
    | releaseRunning r c o => exact ⟨i, _, o, rfl, hjob, rfl⟩
    | acquire c hfree =>
      simp at hback
      omega
    | _ => simp at hback

theorem Takes.admitted_back {s s' : HeavyWork T} {a : Action T} (h : s.Takes a s')
    (hback : s.permits.admitted < s'.permits.admitted) :
    ∃ i job, s.jobs[i]? = some job ∧
      ((∃ o, a = .job i .releaseAdmitted ∧ job.work = .returned o) ∨
        (job.work = .waiting ∧ s'.Cancelled (fun job => job.work = .abandoned) i)) := by
  cases h with
  | reject | shutdown => simp at hback
  | accept hfree =>
    simp at hback
    omega
  | @job i m job job' p hjob hmove =>
    have hlt : i < s.jobs.length := (List.getElem?_eq_some_iff.mp hjob).1
    refine ⟨i, job, hjob, ?_⟩
    cases hmove with
    | releaseAdmitted r c o => exact .inl ⟨o, rfl, rfl⟩
    | leave | giveUp =>
      exact .inr ⟨rfl, _, List.getElem?_set_self hlt, Bool.or_eq_true_iff.mpr (.inr rfl), rfl⟩
    | _ => simp at hback

theorem WellFormed.orderly {s : HeavyWork T} (hw : s.WellFormed)
    (hcapacity : s.limits.capacity = s.limits.running + s.limits.queued) : s.Orderly := by
  have hexecuting : s.executing ≤ s.limits.running :=
    s.executing_le.trans hw.running.holders_le
  have hbalance : s.permits.admitted + s.admittedJobs = s.limits.capacity := hw.admitted
  refine ⟨hexecuting, by omega, ?_, ?_, ?_, hw.dropped, ?_, ?_⟩
  · intro s' hstep hjobs
    have hfull := (takes_of_step hstep).full hjobs
    omega
  · intro a s' hstep hback
    obtain ⟨i, job, o, ha, hjob, ho⟩ := (takes_of_step hstep).running_back hback
    exact ⟨i, job, o, ha, hjob, ho, fun hskip =>
      hw.skipped i job hjob (by simp [ho, hskip, Work.isSkipped])⟩
  · intro a s' hstep hback
    obtain ⟨i, job, hjob, ⟨o, ha, ho⟩ | ⟨hwait, hleft⟩⟩ := (takes_of_step hstep).admitted_back hback
    · exact ⟨i, job, hjob, .inl ⟨o, ha, ho, fun hskip =>
        hw.skipped i job hjob (by simp [ho, hskip, Work.isSkipped])⟩⟩
    · exact ⟨i, job, hjob, .inr ⟨hwait, fun t ht =>
        ht.cancelled hleft fun _ _ _ _ _ hm => hm.abandoned⟩⟩
  · intro i hi t ht
    exact ht.cancelled hi fun _ _ _ _ _ hm => hm.undelivered
  · intro i hi t ht
    exact ht.cancelled hi fun _ _ _ _ _ hm => hm.unstarted

/-- The pool with one running slot and one place in the queue. -/
def onePlusOne : HeavyWork Nat := ⟨⟨1, 1⟩, ⟨1, 2⟩, false, []⟩

end HeavyWork

end Blocking
end MavenMcp
