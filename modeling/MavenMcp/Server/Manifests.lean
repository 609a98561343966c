/-
# Stored manifests

An invalidation forgets the stored classpaths of its project, and so does a build that finds its
generation gone after it wrote its own.  Both deletions come after the state they answer to, and
the request may be cancelled before.

`Forgotten` says that a manifest of an earlier epoch is stored only while a deletion of its
project is still to come: a request that deletes, a build that will find its generation gone,
or the deleting job of a cancelled request.  It is kept as long as no deletion is lost and no
cancelled request's write comes after the last of them (`deletesInTime`).
-/
import MavenMcp.Server.Epochs

namespace MavenMcp

open ProjectCache (Op performAll)

variable {W M : Type}

/-- The request awaits a deletion. -/
def Request.deleting (req : Request M) : Bool :=
  match req.stage with
  | .forgetting | .building _ (.forgetting _) => true
  | _ => false

def Job.deletes (job : Job M) (root : PathBuf) : Bool :=
  match job.effect with
  | .forget r => decide (r = root)
  | _ => false

namespace Server

/-! ## 1. Deletions to come -/

/-- The request awaits a deletion, or will: its build's generation is gone. -/
def deletes (s : Server M) (req : Request M) : Bool :=
  match req.stage with
  | .forgetting | .building _ (.forgetting _) => true
  | .building t (.rechecking _) => !s.cache.isCurrent req.root t.generation
  | _ => false

def deletionPending (s : Server M) (root : PathBuf) : Bool :=
  (s.requests.values.any fun req => decide (req.root = root) && s.deletes req) ||
    s.jobs.values.any fun job => job.deletes root

theorem deletionPending_iff {s : Server M} {root : PathBuf} :
    s.deletionPending root = true ↔
      (∃ id req, s.Has id req ∧ req.root = root ∧ s.deletes req = true) ∨
      ∃ id job, s.HasJob id job ∧ job.deletes root = true := by
  rw [deletionPending, Bool.or_eq_true, List.any_eq_true, List.any_eq_true]
  refine or_congr ⟨?_, ?_⟩ ⟨?_, ?_⟩
  · rintro ⟨req, hmem, h⟩
    obtain ⟨id, hreq⟩ := AList.mem_values.mp hmem
    rw [Bool.and_eq_true, decide_eq_true_eq] at h
    exact ⟨id, req, hreq, h⟩
  · rintro ⟨id, req, hreq, hr, hd⟩
    exact ⟨req, AList.mem_values.mpr ⟨id, hreq⟩, by simp [hr, hd]⟩
  · rintro ⟨job, hmem, h⟩
    obtain ⟨id, hjob⟩ := AList.mem_values.mp hmem
    exact ⟨id, job, hjob, h⟩
  · rintro ⟨id, job, hjob, hd⟩
    exact ⟨job, AList.mem_values.mpr ⟨id, hjob⟩, hd⟩

theorem pending_of_request {s : Server M} {id : Nat} {req : Request M} {root : PathBuf}
    (hreq : s.Has id req) (hr : req.root = root) (hd : s.deletes req = true) :
    s.deletionPending root = true :=
  deletionPending_iff.mpr (.inl ⟨id, req, hreq, hr, hd⟩)

theorem pending_of_job {s : Server M} {id : Nat} {job : Job M} {root : PathBuf}
    (hjob : s.HasJob id job) (hd : job.deletes root = true) : s.deletionPending root = true :=
  deletionPending_iff.mpr (.inr ⟨id, job, hjob, hd⟩)

/-- Every deletion that is to come still is, if the cache is the same. -/
theorem deletionPending_mono {s s' : Server M} {root : PathBuf} (hc : s'.cache = s.cache)
    (hreq : ∀ id req, s.Has id req → req.root = root → s.deletes req = true →
      s'.Has id req ∨ s'.deletionPending root = true)
    (hjob : ∀ id job, s.HasJob id job → job.deletes root = true →
      s'.HasJob id job ∨ s'.deletionPending root = true)
    (h : s.deletionPending root = true) : s'.deletionPending root = true := by
  rcases deletionPending_iff.mp h with ⟨id, req, hhas, hr, hd⟩ | ⟨id, job, hhas, hd⟩
  · rcases hreq id req hhas hr hd with hkept | hp
    · have hsame : s'.deletes req = s.deletes req := by simp only [deletes, hc]
      exact pending_of_request hkept hr (hsame.trans hd)
    · exact hp
  · rcases hjob id job hhas hd with hkept | hp
    · exact pending_of_job hkept hd
    · exact hp

/-! ## 2. Steps of requests -/

/-- **How a step changes the stored manifests:** a build writes its own and goes on to look at
its generation again, or a deletion takes effect. -/
theorem write_of_moves {host : Host W M} {s : Server M} {req : Request M} {reply : Reply}
    {m : Move M} (h : Moves host s req req.stage reply m) :
    m.write = .nothing ∨
    (∃ t cp index, req.stage = .building t (.persisting cp index) ∧
      m.stage = .building t (.rechecking index) ∧ m.ops = [] ∧ m.invalidates = false ∧
      m.write = .store ⟨req.root, cp.context, t.snapshot.fingerprint, cp.epoch⟩) ∨
    (m.write = .forget req.root ∧ m.invalidates = false) := by
  generalize req.stage = stage at h
  cases h with
  | runner stage => exact .inl (projectRunner_frame host s req stage).2.1
  | index h =>
    cases h with
    | forgot effective =>
      cases effective with
      | true => exact .inr (.inr ⟨rfl, rfl⟩)
      | false => exact .inl rfl
    | outdated => exact .inl (again_frame req).2.1
    | resolved t outcome _ => exact .inl (write_resolved req outcome)
    | _ => exact .inl rfl
  | build h =>
    cases h with
    | persisted cp index effective =>
      by_cases hw : (effective && cp.inputs) = true
      · simp only [hw, if_true]
        exact .inr (.inl ⟨_, cp, index, rfl, rfl, trivial, trivial, rfl⟩)
      · simp only [hw]
        exact .inl rfl
    | forgot index effective =>
      cases effective with
      | true => exact .inr (.inr ⟨rfl, rfl⟩)
      | false => exact .inl rfl
    | filled outcome => exact .inl (write_resolved req outcome)
    | _ => exact .inl rfl

/-- The section that begins an epoch writes nothing, and leads to the deletion. -/
theorem forgetting_of_invalidates {host : Host W M} {s : Server M} {req : Request M}
    {reply : Reply} {m : Move M} (h : Moves host s req req.stage reply m)
    (hi : m.invalidates = true) :
    m.write = .nothing ∧ (host.indexCache = true → m.stage = .forgetting) := by
  generalize req.stage = stage at h
  cases h with
  | runner stage => simp [(projectRunner_frame host s req stage).1] at hi
  | index h =>
    cases h with
    | invalidates => exact ⟨rfl, fun hcache => if_pos hcache⟩
    | outdated => simp [(again_frame req).1] at hi
    | _ => simp at hi
  | build h =>
    cases h with
    | _ => simp at hi

/-- **A request that was to delete still is**, or its deletion has ended. -/
theorem deletes_of_moves {host : Host W M} {s : Server M} {req : Request M} {reply : Reply}
    {m : Move M} (id : Nat) (h : Moves host s req req.stage reply m) (hd : s.deletes req = true) :
    (s.take id req m).deletes (s.moved req m) = true ∨
    (req.deleting = true ∧ ∃ effective, reply = .took effective ∧
      m.write = if effective then .forget req.root else .nothing) := by
  unfold deletes at hd
  split at hd
  · rename_i hst
    rw [hst] at h
    cases h with
    | index h =>
      cases h with
      | forgot effective => exact .inr ⟨by simp only [Request.deleting, hst], effective, rfl, rfl⟩
  · rename_i t index hst
    rw [hst] at h
    cases h with
    | index h => cases h
    | build h =>
      cases h with
      | forgot index effective =>
        exact .inr ⟨by simp only [Request.deleting, hst], effective, rfl, rfl⟩
      | resolves b hr => cases hr
  · rename_i t index hst
    rw [hst] at h
    have hgone : s.cache.isCurrent req.root t.generation = false := by simpa using hd
    cases h with
    | index h => cases h
    | build h =>
      cases h with
      | rechecked index hcur =>
        rw [hgone] at hcur
        cases hcur
      | outdated index _ => exact .inl rfl
      | resolves b hr => cases hr
  · cases hd

/-- Another request that was to delete still is: a generation does not come back. -/
theorem deletes_take_of_ne {s : Server M} (hc : Coherent s) {id id' : Nat} {req req' : Request M}
    {m : Move M} (hreq' : s.Has id' req') (hd : s.deletes req' = true) :
    (s.take id req m).deletes req' = true := by
  unfold deletes at hd ⊢
  split at hd
  · rfl
  · rfl
  · rename_i t index hst
    have hparty : s.Party req'.root t :=
      .inl ⟨id', req', hreq', rfl, by simp only [Request.ticket, hst, Stage.ticket]⟩
    rw [Bool.not_eq_true', ← Bool.not_eq_true] at hd ⊢
    exact fun h => hd (ProjectCache.isCurrent_of_performAll (hc.issued _ t hparty).2.2 h)
  · cases hd

/-! ## 3. The invariant -/

/-- No manifest of the project is of an earlier epoch. -/
def noneOlder (s : Server M) (root : PathBuf) : Bool :=
  s.manifests.all fun x => decide (x.root = root → x.epoch = s.epoch root)

/-- A deletion that fails, or is dropped with its request, leaves no manifest of an earlier epoch,
or another deletion is to come; and what a cancelled request's job writes is of the present
epoch, or a deletion is to come. -/
def deletesInTime (s : Server M) : Action → Bool
  | .advance id (.took false) | .cancel id false =>
    (s.requests.lookup id).all fun req =>
      !req.deleting || s.noneOlder req.root ||
        deletionPending { s with requests := s.requests.erase id } req.root
  | .endJob id effective =>
    (s.jobs.lookup id).all fun job =>
      match job.effect with
      | .forget root =>
        effective || s.noneOlder root ||
          deletionPending { s with jobs := s.jobs.erase id } root
      | .store root _ _ epoch =>
        !effective || decide (epoch = s.epoch root) || s.deletionPending root
      | _ => true
  | _ => true

/-- **A manifest of an earlier epoch is stored only while a deletion is to come.** -/
structure Forgotten (host : Host W M) (s : Server M) : Prop where
  numbered : ∀ id job, s.HasJob id job → id < s.nextArc
  persisting : ∀ id t cp index, s.Builds id t (.persisting cp index) → host.indexCache = true
  storing : ∀ id job root context fp epoch, s.HasJob id job →
    job.effect = .store root context fp epoch → host.indexCache = true
  stored : ∀ x ∈ s.manifests, host.indexCache = true
  deleted : ∀ x ∈ s.manifests, x.epoch ≠ s.epoch x.root → s.deletionPending x.root = true

theorem forgotten_start (host : Host W M) : Forgotten host (start host) where
  numbered := by
    intro id job h
    cases h
  persisting := by
    rintro id t cp index ⟨req, h, _⟩
    cases h
  storing := by
    intro id job root context fp epoch h
    cases h
  stored := by
    intro x hx
    cases hx
  deleted := by
    intro x hx
    cases hx

theorem Forgotten.take {host : Host W M} {s : Server M} (h : Forgotten host s) (hcur : Current s)
    (hc : Coherent s) {id : Nat} {req : Request M} {reply : Reply} {m : Move M}
    (hreq : s.Has id req) (hm : Moves host s req req.stage reply m)
    (hok : s.deletesInTime (.advance id reply) = true) : Forgotten host (s.take id req m) where
  numbered := by
    intro id' job hjob
    have hold := h.numbered id' job hjob
    unfold Server.take
    dsimp only
    split <;> omega
  persisting := by
    intro id' t cp index hb
    rcases builds_of_moves hm hb with ⟨_, hold⟩ | ⟨rfl, hst', ⟨hlock, _⟩ | ⟨b₀, hst, hbm⟩⟩
    · exact h.persisting id' t cp index hold
    · cases hlock
    · cases hbm with
      | published cp' artifacts reservation index' reused built b₁ _ hb₁ =>
        cases hst'
        rcases hb₁ with ⟨hcache, _⟩ | hb₁
        · exact hcache
        · cases hb₁
      | locked b₁ _ hb₁ =>
        cases hst'
        rcases hb₁ with hb₁ | hb₁ <;> cases hb₁
      | resolves b₁ hr =>
        cases hst'
        cases hr
      | filled outcome =>
        have hn := ticket_resolved req outcome
        rw [show (req.resolved outcome).stage = _ from hst'] at hn
        cases hn
      | _ => cases hst'
  storing := h.storing
  stored := by
    intro x hx
    replace hx : x ∈ m.write.apply s.manifests := hx
    rcases write_of_moves hm with hw | ⟨t, cp, index, hst, _, _, _, hw⟩ | ⟨hw, _⟩
    · rw [hw] at hx
      exact h.stored x hx
    · exact h.persisting id t cp index ⟨req, hreq, hst⟩
    · rw [hw] at hx
      exact h.stored x (List.mem_filter.mp hx).1
  deleted := by
    -- the deletions to come, but for one that has just ended
    have pending : ∀ {root}, s.deletionPending root = true →
        (s.take id req m).deletionPending root = true ∨
        (req.root = root ∧ req.deleting = true ∧ ∃ effective, reply = .took effective ∧
          m.write = if effective then .forget req.root else .nothing) := by
      intro root hp
      rcases deletionPending_iff.mp hp with ⟨id', req', hreq', rfl, hd⟩ | ⟨id', job, hjob, hd⟩
      · by_cases hid : id' = id
        · subst hid
          rw [Has, hreq.lookup] at hreq'
          cases hreq'
          rcases deletes_of_moves id' hm hd with hd | hended
          · exact .inl (pending_of_request (has_take.mpr (.inl ⟨rfl, rfl⟩)) rfl hd)
          · exact .inr ⟨rfl, hended⟩
        · exact .inl (pending_of_request (has_take.mpr (.inr ⟨hid, hreq'⟩)) rfl
            (deletes_take_of_ne hc hreq' hd))
      · exact .inl (pending_of_job hjob hd)
    intro x hx hne
    replace hx : x ∈ m.write.apply s.manifests := hx
    have old : x ∈ s.manifests → (s.take id req m).epoch x.root = s.epoch x.root →
        (req.root = x.root → ∀ effective, reply = .took effective →
          m.write = (if effective then .forget req.root else .nothing) → req.deleting = true →
          (s.take id req m).deletionPending x.root = true) →
        (s.take id req m).deletionPending x.root = true := by
      intro hx hepoch hended
      rw [hepoch] at hne
      rcases pending (h.deleted x hx hne) with hp | ⟨hr, hd, effective, hreply, hw⟩
      · exact hp
      · exact hended hr effective hreply hw hd
    cases hi : m.invalidates with
    | true =>
      obtain ⟨hw, hst⟩ := forgetting_of_invalidates hm hi
      rw [hw] at hx
      by_cases hr : x.root = req.root
      · -- the request that begins the epoch forgets what is stored
        refine pending_of_request (has_take.mpr (.inl ⟨rfl, rfl⟩)) hr.symm ?_
        simp only [deletes, moved, hst (h.stored x hx)]
      · exact old hx (epoch_take_of_ne hr) fun hr' => absurd hr'.symm hr
    | false =>
      have hepoch : (s.take id req m).epoch x.root = s.epoch x.root := by
        rw [epoch_take_of_not_invalidates hi]
      rcases write_of_moves hm with hw | ⟨t, cp, index, hst, hst', hops, _, hw⟩ | ⟨hw, _⟩
      · rw [hw] at hx
        refine old hx hepoch fun hr effective hreply hw' hd => ?_
        cases effective with
        | true =>
          rw [hw] at hw'
          cases hw'
        | false =>
          -- a deletion that failed
          subst hreply
          have hall : s.noneOlder req.root = true ∨
              deletionPending { s with requests := s.requests.erase id } req.root = true := by
            simpa [deletesInTime, hreq.lookup, hd] using hok
          rcases hall with hnone | hother
          · have hsame := of_decide_eq_true (List.all_eq_true.mp hnone x hx) hr.symm
            rw [hepoch, ← hr] at hne
            exact absurd hsame hne
          · rw [← hr]
            rcases deletionPending_iff.mp hother with ⟨id', req', hreq', hr', hd'⟩ |
              ⟨id', job, hjob, hd'⟩
            · obtain ⟨hid, hold⟩ := AList.lookup_erase_eq_some.mp hreq'
              exact pending_of_request (has_take.mpr (.inr ⟨hid, hold⟩)) hr'
                (deletes_take_of_ne hc hold hd')
            · exact pending_of_job hjob hd'
      · rw [hw] at hx
        rcases List.mem_cons.mp hx with rfl | hx
        · -- the build's own manifest: if it is older, the generation is gone
          refine pending_of_request (has_take.mpr (.inl ⟨rfl, rfl⟩)) rfl ?_
          have hsame : (s.take id req m).cache = s.cache := by
            simp only [Server.take, hops, ProjectCache.performAll_nil]
          simp only [deletes, moved, hst', hsame, Bool.not_eq_true', ← Bool.not_eq_true]
          intro hcurrent
          rw [hepoch] at hne
          exact hne (hcur.classpaths id req t _ _ hreq hst rfl hcurrent)
        · refine old (List.mem_filter.mp hx).1 hepoch fun _ effective _ hw' _ => ?_
          rw [hw] at hw'
          cases effective <;> cases hw'
      · rw [hw] at hx
        obtain ⟨hx, hr⟩ := List.mem_filter.mp hx
        refine old hx hepoch fun hr' => absurd hr'.symm ?_
        simpa using hr

/-- The job of a cancelled request that was to delete deletes. -/
theorem leftover_of_deletes {s : Server M} {req : Request M} {left : Option (Job M)}
    (hleft : leftover req = some left) (hd : s.deletes req = true) :
    req.deleting = true ∧ ∃ job, left = some job ∧ job.deletes req.root = true := by
  unfold deletes at hd
  split at hd
  · rename_i hst
    simp only [leftover, hst, Option.some.injEq] at hleft
    subst hleft
    exact ⟨by simp only [Request.deleting, hst], _, rfl, by simp [Job.deletes]⟩
  · rename_i t index hst
    simp only [leftover, hst, Option.some.injEq] at hleft
    subst hleft
    exact ⟨by simp only [Request.deleting, hst], _, rfl, by simp [Job.deletes]⟩
  · rename_i t index hst
    simp only [leftover, hst, reduceCtorEq] at hleft
  · cases hd

/-- Only a build that writes leaves a write behind. -/
theorem persisting_of_leftover {req : Request M} {job : Job M}
    (hleft : leftover req = some (some job)) {root : PathBuf} {context : List UInt8}
    {fp : ProjectFingerprint} {epoch : Nat} (he : job.effect = .store root context fp epoch) :
    ∃ t cp index, req.stage = .building t (.persisting cp index) := by
  unfold leftover at hleft
  split at hleft
  · cases hleft
    cases he
  · cases hleft
    cases he
  · cases hleft
  · rename_i t b hst
    split at hleft
    · cases hleft
    · cases hleft
    · cases hleft
    · cases hleft
      cases he
    · cases hleft
      cases he
    · cases hleft
      cases he
    · cases hleft
      cases he
    · exact ⟨t, _, _, hst⟩
    · cases hleft
      cases he
    · cases hleft
  · cases hleft

/-- A job goes on beside those that a dropped request leaves. -/
theorem hasJob_abandon_of_lt {s : Server M} {id id' : Nat} {req : Request M}
    {left : Option (Job M)} {job : Job M} (hjob : s.HasJob id' job) (hlt : id' < s.nextArc) :
    (s.abandon id req left).HasJob id' job := by
  have kept : ∀ {jobs : Table Nat (Job M)} {k : Nat} {o : Option (Job M)},
      jobs.lookup id' = some job → id' < k → (addJob jobs k o).lookup id' = some job := by
    intro jobs k o h hk
    cases o with
    | none => exact h
    | some j => exact AList.lookup_insert_eq_some.mpr (.inr ⟨Nat.ne_of_lt hk, h⟩)
  exact kept (kept hjob hlt) (Nat.lt_succ_of_lt hlt)

theorem hasJob_abandon_left {s : Server M} {id : Nat} {req : Request M} {job : Job M} :
    (s.abandon id req (some job)).HasJob s.nextArc job := by
  have hleft : (addJob s.jobs s.nextArc (some job)).lookup s.nextArc = some job :=
    AList.lookup_insert_eq_some.mpr (.inl ⟨rfl, rfl⟩)
  unfold HasJob abandon
  cases waker req with
  | none => exact hleft
  | some j =>
    exact AList.lookup_insert_eq_some.mpr (.inr ⟨Nat.ne_of_lt (Nat.lt_succ_self _), hleft⟩)

theorem hasJob_abandon_lt {s : Server M} {id id' : Nat} {req : Request M}
    {left : Option (Job M)} {job : Job M} (h : ∀ id job, s.HasJob id job → id < s.nextArc)
    (hjob : (s.abandon id req left).HasJob id' job) : id' < (s.abandon id req left).nextArc := by
  have added : ∀ {jobs : Table Nat (Job M)} {k n : Nat} {o : Option (Job M)},
      (∀ job, jobs.lookup id' = some job → id' < n) → k < n →
      (addJob jobs k o).lookup id' = some job → id' < n := by
    intro jobs k n o hold hk ho
    cases o with
    | none => exact hold job ho
    | some j =>
      rcases AList.lookup_insert_eq_some.mp ho with ⟨rfl, _⟩ | ⟨_, ho⟩
      · exact hk
      · exact hold job ho
  refine added (n := s.nextArc + 2) (fun job' hjob' => ?_) (Nat.lt_succ_self _) hjob
  cases left with
  | none =>
    have := h id' job' hjob'
    omega
  | some j =>
    rcases AList.lookup_insert_eq_some.mp hjob' with ⟨rfl, _⟩ | ⟨_, ho⟩
    · omega
    · have := h id' job' ho
      omega

theorem Forgotten.cancel {host : Host W M} {s : Server M} (h : Forgotten host s) {id : Nat}
    {leavesJob : Bool} {req : Request M} {left : Option (Job M)} (hreq : s.Has id req)
    (hleft : leftover req = some left) (hok : s.deletesInTime (.cancel id leavesJob) = true) :
    Forgotten host (s.abandon id req (if leavesJob then left else none)) where
  numbered := fun id' job hjob => hasJob_abandon_lt h.numbered hjob
  persisting := by
    rintro id' t cp index ⟨req', hreq', hst⟩
    exact h.persisting id' t cp index ⟨req', (AList.lookup_erase_eq_some.mp hreq').2, hst⟩
  storing := by
    intro id' job root context fp epoch hjob he
    rcases hasJob_abandon hjob with hold | ⟨_, hnew⟩ | hwake
    · exact h.storing id' job root context fp epoch hold he
    · cases leavesJob with
      | false => cases hnew
      | true =>
        simp only [if_true] at hnew
        subst hnew
        obtain ⟨t, cp, index, hst⟩ := persisting_of_leftover hleft he
        exact h.persisting id t cp index ⟨req, hreq, hst⟩
    · obtain ⟨t', _, rfl⟩ := Option.map_eq_some_iff.mp hwake
      cases he
  stored := h.stored
  deleted := by
    intro x hx hne
    have kept : ∀ {id' job}, s.HasJob id' job →
        (s.abandon id req (if leavesJob then left else none)).HasJob id' job :=
      fun {id' job} hjob => hasJob_abandon_of_lt hjob (h.numbered id' job hjob)
    refine deletionPending_mono (s := s) rfl (fun id' req' hreq' hr hd => ?_)
      (fun _ _ hjob _ => .inl (kept hjob)) (h.deleted x hx hne)
    by_cases hid : id' = id
    · subst hid
      rw [Has, hreq.lookup] at hreq'
      cases hreq'
      obtain ⟨hdel, job, rfl, hjd⟩ := leftover_of_deletes hleft hd
      right
      cases leavesJob with
      | true =>
        rw [← hr]
        exact pending_of_job hasJob_abandon_left hjd
      | false =>
        have hall : s.noneOlder req.root = true ∨
            deletionPending { s with requests := s.requests.erase id' } req.root = true := by
          simpa [deletesInTime, hreq.lookup, hdel] using hok
        rcases hall with hnone | hother
        · have hsame := of_decide_eq_true (List.all_eq_true.mp hnone x hx) hr.symm
          rw [← hr] at hne
          exact absurd hsame hne
        · rw [hr] at hother
          exact deletionPending_mono (s := { s with requests := s.requests.erase id' }) rfl
            (fun _ _ hreq' _ _ => .inl hreq') (fun _ _ hjob _ => .inl (kept hjob)) hother
    · exact .inl (AList.lookup_erase_eq_some.mpr ⟨hid, hreq'⟩)

theorem Forgotten.endJob {host : Host W M} {s : Server M} (h : Forgotten host s) {id : Nat}
    {effective : Bool} {job : Job M} {write : Write} (hjob : s.HasJob id job)
    (hw : write = if effective then job.effect.write else .nothing)
    (hok : s.deletesInTime (.endJob id effective) = true) :
    Forgotten host { s with jobs := s.jobs.erase id, manifests := write.apply s.manifests } := by
  -- whatever else was to be deleted still is
  have kept : ∀ {root}, job.deletes root = false → s.deletionPending root = true →
      deletionPending { s with jobs := s.jobs.erase id, manifests := write.apply s.manifests }
        root = true := by
    intro root hd hp
    refine deletionPending_mono (s := s) rfl (fun _ _ hreq _ _ => .inl hreq)
      (fun id' job' hjob' hd' => .inl ?_) hp
    refine AList.lookup_erase_eq_some.mpr ⟨?_, hjob'⟩
    rintro rfl
    cases hjob.symm.trans hjob'
    rw [hd] at hd'
    cases hd'
  have erased : ∀ {id' job'}, (s.jobs.erase id).lookup id' = some job' → s.HasJob id' job' :=
    fun hjob' => (AList.lookup_erase_eq_some.mp hjob').2
  have hcases : (∃ root context fp epoch, job.effect = .store root context fp epoch ∧
        effective = true ∧ write = .store ⟨root, context, fp, epoch⟩) ∨
      (∃ root, job.effect = .forget root ∧ write = if effective then .forget root else .nothing) ∨
      (write = .nothing ∧ ∀ root, job.deletes root = false) := by
    cases heff : job.effect with
    | store root context fp epoch =>
      cases effective with
      | true => exact .inl ⟨root, context, fp, epoch, rfl, rfl, by rw [hw, heff]; rfl⟩
      | false => exact .inr (.inr ⟨hw, fun r => by simp [Job.deletes, heff]⟩)
    | forget root => exact .inr (.inl ⟨root, rfl, by rw [hw, heff]; rfl⟩)
    | nothing =>
      exact .inr (.inr ⟨by rw [hw, heff]; cases effective <;> rfl,
        fun r => by simp [Job.deletes, heff]⟩)
    | wake owner taken =>
      exact .inr (.inr ⟨by rw [hw, heff]; cases effective <;> rfl,
        fun r => by simp [Job.deletes, heff]⟩)
  refine ⟨fun id' job' hjob' => h.numbered id' job' (erased hjob'), h.persisting,
    fun id' job' root context fp epoch hjob' =>
      h.storing id' job' root context fp epoch (erased hjob'), fun x hx => ?_, fun x hx hne => ?_⟩
  · rcases hcases with ⟨root, context, fp, epoch, heff, _⟩ | ⟨root, _, rfl⟩ | ⟨rfl, _⟩
    · exact h.storing id job root context fp epoch hjob heff
    · cases effective with
      | true => exact h.stored x (List.mem_filter.mp hx).1
      | false => exact h.stored x hx
    · exact h.stored x hx
  · rcases hcases with ⟨root, context, fp, epoch, heff, rfl, rfl⟩ | ⟨root, heff, rfl⟩ | ⟨rfl, hd⟩
    · have hd : ∀ r, job.deletes r = false := fun r => by simp [Job.deletes, heff]
      rcases List.mem_cons.mp hx with rfl | hx
      · have hall : epoch = s.epoch root ∨ s.deletionPending root = true := by
          simpa [deletesInTime, show s.jobs.lookup id = some job from hjob, heff] using hok
        rcases hall with hsame | hp
        · exact absurd hsame hne
        · exact kept (hd root) hp
      · exact kept (hd x.root) (h.deleted x (List.mem_filter.mp hx).1 hne)
    · cases effective with
      | true =>
        obtain ⟨hx, hr⟩ := List.mem_filter.mp hx
        have hd : job.deletes x.root = false := by
          simp only [Bool.not_eq_true', decide_eq_false_iff_not] at hr
          simpa [Job.deletes, heff] using Ne.symm hr
        exact kept hd (h.deleted x hx hne)
      | false =>
        by_cases hr : x.root = root
        · have hall : s.noneOlder root = true ∨
              deletionPending { s with jobs := s.jobs.erase id } root = true := by
            simpa [deletesInTime, show s.jobs.lookup id = some job from hjob, heff] using hok
          rcases hall with hnone | hother
          · have hsame := of_decide_eq_true (List.all_eq_true.mp hnone x hx) hr
            rw [← hr] at hsame
            exact absurd hsame hne
          · rw [hr]
            exact hother
        · have hd : job.deletes x.root = false := by
            simpa [Job.deletes, heff] using Ne.symm hr
          exact kept hd (h.deleted x hx hne)
    · exact kept (hd x.root) (h.deleted x hx hne)

theorem Forgotten.step {host : Host W M} {s s' : Server M} {a : Action} (h : Forgotten host s)
    (hcur : Current s) (hc : Coherent s) (hok : s.deletesInTime a = true)
    (hs : Stepped host s a s') : Forgotten host s' := by
  cases hs with
  | edit => exact ⟨h.numbered, h.persisting, h.storing, h.stored, h.deleted⟩
  | tested => exact ⟨h.numbered, h.persisting, h.storing, h.stored, h.deleted⟩
  | evicted root context =>
    exact ⟨h.numbered, h.persisting, h.storing,
      fun x hx => h.stored x (List.mem_filter.mp hx).1,
      fun x hx => h.deleted x (List.mem_filter.mp hx).1⟩
  | arrived id root purpose hn =>
    refine ⟨h.numbered, ?_, h.storing, h.stored, fun x hx hne => ?_⟩
    · rintro id' t cp index ⟨req, hreq, hst⟩
      rcases AList.lookup_insert_eq_some.mp hreq with ⟨_, rfl⟩ | ⟨_, hold⟩
      · cases purpose <;> cases hst
      · exact h.persisting id' t cp index ⟨req, hold, hst⟩
    · refine deletionPending_mono (s := s) rfl (fun id' req hreq _ _ => .inl ?_)
        (fun _ _ hjob _ => .inl hjob) (h.deleted x hx hne)
      refine AList.lookup_insert_eq_some.mpr (.inr ⟨?_, hreq⟩)
      rintro rfl
      rw [hreq.lookup] at hn
      cases hn
  | advanced id req reply m hreq hm => exact h.take hcur hc hreq hm hok
  | cancelled id leavesJob req job hreq hjob => exact h.cancel hreq hjob hok
  | woke id effective job owner hjob he hfree =>
    refine ⟨?_, h.persisting, ?_, h.stored, fun x hx hne => ?_⟩
    · intro id' job' hjob'
      rcases AList.lookup_insert_eq_some.mp hjob' with ⟨rfl, _⟩ | ⟨_, hold⟩
      · exact h.numbered id' job hjob
      · exact h.numbered id' job' hold
    · intro id' job' root context fp epoch hjob' he'
      rcases AList.lookup_insert_eq_some.mp hjob' with ⟨_, rfl⟩ | ⟨_, hold⟩
      · cases he'
      · exact h.storing id' job' root context fp epoch hold he'
    · refine deletionPending_mono (s := s) rfl (fun _ _ hreq _ _ => .inl hreq)
        (fun id' job' hjob' hd => .inl ?_) (h.deleted x hx hne)
      refine AList.lookup_insert_eq_some.mpr (.inr ⟨?_, hjob'⟩)
      rintro rfl
      cases hjob.symm.trans hjob'
      simp only [Job.deletes, he, Bool.false_eq_true] at hd
  | ended id effective job write hjob hw => exact h.endJob hjob hw hok
  | left id req answer hreq hst =>
    refine ⟨h.numbered, ?_, h.storing, h.stored, fun x hx hne => ?_⟩
    · rintro id' t cp index ⟨req', hreq', hst'⟩
      exact h.persisting id' t cp index ⟨req', (AList.lookup_erase_eq_some.mp hreq').2, hst'⟩
    · refine deletionPending_mono (s := s) rfl (fun id' req' hreq' _ hd => .inl ?_)
        (fun _ _ hjob _ => .inl hjob) (h.deleted x hx hne)
      refine AList.lookup_erase_eq_some.mpr ⟨?_, hreq'⟩
      rintro rfl
      rw [Has, hreq.lookup] at hreq'
      cases hreq'
      simp only [deletes, hst, Bool.false_eq_true] at hd

end Server

end MavenMcp
