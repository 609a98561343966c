/-
# No lost revalidation

`project_runner` serves a cached runner while its mark is clear and its fingerprint describes the
files, and otherwise reads the project again: discovery first, then the fingerprint, then
`install_runner`, which clears the mark.  Nothing holds these three steps together.

* `runner_is_valid`: a runner that the cache serves as valid was read after the last invalidation
  and agrees with its fingerprint, in every run in which no POM change comes between the two
  reads of a request and no invalidation between its discovery and its installation.
* `revalidation_lost`: an edit between the two reads leaves, under the new fingerprint, a runner
  whose model was read from the old POM, and the cache serves it as valid.
-/
import MavenMcp.Server.Moves

namespace MavenMcp

open ProjectCache (Op performAll)

variable {W M : Type}

namespace Server

/-! ## 1. What an entry owes -/

/-- At one moment until now, discovery and fingerprint of the project were these. -/
def Agrees (host : Host W M) (s : Server M) (root : PathBuf) (project : M)
    (fp : ProjectFingerprint) : Prop :=
  ∃ t ≤ s.now, host.discover root (host.files t) = .ok project ∧
    fp = .capture (host.stat (host.files t)) (host.fingerprintPaths project)

/-- What was so once is so later. -/
theorem Agrees.later {host : Host W M} {s s' : Server M} {root : PathBuf} {project : M}
    {fp : ProjectFingerprint} (h : Agrees host s root project fp) (hn : s.now ≤ s'.now) :
    Agrees host s' root project fp := by
  obtain ⟨t, ht, hd, hf⟩ := h
  exact ⟨t, Nat.le_trans ht hn, hd, hf⟩

/-- Unmarked entries are of the present epoch and agree with their fingerprints; so does what a
request is about to install. -/
structure Revalidated (host : Host W M) (s : Server M) : Prop where
  entries : ∀ r st e, s.cache.get r = some st → st.runner = some e → e.revalidate = false →
    e.runner.val.epoch = s.epoch r ∧ Agrees host s r e.runner.val.project e.fingerprint
  installs : ∀ id req cached runner fp, s.Has id req →
    req.stage = .runner (.installing cached runner fp) →
    Agrees host s req.root runner.val.project fp

theorem revalidated_start (host : Host W M) : Revalidated host (start host) where
  entries := by
    intro r st e hs
    cases hs
  installs := by
    intro id req cached runner fp hreq
    cases hreq

/-- Nothing that `Revalidated` reads got worse. -/
theorem Revalidated.frame {host : Host W M} {s s' : Server M} (h : Revalidated host s)
    (hc : s'.cache = s.cache) (he : s'.epoch = s.epoch) (hn : s.now ≤ s'.now)
    (hr : ∀ id req cached runner fp, s'.Has id req →
      req.stage = .runner (.installing cached runner fp) → s.Has id req) :
    Revalidated host s' where
  entries := by
    intro r st e hs hrun hv
    rw [hc] at hs
    obtain ⟨hepoch, ha⟩ := h.entries r st e hs hrun hv
    rw [he]
    exact ⟨hepoch, ha.later hn⟩
  installs := by
    intro id req cached runner fp hreq hst
    exact (h.installs id req cached runner fp (hr id req cached runner fp hreq hst) hst).later hn

/-! ## 2. What a step installs and invalidates -/

/-- Only a request at that stage installs a runner, and exactly the one it holds. -/
theorem installs_of_moves {host : Host W M} {s : Server M} {req : Request M} {reply : Reply}
    {m : Move M} (h : Moves host s req req.stage reply m) {r : PathBuf}
    {runner : Arc (MavenRunner M)} {fp : ProjectFingerprint}
    (hop : .installRunner r runner fp ∈ m.ops) :
    r = req.root ∧ ∃ cached, req.stage = .runner (.installing cached runner fp) := by
  generalize hst : req.stage = stage at h
  cases h with
  | runner stage =>
    cases stage with
    | checking cached =>
      simp only [projectRunner] at hop
      split at hop
      · split at hop
        · cases hop
        · split at hop <;> cases hop
      · cases hop
    | discovering cached =>
      simp only [projectRunner] at hop
      split at hop <;> cases hop
    | installing cached runner' fp' =>
      simp only [projectRunner, List.mem_singleton, Op.installRunner.injEq] at hop
      obtain ⟨rfl, rfl, rfl⟩ := hop
      exact ⟨rfl, cached, rfl⟩
    | _ => simp [projectRunner] at hop
  | index h =>
    cases h with
    | invalidates =>
      simp only [List.mem_cons, reduceCtorEq, false_or] at hop
      split at hop <;> simp at hop
    | _ => simp at hop
  | build h =>
    cases h with
    | publishedStale =>
      simp only [persistedUse, publication] at hop
      split at hop <;> simp at hop
    | published =>
      simp only [persistedUse, publication] at hop
      split at hop <;> simp at hop
    | _ => simp at hop

/-- A section that begins an epoch invalidates its root. -/
theorem invalidates_of_moves {host : Host W M} {s : Server M} {req : Request M} {reply : Reply}
    {m : Move M} (h : Moves host s req req.stage reply m) (hi : m.invalidates = true) :
    .invalidateAfterMaven req.root ∈ m.ops := by
  generalize req.stage = stage at h
  cases h with
  | runner stage => simp [(projectRunner_frame host s req stage).1] at hi
  | index h =>
    cases h with
    | invalidates => exact List.mem_cons_self
    | outdated => simp [(again_frame req).1] at hi
    | _ => simp at hi
  | build h =>
    cases h with
    | _ => simp at hi

/-- Whatever a request does next, it is about to install a runner only with the fingerprint it
has just captured. -/
theorem installing_of_moves {host : Host W M} {s : Server M} {req : Request M} {reply : Reply}
    {m : Move M} (h : Moves host s req req.stage reply m) {cached : Option (Snapshot M)}
    {runner : Arc (MavenRunner M)} {fp : ProjectFingerprint}
    (hst : m.stage = .runner (.installing cached runner fp)) :
    req.stage = .runner (.capturing cached runner) ∧
      fp = .capture (host.stat (s.disk host)) (host.fingerprintPaths runner.val.project) := by
  generalize hreq : req.stage = stage at h
  cases h with
  | runner stage =>
    cases stage with
    | checking c =>
      simp only [projectRunner] at hst
      split at hst
      · split at hst
        · cases hst
        · split at hst
          · simp only [Request.withRunner] at hst
            split at hst <;> cases hst
          · cases hst
      · cases hst
    | discovering c =>
      simp only [projectRunner] at hst
      split at hst <;> cases hst
    | installing c ru f =>
      simp only [projectRunner, Request.withRunner] at hst
      split at hst <;> cases hst
    | capturing c ru =>
      simp only [projectRunner] at hst
      cases hst
      exact ⟨rfl, rfl⟩
    | discarding c e =>
      simp only [projectRunner, Request.refused] at hst
      cases hst
    | snapshot =>
      simp only [projectRunner] at hst
      cases hst
  | index h =>
    cases h with
    | invalidates =>
      simp only [Request.afterInvalidation] at hst
      split at hst
      · cases hst
      · split at hst <;> cases hst
    | forgot =>
      simp only [Request.afterInvalidation] at hst
      split at hst <;> cases hst
    | outdated =>
      simp only at hst
      rcases stage_again req with h | ⟨e, h⟩ <;> rw [h] at hst <;> cases hst
    | resolved t outcome _ =>
      rcases stage_resolved req outcome with ⟨i, _, h⟩ | h | ⟨e, h⟩ <;> rw [h] at hst <;> cases hst
    | refused => simp [Request.refused] at hst
    | hit => simp [Request.answered] at hst
    | _ => cases hst
  | build h =>
    cases h with
    | filled outcome =>
      rcases stage_resolved req outcome with ⟨i, _, h⟩ | h | ⟨e, h⟩ <;>
        simp only [h] at hst <;> cases hst
    | _ => cases hst

/-! ## 3. The invariant -/

/-- The two reads of `project_runner` and its installation belong together: when a request
captures the fingerprint, the POMs are still those it discovered, and when it installs the
runner, the project was not invalidated since. -/
def readsTogether [DecidableEq M] (host : Host W M) (s : Server M) : Action → Bool
  | .advance id _ =>
    (s.requests.lookup id).all fun req =>
      match req.stage with
      | .runner (.capturing _ runner) =>
        match host.discover req.root (s.disk host) with
        | .ok project => decide (project = runner.val.project)
        | .error _ => false
      | .runner (.installing _ runner _) => decide (runner.val.epoch = s.epoch req.root)
      | _ => true
  | _ => true

variable [DecidableEq M]

theorem capturing_of_readsTogether {host : Host W M} {s : Server M} {id : Nat} {reply : Reply}
    (h : readsTogether host s (.advance id reply) = true) {req : Request M} (hreq : s.Has id req)
    {cached : Option (Snapshot M)} {runner : Arc (MavenRunner M)}
    (hst : req.stage = .runner (.capturing cached runner)) :
    host.discover req.root (s.disk host) = .ok runner.val.project := by
  simp only [readsTogether, hreq.lookup, Option.all_some, hst] at h
  split at h
  · rename_i project hd
    rw [hd, of_decide_eq_true h]
  · cases h

theorem installing_of_readsTogether {host : Host W M} {s : Server M} {id : Nat} {reply : Reply}
    (h : readsTogether host s (.advance id reply) = true) {req : Request M} (hreq : s.Has id req)
    {cached : Option (Snapshot M)} {runner : Arc (MavenRunner M)} {fp : ProjectFingerprint}
    (hst : req.stage = .runner (.installing cached runner fp)) :
    runner.val.epoch = s.epoch req.root := by
  simpa only [readsTogether, hreq.lookup, Option.all_some, hst, decide_eq_true_eq] using h

/-- **A step of a request keeps the invariant.** -/
theorem Revalidated.take {host : Host W M} {s : Server M} (h : Revalidated host s) {id : Nat}
    {req : Request M} {reply : Reply} {m : Move M} (hreq : s.Has id req)
    (hm : Moves host s req req.stage reply m)
    (hok : readsTogether host s (.advance id reply) = true) :
    Revalidated host (s.take id req m) where
  entries := by
    intro r st e hs hrun hv
    rcases ProjectCache.runner_performAll hrun hv (c := s.cache) hs with
      ⟨hn, st₀, hst₀, hrun₀⟩ | ⟨runner, fp, hop, rfl⟩
    · obtain ⟨hepoch, ha⟩ := h.entries r st₀ e hst₀ hrun₀ hv
      refine ⟨?_, ha.later (Nat.le_refl _)⟩
      rw [hepoch]
      unfold Server.take
      by_cases hi : m.invalidates = true
      · -- the section invalidated its own root, so the entry is another root's
        have hne : r ≠ req.root := by
          rintro rfl
          exact hn (invalidates_of_moves hm hi)
        simp only [hi, if_true, Function.update_of_ne hne]
      · simp only [hi]
        rfl
    · obtain ⟨rfl, cached, hst⟩ := installs_of_moves hm hop
      have hepoch := installing_of_readsTogether hok hreq hst
      refine ⟨?_, (h.installs id req cached runner fp hreq hst).later (Nat.le_refl _)⟩
      have hi : m.invalidates = false := by
        generalize req.stage = stage at hm hst
        subst hst
        cases hm with
        | runner => exact (projectRunner_frame host s req _).1
        | index h => cases h
      rw [hepoch]
      unfold Server.take
      simp only [hi]
      rfl
  installs := by
    intro id' req' cached runner fp hreq' hst
    rcases has_take.mp hreq' with ⟨rfl, rfl⟩ | ⟨_, hold⟩
    · obtain ⟨hcap, rfl⟩ := installing_of_moves hm hst
      exact ⟨s.now, Nat.le_refl _, capturing_of_readsTogether hok hreq hcap, rfl⟩
    · exact (h.installs id' req' cached runner fp hold hst).later (Nat.le_refl _)

theorem Revalidated.step {host : Host W M} {s s' : Server M} {a : Action}
    (h : Revalidated host s) (hok : readsTogether host s a = true) (hs : Stepped host s a s') :
    Revalidated host s' := by
  cases hs with
  | edit => exact h.frame rfl rfl (Nat.le_succ _) fun _ _ _ _ _ hreq _ => hreq
  | evicted root context => exact h.frame rfl rfl (Nat.le_refl _) fun _ _ _ _ _ hreq _ => hreq
  | tested runner bytes => exact h.frame rfl rfl (Nat.le_refl _) fun _ _ _ _ _ hreq _ => hreq
  | arrived id root purpose hn =>
    refine h.frame rfl rfl (Nat.le_refl _) fun id' req cached runner fp hreq hst => ?_
    rcases AList.lookup_insert_eq_some.mp hreq with ⟨rfl, rfl⟩ | ⟨_, hold⟩
    · cases purpose <;> cases hst
    · exact hold
  | advanced id req reply m hreq hm => exact h.take hreq hm hok
  | cancelled id leavesJob req job hreq hjob =>
    exact h.frame rfl rfl (Nat.le_refl _) fun id' _ _ _ _ hreq' _ =>
      (AList.lookup_erase_eq_some.mp hreq').2
  | woke id effective job owner =>
    exact h.frame rfl rfl (Nat.le_refl _) fun _ _ _ _ _ hreq _ => hreq
  | ended id effective job write =>
    exact h.frame rfl rfl (Nat.le_refl _) fun _ _ _ _ _ hreq _ => hreq
  | left id req answer hreq hst =>
    exact h.frame rfl rfl (Nat.le_refl _) fun id' _ _ _ _ hreq' _ =>
      (AList.lookup_erase_eq_some.mp hreq').2

/-! ## 4. The theorem and the failure -/

/-- **No lost revalidation.**  In every run in which each request's discovery, capture and
installation belong together: a runner that the cache hands out with a clear mark was read after
the last invalidation of its project, and its model is what the POMs its fingerprint describes
said. -/
theorem runner_is_valid (host : Host W M) {s : Server M}
    (hrun : Runs host (fun s a => readsTogether host s a = true) s) {r : PathBuf}
    {e : Snapshot M} (he : (s.cache.runner r).2 = some e) (hv : e.revalidate = false) :
    e.runner.val.epoch = s.epoch r ∧ Agrees host s r e.runner.val.project e.fingerprint := by
  have hinv : Revalidated host s :=
    runs_invariant (revalidated_start host) (fun _ _ _ h hok hs => h.step hok hs) hrun
  rw [ProjectCache.runner_snd] at he
  obtain ⟨st, hst, hentry⟩ := Option.bind_eq_some_iff.mp he
  exact hinv.entries r st e hst hentry hv

/-- One request installs a runner, and the cache hands it out. -/
theorem runner_is_valid_of_install :
    let host := versionedHost ⟨1, 4, 100000⟩
    let s := (Steps.runWhile (step host) (readsTogether host) (start host)
      (.arrive 0 [97] .runner :: List.replicate 5 (.advance 0 .done))).get (by decide +kernel)
    s.describes host (.capture (host.stat 0) [[112]]) = true ∧
    Agrees host s [97] 0 (.capture (host.stat 0) [[112]]) := by
  intro host s
  have hrun : Runs host (fun s a => readsTogether host s a = true) s :=
    Steps.reaches_of_runWhile _ (Option.some_get _).symm
  have he : (s.cache.runner [97]).2
      = some ⟨⟨0, 0, 0⟩, .capture (host.stat 0) [[112]], false⟩ := by decide +kernel
  exact ⟨by decide +kernel, (runner_is_valid host hrun he rfl).2⟩

/-- **A revalidation can be lost.**  The POM changes between the discovery of a request and its
capture of the fingerprint: the cache then serves the old model as valid for the new POM. -/
theorem revalidation_lost :
    let host := versionedHost ⟨1, 4, 100000⟩
    ¬ ∀ s : Server Nat, Runs host (fun _ _ => True) s → ∀ r e,
      (s.cache.runner r).2 = some e → e.revalidate = false →
      s.describes host e.fingerprint = true →
      e.runner.val.epoch = s.epoch r ∧ Agrees host s r e.runner.val.project e.fingerprint := by
  intro host h
  let s := (Steps.runWhile (step host) (fun _ _ => true) (start host)
    (.arrive 0 [97] .runner :: List.replicate 3 (.advance 0 .done) ++
      [.edit, .advance 0 .done, .advance 0 .done])).get (by decide +kernel)
  have hrun : Runs host (fun _ _ => True) s :=
    (Steps.reaches_of_runWhile _ (Option.some_get _).symm).mono fun _ _ _ => trivial
  have he : (s.cache.runner [97]).2
      = some ⟨⟨0, 0, 0⟩, .capture (host.stat 1) [[112]], false⟩ := by decide +kernel
  obtain ⟨_, t, _, hd, hf⟩ := h s hrun [97] _ he rfl (by decide +kernel)
  -- the model is that of the first version, the fingerprint that of the second
  cases Except.ok.inj hd
  revert hf
  decide +kernel

end Server

end MavenMcp
