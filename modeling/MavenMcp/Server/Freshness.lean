/-
# Fresh answers

`index_for` looks its index up under a fingerprint that described the files during the request;
the build it runs or joins reads the files again before it publishes.  An index is fresh for a
request when its fingerprint described the files at some moment since the request began.

* `answer_is_fresh`: every index a request gets is fresh for it, in every run in which no lookup
  joins a build that has already found its own, different, fingerprint current and is about to
  publish.
* `answer_is_stale`: such a lookup happens.  A different fingerprint invalidates the running build
  only where `install_runner` replaces a runner, and another project may have evicted it.
-/
import MavenMcp.Server.Answers

namespace MavenMcp

open ProjectCache (Op performAll)

variable {W M : Type}

/-- A fingerprint the request found current, and will look up. -/
def Stage.claim : Stage M → Option ProjectFingerprint
  | .runner (.installing _ _ fp) => some fp
  | .looking snapshot => some snapshot.fingerprint
  | _ => none

/-- The index of a build that has found its fingerprint current. -/
def BuildStage.checked : BuildStage → Option (Arc MavenIndex)
  | .publishing _ _ _ index _ _ false => some index
  | b => b.built

theorem BuildStage.checked_of_built {b : BuildStage} {index : Arc MavenIndex}
    (h : b.built = some index) : b.checked = some index := by
  cases b with
  | publishing => cases h
  | _ => exact h

namespace Server

/-! ## 1. Fresh fingerprints -/

/-- The fingerprint described the files at a moment since the request began. -/
def Fresh (host : Host W M) (s : Server M) (fp : ProjectFingerprint) (req : Request M) : Prop :=
  ∃ t, req.begun ≤ t ∧ t ≤ s.now ∧ fp.isCurrent (host.stat (host.files t)) = true

theorem Fresh.later {host : Host W M} {s s' : Server M} {fp : ProjectFingerprint}
    {req : Request M} (h : Fresh host s fp req) (hn : s.now ≤ s'.now) : Fresh host s' fp req := by
  obtain ⟨t, hb, ht, hc⟩ := h
  exact ⟨t, hb, Nat.le_trans ht hn, hc⟩

/-- What describes the files now is fresh for every request. -/
theorem fresh_of_describes {host : Host W M} {s : Server M} {fp : ProjectFingerprint}
    {req : Request M} (h : s.describes host fp = true) (hb : req.begun ≤ s.now) :
    Fresh host s fp req :=
  ⟨s.now, hb, Nat.le_refl _, h⟩

theorem claim_afterInvalidation (req : Request M) : req.afterInvalidation.claim = none := by
  unfold Request.afterInvalidation
  split <;> rfl

theorem claim_withRunner {req : Request M} {snapshot : Snapshot M} {fp : ProjectFingerprint}
    (h : (req.withRunner snapshot).claim = some fp) : fp = snapshot.fingerprint := by
  unfold Request.withRunner at h
  split at h
  · cases h
  · exact (Option.some.inj h).symm

/-- **A claim is made when the fingerprint describes the files**, or it is kept. -/
theorem claim_of_moves {host : Host W M} {s : Server M} {req : Request M} {reply : Reply}
    {m : Move M} (h : Moves host s req req.stage reply m) {fp : ProjectFingerprint}
    (hc : m.stage.claim = some fp) :
    req.stage.claim = some fp ∨ s.describes host fp = true := by
  generalize hst : req.stage = stage at h
  cases h with
  | runner stage =>
    cases stage with
    | checking cached =>
      cases cached with
      | none => cases hc
      | some snapshot =>
        simp only [projectRunner] at hc
        split at hc
        · cases hc
        · split at hc
          · rename_i hd
            rw [claim_withRunner hc]
            exact .inr hd
          · cases hc
    | discovering cached =>
      simp only [projectRunner] at hc
      split at hc <;> cases hc
    | capturing cached runner =>
      cases hc
      exact .inr (isCurrent_capture _ _)
    | installing cached runner fp' => exact .inl (congrArg some (claim_withRunner hc).symm)
    | snapshot => cases hc
    | discarding cached error => cases hc
  | index h =>
    cases h with
    | invalidates =>
      simp only at hc
      split at hc
      · cases hc
      · rw [claim_afterInvalidation] at hc
        cases hc
    | forgot effective =>
      rw [claim_afterInvalidation] at hc
      cases hc
    | outdated =>
      simp only at hc
      rcases stage_again req with h | ⟨e, h⟩ <;> rw [h] at hc <;> cases hc
    | resolved t outcome hf =>
      rcases stage_resolved req outcome with ⟨i, _, h⟩ | h | ⟨e, h⟩ <;> rw [h] at hc <;> cases hc
    | _ => cases hc
  | build h =>
    cases h with
    | filled outcome =>
      simp only at hc
      rcases stage_resolved req outcome with ⟨i, _, h⟩ | h | ⟨e, h⟩ <;> rw [h] at hc <;> cases hc
    | _ => cases hc

/-! ## 2. The invariant -/

/-- Requests began in the past and rely on fresh fingerprints; indexes carry the fingerprint they
were built for. -/
structure Timely (host : Host W M) (s : Server M) : Prop where
  began : ∀ id req, s.Has id req → req.begun ≤ s.now
  claims : ∀ id req fp, s.Has id req → req.stage.claim = some fp → Fresh host s fp req
  entries : ∀ r st e, s.cache.get r = some st → st.index = some e →
    e.index.val.project = e.project
  publishes : ∀ id t cp artifacts reservation index reused built changed,
    s.Builds id t (.publishing cp artifacts reservation index reused built changed) →
    index.val.project = t.snapshot.fingerprint

theorem timely_start (host : Host W M) : Timely host (start host) where
  began := by
    intro id req h
    cases h
  claims := by
    intro id req fp h
    cases h
  entries := by
    intro r st e h
    cases h
  publishes := by
    rintro id t cp artifacts reservation index reused built changed ⟨req, h, _⟩
    cases h

/-- Requests may go, and new ones come. -/
theorem Timely.frame {host : Host W M} {s s' : Server M} (h : Timely host s)
    (hc : s'.cache = s.cache) (hn : s.now ≤ s'.now)
    (hreq : ∀ id req, s'.Has id req →
      s.Has id req ∨ (req.begun ≤ s'.now ∧ req.stage.claim = none ∧ req.ticket = none)) :
    Timely host s' where
  began := by
    intro id req hreq'
    rcases hreq id req hreq' with hold | ⟨hb, _⟩
    · exact Nat.le_trans (h.began id req hold) hn
    · exact hb
  claims := by
    intro id req fp hreq' hclaim
    rcases hreq id req hreq' with hold | ⟨_, hnone, _⟩
    · exact (h.claims id req fp hold hclaim).later hn
    · rw [hnone] at hclaim
      cases hclaim
  entries := by
    rw [hc]
    exact h.entries
  publishes := by
    rintro id t cp artifacts reservation index reused built changed ⟨req, hreq', hst⟩
    rcases hreq id req hreq' with hold | ⟨_, _, hnone⟩
    · exact h.publishes id t _ _ _ _ _ _ _ ⟨req, hold, hst⟩
    · simp only [Request.ticket, hst, Stage.ticket, reduceCtorEq] at hnone

theorem Timely.take {host : Host W M} {s : Server M} (h : Timely host s) {id : Nat}
    {req : Request M} {reply : Reply} {m : Move M} (hreq : s.Has id req)
    (hm : Moves host s req req.stage reply m) : Timely host (s.take id req m) where
  began := by
    intro id' req' hreq'
    rcases has_take.mp hreq' with ⟨rfl, rfl⟩ | ⟨_, hold⟩
    · exact h.began id' req hreq
    · exact h.began id' req' hold
  claims := by
    intro id' req' fp hreq' hclaim
    rcases has_take.mp hreq' with ⟨rfl, rfl⟩ | ⟨_, hold⟩
    · rcases claim_of_moves hm hclaim with hold | hnow
      · exact h.claims id' req fp hreq hold
      · exact fresh_of_describes hnow (h.began id' req hreq)
    · exact h.claims id' req' fp hold hclaim
  entries := by
    intro r st e hs he
    rcases index_of_moves hm hs he with ⟨st₀, hst₀, he₀, _⟩ |
      ⟨rfl, t, cp, artifacts, reservation, index, reused, built, hst, rfl, hp, _⟩
    · exact h.entries r st₀ e hst₀ he₀
    · rw [hp]
      exact h.publishes id t _ _ _ _ _ _ _ ⟨req, hreq, hst⟩
  publishes := by
    intro id' t cp artifacts reservation index reused built changed hb
    rcases builds_of_moves hm hb with ⟨_, hold⟩ | ⟨rfl, hst', ⟨hlock, _⟩ | ⟨b₀, hst, hbm⟩⟩
    · exact h.publishes id' t _ _ _ _ _ _ _ hold
    · cases hlock
    · exact (indexed_of_moves hbm hst').2.2.1

theorem Timely.step {host : Host W M} {s s' : Server M} {a : Action} (h : Timely host s)
    (hs : Stepped host s a s') : Timely host s' := by
  cases hs with
  | edit => exact h.frame rfl (Nat.le_succ _) fun _ _ hreq => .inl hreq
  | evicted => exact h.frame rfl (Nat.le_refl _) fun _ _ hreq => .inl hreq
  | tested => exact h.frame rfl (Nat.le_refl _) fun _ _ hreq => .inl hreq
  | arrived id root purpose hn =>
    refine h.frame rfl (Nat.le_refl _) fun id' req hreq => ?_
    rcases AList.lookup_insert_eq_some.mp hreq with ⟨_, rfl⟩ | ⟨_, hold⟩
    · refine .inr ⟨Nat.le_refl _, ?_⟩
      cases purpose <;> exact ⟨rfl, rfl⟩
    · exact .inl hold
  | advanced id req reply m hreq hm => exact h.take hreq hm
  | cancelled id leavesJob req job hreq hjob =>
    exact h.frame rfl (Nat.le_refl _) fun _ _ hreq' => .inl (AList.lookup_erase_eq_some.mp hreq').2
  | woke => exact h.frame rfl (Nat.le_refl _) fun _ _ hreq => .inl hreq
  | ended => exact h.frame rfl (Nat.le_refl _) fun _ _ hreq => .inl hreq
  | left id req answer hreq hst =>
    exact h.frame rfl (Nat.le_refl _) fun _ _ hreq' => .inl (AList.lookup_erase_eq_some.mp hreq').2

/-! ## 3. What a lookup may join -/

/-- A build of the cell found another fingerprint current and is about to publish. -/
def decidedOther (s : Server M) (cell : Nat) (fp : ProjectFingerprint) : Bool :=
  s.requests.values.any fun req =>
    match req.stage with
    | .building t (.publishing _ _ _ index _ _ false) =>
      decide (t.cell = cell ∧ index.val.project ≠ fp)
    | _ => false

/-- No lookup joins a build that has found another fingerprint current: the cell in a marker of
the present generation, with no index cached, is not that of such a build. -/
def joinsInTime (s : Server M) : Action → Bool
  | .advance id _ =>
    (s.requests.lookup id).all fun req =>
      match req.stage with
      | .looking snapshot =>
        (s.cache.get req.root).all fun st =>
          st.index.isSome || st.inFlight.all fun mk =>
            decide (mk.generation ≠ st.generation) || !s.decidedOther mk.cell snapshot.fingerprint
      | _ => true
  | _ => true

theorem project_of_joinsInTime {s : Server M} {id id' : Nat} {reply : Reply} {req : Request M}
    {snapshot : Snapshot M} {st : ProjectState (MavenRunner M) MavenIndex} {mk : InFlight}
    {t : Ticket M} {b : BuildStage} {index : Arc MavenIndex}
    (hok : s.joinsInTime (.advance id reply) = true) (hreq : s.Has id req)
    (hst : req.stage = .looking snapshot) (hget : s.cache.get req.root = some st)
    (hi : st.index = none) (hmk : st.inFlight = some mk) (hg : mk.generation = st.generation)
    (hb : s.Builds id' t b) (hcell : t.cell = mk.cell) (hopen : b.settled = false)
    (hd : b.checked = some index) : index.val.project = snapshot.fingerprint := by
  simp only [joinsInTime, hreq.lookup, hst, hget, hi, hmk, hg, Option.all_some, Option.isSome_none,
    ne_eq, not_true_eq_false, decide_false, Bool.false_or, Bool.not_eq_true'] at hok
  obtain ⟨req', hreq', hst'⟩ := hb
  rw [decidedOther, List.any_eq_false] at hok
  have hno := hok req' (AList.mem_values.mpr ⟨id', hreq'⟩)
  cases b with
  | publishing cp artifacts reservation index' reused built changed =>
    cases changed with
    | true => cases hd
    | false =>
      cases hd
      simpa [hst', hcell] using hno
  | finished outcome => cases hopen
  | persisting cp index' => cases hopen
  | rechecking index' => cases hopen
  | forgetting index' => cases hopen
  | _ => cases hd

/-! ## 4. Every answer is fresh -/

theorem keeps_fresh {host : Host W M} {s s' : Server M} {a : Action} (h : Timely host s)
    (hok : s.joinsInTime a = true) (hs : Stepped host s a s') :
    Keeps host (fun s req i => Fresh host s i.project req) BuildStage.checked s s' a where
  later := by
    intro id req i _ hf
    exact hf.later hs.now_le
  moved := fun _ _ _ _ hf => hf
  cached := by
    intro id req snapshot st e hreq hst hget he hfp
    rw [h.entries req.root st e hget he, hfp]
    exact (h.claims id req _ hreq (by rw [hst]; rfl)).later hs.now_le
  decides := by
    intro id req reply t b b' m index hreq hst hbm hst' hd
    have hpast : b'.built = some index → b.checked = some index := by
      intro hb
      rcases built_of_moves hbm hst' hb with hold |
        ⟨cp, artifacts, reservation, reused, built, rfl, _⟩
      · rw [BuildStage.checked_of_built hold]
      · rfl
    cases b' with
    | publishing cp artifacts reservation index' reused built changed =>
      cases changed with
      | true => cases hd
      | false =>
        cases hd
        obtain ⟨_, _, hp, _, hcur⟩ := indexed_of_moves hbm hst'
        refine .inr fun req' ⟨id', _, hreq', _⟩ => ?_
        rw [hp]
        exact (fresh_of_describes (hcur rfl) (h.began id' req' hreq')).later hs.now_le
    | _ => exact .inl (hpast hd)
  joins := by
    intro id req reply snapshot st mk id' t b index ha hreq hst hget hi hmk hg hb hcell hopen hd
    subst ha
    rw [project_of_joinsInTime hok hreq hst hget hi hmk hg hb hcell hopen hd]
    exact (h.claims id req _ hreq (by rw [hst]; rfl)).later hs.now_le

/-- **Every answer is fresh.**  In every run in which no lookup joins a build that has found another
fingerprint current, every index that a request holds for its caller was built for a fingerprint
that described the files at some moment since the request began. -/
theorem answer_is_fresh (host : Host W M) {s : Server M}
    (hrun : Runs host (fun s a => s.joinsInTime a = true) s) {id : Nat} {req : Request M}
    (hreq : s.Has id req) {i : MavenIndex} (ha : req.stage.answer = some i) :
    ∃ t, req.begun ≤ t ∧ t ≤ s.now ∧ i.project.isCurrent (host.stat (host.files t)) = true := by
  have hinv : Coherent s ∧ Timely host s ∧
      Serves (fun s req i => Fresh host s i.project req) BuildStage.checked s := by
    refine runs_invariant (P := fun s => Coherent s ∧ Timely host s ∧
      Serves (fun s req i => Fresh host s i.project req) BuildStage.checked s)
      ⟨coherent_start host, timely_start host, serves_start host _ _⟩ ?_ hrun
    rintro u a v ⟨hc, ht, hserves⟩ hok hs
    exact ⟨hc.step hs, ht.step hs, hserves.step hc rfl (fun _ => rfl) (keeps_fresh ht hok hs) hs⟩
  exact hinv.2.2.answers id req i hreq ha

/-- After an edit, a request builds an index of the files as they are, and returns it. -/
theorem answer_is_fresh_of_build :
    let host := versionedHost ⟨1, 4, 20000⟩
    ∃ s : Server Nat, ∃ req, s.Has 0 req ∧ req.begun = 1 ∧
      ∃ i, req.stage.answer = some i ∧
        ∃ t, req.begun ≤ t ∧ t ≤ s.now ∧ i.project.isCurrent (host.stat (host.files t)) = true := by
  intro host
  have hplayed : (Steps.runWhile (step host) joinsInTime (start host)
      (List.flatten [[.edit, .arrive 0 [97] .index], List.replicate 8 (.advance 0 .done),
        [.advance 0 (.judged true), .advance 0 .done, .advance 0 (.maven .success),
          .advance 0 (.judged true), .advance 0 (.stamped ⟨[]⟩), .advance 0 .done,
          .advance 0 .done, .advance 0 (.indexed (.built 10 0 0) false), .advance 0 .done,
          .advance 0 (.took true), .advance 0 .done, .advance 0 .done]])).bind (fun s =>
        (s.requests.lookup 0).map fun req => (req.begun, req.stage.answer))
      = some (1, some ⟨10, .capture (host.stat 1) [[112]], 0⟩) := by decide +kernel
  obtain ⟨s, hs, hreq⟩ := Option.bind_eq_some_iff.mp hplayed
  obtain ⟨req, hreq, hseen⟩ := Option.map_eq_some_iff.mp hreq
  obtain ⟨hb, ha⟩ := Prod.mk.inj hseen
  exact ⟨s, req, hreq, hb, _, ha,
    answer_is_fresh host (Steps.reaches_of_runWhile _ hs) hreq ha⟩

/-- **An answer can be stale.**  Request 0 takes its snapshot; another project evicts the runner;
request 0 looks up, builds and finds its fingerprint current.  The POM is edited before it
publishes.  Request 2 begins after the edit, installs the new runner, which replaces none, and
joins the build: it is given the index of the old POM. -/
theorem answer_is_stale :
    let host := versionedHost ⟨1, 4, 20000⟩
    ¬ ∀ s : Server Nat, Runs host (fun _ _ => True) s → ∀ id req i,
      s.Has id req → req.stage.answer = some i →
      ∃ t, req.begun ≤ t ∧ t ≤ s.now ∧ i.project.isCurrent (host.stat (host.files t)) = true := by
  intro host h
  have hplayed : (Steps.runWhile (step host) (fun _ _ => true) (start host)
      (List.flatten [[.arrive 0 [97] .index], List.replicate 5 (.advance 0 .done),
        [.arrive 1 [98] .runner], List.replicate 5 (.advance 1 .done), [.leave 1],
        List.replicate 3 (.advance 0 .done),
        [.advance 0 (.judged true), .advance 0 .done, .advance 0 (.maven .success),
          .advance 0 (.judged true), .advance 0 (.stamped ⟨[]⟩), .advance 0 .done,
          .advance 0 .done, .advance 0 (.indexed (.built 10 0 0) false), .edit,
          .arrive 2 [97] .index],
        List.replicate 6 (.advance 2 .done),
        [.advance 0 .done, .advance 0 (.took true), .advance 0 .done, .advance 0 .done,
          .advance 2 .done]])).bind (fun s =>
        (s.requests.lookup 2).map fun req => (s.now, req.begun, req.stage.answer))
      = some (1, 1, some ⟨10, .capture (host.stat 0) [[112]], 0⟩) := by decide +kernel
  obtain ⟨s, hs, hreq⟩ := Option.bind_eq_some_iff.mp hplayed
  obtain ⟨req, hreq, hseen⟩ := Option.map_eq_some_iff.mp hreq
  simp only [Prod.mk.injEq] at hseen
  obtain ⟨hnow, hb, ha⟩ := hseen
  obtain ⟨t, hle, hge, hc⟩ :=
    h s ((Steps.reaches_of_runWhile _ hs).mono fun _ _ _ => trivial) 2 req _ hreq ha
  obtain rfl : t = 1 := by omega
  revert hc
  decide +kernel

end Server

end MavenMcp
