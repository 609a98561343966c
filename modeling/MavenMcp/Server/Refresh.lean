/-
# Refreshes

`refresh_project` and `invalidate_project` begin an epoch of the project: the generation changes
at once, the stored classpaths are deleted after it.

* `refresh_is_current`: in every run in which no build of the new generation finds an old manifest
  before it is deleted, no deletion is lost, and no cancelled request's write comes after the
  last deletion, every publication and every answer is of its own epoch, and no old manifest is
  left when the project's requests have ended.
* `refresh_is_outdated`: between the two halves of a refresh another request starts the new
  generation's build with the old manifest, and the refresh reports that index as its own.
-/
import MavenMcp.Server.Manifests

namespace MavenMcp

variable {W M : Type}

namespace Server

/-! ## 1. The condition -/

/-- While a deletion of the project is to come, no build of the present generation takes a stored
classpath of an earlier epoch. -/
def resolvesInTime (host : Host W M) (s : Server M) : Action → Bool
  | .advance id (.judged true) =>
    (s.requests.lookup id).all fun req =>
      match req.stage with
      | .building t .resolving =>
        !s.deletionPending req.root || !s.cache.isCurrent req.root t.generation ||
          (s.reusable host req t).all fun x => decide (x.epoch = s.epoch req.root)
      | _ => true
  | _ => true

def refreshesInTime (host : Host W M) (s : Server M) (a : Action) : Bool :=
  resolvesInTime host s a && s.deletesInTime a

/-- A manifest that is found is stored. -/
theorem mem_of_reusable {host : Host W M} {s : Server M} {req : Request M} {t : Ticket M}
    {x : ClasspathManifest} (h : s.reusable host req t = some x) :
    x ∈ s.manifests ∧ x.root = req.root := by
  have hfind := (Option.filter_eq_some_iff.mp h).1
  unfold manifest at hfind
  have hroot := List.find?_some hfind
  rw [decide_eq_true_eq] at hroot
  exact ⟨List.mem_of_find?_eq_some hfind, hroot.1⟩

/-- Without a deletion to come, there is no manifest of an earlier epoch to be found. -/
theorem Forgotten.resolvesAnew {host : Host W M} {s : Server M} (h : Forgotten host s) {a : Action}
    (hok : resolvesInTime host s a = true) : resolvesAnew host s a = true := by
  unfold Server.resolvesAnew
  split
  · rename_i id
    rw [Option.all_eq_true]
    intro req hreq
    split
    · rename_i t hst
      simp only [resolvesInTime, show s.requests.lookup id = some req from hreq, hst,
        Option.all_some, Bool.or_eq_true, Bool.not_eq_true'] at hok
      rw [Bool.or_eq_true, Bool.not_eq_true']
      rcases hok with (hnone | hgone) | hsame
      · refine .inr (Option.all_eq_true _ _ |>.mpr fun x hx => ?_)
        obtain ⟨hmem, hroot⟩ := mem_of_reusable hx
        by_contra hne
        rw [decide_eq_true_eq, ← hroot] at hne
        have hp := h.deleted x hmem hne
        rw [hroot, hnone] at hp
        cases hp
      · exact .inl hgone
      · exact .inr hsame
    · rfl
  · rfl

/-! ## 2. The theorem and the failure -/

/-- **A refresh is current.**  In every run that meets the condition: every index is published
with a classpath that Maven resolved in the epoch of its publication; every index a request gets,
a refresh's own among them, is at least of the epoch that the request began; and once no request
of a project is in flight and no deletion goes on without its request, no manifest of an earlier
epoch is stored. -/
theorem refresh_is_current (host : Host W M) {s : Server M}
    (hrun : Runs host (fun s a => refreshesInTime host s a = true) s) :
    (∀ p ∈ s.published, p.index.epoch = p.epoch) ∧
    (∀ id req i, s.Has id req → req.stage.answer = some i → req.epoch ≤ i.epoch) ∧
    ∀ root,
      (∀ id req, s.Has id req → req.root = root → ∃ answer, req.stage = .returned answer) →
      (∀ id job, s.HasJob id job → job.deletes root = false) →
      ∀ x ∈ s.manifests, x.root = root → x.epoch = s.epoch root := by
  have hinv : Coherent s ∧ Current s ∧ Forgotten host s ∧
      Serves (fun _ req i => req.epoch ≤ i.epoch) BuildStage.built s := by
    refine runs_invariant (P := fun s => Coherent s ∧ Current s ∧ Forgotten host s ∧
      Serves (fun _ req i => req.epoch ≤ i.epoch) BuildStage.built s)
      ⟨coherent_start host, current_start host, forgotten_start host, serves_start host _ _⟩ ?_ hrun
    rintro u a v ⟨hc, hcur, hf, hserves⟩ hok hs
    obtain ⟨hres, hdel⟩ := (Bool.and_eq_true _ _).mp hok
    exact ⟨hc.step hs, hcur.step hc (hf.resolvesAnew hres) hs, hf.step hcur hc hdel hs,
      hserves.step hc rfl (fun _ => rfl) (keeps_current hcur hc) hs⟩
  obtain ⟨_, hcur, hf, hserves⟩ := hinv
  refine ⟨hcur.published, hserves.answers, fun root hended hjobs x hx hroot => ?_⟩
  by_contra hne
  rw [← hroot] at hne
  have hp := hf.deleted x hx hne
  rw [hroot] at hp
  rcases deletionPending_iff.mp hp with ⟨id, req, hreq, hr, hd⟩ | ⟨id, job, hjob, hd⟩
  · obtain ⟨answer, hst⟩ := hended id req hreq hr
    simp only [deletes, hst, Bool.false_eq_true] at hd
  · rw [hjobs id job hjob] at hd
    cases hd

/-- A request builds and stores a classpath, leaves, and a refresh builds anew. -/
theorem refresh_is_current_of_refresh :
    let host := versionedHost ⟨4, 16, 100000000⟩
    ∃ s : Server Nat, ∃ req i, Runs host (fun s a => refreshesInTime host s a = true) s ∧
      s.Has 1 req ∧ req.stage.answer = some i ∧ req.epoch = 1 ∧ req.epoch ≤ i.epoch := by
  intro host
  have hplayed : (Steps.runWhile (step host) (refreshesInTime host) (start host)
      (List.flatten [[.arrive 0 [97] .index], List.replicate 8 (.advance 0 .done),
        [.advance 0 (.judged true), .advance 0 .done, .advance 0 (.maven .success),
          .advance 0 (.judged true), .advance 0 (.stamped ⟨[]⟩), .advance 0 .done,
          .advance 0 .done, .advance 0 (.indexed (.built 10 0 0) false), .advance 0 .done,
          .advance 0 (.took true), .advance 0 .done, .advance 0 .done, .leave 0,
          .arrive 1 [97] .refresh, .advance 1 .done, .advance 1 (.took true)],
        List.replicate 8 (.advance 1 .done),
        [.advance 1 (.judged true), .advance 1 .done, .advance 1 (.maven .success),
          .advance 1 (.judged true), .advance 1 (.stamped ⟨[]⟩), .advance 1 .done,
          .advance 1 .done, .advance 1 (.indexed (.built 10 0 0) false), .advance 1 .done,
          .advance 1 (.took true), .advance 1 .done, .advance 1 .done]])).bind (fun s =>
        (s.requests.lookup 1).map fun req => (req.epoch, req.stage.answer.map MavenIndex.epoch))
      = some (1, some 1) := by decide +kernel
  obtain ⟨s, hs, hreq⟩ := Option.bind_eq_some_iff.mp hplayed
  obtain ⟨req, hreq, hseen⟩ := Option.map_eq_some_iff.mp hreq
  obtain ⟨he, ha⟩ := Prod.mk.inj hseen
  obtain ⟨i, ha, _⟩ := Option.map_eq_some_iff.mp ha
  have hrun := Steps.reaches_of_runWhile _ hs
  exact ⟨s, req, i, hrun, hreq, ha, he, (refresh_is_current host hrun).2.1 1 req i hreq ha⟩

/-- The index that a refresh answered. -/
def refreshedOf (stage : Stage Nat) : Option MavenIndex :=
  match stage with
  | .returned (.ok (.refreshed index)) => some index
  | _ => none

theorem eq_of_refreshedOf {stage : Stage Nat} {index : MavenIndex}
    (h : refreshedOf stage = some index) : stage = .returned (.ok (.refreshed index)) := by
  unfold refreshedOf at h
  split at h
  · cases h
    rfl
  · cases h

/-- **A refresh can report an index of the old classpath.**  Request 0 stored a classpath.  Request
1 refreshes the project and awaits the deletion; request 2 begins the new generation's build, finds
the manifest and publishes.  The deletion ends, and the refresh is served request 2's index. -/
theorem refresh_is_outdated :
    let host := versionedHost ⟨4, 16, 100000000⟩
    ¬ ∀ s : Server Nat, Runs host (fun _ _ => True) s →
      (∀ p ∈ s.published, p.index.epoch = p.epoch) ∧
      ∀ id req i, s.Has id req → req.stage = .returned (.ok (.refreshed i)) →
        req.epoch ≤ i.epoch := by
  intro host h
  have hplayed : (Steps.runWhile (step host) (fun _ _ => true) (start host)
      (List.flatten [[.arrive 0 [97] .index], List.replicate 8 (.advance 0 .done),
        [.advance 0 (.judged true), .advance 0 .done, .advance 0 (.maven .success),
          .advance 0 (.judged true), .advance 0 (.stamped ⟨[]⟩), .advance 0 .done,
          .advance 0 .done, .advance 0 (.indexed (.built 10 0 0) false), .advance 0 .done,
          .advance 0 (.took true), .advance 0 .done, .advance 0 .done, .leave 0,
          .arrive 1 [97] .refresh, .advance 1 .done, .arrive 2 [97] .index],
        List.replicate 8 (.advance 2 .done),
        [.advance 2 (.judged true), .advance 2 (.stamped ⟨[]⟩), .advance 2 .done,
          .advance 2 .done, .advance 2 (.indexed (.built 10 0 0) false), .advance 2 .done,
          .advance 2 (.took true), .advance 2 .done, .advance 2 .done,
          .advance 1 (.took true)],
        List.replicate 3 (.advance 1 .done),
        [.advance 1 (.judged true), .advance 1 .done]])).bind (fun s =>
        (s.requests.lookup 1).bind fun req =>
          (refreshedOf req.stage).map fun i => (req.epoch, i.epoch))
      = some (1, 0) := by decide +kernel
  obtain ⟨s, hs, hreq⟩ := Option.bind_eq_some_iff.mp hplayed
  obtain ⟨req, hreq, hseen⟩ := Option.bind_eq_some_iff.mp hreq
  obtain ⟨i, hst, hseen⟩ := Option.map_eq_some_iff.mp hseen
  obtain ⟨he, hi⟩ := Prod.mk.inj hseen
  have hle := (h s ((Steps.reaches_of_runWhile _ hs).mono fun _ _ _ => trivial)).2 1 req i hreq
    (eq_of_refreshedOf hst)
  omega

end Server

end MavenMcp
