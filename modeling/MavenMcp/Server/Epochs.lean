/-
# Classpaths and epochs

`invalidate_after_maven` begins a new epoch of a project.  A build works with a classpath that
Maven resolved in the present epoch, or with a stored one; what it publishes goes to the cache
and to everybody on its cell.

`Current` says that nothing of an earlier epoch is served: a build of the present generation
works with a classpath of the present epoch, and so does every cached index.  It is kept as
long as builds of the present generation find no manifest of an earlier epoch
(`resolvesAnew`).  From it follow the publications (`Current.published`) and, through the rule
for answers, what every request gets (`keeps_current`).
-/
import MavenMcp.Server.Answers

namespace MavenMcp

open ProjectCache (Op performAll)

variable {W M : Type}

/-- The epoch of the classpath a build works with. -/
def BuildStage.classpathEpoch : BuildStage → Option Nat
  | .running _ epoch | .capturing _ epoch => some epoch
  | .stamping cp | .reserving cp _ | .asking cp _ _ | .indexing cp _ _ _
  | .publishing cp _ _ _ _ _ _ | .persisting cp _ => some cp.epoch
  | _ => none

namespace Server

/-! ## 1. What a step does to epochs -/

/-- **A build comes to its classpath** with a stored manifest or with a run of Maven, and keeps
it. -/
theorem classpathEpoch_of_moves {host : Host W M} {s : Server M} {req : Request M}
    {t t' : Ticket M} {b b' : BuildStage} {reply : Reply} {m : Move M}
    (h : BuildMoves host s req t b reply m) (hst : m.stage = .building t' b') {e : Nat}
    (he : b'.classpathEpoch = some e) :
    b.classpathEpoch = some e ∨ e = s.epoch req.root ∨
    (b = .resolving ∧ reply = .judged true ∧ ∃ x, s.reusable host req t = some x ∧
      x.epoch = e) := by
  cases h with
  | locked b₁ _ hb₁ =>
    cases hst
    rcases hb₁ with rfl | rfl <;> cases he
  | resolves b₁ hr =>
    cases hst
    cases hr with
    | reused x hx =>
      cases he
      exact .inr (.inr ⟨rfl, rfl, x, hx, rfl⟩)
    | started context =>
      cases he
      exact .inr (.inl rfl)
    | ran => exact .inl he
    | ranUncached => exact .inl he
    | captured => exact .inl he
    | _ => cases he
  | published cp artifacts reservation index reused built b₁ _ hb₁ =>
    cases hst
    rcases hb₁ with ⟨_, rfl⟩ | rfl
    · exact .inl he
    · cases he
  | filled outcome =>
    have hn := ticket_resolved req outcome
    rw [show (req.resolved outcome).stage = _ from hst] at hn
    cases hn
  | stamped =>
    cases hst
    exact .inl he
  | reserved =>
    cases hst
    exact .inl he
  | asked =>
    cases hst
    exact .inl he
  | indexed =>
    cases hst
    exact .inl he
  | _ =>
    cases hst
    cases he

/-- **An invalidation leaves nothing of the old generation**: no index, and no ticket is current. -/
theorem get_of_invalidates {host : Host W M} {s : Server M} {id : Nat} {req : Request M}
    {reply : Reply} {m : Move M} (h : Moves host s req req.stage reply m)
    (hi : m.invalidates = true) {st' : ProjectState (MavenRunner M) MavenIndex}
    (hs : (s.take id req m).cache.get req.root = some st') :
    st'.index = none ∧ s.cache.nextGeneration < st'.generation := by
  have hmaven := ProjectCache.get_invalidateAfterMaven_self s.held s.cache req.root
  -- the full-rebuild mark of a refresh keeps the state, or makes a new one
  have rebuilt : ∀ {c : ProjectCache (MavenRunner M) MavenIndex},
      c.get req.root = (s.cache.get req.root).map (fun st =>
        { st with
          generation := s.cache.nextGeneration + 1, inFlight := none, index := none,
          runner := st.runner.map fun entry => { entry with revalidate := true } }) →
      s.cache.nextGeneration ≤ c.nextGeneration →
      (c.requireFullRebuild req.root).get req.root = some st' →
      st'.index = none ∧ s.cache.nextGeneration < st'.generation := by
    intro c hc hn hs'
    rw [ProjectCache.get_requireFullRebuild_self, hc] at hs'
    cases Option.some.inj hs'
    cases s.cache.get req.root with
    | none => exact ⟨rfl, Nat.lt_succ_of_le hn⟩
    | some st => exact ⟨rfl, Nat.lt_succ_self _⟩
  generalize req.stage = stage at h
  cases h with
  | runner stage => simp [(projectRunner_frame host s req stage).1] at hi
  | index h =>
    cases h with
    | invalidates =>
      simp only [take] at hs
      split at hs
      · exact rebuilt hmaven (ProjectCache.nextGeneration_perform s.held s.cache
          (.invalidateAfterMaven req.root)) hs
      · obtain ⟨st, _, rfl⟩ := Option.map_eq_some_iff.mp (hmaven.symm.trans hs)
        exact ⟨rfl, Nat.lt_succ_self _⟩
    | outdated => simp [(again_frame req).1] at hi
    | _ => simp at hi
  | build h =>
    cases h with
    | _ => simp at hi

/-- A publication that is not stale was one of the present generation. -/
theorem isCurrent_of_publicationAnswer {host : Host W M} {s : Server M} {req : Request M}
    {t : Ticket M} {cp : ResolvedClasspath} {artifacts : ProjectFingerprint}
    {reservation reused built : Nat} {index : Arc MavenIndex}
    (hg : t.generation ≤ s.cache.nextGeneration)
    (h : s.publicationAnswer host req t cp artifacts reservation index reused built ≠ .stale) :
    s.cache.isCurrent req.root t.generation = true :=
  ProjectCache.isCurrent_of_performAll hg (ProjectCache.current_of_publish h)

/-- The epoch of a root after a step. -/
theorem epoch_take_of_not_invalidates {s : Server M} {id : Nat} {req : Request M} {m : Move M}
    (h : m.invalidates = false) : (s.take id req m).epoch = s.epoch := by
  simp only [take, h]
  rfl

theorem epoch_take_of_ne {s : Server M} {id : Nat} {req : Request M} {m : Move M} {r : PathBuf}
    (h : r ≠ req.root) : (s.take id req m).epoch r = s.epoch r := by
  simp only [take]
  split
  · exact Function.update_of_ne h _ _
  · rfl

theorem epoch_take_self {s : Server M} {id : Nat} {req : Request M} {m : Move M}
    (h : m.invalidates = true) : (s.take id req m).epoch req.root = s.epoch req.root + 1 := by
  simp only [take, h, if_true, Function.update_self]

theorem epoch_le_take (s : Server M) (id : Nat) (req : Request M) (m : Move M) (r : PathBuf) :
    s.epoch r ≤ (s.take id req m).epoch r := by
  by_cases hr : r = req.root
  · subst hr
    cases h : m.invalidates with
    | true =>
      rw [epoch_take_self h]
      exact Nat.le_succ _
    | false => rw [epoch_take_of_not_invalidates h]
  · rw [epoch_take_of_ne hr]

/-! ## 2. Nothing of an earlier epoch -/

/-- No build of the present generation takes a stored classpath of an earlier epoch. -/
def resolvesAnew (host : Host W M) (s : Server M) : Action → Bool
  | .advance id (.judged true) =>
    (s.requests.lookup id).all fun req =>
      match req.stage with
      | .building t .resolving =>
        !s.cache.isCurrent req.root t.generation ||
          (s.reusable host req t).all fun x => decide (x.epoch = s.epoch req.root)
      | _ => true
  | _ => true

theorem epoch_of_resolvesAnew {host : Host W M} {s : Server M} {id : Nat} {reply : Reply}
    {req : Request M} (hok : resolvesAnew host s (.advance id reply) = true) (hreq : s.Has id req)
    (hr : reply = .judged true) {t : Ticket M} {x : ClasspathManifest}
    (hst : req.stage = .building t .resolving) (hx : s.reusable host req t = some x)
    (hcur : s.cache.isCurrent req.root t.generation = true) : x.epoch = s.epoch req.root := by
  subst hr
  simpa [resolvesAnew, hreq.lookup, hst, hcur, hx] using hok

/-- **Nothing of an earlier epoch is served.** -/
structure Current (s : Server M) : Prop where
  requests : ∀ id req, s.Has id req → req.epoch ≤ s.epoch req.root
  classpaths : ∀ id req t b e, s.Has id req → req.stage = .building t b →
    b.classpathEpoch = some e → s.cache.isCurrent req.root t.generation = true →
    e = s.epoch req.root
  indexes : ∀ id t cp artifacts reservation index reused built changed,
    s.Builds id t (.publishing cp artifacts reservation index reused built changed) →
    index.val.epoch = cp.epoch
  entries : ∀ r st e, s.cache.get r = some st → st.index = some e →
    e.index.val.epoch = s.epoch r
  published : ∀ p ∈ s.published, p.index.epoch = p.epoch

theorem current_start (host : Host W M) : Current (start host) where
  requests := by
    intro id req h
    cases h
  classpaths := by
    intro id req t b e h
    cases h
  indexes := by
    rintro id t cp artifacts reservation index reused built changed ⟨req, h, _⟩
    cases h
  entries := by
    intro r st e h
    cases h
  published := by
    intro p hp
    cases hp

/-- Requests may go, and new ones come. -/
theorem Current.frame {s s' : Server M} (h : Current s) (hc : s'.cache = s.cache)
    (he : s'.epoch = s.epoch) (hp : s'.published = s.published)
    (hreq : ∀ id req, s'.Has id req →
      s.Has id req ∨ (req.epoch ≤ s.epoch req.root ∧ req.ticket = none)) : Current s' where
  requests := by
    intro id req hreq'
    rw [he]
    rcases hreq id req hreq' with hold | ⟨hle, _⟩
    · exact h.requests id req hold
    · exact hle
  classpaths := by
    intro id req t b e hreq' hst
    rw [hc, he]
    rcases hreq id req hreq' with hold | ⟨_, hn⟩
    · exact h.classpaths id req t b e hold hst
    · simp only [Request.ticket, hst, Stage.ticket, reduceCtorEq] at hn
  indexes := by
    rintro id t cp artifacts reservation index reused built changed ⟨req, hreq', hst⟩
    rcases hreq id req hreq' with hold | ⟨_, hn⟩
    · exact h.indexes id t _ _ _ _ _ _ _ ⟨req, hold, hst⟩
    · simp only [Request.ticket, hst, Stage.ticket, reduceCtorEq] at hn
  entries := by
    rw [hc, he]
    exact h.entries
  published := by
    rw [hp]
    exact h.published

/-- A ticket that is current after a step was current before, and its root was not invalidated. -/
theorem current_of_take {host : Host W M} {s : Server M} (hc : Coherent s) {id : Nat}
    {req : Request M} {reply : Reply} {m : Move M} (hm : Moves host s req req.stage reply m)
    {r : PathBuf} {t : Ticket M} (hparty : s.Party r t)
    (h : (s.take id req m).cache.isCurrent r t.generation = true) :
    s.cache.isCurrent r t.generation = true ∧ (s.take id req m).epoch r = s.epoch r := by
  have hg := (hc.issued r t hparty).2.2
  refine ⟨ProjectCache.isCurrent_of_performAll hg h, ?_⟩
  by_cases hr : r = req.root
  · subst hr
    cases hi : m.invalidates with
    | false => rw [epoch_take_of_not_invalidates hi]
    | true =>
      obtain ⟨st', hs, hgen⟩ := ProjectCache.isCurrent_iff.mp h
      have := (get_of_invalidates hm hi hs).2
      omega
  · exact epoch_take_of_ne hr

/-- **A step of a request keeps it**, if the step finds no manifest of an earlier epoch. -/
theorem Current.take {host : Host W M} {s : Server M} (h : Current s) (hc : Coherent s)
    {id : Nat} {req : Request M} {reply : Reply} {m : Move M} (hreq : s.Has id req)
    (hm : Moves host s req req.stage reply m)
    (hok : resolvesAnew host s (.advance id reply) = true) : Current (s.take id req m) where
  requests := by
    intro id' req' hreq'
    rcases has_take.mp hreq' with ⟨rfl, rfl⟩ | ⟨_, hold⟩
    · simp only [moved]
      split
      · rename_i hi
        rw [epoch_take_self hi]
      · rename_i hi
        rw [epoch_take_of_not_invalidates (by simpa using hi)]
        exact h.requests id' req hreq
    · exact Nat.le_trans (h.requests id' req' hold) (epoch_le_take s id req m req'.root)
  classpaths := by
    intro id' req' t b e hreq' hst he hcur
    have hb : (s.take id req m).Builds id' t b := ⟨req', hreq', hst⟩
    rcases has_take.mp hreq' with ⟨rfl, rfl⟩ | ⟨_, hold⟩
    · rcases builds_of_moves hm hb with ⟨hne, _⟩ | ⟨_, hst', ⟨rfl, _⟩ | ⟨b₀, hst₀, hbm⟩⟩
      · exact absurd rfl hne
      · cases he
      · have hparty : s.Party req.root t :=
          .inl ⟨id', req, hreq, rfl, by simp only [Request.ticket, hst₀, Stage.ticket]⟩
        obtain ⟨hbefore, hepoch⟩ := current_of_take hc hm hparty hcur
        rw [show (s.moved req m).root = req.root from rfl, hepoch]
        rcases classpathEpoch_of_moves hbm hst' he with hold | hnow | ⟨rfl, hr, x, hx, rfl⟩
        · exact h.classpaths id' req t b₀ e hreq hst₀ hold hbefore
        · exact hnow
        · exact epoch_of_resolvesAnew hok hreq hr hst₀ hx hbefore
    · have hparty : s.Party req'.root t :=
        .inl ⟨id', req', hold, rfl, by simp only [Request.ticket, hst, Stage.ticket]⟩
      obtain ⟨hbefore, hepoch⟩ := current_of_take hc hm hparty hcur
      rw [hepoch]
      exact h.classpaths id' req' t b e hold hst he hbefore
  indexes := by
    intro id' t cp artifacts reservation index reused built changed hb
    rcases builds_of_moves hm hb with ⟨_, hold⟩ | ⟨rfl, hst', ⟨hlock, _⟩ | ⟨b₀, hst, hbm⟩⟩
    · exact h.indexes id' t _ _ _ _ _ _ _ hold
    · cases hlock
    · exact (indexed_of_moves hbm hst').2.2.2.1
  entries := by
    intro r st e hs he
    have hi : r = req.root → m.invalidates = false := by
      rintro rfl
      by_contra hi
      rw [(get_of_invalidates hm (by simpa using hi) hs).1] at he
      cases he
    have hepoch : (s.take id req m).epoch r = s.epoch r := by
      by_cases hr : r = req.root
      · rw [epoch_take_of_not_invalidates (hi hr)]
      · exact epoch_take_of_ne hr
    rw [hepoch]
    rcases index_of_moves hm hs he with ⟨st₀, hst₀, he₀, _⟩ |
      ⟨rfl, t, cp, artifacts, reservation, index, reused, built, hst, rfl, _, hcur⟩
    · exact h.entries r st₀ e hst₀ he₀
    · have hparty : s.Party req.root t :=
        .inl ⟨id, req, hreq, rfl, by simp only [Request.ticket, hst, Stage.ticket]⟩
      rw [h.indexes id t _ _ _ _ _ _ _ ⟨req, hreq, hst⟩]
      exact h.classpaths id req t _ _ hreq hst rfl (hcur (hc.issued _ t hparty).2.2)
  published := by
    intro p hp
    rcases List.mem_append.mp hp with hold | hnew
    · exact h.published p hold
    · generalize hst : req.stage = stage at hm
      cases hm with
      | runner stage =>
        rw [(projectRunner_frame host s req stage).2.2.2] at hnew
        cases hnew
      | index hm =>
        cases hm with
        | outdated =>
          rw [show _ = none from (again_frame req).2.2.2] at hnew
          cases hnew
        | resolved t outcome _ => simp at hnew
        | _ => simp at hnew
      | @build t b reply m hbm =>
        have hparty : s.Party req.root t :=
          .inl ⟨id, req, hreq, rfl, by simp only [Request.ticket, hst, Stage.ticket]⟩
        cases hbm with
        | published cp artifacts reservation index reused built b₁ ha =>
          simp only [Option.toList_some, List.mem_singleton] at hnew
          subst hnew
          have hcur := isCurrent_of_publicationAnswer (hc.issued _ t hparty).2.2 ha
          rw [h.indexes id t _ _ _ _ _ _ _ ⟨req, hreq, hst⟩]
          exact h.classpaths id req t _ _ hreq hst rfl hcur
        | filled outcome => simp at hnew
        | _ => simp at hnew

theorem Current.step {host : Host W M} {s s' : Server M} {a : Action} (h : Current s)
    (hc : Coherent s) (hok : resolvesAnew host s a = true) (hs : Stepped host s a s') :
    Current s' := by
  cases hs with
  | edit => exact h.frame rfl rfl rfl fun _ _ hreq => .inl hreq
  | evicted => exact h.frame rfl rfl rfl fun _ _ hreq => .inl hreq
  | tested => exact h.frame rfl rfl rfl fun _ _ hreq => .inl hreq
  | arrived id root purpose hn =>
    refine h.frame rfl rfl rfl fun id' req hreq => ?_
    rcases AList.lookup_insert_eq_some.mp hreq with ⟨_, rfl⟩ | ⟨_, hold⟩
    · refine .inr ⟨Nat.le_refl _, ?_⟩
      cases purpose <;> rfl
    · exact .inl hold
  | advanced id req reply m hreq hm => exact h.take hc hreq hm hok
  | cancelled id leavesJob req job hreq hjob =>
    exact h.frame rfl rfl rfl fun _ _ hreq' => .inl (AList.lookup_erase_eq_some.mp hreq').2
  | woke => exact h.frame rfl rfl rfl fun _ _ hreq => .inl hreq
  | ended => exact h.frame rfl rfl rfl fun _ _ hreq => .inl hreq
  | left id req answer hreq hst =>
    exact h.frame rfl rfl rfl fun _ _ hreq' => .inl (AList.lookup_erase_eq_some.mp hreq').2

/-! ## 3. What a request gets -/

/-- **An index is of the request's own epoch, or a later one**: this property keeps what it owes
to a step. -/
theorem keeps_current {host : Host W M} {s s' : Server M} {a : Action} (h : Current s)
    (hc : Coherent s) :
    Keeps host (fun _ req i => req.epoch ≤ i.epoch) BuildStage.built s s' a where
  later := fun _ _ _ _ hle => hle
  moved := by
    intro req m i hi hle
    simpa only [moved, hi, Bool.false_eq_true, if_false] using hle
  cached := by
    intro id req snapshot st e hreq _ hget he _
    rw [h.entries req.root st e hget he]
    exact h.requests id req hreq
  decides := by
    intro id req reply t b b' m index hreq hst hbm hst' hb
    rcases built_of_moves hbm hst' hb with hold |
      ⟨cp, artifacts, reservation, reused, built, rfl, ha⟩
    · exact .inl hold
    · refine .inr fun req' hw => ?_
      obtain ⟨id', t', hreq', ht', hcell⟩ := hw
      have hparty : s.Party req.root t :=
        .inl ⟨id, req, hreq, rfl, by simp only [Request.ticket, hst, Stage.ticket]⟩
      have hparty' : s.Party req'.root t' := .inl ⟨id', req', hreq', rfl, ht'⟩
      have hroot := (hc.agree _ _ t' t hparty' hparty hcell).1
      have hcur := isCurrent_of_publicationAnswer (hc.issued _ t hparty).2.2 ha
      rw [h.indexes id t _ _ _ _ _ _ _ ⟨req, hreq, hst⟩,
        h.classpaths id req t _ _ hreq hst rfl hcur, ← hroot]
      exact h.requests id' req' hreq'
  joins := by
    intro id req reply snapshot st mk id' t b index _ _ _ _ _ _ _ _ _ hopen hb
    cases b with
    | persisting => cases hopen
    | rechecking => cases hopen
    | forgetting => cases hopen
    | finished => cases hopen
    | _ => cases hb

end Server

end MavenMcp
