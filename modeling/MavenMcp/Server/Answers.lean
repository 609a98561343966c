/-
# What reaches a request

A request gets its index from the cache, from its own build, or from the build of another request
whose cell it joined.  `Serves good decided s` says that every index on its way to a request is
good for it: one it validates or returned, one in a filled cell it waits on, and one that a
build of its cell has decided on (`decided` reads that off the build's stage).

`Serves.step` keeps this over every step, from four facts about the property: time does not spoil
it, a cached index is good for who looked it up, a build that decides is good for everybody on its
cell, and joining a build that has decided is good for who joins.  Fresh answers and refreshes are
two instances.
-/
import MavenMcp.Server.Tickets

namespace MavenMcp

open ProjectCache (Op perform performAll)

variable {W M : Type}

/-- The index a request holds for its caller. -/
def Stage.answer : Stage M → Option MavenIndex
  | .validating _ entry _ | .validated _ entry _ _ => some entry.index.val
  | .returned (.ok (.index index)) => some index.val
  | .returned (.ok (.refreshed index)) => some index
  | _ => none

/-- The index a build has published. -/
def BuildStage.built : BuildStage → Option (Arc MavenIndex)
  | .persisting _ index | .rechecking index | .forgetting index | .finished (.built index) =>
    some index
  | _ => none

namespace Server

/-! ## 1. Where an answer comes from -/

theorem answer_answered {req : Request M} {index : Arc MavenIndex} {i : MavenIndex}
    (h : (req.answered index).answer = some i) : index.val = i := by
  unfold Request.answered at h
  split at h <;> exact Option.some.inj h

theorem answer_withRunner (req : Request M) (snapshot : Snapshot M) :
    (req.withRunner snapshot).answer = none := by
  unfold Request.withRunner
  split <;> rfl

theorem answer_afterInvalidation (req : Request M) : req.afterInvalidation.answer = none := by
  unfold Request.afterInvalidation
  split <;> rfl

/-- An outcome that is an answer. -/
theorem answer_resolved {req : Request M} {o : BuildOutcome} {i : MavenIndex}
    (h : (req.resolved o).stage.answer = some i) : ∃ index, o = .built index ∧ index.val = i := by
  rcases stage_resolved req o with ⟨index, ho, hst⟩ | hst | ⟨e, hst⟩
  · rw [hst] at h
    exact ⟨index, ho, answer_answered h⟩
  · rw [hst] at h
    cases h
  · rw [hst] at h
    cases h

/-- **Where an answer comes from:** the request had it, the cache served it, its cell was filled
with it, or its own build ends with it. -/
theorem answer_of_moves {host : Host W M} {s : Server M} {req : Request M} {reply : Reply}
    {m : Move M} (h : Moves host s req req.stage reply m) {i : MavenIndex}
    (ha : m.stage.answer = some i) :
    req.stage.answer = some i ∨
    (∃ snapshot st e, req.stage = .looking snapshot ∧ s.cache.get req.root = some st ∧
      st.index = some e ∧ e.project = snapshot.fingerprint ∧ e.index.val = i) ∨
    (∃ t index, req.stage = .waiting t ∧ s.filled.lookup t.cell = some (.built index) ∧
      index.val = i) ∨
    ∃ t index, req.stage = .building t (.finished (.built index)) ∧ index.val = i := by
  generalize hst : req.stage = stage at h
  cases h with
  | runner stage =>
    rcases stage_projectRunner host s req stage with ⟨_, h⟩ | ⟨snapshot, h⟩ | ⟨_, h⟩
    · rw [h] at ha
      cases ha
    · rw [h, answer_withRunner] at ha
      cases ha
    · rw [h] at ha
      cases ha
  | index h =>
    cases h with
    | invalidates =>
      simp only at ha
      split at ha
      · cases ha
      · rw [answer_afterInvalidation] at ha
        cases ha
    | forgot effective =>
      rw [answer_afterInvalidation] at ha
      cases ha
    | cached snapshot entry generation hl =>
      obtain ⟨st, hget, hi, _, hfp⟩ := ProjectCache.of_lookupIndex_cached hl
      exact .inr (.inl ⟨snapshot, st, entry, rfl, hget, hi, hfp, Option.some.inj ha⟩)
    | validated snapshot entry generation current => exact .inl ha
    | hit snapshot entry generation => exact .inl (congrArg some (answer_answered ha))
    | outdated =>
      simp only at ha
      rcases stage_again req with h | ⟨e, h⟩ <;> rw [h] at ha <;> cases ha
    | resolved t outcome hf =>
      obtain ⟨index, rfl, hi⟩ := answer_resolved ha
      exact .inr (.inr (.inl ⟨t, index, rfl, hf, hi⟩))
    | _ => cases ha
  | @build t b reply m h =>
    cases h with
    | filled outcome =>
      obtain ⟨index, rfl, hi⟩ := answer_resolved ha
      exact .inr (.inr (.inr ⟨t, index, rfl, hi⟩))
    | _ => cases ha

/-- A request that begins an epoch holds neither a ticket nor an answer afterwards. -/
theorem idle_of_invalidates {host : Host W M} {s : Server M} {req : Request M} {reply : Reply}
    {m : Move M} (h : Moves host s req req.stage reply m) (hi : m.invalidates = true) :
    m.stage.ticket = none ∧ m.stage.answer = none := by
  generalize req.stage = stage at h
  cases h with
  | runner stage => simp [(projectRunner_frame host s req stage).1] at hi
  | index h =>
    cases h with
    | invalidates =>
      simp only
      split
      · exact ⟨rfl, rfl⟩
      · exact ⟨ticket_afterInvalidation req, answer_afterInvalidation req⟩
    | outdated => simp [(again_frame req).1] at hi
    | _ => simp at hi
  | build h =>
    cases h with
    | _ => simp at hi

/-- Only a build that found nothing changed publishes, and what it holds. -/
theorem publish_of_moves {host : Host W M} {s : Server M} {req : Request M} {reply : Reply}
    {m : Move M} (h : Moves host s req req.stage reply m) {r : PathBuf} {g : Nat}
    {index : Arc MavenIndex} {build : FinishedBuild} {fp : ProjectFingerprint}
    {reservation : Nat} (hop : .publish r g index build fp reservation ∈ m.ops) :
    r = req.root ∧ ∃ t cp artifacts reused built,
      req.stage = .building t (.publishing cp artifacts reservation index reused built false) ∧
      g = t.generation ∧ fp = t.snapshot.fingerprint := by
  generalize hst : req.stage = stage at h
  cases h with
  | runner stage =>
    cases stage with
    | checking cached =>
      simp only [projectRunner] at hop
      split at hop
      · split at hop
        · cases hop
        · split at hop <;> cases hop
      · cases hop
    | discovering cached =>
      simp only [projectRunner] at hop
      split at hop <;> cases hop
    | _ => simp [projectRunner] at hop
  | index h =>
    cases h with
    | invalidates =>
      simp only [List.mem_cons, reduceCtorEq, false_or] at hop
      split at hop <;> simp at hop
    | _ => simp at hop
  | build h =>
    have used : ∀ cp reused built,
        Op.publish r g index build fp reservation ∉ persistedUse host req cp reused built := by
      intro cp reused built
      unfold persistedUse
      split <;> simp
    cases h with
    | publishedStale =>
      rcases List.mem_append.mp hop with hop | hop
      · exact absurd hop (used _ _ _)
      · cases List.mem_singleton.mp hop
        exact ⟨rfl, _, _, _, _, _, rfl, rfl, rfl⟩
    | published =>
      rcases List.mem_append.mp hop with hop | hop
      · exact absurd hop (used _ _ _)
      · simp only [List.mem_cons, reduceCtorEq, List.not_mem_nil, or_false] at hop
        cases hop
        exact ⟨rfl, _, _, _, _, _, rfl, rfl, rfl⟩
    | _ => simp at hop

/-- **Where a cached index comes from**, over a step of a request. -/
theorem index_of_moves {host : Host W M} {s : Server M} {id : Nat} {req : Request M}
    {reply : Reply} {m : Move M} (h : Moves host s req req.stage reply m) {r : PathBuf}
    {st' : ProjectState (MavenRunner M) MavenIndex} {e : CachedIndex MavenIndex}
    (hs : (s.take id req m).cache.get r = some st') (he : st'.index = some e) :
    (∃ st, s.cache.get r = some st ∧ st.index = some e ∧ st.generation = st'.generation) ∨
    (r = req.root ∧ ∃ t cp artifacts reservation index reused built,
      req.stage = .building t (.publishing cp artifacts reservation index reused built false) ∧
      e.index = index ∧ e.project = t.snapshot.fingerprint ∧
      (t.generation ≤ s.cache.nextGeneration → s.cache.isCurrent r t.generation = true)) := by
  rcases ProjectCache.index_performAll he (c := s.cache) hs with
    hold | ⟨g, index, build, fp, reservation, hop, rfl, hcur⟩
  · exact .inl hold
  · obtain ⟨rfl, t, cp, artifacts, reused, built, hst, rfl, rfl⟩ := publish_of_moves h hop
    exact .inr ⟨rfl, t, cp, artifacts, reservation, index, reused, built, hst, rfl, rfl, hcur⟩

/-- **A build comes to its publication** with an index of its own fingerprint and classpath, and
knows whether the files are still the same. -/
theorem indexed_of_moves {host : Host W M} {s : Server M} {req : Request M} {t t' : Ticket M}
    {b : BuildStage} {reply : Reply} {m : Move M} (h : BuildMoves host s req t b reply m)
    {cp : ResolvedClasspath} {artifacts : ProjectFingerprint} {reservation reused built : Nat}
    {index : Arc MavenIndex} {changed : Bool}
    (hst : m.stage = .building t' (.publishing cp artifacts reservation index reused built
      changed)) :
    t' = t ∧ (∃ reuse, b = .indexing cp artifacts reservation reuse) ∧
    index.val.project = t.snapshot.fingerprint ∧ index.val.epoch = cp.epoch ∧
    (changed = false → s.describes host t.snapshot.fingerprint = true) := by
  cases h with
  | indexed cp artifacts reservation reuse bytes reused built moved =>
    cases hst
    refine ⟨rfl, ⟨reuse, rfl⟩, rfl, rfl, fun h => ?_⟩
    simpa using (Bool.or_eq_false_iff.mp h).1
  | locked b _ hstage =>
    cases hst
    rcases hstage with h | h <;> cases h
  | resolves b hr =>
    cases hst
    cases hr
  | published _ _ _ _ _ _ b _ hstage =>
    cases hst
    rcases hstage with ⟨_, h⟩ | h <;> cases h
  | filled outcome =>
    have hn := ticket_resolved req outcome
    rw [show (req.resolved outcome).stage = _ from hst] at hn
    cases hn
  | _ => cases hst

/-- **A build has published its index**, or it publishes it in this step. -/
theorem built_of_moves {host : Host W M} {s : Server M} {req : Request M} {t t' : Ticket M}
    {b b' : BuildStage} {reply : Reply} {m : Move M} (h : BuildMoves host s req t b reply m)
    (hst : m.stage = .building t' b') {index : Arc MavenIndex} (hb : b'.built = some index) :
    b.built = some index ∨ ∃ cp artifacts reservation reused built,
      b = .publishing cp artifacts reservation index reused built false ∧
      s.publicationAnswer host req t cp artifacts reservation index reused built ≠ .stale := by
  cases h with
  | published cp artifacts reservation index' reused built b₁ ha hb₁ =>
    cases hst
    rcases hb₁ with ⟨_, rfl⟩ | rfl
    · cases hb
      exact .inr ⟨cp, artifacts, reservation, reused, built, rfl, ha⟩
    · cases hb
      exact .inr ⟨cp, artifacts, reservation, reused, built, rfl, ha⟩
  | persisted cp index' effective =>
    cases hst
    exact .inl hb
  | rechecked index' hc =>
    cases hst
    exact .inl hb
  | outdated index' hc =>
    cases hst
    exact .inl hb
  | forgot index' effective =>
    cases hst
    exact .inl hb
  | locked b₁ _ hb₁ =>
    cases hst
    rcases hb₁ with rfl | rfl <;> cases hb
  | resolves b₁ hr =>
    cases hst
    cases hr <;> cases hb
  | filled outcome =>
    have hn := ticket_resolved req outcome
    rw [show (req.resolved outcome).stage = _ from hst] at hn
    cases hn
  | _ =>
    cases hst
    cases hb

/-! ## 2. The rule -/

/-- A request waits for the build of the cell, or runs it. -/
def Awaits (s : Server M) (req : Request M) (cell : Nat) : Prop :=
  ∃ id t, s.Has id req ∧ req.ticket = some t ∧ t.cell = cell

/-- Every index on its way to a request is good for it. -/
structure Serves (good : Server M → Request M → MavenIndex → Prop)
    (decided : BuildStage → Option (Arc MavenIndex)) (s : Server M) : Prop where
  answers : ∀ id req i, s.Has id req → req.stage.answer = some i → good s req i
  filled : ∀ cell index, s.filled.lookup cell = some (.built index) →
    ∀ req, s.Awaits req cell → good s req index.val
  builds : ∀ id t b index, s.Builds id t b → decided b = some index →
    ∀ req, s.Awaits req t.cell → good s req index.val

/-- What the property owes to one step. -/
structure Keeps (host : Host W M) (good : Server M → Request M → MavenIndex → Prop)
    (decided : BuildStage → Option (Arc MavenIndex)) (s s' : Server M) (a : Action) : Prop where
  later : ∀ id req i, s.Has id req → good s req i → good s' req i
  moved : ∀ req m i, m.invalidates = false → good s' req i → good s' (s.moved req m) i
  cached : ∀ id req snapshot st e, s.Has id req → req.stage = .looking snapshot →
    s.cache.get req.root = some st → st.index = some e → e.project = snapshot.fingerprint →
    good s' req e.index.val
  decides : ∀ id req reply t b b' m index, s.Has id req → req.stage = .building t b →
    BuildMoves host s req t b reply m → m.stage = .building t b' → decided b' = some index →
    decided b = some index ∨ ∀ req', s.Awaits req' t.cell → good s' req' index.val
  joins : ∀ id req reply snapshot st mk id' t b index, a = .advance id reply → s.Has id req →
    req.stage = .looking snapshot → s.cache.get req.root = some st → st.index = none →
    st.inFlight = some mk → mk.generation = st.generation → s.Builds id' t b →
    t.cell = mk.cell → b.settled = false → decided b = some index → good s' req index.val

/-- A request comes to wait on a cell by a lookup: the cell is new, or that of a marker. -/
def Looks (s : Server M) (req : Request M) (cell : Nat) : Prop :=
  ∃ snapshot, req.stage = .looking snapshot ∧
    (cell = s.cache.nextPtr ∨ ∃ st mk, s.cache.get req.root = some st ∧ st.index = none ∧
      st.inFlight = some mk ∧ mk.generation = st.generation ∧ cell = mk.cell)

/-- Who waits on a cell after a step: who did before, or who looked it up in the step. -/
theorem awaits_take {host : Host W M} {s : Server M} {id : Nat} {req : Request M} {reply : Reply}
    {m : Move M} (hreq : s.Has id req) (hm : Moves host s req req.stage reply m)
    {req' : Request M} {cell : Nat} (h : (s.take id req m).Awaits req' cell) :
    s.Awaits req' cell ∨
    (req' = s.moved req m ∧ m.invalidates = false ∧ m.stage.ticket ≠ none ∧
      (s.Awaits req cell ∨ s.Looks req cell)) := by
  obtain ⟨id', t, hreq', ht, rfl⟩ := h
  rcases has_take.mp hreq' with ⟨rfl, rfl⟩ | ⟨_, hold⟩
  · replace ht : m.stage.ticket = some t := ht
    have hi : m.invalidates = false := by
      by_contra hi
      rw [(idle_of_invalidates hm (by simpa using hi)).1] at ht
      cases ht
    refine .inr ⟨rfl, hi, by simp [ht], ?_⟩
    cases ticketStep_of_moves hm with
    | away hn =>
      rw [hn] at ht
      cases ht
    | joins t₀ hst hst' _ _ hj =>
      rw [hst'] at ht
      cases ht
      refine .inr ⟨t.snapshot, hst, ?_⟩
      generalize t.cell = cell at hj ⊢
      generalize t.owner = owner at hj
      generalize t.generation = g at hj
      cases hj with
      | joined st mk hs hi hmk hg _ => exact .inr ⟨st, mk, hs, hi, hmk, hg, rfl⟩
      | started => exact .inl rfl
      | fresh => exact .inl rfl
    | begins t₀ hst hst' =>
      rw [hst'] at ht
      cases ht
      exact .inl ⟨id', t, hreq, by simp only [Request.ticket, hst, Stage.ticket], rfl⟩
    | builds t₀ b b' reply' hst hst' =>
      rw [hst'] at ht
      cases ht
      exact .inl ⟨id', t, hreq, by simp only [Request.ticket, hst, Stage.ticket], rfl⟩
  · exact .inl ⟨id', t, hold, ht, rfl⟩

section Rule

variable {host : Host W M} {good : Server M → Request M → MavenIndex → Prop}
  {decided : BuildStage → Option (Arc MavenIndex)} {s s' : Server M}

/-- Requests may go and new ones come; the cells are as before. -/
theorem Serves.frame (h : Serves good decided s) (hf : s'.filled = s.filled)
    (hreq : ∀ id req, s'.Has id req →
      s.Has id req ∨ (req.ticket = none ∧ req.stage.answer = none))
    (hlater : ∀ id req i, s.Has id req → good s req i → good s' req i) :
    Serves good decided s' := by
  have awaits : ∀ {req cell}, s'.Awaits req cell → s.Awaits req cell := by
    rintro req cell ⟨id, t, hhas, ht, hc⟩
    rcases hreq id req hhas with hold | ⟨hn, _⟩
    · exact ⟨id, t, hold, ht, hc⟩
    · rw [hn] at ht
      cases ht
  have later : ∀ {req cell i}, s.Awaits req cell → good s req i → good s' req i := by
    rintro req cell i ⟨id, t, hhas, _⟩ hg
    exact hlater id req i hhas hg
  constructor
  · intro id req i hhas ha
    rcases hreq id req hhas with hold | ⟨_, hn⟩
    · exact hlater id req i hold (h.answers id req i hold ha)
    · rw [hn] at ha
      cases ha
  · intro cell index ho req hw
    rw [hf] at ho
    exact later (awaits hw) (h.filled cell index ho req (awaits hw))
  · rintro id t b index ⟨req, hhas, hst⟩ hd req' hw
    rcases hreq id req hhas with hold | ⟨hn, _⟩
    · exact later (awaits hw) (h.builds id t b index ⟨req, hold, hst⟩ hd req' (awaits hw))
    · simp only [Request.ticket, hst, Stage.ticket, reduceCtorEq] at hn

/-- A step of a request. -/
theorem Serves.take (h : Serves good decided s) (hc : Coherent s)
    (hbegins : decided .locking = none)
    (hends : ∀ index, decided (.finished (.built index)) = some index) {id : Nat}
    {req : Request M} {reply : Reply} {m : Move M} (hreq : s.Has id req)
    (hm : Moves host s req req.stage reply m)
    (hk : Keeps host good decided s (s.take id req m) (.advance id reply)) :
    Serves good decided (s.take id req m) := by
  have hts := ticketStep_of_moves hm
  have later : ∀ {req' cell i}, s.Awaits req' cell → good s req' i →
      good (s.take id req m) req' i := by
    rintro req' cell i ⟨id', t, hhas, _⟩ hg
    exact hk.later id' req' i hhas hg
  have ticket : ∀ {t}, req.ticket = some t → s.Awaits req t.cell :=
    fun {t} ht => ⟨id, t, hreq, ht, rfl⟩
  -- what is good for those who wait on a cell is good for those who wait on it afterwards
  have spread : ∀ {cell i}, (∀ req', s.Awaits req' cell → good s req' i) →
      (s.Looks req cell → good (s.take id req m) req i) →
      ∀ req', (s.take id req m).Awaits req' cell → good (s.take id req m) req' i := by
    intro cell i hold hlook req' hw
    rcases awaits_take hreq hm hw with hw | ⟨rfl, hi, _, hw | hl⟩
    · exact later hw (hold req' hw)
    · exact hk.moved req m i hi (later hw (hold req hw))
    · exact hk.moved req m i hi (hlook hl)
  constructor
  · intro id' req' i hreq' ha
    rcases has_take.mp hreq' with ⟨rfl, rfl⟩ | ⟨_, hold⟩
    · replace ha : m.stage.answer = some i := ha
      have hi : m.invalidates = false := by
        by_contra hi
        rw [(idle_of_invalidates hm (by simpa using hi)).2] at ha
        cases ha
      refine hk.moved req m i hi ?_
      rcases answer_of_moves hm ha with hold | ⟨snapshot, st, e, hst, hget, he, hfp, rfl⟩ |
        ⟨t, index, hst, hf, rfl⟩ | ⟨t, index, hst, rfl⟩
      · exact hk.later id' req i hreq (h.answers id' req i hreq hold)
      · exact hk.cached id' req snapshot st e hreq hst hget he hfp
      · have hw := ticket (t := t) (by simp only [Request.ticket, hst, Stage.ticket])
        exact later hw (h.filled t.cell index hf req hw)
      · have hw := ticket (t := t) (by simp only [Request.ticket, hst, Stage.ticket])
        exact later hw (h.builds id' t _ index ⟨req, hreq, hst⟩ (hends index) req hw)
    · exact hk.later id' req' i hold (h.answers id' req' i hold ha)
  · intro cell index ho
    rcases filled_take hreq hts ho with hold | ⟨t, hb, rfl, hn⟩
    · refine spread (h.filled cell index hold) ?_
      rintro ⟨snapshot, _, rfl | ⟨st, mk, hst, _, hmk, _, rfl⟩⟩
      · have := hc.filledAllocated _ _ hold
        omega
      · rw [(hc.marks req.root st mk hst hmk).unfilled] at hold
        cases hold
    · intro req' hw
      rcases awaits_take hreq hm hw with hw | ⟨_, _, hsome, _⟩
      · exact later hw (h.builds id t _ index hb (hends index) req' hw)
      · exact absurd hn hsome
  · intro id' t b index hb hd
    rcases builds_of_moves hm hb with ⟨_, hold⟩ | ⟨rfl, hst', ⟨rfl, _⟩ | ⟨b₀, hst, hbm⟩⟩
    · refine spread (h.builds id' t b index hold hd) ?_
      rintro ⟨snapshot, hst, hcell | ⟨st, mk, hget, hi, hmk, hg, hcell⟩⟩
      · obtain ⟨r, hparty⟩ := hold.party
        have := (hc.issued r t hparty).2.1
        omega
      · have hopen := (hc.marks req.root st mk hget hmk).unsettled id' t b hold hcell
        exact hk.joins id req reply snapshot st mk id' t b index rfl hreq hst hget hi hmk hg hold
          hcell hopen hd
    · rw [hbegins] at hd
      cases hd
    · have hw : s.Awaits req t.cell :=
        ticket (by simp only [Request.ticket, hst, Stage.ticket])
      rcases hk.decides id' req reply t b₀ b m index hreq hst hbm hst' hd with hold | hnew
      · refine spread (h.builds id' t b₀ index ⟨req, hreq, hst⟩ hold) ?_
        rintro ⟨snapshot, hst₁, _⟩
        rw [hst] at hst₁
        cases hst₁
      · intro req' hw'
        rcases awaits_take hreq hm hw' with hw' | ⟨rfl, hi, _⟩
        · exact hnew req' hw'
        · exact hk.moved req m index.val hi (hnew req hw)

/-- **The rule:** a property that keeps what it owes is kept by every step. -/
theorem Serves.step {a : Action} (h : Serves good decided s) (hc : Coherent s)
    (hbegins : decided .locking = none)
    (hends : ∀ index, decided (.finished (.built index)) = some index)
    (hk : Keeps host good decided s s' a) (hs : Stepped host s a s') :
    Serves good decided s' := by
  cases hs with
  | advanced id req reply m hreq hm => exact h.take hc hbegins hends hreq hm hk
  | arrived id root purpose hn =>
    refine h.frame rfl (fun id' req' hreq' => ?_) hk.later
    rcases AList.lookup_insert_eq_some.mp hreq' with ⟨_, rfl⟩ | ⟨_, hold⟩
    · refine .inr ?_
      cases purpose <;> exact ⟨rfl, rfl⟩
    · exact .inl hold
  | cancelled id leavesJob req job hreq hjob =>
    exact h.frame rfl (fun _ _ hreq' => .inl (AList.lookup_erase_eq_some.mp hreq').2) hk.later
  | left id req answer hreq hst =>
    exact h.frame rfl (fun _ _ hreq' => .inl (AList.lookup_erase_eq_some.mp hreq').2) hk.later
  | edit => exact h.frame rfl (fun _ _ hreq' => .inl hreq') hk.later
  | evicted => exact h.frame rfl (fun _ _ hreq' => .inl hreq') hk.later
  | tested => exact h.frame rfl (fun _ _ hreq' => .inl hreq') hk.later
  | woke => exact h.frame rfl (fun _ _ hreq' => .inl hreq') hk.later
  | ended => exact h.frame rfl (fun _ _ hreq' => .inl hreq') hk.later

end Rule

theorem serves_start (host : Host W M) (good : Server M → Request M → MavenIndex → Prop)
    (decided : BuildStage → Option (Arc MavenIndex)) : Serves good decided (start host) := by
  constructor
  · intro id req i h
    cases h
  · intro cell index h
    cases h
  · rintro id t b index ⟨req, h, _⟩
    cases h

end Server

end MavenMcp
