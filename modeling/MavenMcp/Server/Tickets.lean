/-
# Tickets, markers and cells

A request that waits for a build holds a ticket: the cell of the build, its owner lock and its
generation.  The cache hands tickets out through the marker of the project's running build.  This
file is what ties the two together in every state of every run, with no condition at all
(`Coherent`): tickets on one cell belong to one root and one generation, at most one request runs
the build of a cell, and the cell in a marker is that of a build which nobody has published,
failed or abandoned yet, so its outcome is still open to whoever joins.

The results on single flight, fresh answers and refreshes start from here.
-/
import MavenMcp.Server.Moves

namespace MavenMcp

open ProjectCache (Op perform performAll Drawn)

variable {W M : Type}

/-- The build came to its end; what remains is the disk and the cell. -/
def BuildStage.settled : BuildStage → Bool
  | .persisting _ _ | .rechecking _ | .forgetting _ | .finished _ => true
  | _ => false

namespace Server

/-! ## 1. What the locked sections contain -/

/-- A section with a lookup is that lookup, and its answer is where the request goes. -/
theorem lookup_of_moves {host : Host W M} {s : Server M} {req : Request M} {reply : Reply}
    {m : Move M} (h : Moves host s req req.stage reply m) {r : PathBuf} {fp : ProjectFingerprint}
    (hop : .lookupIndex r fp ∈ m.ops) :
    r = req.root ∧ m.ops = [.lookupIndex req.root fp] ∧
    ((∃ snapshot entry g, m.stage = .validating snapshot entry g ∧
      (ProjectCache.lookupIndex s.held s.cache req.root fp).2 = .cached entry g) ∨
    ∃ t, m.stage = .waiting t ∧
      (ProjectCache.lookupIndex s.held s.cache req.root fp).2
        = .build t.cell t.owner t.generation) := by
  generalize req.stage = stage at h
  cases h with
  | runner stage =>
    cases stage with
    | checking cached =>
      simp only [projectRunner] at hop
      split at hop
      · split at hop
        · cases hop
        · split at hop <;> cases hop
      · cases hop
    | discovering cached =>
      simp only [projectRunner] at hop
      split at hop <;> cases hop
    | _ => simp [projectRunner] at hop
  | index h =>
    cases h with
    | invalidates =>
      simp only [List.mem_cons, reduceCtorEq, false_or] at hop
      split at hop <;> simp at hop
    | cached snapshot entry generation ha =>
      simp only [List.mem_singleton, Op.lookupIndex.injEq] at hop
      obtain ⟨rfl, rfl⟩ := hop
      exact ⟨rfl, rfl, .inl ⟨_, _, _, rfl, ha⟩⟩
    | joined snapshot cell owner generation ha =>
      simp only [List.mem_singleton, Op.lookupIndex.injEq] at hop
      obtain ⟨rfl, rfl⟩ := hop
      exact ⟨rfl, rfl, .inr ⟨_, rfl, ha⟩⟩
    | _ => simp at hop
  | build h =>
    cases h with
    | publishedStale =>
      simp only [persistedUse, publication] at hop
      split at hop <;> simp at hop
    | published =>
      simp only [persistedUse, publication] at hop
      split at hop <;> simp at hop
    | _ => simp at hop

/-- Where a marker comes from, over one step of a request. -/
theorem marker_of_moves {host : Host W M} {s : Server M} {id : Nat} {req : Request M}
    {reply : Reply} {m : Move M} (h : Moves host s req req.stage reply m) {r : PathBuf}
    {st' : ProjectState (MavenRunner M) MavenIndex} {mk : InFlight}
    (hs : (s.take id req m).cache.get r = some st') (hmk : st'.inFlight = some mk) :
    (∃ st, s.cache.get r = some st ∧ st.inFlight = some mk ∧ st.generation = st'.generation) ∨
    (r = req.root ∧ mk = ⟨st'.generation, s.cache.nextPtr, s.cache.nextPtr + 1⟩ ∧
      (s.take id req m).cache.nextPtr = s.cache.nextPtr + 2 ∧
      ∃ t, m.stage = .waiting t ∧ t.cell = mk.cell) := by
  by_cases hl : ∃ r fp, .lookupIndex r fp ∈ m.ops
  · obtain ⟨r', fp, hop⟩ := hl
    obtain ⟨rfl, hops, hstage⟩ := lookup_of_moves h hop
    have hcache : (s.take id req m).cache = perform s.held s.cache (.lookupIndex req.root fp) := by
      simp only [take, hops, ProjectCache.performAll_cons, ProjectCache.performAll_nil]
    rw [hcache] at hs ⊢
    rcases ProjectCache.marker_perform hs hmk with hold | ⟨fp', hop', rfl, ha, hn⟩
    · exact .inl hold
    · cases hop'
      refine .inr ⟨rfl, rfl, hn, ?_⟩
      rcases hstage with ⟨_, _, _, _, hc⟩ | ⟨t, hst, hb⟩
      · rw [hc] at ha
        cases ha
      · rw [hb] at ha
        exact ⟨t, hst, (IndexLookup.build.inj ha).1⟩
  · exact .inl (ProjectCache.marker_performAll (fun r fp hop => hl ⟨r, fp, hop⟩) hmk hs)

/-- **A build that settles leaves no marker** of its generation. -/
theorem inFlight_of_settles {host : Host W M} {s : Server M} {id : Nat} {req : Request M}
    {t t' : Ticket M} {b b' : BuildStage} {reply : Reply} {m : Move M}
    (h : BuildMoves host s req t b reply m) (hst : m.stage = .building t' b')
    (hb : b.settled = false) (hb' : b'.settled = true)
    (hg : t.generation ≤ s.cache.nextGeneration)
    {st' : ProjectState (MavenRunner M) MavenIndex}
    (hs : (s.take id req m).cache.get req.root = some st')
    (hgen : st'.generation = t.generation) : st'.inFlight = none := by
  -- the generation is current afterwards, hence it was before
  have hcur : (s.take id req m).cache.isCurrent req.root t.generation = true :=
    ProjectCache.isCurrent_iff.mpr ⟨st', hs, hgen⟩
  have hbefore : s.cache.isCurrent req.root t.generation = true :=
    ProjectCache.isCurrent_of_performAll hg hcur
  have ended : ∀ (pre : List (Op (MavenRunner M) MavenIndex)) (op) (post),
      m.ops = pre ++ op :: post → op.Ends req.root t.generation →
      (∀ r fp, .lookupIndex r fp ∉ post) → st'.inFlight = none := by
    intro pre op post hops he hl
    have hs' : (performAll s.held s.cache (pre ++ op :: post)).get req.root = some st' := by
      rw [← hops]
      exact hs
    exact ProjectCache.inFlight_of_ends_performAll he hl hs' hgen
  cases h with
  | reserveStale cp artifacts hn =>
    rw [hn] at hbefore
    cases hbefore
  | abandoned cp artifacts reservation index reused built =>
    replace hs : (ProjectCache.invalidateGeneration s.held s.cache req.root t.generation).get
        req.root = some st' := hs
    rw [ProjectCache.invalidateGeneration_of_current hbefore,
      ProjectCache.get_invalidate_self] at hs
    obtain ⟨st, _, rfl⟩ := Option.map_eq_some_iff.mp hs
    rfl
  | publishedStale =>
    exact ended _ (publication req t _ _ _) [] rfl ⟨rfl, rfl⟩ (by simp)
  | published =>
    exact ended _ (publication req t _ _ _) _ rfl ⟨rfl, rfl⟩ (by simp)
  | failed error =>
    exact ended [] (.finishFailed req.root t.generation) [] rfl ⟨rfl, rfl⟩ (by simp)
  | persisted => cases hb
  | rechecked => cases hb
  | outdated => cases hb
  | forgot => cases hb
  | filled => cases hb
  | resolves b₁ hr =>
    cases hst
    cases hr <;> cases hb'
  | locked b₁ _ hb₁ =>
    cases hst
    rcases hb₁ with rfl | rfl <;> cases hb'
  | _ =>
    cases hst
    cases hb'

/-! ## 2. The invariant -/

/-- Somebody holds the ticket: a request, or a job that the build's ownership moved into. -/
def Party (s : Server M) (r : PathBuf) (t : Ticket M) : Prop :=
  (∃ id req, s.Has id req ∧ req.root = r ∧ req.ticket = some t) ∨
  ∃ id job, s.HasJob id job ∧ job.root = r ∧ job.build = some t

/-- A request runs a build at this stage. -/
def Builds (s : Server M) (id : Nat) (t : Ticket M) (b : BuildStage) : Prop :=
  ∃ req, s.Has id req ∧ req.stage = .building t b

/-- What a marker of a root owes to the parties. -/
structure Marks (s : Server M) (r : PathBuf) (st : ProjectState (MavenRunner M) MavenIndex)
    (mk : InFlight) : Prop where
  generation : mk.generation = st.generation
  owner : mk.owner = mk.cell + 1
  allocated : mk.cell + 1 < s.cache.nextPtr
  agree : ∀ r' t, s.Party r' t → t.cell = mk.cell → r' = r ∧ t.generation = mk.generation
  unfilled : s.filled.lookup mk.cell = none
  unpublished : ∀ p ∈ s.published, p.cell ≠ mk.cell
  unsettled : ∀ id t b, s.Builds id t b → t.cell = mk.cell → b.settled = false

/-- **Tickets, markers and cells fit together.** -/
structure Coherent (s : Server M) : Prop where
  drawn : Drawn s.cache
  issued : ∀ r t, s.Party r t → t.owner = t.cell + 1 ∧ t.cell + 1 < s.cache.nextPtr ∧
    t.generation ≤ s.cache.nextGeneration
  agree : ∀ r r' t t', s.Party r t → s.Party r' t' → t.cell = t'.cell →
    r = r' ∧ t.generation = t'.generation
  /-- `get_or_init` runs one initialiser at a time. -/
  oneBuilder : ∀ id id' t t' b b', s.Builds id t b → s.Builds id' t' b' → t.cell = t'.cell →
    id = id'
  unfilled : ∀ id t b, s.Builds id t b → s.filled.lookup t.cell = none
  filledAllocated : ∀ cell o, s.filled.lookup cell = some o → cell < s.cache.nextPtr
  publishedAllocated : ∀ p ∈ s.published, p.cell < s.cache.nextPtr
  marks : ∀ r st mk, s.cache.get r = some st → st.inFlight = some mk → Marks s r st mk
  /-- Two roots have two markers. -/
  apart : ∀ r r' st st' mk mk', s.cache.get r = some st → s.cache.get r' = some st' →
    st.inFlight = some mk → st'.inFlight = some mk' → mk.cell = mk'.cell → r = r'

theorem coherent_start (host : Host W M) : Coherent (start host) where
  drawn := ProjectCache.drawn_new host.limits
  issued := by
    rintro r t (⟨id, req, h, _⟩ | ⟨id, job, h, _⟩) <;> cases h
  agree := by
    rintro r r' t t' (⟨id, req, h, _⟩ | ⟨id, job, h, _⟩) <;> cases h
  oneBuilder := by
    rintro id id' t t' b b' ⟨req, h, _⟩
    cases h
  unfilled := by
    rintro id t b ⟨req, h, _⟩
    cases h
  filledAllocated := by
    intro cell o h
    cases h
  publishedAllocated := by
    intro p hp
    cases hp
  marks := by
    intro r st mk h
    cases h
  apart := by
    intro r r' st st' mk mk' h
    cases h

/-- A builder is a party. -/
theorem Builds.party {s : Server M} {id : Nat} {t : Ticket M} {b : BuildStage}
    (h : s.Builds id t b) : ∃ r, s.Party r t := by
  obtain ⟨req, hreq, hst⟩ := h
  exact ⟨req.root, .inl ⟨id, req, hreq, rfl, by simp only [Request.ticket, hst, Stage.ticket]⟩⟩

/-- Parties and builders may go; cache, cells and publications are as before. -/
theorem Coherent.frame {s s' : Server M} (h : Coherent s) (hc : s'.cache = s.cache)
    (hf : s'.filled = s.filled) (hp : s'.published = s.published)
    (hparty : ∀ r t, s'.Party r t → s.Party r t)
    (hbuild : ∀ id t b, s'.Builds id t b → s.Builds id t b) : Coherent s' where
  drawn := hc ▸ h.drawn
  issued r t ht := by
    rw [hc]
    exact h.issued r t (hparty r t ht)
  agree r r' t t' ht ht' := h.agree r r' t t' (hparty r t ht) (hparty r' t' ht')
  oneBuilder id id' t t' b b' hb hb' :=
    h.oneBuilder id id' t t' b b' (hbuild id t b hb) (hbuild id' t' b' hb')
  unfilled id t b hb := by
    rw [hf]
    exact h.unfilled id t b (hbuild id t b hb)
  filledAllocated := by
    rw [hf, hc]
    exact h.filledAllocated
  publishedAllocated := by
    rw [hp, hc]
    exact h.publishedAllocated
  marks r st mk hs hmk := by
    rw [hc] at hs
    have hm := h.marks r st mk hs hmk
    exact {
      generation := hm.generation
      owner := hm.owner
      allocated := hc ▸ hm.allocated
      agree := fun r' t ht => hm.agree r' t (hparty r' t ht)
      unfilled := hf ▸ hm.unfilled
      unpublished := hp ▸ hm.unpublished
      unsettled := fun id t b hb => hm.unsettled id t b (hbuild id t b hb) }
  apart := by
    rw [hc]
    exact h.apart

/-! ## 3. Steps of requests -/

/-- What a step of a request does to tickets and cells, whatever else it does. -/
inductive TicketStep (host : Host W M) (s : Server M) (req : Request M) (m : Move M) : Prop
  /-- It holds no ticket afterwards; the outcome of its build may have filled the cell. -/
  | away : m.stage.ticket = none → m.publishes = none →
      (∀ cell o, m.fills = some (cell, o) →
        ∃ t, req.stage = .building t (.finished o) ∧ cell = t.cell) →
      TicketStep host s req m
  /-- A lookup sent it to a build. -/
  | joins (t : Ticket M) : req.stage = .looking t.snapshot → m.stage = .waiting t →
      m.publishes = none → m.fills = none →
      ProjectCache.Joins s.cache req.root (performAll s.held s.cache m.ops) t.cell t.owner
        t.generation →
      (performAll s.held s.cache m.ops).isCurrent req.root t.generation = true →
      TicketStep host s req m
  /-- It begins to run the build of its cell. -/
  | begins (t : Ticket M) : req.stage = .waiting t → m.stage = .building t .locking →
      s.filled.lookup t.cell = none → s.isBuilt t.cell = false → m.publishes = none →
      m.fills = none → m.ops = [] → TicketStep host s req m
  /-- It goes on with the build. -/
  | builds (t : Ticket M) (b b' : BuildStage) (reply : Reply) : req.stage = .building t b →
      m.stage = .building t b' → m.fills = none → BuildMoves host s req t b reply m →
      TicketStep host s req m

theorem ticket_withRunner (req : Request M) (snapshot : Snapshot M) :
    (req.withRunner snapshot).ticket = none := by
  unfold Request.withRunner
  split <;> rfl

theorem ticket_afterInvalidation (req : Request M) : req.afterInvalidation.ticket = none := by
  unfold Request.afterInvalidation
  split <;> rfl

theorem ticket_resolved (req : Request M) (o : BuildOutcome) :
    (req.resolved o).stage.ticket = none := by
  rcases stage_resolved req o with ⟨i, _, h⟩ | h | ⟨e, h⟩
  · rw [h]
    rfl
  · rw [h]
    rfl
  · rw [h]
    rfl

theorem ticketStep_of_moves {host : Host W M} {s : Server M} {req : Request M} {reply : Reply}
    {m : Move M} (h : Moves host s req req.stage reply m) : TicketStep host s req m := by
  generalize hst : req.stage = stage at h
  cases h with
  | runner stage =>
    obtain ⟨_, _, hf, hp⟩ := projectRunner_frame host s req stage
    refine .away ?_ hp (by simp [hf])
    rcases stage_projectRunner host s req stage with ⟨_, h⟩ | ⟨snapshot, h⟩ | ⟨_, h⟩
    · rw [h]
      rfl
    · rw [h]
      exact ticket_withRunner req snapshot
    · rw [h]
      rfl
  | index h =>
    cases h with
    | invalidates =>
      refine .away ?_ rfl (by simp)
      simp only
      split
      · rfl
      · exact ticket_afterInvalidation req
    | forgot effective => exact .away (ticket_afterInvalidation req) rfl (by simp)
    | joined snapshot cell owner generation ha =>
      refine .joins ⟨cell, owner, generation, snapshot⟩ hst rfl rfl rfl ?_ ?_
      · exact ProjectCache.joins_of_lookupIndex ha
      · refine ProjectCache.generationOf_eq_some.mp ?_
        refine (ProjectCache.generationOf_lookupIndex s.held s.cache req.root _).trans ?_
        rw [ha]
        rfl
    | outdated =>
      obtain ⟨_, _, hf, hp⟩ := again_frame req
      refine .away ?_ hp (by simp [hf])
      rcases stage_again req with h | ⟨e, h⟩
      · simp only [h]
        rfl
      · simp only [h]
        rfl
    | resolved t outcome _ => exact .away (ticket_resolved req outcome) (by simp) (by simp)
    | begins t hf hb => exact .begins t hst rfl hf hb rfl rfl rfl
    | _ => exact .away rfl rfl (by simp)
  | @build t b reply m h =>
    have hb := h
    cases h with
    | filled outcome =>
      refine .away (ticket_resolved req outcome) (by simp) ?_
      rintro cell o ho
      cases ho
      exact ⟨t, hst, rfl⟩
    | _ => exact .builds t _ _ _ hst rfl rfl hb

/-- A build publishes where it settles, and only its own cell. -/
theorem settles_of_publishes {host : Host W M} {s : Server M} {req : Request M} {t : Ticket M}
    {b b' : BuildStage} {reply : Reply} {m : Move M} (h : BuildMoves host s req t b reply m)
    (hst : m.stage = .building t b') {p : Published} (hp : p ∈ m.publishes.toList) :
    p.cell = t.cell ∧ b.settled = false ∧ b'.settled = true := by
  cases h with
  | published cp artifacts reservation index reused built b₁ _ hb₁ =>
    simp only [Option.toList_some, List.mem_singleton] at hp
    subst hp
    cases hst
    refine ⟨rfl, rfl, ?_⟩
    rcases hb₁ with ⟨_, rfl⟩ | rfl <;> rfl
  | filled outcome => simp at hp
  | _ => simp at hp

/-! ## 4. The invariant is kept -/

/-- What a step of a request leaves of the parties: those there were, and one that joined. -/
theorem party_take {host : Host W M} {s : Server M} {id : Nat} {req : Request M} {m : Move M}
    (hreq : s.Has id req) (hts : TicketStep host s req m) {r : PathBuf} {t : Ticket M}
    (h : (s.take id req m).Party r t) :
    s.Party r t ∨ (r = req.root ∧ m.stage = .waiting t ∧
      ProjectCache.Joins s.cache req.root (s.take id req m).cache t.cell t.owner t.generation ∧
      (s.take id req m).cache.isCurrent req.root t.generation = true) := by
  rcases h with ⟨id', req', hreq', rfl, ht⟩ | ⟨id', job, hjob, hr, hb⟩
  · rcases has_take.mp hreq' with ⟨rfl, rfl⟩ | ⟨_, hold⟩
    · have kept : req.ticket = some t → s.Party req.root t :=
        fun ht => .inl ⟨id', req, hreq, rfl, ht⟩
      replace ht : m.stage.ticket = some t := ht
      cases hts with
      | away hn =>
        rw [hn] at ht
        cases ht
      | joins t₀ _ hst _ _ hj hcur =>
        rw [hst] at ht
        cases ht
        exact .inr ⟨rfl, hst, hj, hcur⟩
      | begins t₀ hst hst' =>
        rw [hst'] at ht
        cases ht
        exact .inl (kept (by simp only [Request.ticket, hst, Stage.ticket]))
      | builds t₀ b b' reply hst hst' =>
        rw [hst'] at ht
        cases ht
        exact .inl (kept (by simp only [Request.ticket, hst, Stage.ticket]))
    · exact .inl (.inl ⟨id', req', hold, rfl, ht⟩)
  · exact .inl (.inr ⟨id', job, hjob, hr, hb⟩)

/-- What it leaves of the builders. -/
theorem builds_take {s : Server M} {id id' : Nat} {req : Request M} {m : Move M} {t : Ticket M}
    {b : BuildStage} (h : (s.take id req m).Builds id' t b) :
    (id' = id ∧ m.stage = .building t b) ∨ (id' ≠ id ∧ s.Builds id' t b) := by
  obtain ⟨req', hreq', hst⟩ := h
  rcases has_take.mp hreq' with ⟨rfl, rfl⟩ | ⟨hne, hold⟩
  · exact .inl ⟨rfl, hst⟩
  · exact .inr ⟨hne, req', hold, hst⟩

/-- **How a request comes to build**, over a step: it did and did not move, it takes the cell's
build up, or it goes on with it. -/
theorem builds_of_moves {host : Host W M} {s : Server M} {id id' : Nat} {req : Request M}
    {reply : Reply} {m : Move M} (hm : Moves host s req req.stage reply m) {t : Ticket M}
    {b : BuildStage} (h : (s.take id req m).Builds id' t b) :
    (id' ≠ id ∧ s.Builds id' t b) ∨
    (id' = id ∧ m.stage = .building t b ∧ (b = .locking ∧ req.stage = .waiting t ∨
      ∃ b₀, req.stage = .building t b₀ ∧ BuildMoves host s req t b₀ reply m)) := by
  rcases builds_take h with ⟨rfl, hst'⟩ | hold
  · refine .inr ⟨rfl, hst', ?_⟩
    cases ticketStep_of_moves hm with
    | away hn =>
      rw [hst'] at hn
      cases hn
    | joins t₀ _ hst₀ =>
      rw [hst'] at hst₀
      cases hst₀
    | begins t₀ hst hst₀ =>
      rw [hst'] at hst₀
      cases hst₀
      exact .inl ⟨rfl, hst⟩
    | builds t₀ b₀ b' _ hst hst₀ =>
      rw [hst'] at hst₀
      cases hst₀
      rw [hst] at hm
      cases hm with
      | index h => cases h
      | build hbm => exact .inr ⟨b₀, hst, hbm⟩
  · exact .inl hold

/-- A cell nobody runs the build of. -/
theorem not_builds_of_isBuilt {s : Server M} {cell : Nat} (h : s.isBuilt cell = false) {id : Nat}
    {t : Ticket M} {b : BuildStage} (hb : s.Builds id t b) : t.cell ≠ cell := by
  rintro rfl
  obtain ⟨req, hreq, hst⟩ := hb
  rw [isBuilt, List.any_eq_false] at h
  refine h req (AList.mem_values.mpr ⟨id, hreq⟩) ?_
  simp [hst, Stage.builds]

/-- The tickets of a step's requests fit together, with a newly joined one among them. -/
theorem Coherent.joined {s : Server M} (h : Coherent s) {r : PathBuf} {t : Ticket M}
    {c' : ProjectCache (MavenRunner M) MavenIndex}
    (hj : ProjectCache.Joins s.cache r c' t.cell t.owner t.generation) {r' : PathBuf}
    {t' : Ticket M} (ht' : s.Party r' t') (hcell : t'.cell = t.cell) :
    r' = r ∧ t'.generation = t.generation := by
  generalize hc : t.cell = cell at hj hcell
  generalize ho : t.owner = owner at hj
  generalize hg : t.generation = g at hj ⊢
  cases hj with
  | joined st mk hst _ hmk hgen _ =>
    have hm := h.marks r st mk hst hmk
    have := hm.agree r' t' ht' hcell
    exact ⟨this.1, this.2.trans hgen⟩
  | started =>
    have := (h.issued r' t' ht').2.1
    omega
  | fresh =>
    have := (h.issued r' t' ht').2.1
    omega

/-- The bounds of a newly joined ticket. -/
theorem Coherent.issuedJoin {s : Server M} (h : Coherent s) {r : PathBuf} {t : Ticket M}
    {c' : ProjectCache (MavenRunner M) MavenIndex}
    (hj : ProjectCache.Joins s.cache r c' t.cell t.owner t.generation)
    (hn : s.cache.nextGeneration ≤ c'.nextGeneration) :
    t.owner = t.cell + 1 ∧ t.cell + 1 < c'.nextPtr ∧ t.generation ≤ c'.nextGeneration := by
  have drawn : ∀ st, s.cache.get r = some st → st.generation ≤ c'.nextGeneration := fun st hst =>
    Nat.le_trans (h.drawn r st.generation (ProjectCache.generationOf_of_get hst)) hn
  generalize t.cell = cell at hj ⊢
  generalize t.owner = owner at hj ⊢
  generalize t.generation = g at hj ⊢
  cases hj with
  | joined st mk hst _ hmk hgen hp =>
    have hm := h.marks r st mk hst hmk
    exact ⟨hm.owner, hp ▸ hm.allocated, drawn st hst⟩
  | started st hst _ _ hp => exact ⟨rfl, by omega, drawn st hst⟩
  | fresh g _ hg hp => exact ⟨rfl, by omega, hg⟩

/-- Where a filled cell comes from. -/
theorem filled_take {host : Host W M} {s : Server M} {id : Nat} {req : Request M} {m : Move M}
    (hreq : s.Has id req) (hts : TicketStep host s req m) {cell : Nat} {o : BuildOutcome}
    (h : (s.take id req m).filled.lookup cell = some o) :
    s.filled.lookup cell = some o ∨
      ∃ t, s.Builds id t (.finished o) ∧ t.cell = cell ∧ m.stage.ticket = none := by
  unfold take at h
  simp only at h
  cases hf : m.fills with
  | none =>
    rw [hf] at h
    exact .inl h
  | some f =>
    obtain ⟨cell', o'⟩ := f
    rw [hf] at h
    rcases AList.lookup_insert_eq_some.mp h with ⟨rfl, rfl⟩ | ⟨_, hold⟩
    · cases hts with
      | away hn _ hfill =>
        obtain ⟨t, hst, hc⟩ := hfill cell o hf
        exact .inr ⟨t, ⟨req, hreq, hst⟩, hc.symm, hn⟩
      | joins _ _ _ _ hnone =>
        rw [hf] at hnone
        cases hnone
      | begins _ _ _ _ _ _ hnone =>
        rw [hf] at hnone
        cases hnone
      | builds _ _ _ _ _ _ hnone =>
        rw [hf] at hnone
        cases hnone
    · exact .inl hold

/-- Where a publication comes from. -/
theorem published_take {host : Host W M} {s : Server M} {id : Nat} {req : Request M} {m : Move M}
    (hreq : s.Has id req) (hts : TicketStep host s req m) {p : Published}
    (h : p ∈ (s.take id req m).published) :
    p ∈ s.published ∨ ∃ t b b' reply, s.Builds id t b ∧ m.stage = .building t b' ∧
      BuildMoves host s req t b reply m ∧ p.cell = t.cell ∧ b.settled = false ∧
      b'.settled = true := by
  rcases List.mem_append.mp h with h | h
  · exact .inl h
  · have none_of : ∀ {P : Prop}, m.publishes = none → P := by
      intro P hn
      rw [hn] at h
      cases h
    cases hts with
    | away _ hn => exact none_of hn
    | joins _ _ _ hn => exact none_of hn
    | begins _ _ _ _ _ hn => exact none_of hn
    | builds t b b' reply hst hst' _ hb =>
      exact .inr ⟨t, b, b', reply, ⟨req, hreq, hst⟩, hst', hb, settles_of_publishes hb hst' h⟩

/-- A build that settles in a step leaves its cell without a marker. -/
theorem Coherent.settles {host : Host W M} {s : Server M} (h : Coherent s) {id : Nat}
    {req : Request M} {m : Move M} {t : Ticket M} {b b' : BuildStage} {reply : Reply}
    (hreq : s.Has id req) (hst : req.stage = .building t b) (hst' : m.stage = .building t b')
    (hb : BuildMoves host s req t b reply m) (hb₀ : b.settled = false) (hb' : b'.settled = true)
    {r : PathBuf} {st st' : ProjectState (MavenRunner M) MavenIndex} {mk : InFlight}
    (hs : s.cache.get r = some st) (hmk : st.inFlight = some mk)
    (hs' : (s.take id req m).cache.get r = some st') (hmk' : st'.inFlight = some mk)
    (hgen : st.generation = st'.generation) : t.cell ≠ mk.cell := by
  intro hcell
  have hparty : s.Party req.root t :=
    .inl ⟨id, req, hreq, rfl, by simp only [Request.ticket, hst, Stage.ticket]⟩
  have hmarks := h.marks r st mk hs hmk
  obtain ⟨rfl, hg⟩ := hmarks.agree req.root t hparty hcell
  have hnone := inFlight_of_settles hb hst' hb₀ hb' (h.issued _ t hparty).2.2 hs'
    (by rw [← hgen, ← hmarks.generation, hg])
  rw [hnone] at hmk'
  cases hmk'

/-- **A step of a request keeps the invariant.** -/
theorem Coherent.take {host : Host W M} {s : Server M} (h : Coherent s) {id : Nat}
    {req : Request M} {reply : Reply} {m : Move M} (hreq : s.Has id req)
    (hm : Moves host s req req.stage reply m) : Coherent (s.take id req m) := by
  have hts := ticketStep_of_moves hm
  have hptr : s.cache.nextPtr ≤ (s.take id req m).cache.nextPtr :=
    ProjectCache.nextPtr_performAll s.held s.cache m.ops
  have hgen : s.cache.nextGeneration ≤ (s.take id req m).cache.nextGeneration :=
    ProjectCache.nextGeneration_performAll s.held s.cache m.ops
  have mover : ∀ {t b}, m.stage = .building t b → ∃ b₀, (s.Builds id t b₀ ∧
      (b.settled = true → b₀.settled = false → ∃ reply, BuildMoves host s req t b₀ reply m)) ∨
      (b = .locking ∧ s.isBuilt t.cell = false ∧ s.filled.lookup t.cell = none) := by
    intro t b hst
    cases hts with
    | away hn =>
      rw [hst] at hn
      cases hn
    | joins t₀ _ hst' =>
      rw [hst] at hst'
      cases hst'
    | begins t₀ hst₀ hst' hf hb =>
      rw [hst] at hst'
      cases hst'
      exact ⟨.locking, .inr ⟨rfl, hb, hf⟩⟩
    | builds t₀ b₀ b' reply hst₀ hst' _ hb =>
      rw [hst] at hst'
      cases hst'
      exact ⟨b₀, .inl ⟨⟨req, hreq, hst₀⟩, fun _ _ => ⟨reply, hb⟩⟩⟩
  refine ⟨h.drawn.play _, ?_, ?_, ?_, ?_, ?_, ?_, ?_, ?_⟩
  · -- issued
    intro r t ht
    rcases party_take hreq hts ht with hold | ⟨rfl, _, hj, _⟩
    · obtain ⟨ho, hc, hg⟩ := h.issued r t hold
      exact ⟨ho, Nat.lt_of_lt_of_le hc hptr, Nat.le_trans hg hgen⟩
    · exact h.issuedJoin hj hgen
  · -- agree
    intro r r' t t' ht ht' hcell
    rcases party_take hreq hts ht with hold | ⟨rfl, hst, hj, _⟩
    · rcases party_take hreq hts ht' with hold' | ⟨rfl, hst', hj', _⟩
      · exact h.agree r r' t t' hold hold' hcell
      · exact h.joined hj' hold hcell
    · rcases party_take hreq hts ht' with hold' | ⟨rfl, hst', hj', _⟩
      · obtain ⟨hr, hg⟩ := h.joined hj hold' hcell.symm
        exact ⟨hr.symm, hg.symm⟩
      · rw [hst] at hst'
        cases hst'
        exact ⟨rfl, rfl⟩
  · -- oneBuilder
    intro id₁ id₂ t₁ t₂ b₁ b₂ hb₁ hb₂ hcell
    rcases builds_take hb₁ with ⟨rfl, hst₁⟩ | ⟨hne₁, hold₁⟩
    · rcases builds_take hb₂ with ⟨rfl, _⟩ | ⟨hne₂, hold₂⟩
      · rfl
      · obtain ⟨b₀, ⟨hb₀, _⟩ | ⟨_, hfree, _⟩⟩ := mover hst₁
        · exact h.oneBuilder _ _ _ _ _ _ hb₀ hold₂ hcell
        · exact absurd hcell.symm (not_builds_of_isBuilt hfree hold₂)
    · rcases builds_take hb₂ with ⟨rfl, hst₂⟩ | ⟨hne₂, hold₂⟩
      · obtain ⟨b₀, ⟨hb₀, _⟩ | ⟨_, hfree, _⟩⟩ := mover hst₂
        · exact h.oneBuilder _ _ _ _ _ _ hold₁ hb₀ hcell
        · exact absurd hcell (not_builds_of_isBuilt hfree hold₁)
      · exact h.oneBuilder _ _ _ _ _ _ hold₁ hold₂ hcell
  · -- unfilled
    intro id' t b hb
    rw [Option.eq_none_iff_forall_ne_some]
    intro o ho
    rcases filled_take hreq hts ho with hold | ⟨t₀, hb₀, hcell, hn⟩
    · rcases builds_take hb with ⟨rfl, hst⟩ | ⟨_, hb'⟩
      · obtain ⟨b₀, ⟨hb₁, _⟩ | ⟨_, _, hf⟩⟩ := mover hst
        · rw [h.unfilled _ _ _ hb₁] at hold
          cases hold
        · rw [hf] at hold
          cases hold
      · rw [h.unfilled _ _ _ hb'] at hold
        cases hold
    · rcases builds_take hb with ⟨rfl, hst⟩ | ⟨hne, hb'⟩
      · rw [hst] at hn
        cases hn
      · exact hne (h.oneBuilder _ _ _ _ _ _ hb' hb₀ hcell.symm)
  · -- filledAllocated
    intro cell o ho
    rcases filled_take hreq hts ho with hold | ⟨t₀, hb₀, rfl, _⟩
    · exact Nat.lt_of_lt_of_le (h.filledAllocated cell o hold) hptr
    · obtain ⟨r, hparty⟩ := hb₀.party
      have := (h.issued r t₀ hparty).2.1
      omega
  · -- publishedAllocated
    intro p hp
    rcases published_take hreq hts hp with hold | ⟨t, b, b', reply, hb, _, _, hc, _⟩
    · exact Nat.lt_of_lt_of_le (h.publishedAllocated p hold) hptr
    · obtain ⟨r, hparty⟩ := hb.party
      have := (h.issued r t hparty).2.1
      omega
  · -- marks
    intro r st' mk hs' hmk'
    rcases marker_of_moves hm hs' hmk' with ⟨st, hst, hmk, hsame⟩ | ⟨rfl, hfresh, hn, t, hstage, hc⟩
    · have hmarks := h.marks r st mk hst hmk
      refine ⟨hmarks.generation.trans hsame, hmarks.owner,
        Nat.lt_of_lt_of_le hmarks.allocated hptr, ?_, ?_, ?_, ?_⟩
      · intro r' t ht hcell
        rcases party_take hreq hts ht with hold | ⟨rfl, _, hj, _⟩
        · exact hmarks.agree r' t hold hcell
        · generalize hc : t.cell = cell at hj hcell
          generalize t.owner = owner at hj
          generalize hg : t.generation = g at hj ⊢
          have halloc := hmarks.allocated
          cases hj with
          | joined st₀ mk₀ hst₀ _ hmk₀ hgen₀ _ =>
            obtain rfl := h.apart _ _ _ _ _ _ hst₀ hst hmk₀ hmk hcell
            rw [hst] at hst₀
            cases hst₀
            exact ⟨rfl, hmarks.generation.symm⟩
          | started => omega
          | fresh => omega
      · rw [Option.eq_none_iff_forall_ne_some]
        intro o ho
        rcases filled_take hreq hts ho with hold | ⟨t₀, hb₀, hcell, _⟩
        · rw [hmarks.unfilled] at hold
          cases hold
        · have := hmarks.unsettled id t₀ _ hb₀ hcell
          cases this
      · intro p hp
        rcases published_take hreq hts hp with hold |
          ⟨t, b, b', reply, hb, hst', hbm, hpc, hb₀, hb'⟩
        · exact hmarks.unpublished p hold
        · rw [hpc]
          obtain ⟨req', hreq', hst₀⟩ := hb
          rw [Has, hreq.lookup] at hreq'
          cases hreq'
          exact h.settles hreq hst₀ hst' hbm hb₀ hb' hst hmk hs' hmk' hsame
      · intro id' t b hb hcell
        rcases builds_take hb with ⟨rfl, hst'⟩ | ⟨_, hold⟩
        · obtain ⟨b₀, ⟨hb₀, hmoves⟩ | ⟨rfl, _⟩⟩ := mover hst'
          · by_contra hset
            rw [Bool.not_eq_false] at hset
            have hopen := hmarks.unsettled _ t b₀ hb₀ hcell
            obtain ⟨reply, hbm⟩ := hmoves hset hopen
            obtain ⟨req', hreq', hst₀⟩ := hb₀
            rw [Has, hreq.lookup] at hreq'
            cases hreq'
            exact h.settles hreq hst₀ hst' hbm hopen hset hst hmk hs' hmk' hsame hcell
          · rfl
        · exact hmarks.unsettled id' t b hold hcell
    · -- the marker a lookup has just left: its cell is a new allocation
      subst hfresh
      have below : ∀ {r' t'}, s.Party r' t' → t'.cell ≠ s.cache.nextPtr := by
        intro r' t' ht' he
        have := (h.issued r' t' ht').2.1
        omega
      refine ⟨rfl, rfl, by rw [hn]; exact Nat.lt_succ_self _, ?_, ?_, ?_, ?_⟩
      · intro r' t' ht' hcell
        rcases party_take hreq hts ht' with hold | ⟨rfl, hst, _, hcur⟩
        · exact absurd hcell (below hold)
        · obtain ⟨st₁, hst₁, hg₁⟩ := ProjectCache.isCurrent_iff.mp hcur
          rw [hs'] at hst₁
          cases hst₁
          exact ⟨rfl, hg₁.symm⟩
      · rw [Option.eq_none_iff_forall_ne_some]
        intro o ho
        rcases filled_take hreq hts ho with hold | ⟨t₀, hb₀, hcell, _⟩
        · have := h.filledAllocated _ o hold
          simp at this
        · obtain ⟨r', hparty⟩ := hb₀.party
          exact below hparty hcell
      · intro p hp
        rcases published_take hreq hts hp with hold | ⟨t₀, _, _, _, hb₀, _, _, hpc, _⟩
        · have := h.publishedAllocated p hold
          simp only [ne_eq]
          omega
        · obtain ⟨r', hparty⟩ := hb₀.party
          rw [hpc]
          exact below hparty
      · intro id' t' b hb hcell
        rcases builds_take hb with ⟨_, hst'⟩ | ⟨_, hold⟩
        · rw [hstage] at hst'
          cases hst'
        · obtain ⟨r', hparty⟩ := hold.party
          exact absurd hcell (below hparty)
  · -- apart
    intro r r' st₁ st₂ mk₁ mk₂ hs₁ hs₂ hmk₁ hmk₂ hcell
    rcases marker_of_moves hm hs₁ hmk₁ with ⟨o₁, ho₁, hm₁, _⟩ | ⟨rfl, hf₁, _⟩
    · rcases marker_of_moves hm hs₂ hmk₂ with ⟨o₂, ho₂, hm₂, _⟩ | ⟨rfl, hf₂, _⟩
      · exact h.apart r r' o₁ o₂ mk₁ mk₂ ho₁ ho₂ hm₁ hm₂ hcell
      · have := (h.marks r o₁ mk₁ ho₁ hm₁).allocated
        rw [hf₂] at hcell
        simp only at hcell
        omega
    · rcases marker_of_moves hm hs₂ hmk₂ with ⟨o₂, ho₂, hm₂, _⟩ | ⟨rfl, hf₂, _⟩
      · have := (h.marks r' o₂ mk₂ ho₂ hm₂).allocated
        rw [hf₁] at hcell
        simp only at hcell
        omega
      · rfl

/-- A job that a cancelled request leaves behind has the ticket of its build, which had the owner
lock and was open, or none. -/
theorem build_of_leftover {req : Request M} {job : Job M} (h : leftover req = some (some job)) :
    job.root = req.root ∧ ∀ t, job.build = some t →
      job.effect = .nothing ∧ ∃ b, req.stage = .building t b ∧ b ≠ .locking ∧ b.settled =
        false := by
  unfold leftover at h
  split at h
  · cases h
    exact ⟨rfl, by simp⟩
  · cases h
    exact ⟨rfl, by simp⟩
  · cases h
  · rename_i t stage hst
    split at h
    all_goals cases h
    all_goals refine ⟨rfl, ?_⟩
    all_goals simp only [reduceCtorEq, false_implies, implies_true, Option.some.injEq]
    all_goals rintro _ rfl
    all_goals exact ⟨trivial, _, hst, by simp, rfl⟩
  · cases h

/-- The jobs after a request was dropped. -/
theorem hasJob_abandon {s : Server M} {id id' : Nat} {req : Request M} {left : Option (Job M)}
    {job : Job M} (h : (s.abandon id req left).HasJob id' job) :
    s.HasJob id' job ∨ (id' = s.nextArc ∧ left = some job) ∨ waker req = some job := by
  have added : ∀ {jobs : Table Nat (Job M)} {k : Nat} {o : Option (Job M)},
      (addJob jobs k o).lookup id' = some job →
        jobs.lookup id' = some job ∨ (id' = k ∧ o = some job) := by
    intro jobs k o ho
    cases o with
    | none => exact .inl ho
    | some j =>
      rcases AList.lookup_insert_eq_some.mp ho with ⟨rfl, rfl⟩ | ⟨_, hold⟩
      · exact .inr ⟨rfl, rfl⟩
      · exact .inl hold
  rcases added h with h | h
  · rcases added h with h | h
    · exact .inl h
    · exact .inr (.inl h)
  · exact .inr (.inr h.2)

/-- Dropping a request makes no new party. -/
theorem party_abandon {s : Server M} {id : Nat} {req : Request M} {job : Option (Job M)}
    (hreq : s.Has id req) (hjob : leftover req = some job) {leavesJob : Bool} {r : PathBuf}
    {t : Ticket M} (h : (s.abandon id req (if leavesJob then job else none)).Party r t) :
    s.Party r t := by
  rcases h with ⟨id', req', hreq', hr, ht⟩ | ⟨id', job', hjob', hr, hb⟩
  · exact .inl ⟨id', req', (AList.lookup_erase_eq_some.mp hreq').2, hr, ht⟩
  · rcases hasJob_abandon hjob' with hold | ⟨_, hleft⟩ | hwake
    · exact .inr ⟨id', job', hold, hr, hb⟩
    · cases leavesJob with
      | false => cases hleft
      | true =>
        simp only [if_true] at hleft
        subst hleft
        obtain ⟨hroot, hbuild⟩ := build_of_leftover hjob
        obtain ⟨_, b, hst, _⟩ := hbuild t hb
        exact .inl ⟨id, req, hreq, hroot.symm.trans hr,
          by simp only [Request.ticket, hst, Stage.ticket]⟩
    · obtain ⟨t', _, rfl⟩ := Option.map_eq_some_iff.mp hwake
      cases hb

/-- **Every step keeps the invariant.** -/
theorem Coherent.step {host : Host W M} {s s' : Server M} {a : Action} (h : Coherent s)
    (hs : Stepped host s a s') : Coherent s' := by
  cases hs with
  | edit => exact h.frame rfl rfl rfl (fun _ _ h => h) fun _ _ _ h => h
  | evicted => exact h.frame rfl rfl rfl (fun _ _ h => h) fun _ _ _ h => h
  | tested => exact h.frame rfl rfl rfl (fun _ _ h => h) fun _ _ _ h => h
  | arrived id root purpose hn =>
    have idle : (Request.arriving s root purpose).ticket = none := by cases purpose <;> rfl
    refine h.frame rfl rfl rfl (fun r t ht => ?_) fun id' t b hb => ?_
    · rcases ht with ⟨id', req, hreq, hr, ht⟩ | hjob
      · rcases AList.lookup_insert_eq_some.mp hreq with ⟨_, rfl⟩ | ⟨_, hold⟩
        · rw [idle] at ht
          cases ht
        · exact .inl ⟨id', req, hold, hr, ht⟩
      · exact .inr hjob
    · obtain ⟨req, hreq, hst⟩ := hb
      rcases AList.lookup_insert_eq_some.mp hreq with ⟨_, rfl⟩ | ⟨_, hold⟩
      · cases purpose <;> cases hst
      · exact ⟨req, hold, hst⟩
  | advanced id req reply m hreq hm => exact h.take hreq hm
  | cancelled id leavesJob req job hreq hjob =>
    refine h.frame rfl rfl rfl (fun r t ht => party_abandon hreq hjob ht) fun id' t b hb => ?_
    obtain ⟨req', hreq', hst⟩ := hb
    exact ⟨req', (AList.lookup_erase_eq_some.mp hreq').2, hst⟩
  | woke id effective job owner hjob he hfree =>
    refine h.frame rfl rfl rfl (fun r t ht => ?_) fun _ _ _ h => h
    rcases ht with hreq | ⟨id', job', hjob', hr, hb⟩
    · exact .inl hreq
    · rcases AList.lookup_insert_eq_some.mp hjob' with ⟨_, rfl⟩ | ⟨_, hold⟩
      · exact .inr ⟨id, job, hjob, hr, hb⟩
      · exact .inr ⟨id', job', hold, hr, hb⟩
  | ended id effective job write hjob hw =>
    refine h.frame rfl rfl rfl (fun r t ht => ?_) fun _ _ _ h => h
    rcases ht with hreq | ⟨id', job', hjob', hr, hb⟩
    · exact .inl hreq
    · exact .inr ⟨id', job', (AList.lookup_erase_eq_some.mp hjob').2, hr, hb⟩
  | left id req answer hreq hst =>
    refine h.frame rfl rfl rfl (fun r t ht => ?_) fun id' t b hb => ?_
    · rcases ht with ⟨id', req', hreq', hr, ht⟩ | hjob
      · exact .inl ⟨id', req', (AList.lookup_erase_eq_some.mp hreq').2, hr, ht⟩
      · exact .inr hjob
    · obtain ⟨req', hreq', hst'⟩ := hb
      exact ⟨req', (AList.lookup_erase_eq_some.mp hreq').2, hst'⟩

/-- **Every state of every run is coherent.** -/
theorem coherent_of_runs {host : Host W M} {ok : Server M → Action → Prop} {s : Server M}
    (hrun : Runs host ok s) : Coherent s :=
  runs_invariant (coherent_start host) (fun _ _ _ h _ hs => h.step hs) hrun

/-- A request builds and another one waits for it. -/
theorem coherent_of_runs_joined :
    let host := versionedHost ⟨4, 16, 100000000⟩
    ∃ s : Server Nat, Runs host (fun _ _ => True) s ∧ s.requests.values.length = 2 ∧
      Coherent s := by
  intro host
  have hplayed : (Steps.runWhile (step host) (fun _ _ => true) (start host)
      (List.flatten [[.arrive 0 [97] .index], List.replicate 8 (.advance 0 .done),
        [.arrive 1 [97] .index], List.replicate 3 (.advance 1 .done)])).map
      (fun s => s.requests.values.length) = some 2 := by decide +kernel
  obtain ⟨s, hs, hrequests⟩ := Option.map_eq_some_iff.mp hplayed
  have hrun := (Steps.reaches_of_runWhile _ hs).mono fun _ _ _ => trivial
  exact ⟨s, hrun, hrequests, coherent_of_runs hrun⟩

end Server

end MavenMcp
