/-
# Single flight

All requests of one generation of a project share one build: the marker of the running build
hands out its cell and its owner lock, and the README promises that one project generation never
has two builds running.

* `single_flight`: so it is in every run in which no request is cancelled between its publication
  and its cell's filling while another waits on that cell (`handsOver`), and no lookup begins a
  new cell in that time (`beginsApart`).
* `flight_is_doubled`: the first of these happens.  The marker goes with the publication, the
  cell is filled only after the classpath is written, and a waiter takes it over and builds again.
-/
import MavenMcp.Server.Locks

namespace MavenMcp

open ProjectCache (Op performAll)

variable {W M : Type}

namespace Server

/-! ## 1. The condition -/

/-- No request is cancelled after its build was published or failed, while another request waits
on the cell that it has not filled. -/
def handsOver (s : Server M) : Action → Bool
  | .cancel id _ =>
    (s.requests.lookup id).all fun req =>
      match req.stage with
      | .building t b =>
        !b.settled || !(s.requests.erase id).values.any fun req' =>
          req'.ticket.any fun t' => decide (t'.cell = t.cell)
      | _ => true
  | _ => true

/-- A build of the generation was published or has failed, and its cell is not filled. -/
def settledIn (s : Server M) (root : PathBuf) (generation : Nat) : Bool :=
  s.requests.values.any fun req => decide (req.root = root) &&
    match req.stage with
    | .building t b => b.settled && decide (t.generation = generation)
    | _ => false

/-- No lookup begins a new cell in a generation whose build was published or has failed, and has
not filled its own. -/
def beginsApart (s : Server M) : Action → Bool
  | .advance id _ =>
    (s.requests.lookup id).all fun req =>
      match req.stage with
      | .looking _ =>
        (s.cache.get req.root).all fun st =>
          st.index.isSome || (st.inFlight.any fun mk => decide (mk.generation = st.generation)) ||
            !s.settledIn req.root st.generation
      | _ => true
  | _ => true

def fliesAlone (s : Server M) (a : Action) : Bool := s.handsOver a && s.beginsApart a

/-! ## 2. The invariant -/

/-- Somebody holds the ticket of a build that has not ended. -/
def Active (s : Server M) (r : PathBuf) (t : Ticket M) : Prop :=
  s.Party r t ∧ s.filled.lookup t.cell = none

/-- A build of the cell was published or has failed, and will fill the cell. -/
def Settles (s : Server M) (cell : Nat) : Prop :=
  ∃ id t b, s.Builds id t b ∧ t.cell = cell ∧ b.settled = true

/-- **One flight for each generation.** -/
structure OneFlight (s : Server M) : Prop where
  oneCell : ∀ r t t', s.Active r t → s.Active r t' → t.generation = t'.generation →
    t.cell = t'.cell
  /-- A build of the present generation has the marker, or is about to fill its cell. -/
  marked : ∀ r t, s.Active r t → s.cache.isCurrent r t.generation = true →
    (∃ st mk, s.cache.get r = some st ∧ st.inFlight = some mk ∧ mk.cell = t.cell) ∨
      s.Settles t.cell
  unsettled : ∀ id req t b st mk, s.Has id req → req.stage = .building t b →
    s.cache.get req.root = some st → st.inFlight = some mk → t.generation = mk.generation →
    b.settled = false
  published : ∀ p ∈ s.published, ∀ r t, s.Active r t → t.cell = p.cell → s.Settles t.cell

theorem oneFlight_start (host : Host W M) : OneFlight (start host) where
  oneCell := by
    rintro r t t' ⟨⟨id, req, h, _⟩ | ⟨id, job, h, _⟩, _⟩ <;> cases h
  marked := by
    rintro r t ⟨⟨id, req, h, _⟩ | ⟨id, job, h, _⟩, _⟩ <;> cases h
  unsettled := by
    intro id req t b st mk h
    cases h
  published := by
    intro p hp
    cases hp

/-! ## 3. Steps of requests -/

/-- A request that comes to wait has just looked its build up. -/
theorem waiting_of_moves {host : Host W M} {s : Server M} {req : Request M} {reply : Reply}
    {m : Move M} (h : Moves host s req req.stage reply m) {t : Ticket M}
    (hst : m.stage = .waiting t) :
    (∃ snapshot, req.stage = .looking snapshot ∧
      m.ops = [.lookupIndex req.root snapshot.fingerprint] ∧
      (ProjectCache.lookupIndex s.held s.cache req.root snapshot.fingerprint).2
        = .build t.cell t.owner t.generation) := by
  generalize hreq : req.stage = stage at h
  cases h with
  | runner stage =>
    rcases stage_projectRunner host s req stage with ⟨_, h⟩ | ⟨snapshot, h⟩ | ⟨_, h⟩
    · rw [h] at hst
      cases hst
    · rw [h, Request.withRunner] at hst
      split at hst <;> cases hst
    · rw [h] at hst
      cases hst
  | index h =>
    cases h with
    | joined snapshot cell owner generation ha =>
      cases hst
      exact ⟨snapshot, rfl, rfl, ha⟩
    | invalidates =>
      simp only [Request.afterInvalidation] at hst
      split at hst
      · cases hst
      · split at hst <;> cases hst
    | forgot =>
      simp only [Request.afterInvalidation] at hst
      split at hst <;> cases hst
    | outdated =>
      simp only at hst
      rcases stage_again req with h | ⟨e, h⟩ <;> rw [h] at hst <;> cases hst
    | resolved t₀ outcome _ =>
      rcases stage_resolved req outcome with ⟨i, _, h⟩ | h | ⟨e, h⟩ <;> rw [h] at hst <;> cases hst
    | _ => cases hst
  | build h =>
    cases h with
    | filled outcome =>
      simp only at hst
      rcases stage_resolved req outcome with ⟨i, _, h⟩ | h | ⟨e, h⟩ <;> rw [h] at hst <;> cases hst
    | _ => cases hst

/-- Only a build that settles ends its generation's build in the cache. -/
theorem settles_of_ends {host : Host W M} {s : Server M} {req : Request M} {reply : Reply}
    {m : Move M} (h : Moves host s req req.stage reply m) {op : Op (MavenRunner M) MavenIndex}
    (hop : op ∈ m.ops) {r : PathBuf} {g : Nat} (he : op.Ends r g) :
    r = req.root ∧ ∃ t b b', req.stage = .building t b ∧ m.stage = .building t b' ∧
      b'.settled = true ∧ t.generation = g := by
  generalize hst : req.stage = stage at h
  cases h with
  | runner stage =>
    cases stage with
    | checking cached =>
      simp only [projectRunner] at hop
      split at hop
      · split at hop
        · cases hop
        · split at hop <;> cases hop
      · cases hop
    | discovering cached =>
      simp only [projectRunner] at hop
      split at hop <;> cases hop
    | snapshot =>
      cases List.mem_singleton.mp hop
      cases he
    | discarding =>
      cases List.mem_singleton.mp hop
      cases he
    | installing =>
      cases List.mem_singleton.mp hop
      cases he
    | capturing => cases hop
  | index h =>
    cases h with
    | invalidates =>
      rcases List.mem_cons.mp hop with rfl | hop
      · cases he
      · split at hop
        · cases List.mem_singleton.mp hop
          cases he
        · cases hop
    | cached =>
      cases List.mem_singleton.mp hop
      cases he
    | joined =>
      cases List.mem_singleton.mp hop
      cases he
    | hit =>
      cases List.mem_singleton.mp hop
      cases he
    | outdated =>
      cases List.mem_singleton.mp hop
      cases he
    | resolved t outcome _ => simp at hop
    | _ => cases hop
  | @build t b reply m h =>
    have used : ∀ {cp reused built}, op ∈ persistedUse host req cp reused built → False := by
      intro cp reused built hused
      unfold persistedUse at hused
      split at hused
      · cases List.mem_singleton.mp hused
        cases he
      · cases hused
    cases h with
    | publishedStale =>
      rcases List.mem_append.mp hop with hop | hop
      · exact (used hop).elim
      · cases List.mem_singleton.mp hop
        obtain ⟨rfl, rfl⟩ := he
        exact ⟨rfl, t, _, _, rfl, rfl, rfl, rfl⟩
    | published cp artifacts reservation index reused built b' _ hb' =>
      rcases List.mem_append.mp hop with hop | hop
      · exact (used hop).elim
      · rcases List.mem_cons.mp hop with rfl | hop
        · obtain ⟨rfl, rfl⟩ := he
          refine ⟨rfl, t, _, b', rfl, rfl, ?_, rfl⟩
          rcases hb' with ⟨_, rfl⟩ | rfl <;> rfl
        · cases List.mem_singleton.mp hop
          cases he
    | failed error =>
      cases List.mem_singleton.mp hop
      obtain ⟨rfl, rfl⟩ := he
      exact ⟨rfl, t, _, _, rfl, rfl, rfl, rfl⟩
    | reserved =>
      cases List.mem_singleton.mp hop
      cases he
    | reserveStale =>
      cases List.mem_singleton.mp hop
      cases he
    | overBudget =>
      cases List.mem_singleton.mp hop
      cases he
    | abandoned =>
      cases List.mem_singleton.mp hop
      cases he
    | filled outcome => simp at hop
    | _ => cases hop

/-- A cell that is open after a step was open before. -/
theorem unsettledof_take {s : Server M} {id : Nat} {req : Request M} {m : Move M} {cell : Nat}
    (h : (s.take id req m).filled.lookup cell = none) : s.filled.lookup cell = none := by
  unfold take at h
  simp only at h
  cases hf : m.fills with
  | none =>
    rw [hf] at h
    exact h
  | some f =>
    rw [hf] at h
    rw [Option.eq_none_iff_forall_ne_some]
    intro o ho
    by_cases hc : cell = f.1
    · have hnew : (s.filled.insert f.1 f.2).lookup cell = some f.2 :=
        AList.lookup_insert_eq_some.mpr (.inl ⟨hc, rfl⟩)
      rw [h] at hnew
      cases hnew
    · have hkept : (s.filled.insert f.1 f.2).lookup cell = some o :=
        AList.lookup_insert_eq_some.mpr (.inr ⟨hc, ho⟩)
      rw [h] at hkept
      cases hkept

/-- A build that is about to fill its cell still is, as long as the cell is open. -/
theorem settles_take {host : Host W M} {s : Server M} {id : Nat} {req : Request M} {reply : Reply}
    {m : Move M} (hreq : s.Has id req) (hm : Moves host s req req.stage reply m) {cell : Nat}
    (h : s.Settles cell) (hopen : (s.take id req m).filled.lookup cell = none) :
    (s.take id req m).Settles cell := by
  obtain ⟨id', t, b, ⟨req', hreq', hst⟩, rfl, hb⟩ := h
  by_cases hid : id' = id
  · subst hid
    rw [Has, hreq.lookup] at hreq'
    cases hreq'
    have mover : ∀ {b'}, m.stage = .building t b' → b'.settled = true →
        (s.take id' req m).Settles t.cell := fun {b'} hst' hb' =>
      ⟨id', t, b', ⟨s.moved req m, has_take.mpr (.inl ⟨rfl, rfl⟩), hst'⟩, rfl, hb'⟩
    rw [hst] at hm
    cases hm with
    | index h => cases h
    | build h =>
      cases h with
      | persisted => exact mover rfl rfl
      | rechecked => exact mover rfl rfl
      | outdated => exact mover rfl rfl
      | forgot => exact mover rfl rfl
      | filled outcome =>
        have hfilled : (s.take id' req { req.resolved outcome with
            fills := some (t.cell, outcome) }).filled.lookup t.cell = some outcome :=
          AList.lookup_insert_eq_some.mpr (.inl ⟨rfl, rfl⟩)
        rw [hopen] at hfilled
        cases hfilled
      | resolves b₁ hr => cases hr <;> cases hb
      | _ => cases hb
  · exact ⟨id', t, b, ⟨req', has_take.mpr (.inr ⟨hid, hreq'⟩), hst⟩, rfl, hb⟩

/-- A build that is about to fill its cell, as a builder. -/
theorem Settles.builds {s : Server M} {r : PathBuf} {t : Ticket M} (hc : Coherent s)
    (hparty : s.Party r t) (h : s.Settles t.cell) : ∃ id req t' b, s.Has id req ∧
      req.stage = .building t' b ∧ b.settled = true ∧ req.root = r ∧
      t'.generation = t.generation := by
  obtain ⟨id, t', b, ⟨req, hreq, hst⟩, hcell, hb⟩ := h
  have hparty' : s.Party req.root t' :=
    .inl ⟨id, req, hreq, rfl, by simp only [Request.ticket, hst, Stage.ticket]⟩
  obtain ⟨hr, hg⟩ := hc.agree _ _ t' t hparty' hparty hcell
  exact ⟨id, req, t', b, hreq, hst, hb, hr, hg⟩

theorem not_settled_of_beginsApart {s : Server M} {id id' : Nat} {reply : Reply}
    {req req' : Request M} {snapshot : Snapshot M} {st : ProjectState (MavenRunner M) MavenIndex}
    {t : Ticket M} {b : BuildStage} (hok : s.beginsApart (.advance id reply) = true)
    (hreq : s.Has id req) (hst : req.stage = .looking snapshot)
    (hget : s.cache.get req.root = some st) (hi : st.index = none)
    (hmk : ∀ mk, st.inFlight = some mk → mk.generation ≠ st.generation)
    (hreq' : s.Has id' req') (hst' : req'.stage = .building t b) (hr : req'.root = req.root)
    (hg : t.generation = st.generation) : b.settled = false := by
  have hnone : (st.inFlight.any fun mk => decide (mk.generation = st.generation)) = false := by
    cases hin : st.inFlight with
    | none => rfl
    | some mk => simpa using hmk mk hin
  simp only [beginsApart, hreq.lookup, hst, hget, hi, hnone, Option.all_some, Option.isSome_none,
    Bool.false_or, Bool.not_eq_true'] at hok
  rw [settledIn, List.any_eq_false] at hok
  have hno := hok req' (AList.mem_values.mpr ⟨id', hreq'⟩)
  simpa [hst', hr, hg] using hno

/-- **The cell of a new ticket** is that of every active build of its generation. -/
theorem OneFlight.cell_of_joins {s : Server M} (h : OneFlight s) (hc : Coherent s) {id : Nat}
    {req : Request M} {reply : Reply} {snapshot : Snapshot M} {t t' : Ticket M}
    {c' : ProjectCache (MavenRunner M) MavenIndex} (hreq : s.Has id req)
    (hst : req.stage = .looking snapshot) (hok : s.beginsApart (.advance id reply) = true)
    (hj : ProjectCache.Joins s.cache req.root c' t.cell t.owner t.generation)
    (ht' : s.Active req.root t') (hg : t'.generation = t.generation) : t'.cell = t.cell := by
  generalize t.cell = cell at hj ⊢
  generalize t.owner = owner at hj
  generalize t.generation = g at hj hg
  cases hj with
  | joined st mk hget _ hmk hgen _ =>
    have hcur : s.cache.isCurrent req.root t'.generation = true :=
      ProjectCache.isCurrent_iff.mpr ⟨st, hget, hg.symm⟩
    rcases h.marked req.root t' ht' hcur with ⟨st', mk', hget', hmk', hcell⟩ | hset
    · cases hget.symm.trans hget'
      cases hmk.symm.trans hmk'
      exact hcell.symm
    · obtain ⟨id', req', t₀, b, hreq', hst', hb, hr, hg₀⟩ := hset.builds hc ht'.1
      rw [← hr] at hget
      have hopen := h.unsettled id' req' t₀ b st mk hreq' hst' hget hmk
        (hg₀.trans (hg.trans hgen.symm))
      rw [hb] at hopen
      cases hopen
  | started st hget hi hmk _ =>
    have hcur : s.cache.isCurrent req.root t'.generation = true :=
      ProjectCache.isCurrent_iff.mpr ⟨st, hget, hg.symm⟩
    rcases h.marked req.root t' ht' hcur with ⟨st', mk', hget', hmk', _⟩ | hset
    · cases hget.symm.trans hget'
      exact absurd (hc.marks req.root st mk' hget hmk').generation (hmk mk' hmk')
    · obtain ⟨id', req', t₀, b, hreq', hst', hb, hr, hg₀⟩ := hset.builds hc ht'.1
      have hopen := not_settled_of_beginsApart hok hreq hst hget hi hmk hreq' hst' hr
        (hg₀.trans hg)
      rw [hb] at hopen
      cases hopen
  | fresh =>
    have := (hc.issued _ t' ht'.1).2.2
    omega

/-- A marker whose cell a party has a ticket for is live. -/
theorem live_of_party {s : Server M} (hx : Exclusive s) {r : PathBuf} {t : Ticket M}
    {mk : InFlight} (ht : s.Party r t) (hcell : mk.cell = t.cell) (howner : mk.owner = t.owner) :
    mk.isLive s.held = true := by
  rw [InFlight.isLive, Bool.or_eq_true]
  rcases ht with ⟨id, req, hreq, _, ht⟩ | ⟨id, job, hjob, _, hb⟩
  · refine .inl (List.any_eq_true.mpr ⟨req, AList.mem_values.mpr ⟨id, hreq⟩, ?_⟩)
    simp [ht, hcell]
  · right
    rw [howner]
    exact hx.taken hjob hb

/-- **A step of a request keeps the invariant.** -/
theorem OneFlight.take {host : Host W M} {s : Server M} (h : OneFlight s) (hc : Coherent s)
    (hx : Exclusive s) {id : Nat} {req : Request M} {reply : Reply} {m : Move M}
    (hreq : s.Has id req) (hm : Moves host s req req.stage reply m)
    (hok : s.beginsApart (.advance id reply) = true) : OneFlight (s.take id req m) := by
  have hts := ticketStep_of_moves hm
  have joined : ∀ {t}, m.stage = .waiting t → ∃ snapshot, req.stage = .looking snapshot :=
    fun hst => (waiting_of_moves hm hst).imp fun _ h => h.1
  have before : ∀ {r t}, s.Party r t → (s.take id req m).filled.lookup t.cell = none →
      s.Active r t := fun hparty hopen => ⟨hparty, unsettledof_take hopen⟩
  refine ⟨?_, ?_, ?_, ?_⟩
  · -- one cell
    rintro r t t' ⟨ht, hopen⟩ ⟨ht', hopen'⟩ hg
    rcases party_take hreq hts ht with hold | ⟨rfl, hst, hj, _⟩
    · rcases party_take hreq hts ht' with hold' | ⟨rfl, hst', hj', _⟩
      · exact h.oneCell r t t' (before hold hopen) (before hold' hopen') hg
      · obtain ⟨snapshot, hlook⟩ := joined hst'
        exact h.cell_of_joins hc hreq hlook hok hj' (before hold hopen) hg
    · rcases party_take hreq hts ht' with hold' | ⟨_, hst', _, _⟩
      · obtain ⟨snapshot, hlook⟩ := joined hst
        exact (h.cell_of_joins hc hreq hlook hok hj (before hold' hopen') hg.symm).symm
      · rw [hst] at hst'
        cases hst'
        rfl
  · -- marked
    rintro r t ⟨ht, hopen⟩ hcur
    rcases party_take hreq hts ht with hold | ⟨rfl, hst, _, _⟩
    · have hactive := before hold hopen
      have hgen := (hc.issued r t hold).2.2
      have hbefore := ProjectCache.isCurrent_of_performAll hgen hcur
      rcases h.marked r t hactive hbefore with ⟨st, mk, hget, hmk, hcell⟩ | hset
      · by_cases hends : ∃ op ∈ m.ops, op.Ends r t.generation
        · -- the build of the generation settles in this step: it is on the same cell
          obtain ⟨op, hop, he⟩ := hends
          obtain ⟨rfl, t₀, b, b', hst, hst', hb', hg₀⟩ := settles_of_ends hm hop he
          have hparty : s.Party req.root t₀ :=
            .inl ⟨id, req, hreq, rfl, by simp only [Request.ticket, hst, Stage.ticket]⟩
          have hactive₀ : s.Active req.root t₀ :=
            ⟨hparty, hc.unfilled id t₀ b ⟨req, hreq, hst⟩⟩
          exact .inr ⟨id, t₀, b', ⟨s.moved req m, has_take.mpr (.inl ⟨rfl, rfl⟩), hst'⟩,
            h.oneCell _ t₀ t hactive₀ hactive hg₀, hb'⟩
        · have hmarks := hc.marks r st mk hget hmk
          have hmg := (hmarks.agree r t hold hcell.symm).2
          have howner : mk.owner = t.owner := by
            rw [hmarks.owner, hcell, (hc.issued r t hold).1]
          have hlive : mk.isLive s.held = true := live_of_party hx hold hcell howner
          obtain ⟨st', hget', hmk'⟩ := ProjectCache.marker_kept_performAll hmg.symm hlive
            (fun op hop he => hends ⟨op, hop, he⟩) hget hmk (hmarks.generation.symm.trans hmg.symm)
            hgen hcur
          exact .inl ⟨st', mk, hget', hmk', hcell⟩
      · exact .inr (settles_take hreq hm hset hopen)
    · obtain ⟨snapshot, _, hops, ha⟩ := waiting_of_moves hm hst
      obtain ⟨st', hget, hmk⟩ := ProjectCache.marker_of_lookupIndex ha
      refine .inl ⟨st', _, ?_, hmk, rfl⟩
      simp only [Server.take, hops, ProjectCache.performAll_cons, ProjectCache.performAll_nil]
      exact hget
  · -- open
    intro id' req' t b st' mk hreq' hst hget hmk hg
    have hbuilds : (s.take id req m).Builds id' t b := ⟨req', hreq', hst⟩
    rcases marker_of_moves hm hget hmk with ⟨st, hget₀, hmk₀, hsame⟩ | ⟨hr, hfresh, hn, t₀, hst₀, _⟩
    · have hmarks := hc.marks req'.root st mk hget₀ hmk₀
      rcases has_take.mp hreq' with ⟨rfl, rfl⟩ | ⟨_, hold⟩
      · rcases builds_of_moves hm hbuilds with ⟨hne, _⟩ | ⟨_, hst', ⟨rfl, _⟩ | ⟨b₀, hstb, hbm⟩⟩
        · exact absurd rfl hne
        · rfl
        · by_contra hb
          rw [Bool.not_eq_false] at hb
          have hb₀ := h.unsettled id' req t b₀ st mk hreq hstb hget₀ hmk₀ hg
          have hparty : s.Party req.root t :=
            .inl ⟨id', req, hreq, rfl, by simp only [Request.ticket, hstb, Stage.ticket]⟩
          have hnone := inFlight_of_settles hbm hst' hb₀ hb (hc.issued _ t hparty).2.2 hget
            (by rw [← hsame, ← hmarks.generation, hg])
          rw [hnone] at hmk
          cases hmk
      · exact h.unsettled id' req' t b st mk hold hst hget₀ hmk₀ hg
    · -- the marker that a lookup has just left
      obtain ⟨snapshot, hlook, hops, ha⟩ := waiting_of_moves hm hst₀
      rcases has_take.mp hreq' with ⟨rfl, rfl⟩ | ⟨_, hold⟩
      · rw [show m.stage = .building t b from hst] at hst₀
        cases hst₀
      · have hgen : mk.generation = t₀.generation := by
          obtain ⟨st₁, hget₁, hmk₁⟩ := ProjectCache.marker_of_lookupIndex ha
          simp only [Server.take, hops, ProjectCache.performAll_cons,
            ProjectCache.performAll_nil] at hget
          rw [hr] at hget
          cases hget₁.symm.trans hget
          cases hmk₁.symm.trans hmk
          rfl
        have hj := ProjectCache.joins_of_lookupIndex ha
        have hn' : (ProjectCache.lookupIndex s.held s.cache req.root
            snapshot.fingerprint).1.nextPtr = s.cache.nextPtr + 2 := by
          simp only [Server.take, hops, ProjectCache.performAll_cons,
            ProjectCache.performAll_nil] at hn
          exact hn
        rw [hgen] at hg
        generalize t₀.cell = cell at hj
        generalize t₀.owner = owner at hj
        generalize t₀.generation = g at hj hg
        cases hj with
        | joined _ _ _ _ _ _ hp => omega
        | started st hget₁ hi hmk₁ _ =>
          exact not_settled_of_beginsApart hok hreq hlook hget₁ hi hmk₁ hold hst hr hg
        | fresh =>
          have hparty : s.Party req'.root t :=
            .inl ⟨id', req', hold, rfl, by simp only [Request.ticket, hst, Stage.ticket]⟩
          have := (hc.issued _ t hparty).2.2
          omega
  · -- published
    rintro p hp r t ⟨ht, hopen⟩ hcell
    rcases published_take hreq hts hp with hold | ⟨t₀, b₀, b', reply', hb, hst', _, hpc, _, hb'⟩
    · rcases party_take hreq hts ht with hparty | ⟨rfl, _, hj, _⟩
      · exact settles_take hreq hm (h.published p hold r t (before hparty hopen) hcell) hopen
      · -- a new ticket is for no published cell
        exfalso
        have hbelow := hc.publishedAllocated p hold
        generalize t.cell = cell at hj hcell
        generalize t.owner = owner at hj
        generalize t.generation = g at hj
        cases hj with
        | joined st mk hget _ hmk _ _ =>
          exact (hc.marks req.root st mk hget hmk).unpublished p hold hcell.symm
        | started => omega
        | fresh => omega
    · refine ⟨id, t₀, b', ⟨s.moved req m, has_take.mpr (.inl ⟨rfl, rfl⟩), hst'⟩, ?_, hb'⟩
      rw [← hpc, hcell]

/-! ## 4. The other steps -/

/-- Parties and builders may go, but no build that is about to fill its cell. -/
theorem OneFlight.frame {s s' : Server M} (h : OneFlight s) (hc : s'.cache = s.cache)
    (hf : s'.filled = s.filled) (hp : s'.published = s.published)
    (hparty : ∀ r t, s'.Party r t → s.Party r t)
    (hreq : ∀ id req t b, s'.Has id req → req.stage = .building t b → s.Has id req)
    (hkeep : ∀ r t, s'.Active r t → s.Settles t.cell → s'.Settles t.cell) : OneFlight s' := by
  have active : ∀ {r t}, s'.Active r t → s.Active r t := by
    rintro r t ⟨ht, hopen⟩
    rw [hf] at hopen
    exact ⟨hparty r t ht, hopen⟩
  refine ⟨fun r t t' ht ht' => h.oneCell r t t' (active ht) (active ht'), ?_, ?_, ?_⟩
  · intro r t ht hcur
    rw [hc] at hcur ⊢
    exact (h.marked r t (active ht) hcur).imp id (hkeep r t ht)
  · intro id req t b st mk hhas hst hget
    rw [hc] at hget
    exact h.unsettled id req t b st mk (hreq id req t b hhas hst) hst hget
  · intro p hpub r t ht hcell
    rw [hp] at hpub
    exact hkeep r t ht (h.published p hpub r t (active ht) hcell)

/-- A cancelled request leaves every other build that is about to fill its cell, and where its own
was, nobody waits. -/
theorem OneFlight.cancel {s : Server M} (h : OneFlight s) (hx : Exclusive s) {id : Nat}
    {req : Request M} {left : Option (Job M)} {leavesJob : Bool} (hreq : s.Has id req)
    (hleft : leftover req = some left) (hok : s.handsOver (.cancel id leavesJob) = true) :
    OneFlight (s.abandon id req (if leavesJob then left else none)) := by
  refine h.frame rfl rfl rfl (fun r t ht => party_abandon hreq hleft ht)
    (fun _ _ _ _ hreq' _ => (AList.lookup_erase_eq_some.mp hreq').2) ?_
  rintro r t ⟨ht, _⟩ ⟨id', t₀, b, ⟨req', hreq', hst⟩, hcell, hb⟩
  by_cases hid : id' = id
  · -- the request itself was about to fill the cell
    exfalso
    subst hid
    rw [Has, hreq.lookup] at hreq'
    cases hreq'
    rcases ht with ⟨id'', req'', hreq'', _, ht⟩ | ⟨id'', job, hjob, _, hjb⟩
    · simp only [handsOver, hreq.lookup, hst, hb, Option.all_some, Bool.not_true, Bool.false_or,
        Bool.not_eq_true'] at hok
      rw [List.any_eq_false] at hok
      refine hok req'' (AList.mem_values.mpr ⟨id'', hreq''⟩) ?_
      simp [ht, hcell]
    · have hlock : b ≠ .locking := by
        rintro rfl
        cases hb
      rcases hasJob_abandon hjob with hold | ⟨_, hnew⟩ | hwake
      · exact hx.alone id' t₀ b id'' job t ⟨req, hreq, hst⟩ hlock hold hjb hcell.symm
      · cases leavesJob with
        | false => cases hnew
        | true =>
          simp only [if_true] at hnew
          subst hnew
          obtain ⟨_, b', hst', _, hb'⟩ := (build_of_leftover hleft).2 t hjb
          rw [hst] at hst'
          cases hst'
          rw [hb] at hb'
          cases hb'
      · obtain ⟨t', _, rfl⟩ := Option.map_eq_some_iff.mp hwake
        cases hjb
  · exact ⟨id', t₀, b, ⟨req', AList.lookup_erase_eq_some.mpr ⟨hid, hreq'⟩, hst⟩, hcell, hb⟩

theorem OneFlight.step {host : Host W M} {s s' : Server M} {a : Action} (h : OneFlight s)
    (hc : Coherent s) (hx : Exclusive s) (hok : s.fliesAlone a = true) (hs : Stepped host s a s') :
    OneFlight s' := by
  obtain ⟨hhand, happart⟩ := (Bool.and_eq_true _ _).mp hok
  cases hs with
  | advanced id req reply m hreq hm => exact h.take hc hx hreq hm happart
  | cancelled id leavesJob req job hreq hjob => exact h.cancel hx hreq hjob hhand
  | edit =>
    exact h.frame rfl rfl rfl (fun _ _ ht => ht) (fun _ _ _ _ hreq _ => hreq) fun _ _ _ hs => hs
  | evicted =>
    exact h.frame rfl rfl rfl (fun _ _ ht => ht) (fun _ _ _ _ hreq _ => hreq) fun _ _ _ hs => hs
  | tested =>
    exact h.frame rfl rfl rfl (fun _ _ ht => ht) (fun _ _ _ _ hreq _ => hreq) fun _ _ _ hs => hs
  | arrived id root purpose hn =>
    have idle : (Request.arriving s root purpose).ticket = none := by cases purpose <;> rfl
    refine h.frame rfl rfl rfl (fun r t ht => ?_) (fun id' req t b hreq hst => ?_) ?_
    · rcases ht with ⟨id', req, hreq, hr, ht⟩ | hjob
      · rcases AList.lookup_insert_eq_some.mp hreq with ⟨_, rfl⟩ | ⟨_, hold⟩
        · rw [idle] at ht
          cases ht
        · exact .inl ⟨id', req, hold, hr, ht⟩
      · exact .inr hjob
    · rcases AList.lookup_insert_eq_some.mp hreq with ⟨_, rfl⟩ | ⟨_, hold⟩
      · simp only [Request.ticket, hst, Stage.ticket, reduceCtorEq] at idle
      · exact hold
    · rintro r t _ ⟨id', t', b, ⟨req, hreq, hst⟩, hb⟩
      refine ⟨id', t', b, ⟨req, AList.lookup_insert_eq_some.mpr (.inr ⟨?_, hreq⟩), hst⟩, hb⟩
      rintro rfl
      rw [hreq.lookup] at hn
      cases hn
  | woke id effective job owner hjob he hfree =>
    refine h.frame rfl rfl rfl (fun r t ht => ?_) (fun _ _ _ _ hreq _ => hreq) fun _ _ _ hs => hs
    rcases ht with hreq | ⟨id', job', hjob', hr, hb⟩
    · exact .inl hreq
    · rcases AList.lookup_insert_eq_some.mp hjob' with ⟨_, rfl⟩ | ⟨_, hold⟩
      · exact .inr ⟨id, job, hjob, hr, hb⟩
      · exact .inr ⟨id', job', hold, hr, hb⟩
  | ended id effective job write hjob hw =>
    refine h.frame rfl rfl rfl (fun r t ht => ?_) (fun _ _ _ _ hreq _ => hreq) fun _ _ _ hs => hs
    rcases ht with hreq | ⟨id', job', hjob', hr, hb⟩
    · exact .inl hreq
    · exact .inr ⟨id', job', (AList.lookup_erase_eq_some.mp hjob').2, hr, hb⟩
  | left id req answer hreq hst =>
    refine h.frame rfl rfl rfl (fun r t ht => ?_)
      (fun _ _ _ _ hreq' _ => (AList.lookup_erase_eq_some.mp hreq').2) ?_
    · rcases ht with ⟨id', req', hreq', hr, ht⟩ | hjob
      · exact .inl ⟨id', req', (AList.lookup_erase_eq_some.mp hreq').2, hr, ht⟩
      · exact .inr hjob
    · rintro r t _ ⟨id', t', b, ⟨req', hreq', hst'⟩, hb⟩
      refine ⟨id', t', b, ⟨req', AList.lookup_erase_eq_some.mpr ⟨?_, hreq'⟩, hst'⟩, hb⟩
      rintro rfl
      rw [Has, hreq.lookup] at hreq'
      cases hreq'
      rw [hst] at hst'
      cases hst'

/-! ## 5. The theorem and the failure -/

/-- A build of the generation is carried out: by a request that has the owner lock behind it, or
by the job of a cancelled one. -/
inductive Works (s : Server M) (r : PathBuf) (g : Nat) : Nat ⊕ Nat → Prop
  | request (id : Nat) (req : Request M) (t : Ticket M) (b : BuildStage) : s.Has id req →
      req.root = r → req.stage = .building t b → b ≠ .locking → t.generation = g →
      Works s r g (.inl id)
  | job (id : Nat) (job : Job M) (t : Ticket M) : s.HasJob id job → job.root = r →
      job.build = some t → t.generation = g → Works s r g (.inr id)

/-- What works is a build on an open cell. -/
theorem Works.active {s : Server M} (hc : Coherent s) (hx : Exclusive s) {r : PathBuf} {g : Nat}
    {w : Nat ⊕ Nat} (h : s.Works r g w) : ∃ t, s.Active r t ∧ t.generation = g ∧
      ((∃ id b, w = .inl id ∧ s.Builds id t b ∧ b ≠ .locking) ∨
        ∃ id job, w = .inr id ∧ s.HasJob id job ∧ job.build = some t) := by
  cases h with
  | request id req t b hreq hr hst hne hg =>
    have hb : s.Builds id t b := ⟨req, hreq, hst⟩
    refine ⟨t, ⟨?_, hc.unfilled id t b hb⟩, hg, .inl ⟨id, b, rfl, hb, hne⟩⟩
    exact .inl ⟨id, req, hreq, hr, by simp only [Request.ticket, hst, Stage.ticket]⟩
  | job id job t hjob hr hb hg =>
    refine ⟨t, ⟨.inr ⟨id, job, hjob, hr, hb⟩, hx.unfilled id job t hjob hb⟩, hg,
      .inr ⟨id, job, rfl, hjob, hb⟩⟩

/-- **Single flight.**  In every run that meets the condition: two requests that wait on open
cells of one generation of a root have the same cell and owner; a generation never has two builds
that are carried out; and a build of a cell that something was published from is the one that
published it. -/
theorem single_flight (host : Host W M) {s : Server M}
    (hrun : Runs host (fun s a => s.fliesAlone a = true) s) :
    (∀ id id' req req' t t', s.Has id req → s.Has id' req' → req.ticket = some t →
      req'.ticket = some t' → req.root = req'.root → t.generation = t'.generation →
      s.filled.lookup t.cell = none → s.filled.lookup t'.cell = none →
      t.cell = t'.cell ∧ t.owner = t'.owner) ∧
    (∀ r g w w', s.Works r g w → s.Works r g w' → w = w') ∧
    ∀ p ∈ s.published, ∀ id t b, s.Builds id t b → t.cell = p.cell → b.settled = true := by
  have hinv : Coherent s ∧ Exclusive s ∧ OneFlight s := by
    refine runs_invariant (P := fun s => Coherent s ∧ Exclusive s ∧ OneFlight s)
      ⟨coherent_start host, exclusive_start host, oneFlight_start host⟩ ?_ hrun
    rintro u a v ⟨hc, hx, hf⟩ hok hs
    exact ⟨hc.step hs, hx.step hc hs, hf.step hc hx hok hs⟩
  obtain ⟨hc, hx, hf⟩ := hinv
  refine ⟨?_, ?_, ?_⟩
  · intro id id' req req' t t' hreq hreq' ht ht' hr hg hopen hopen'
    have hparty : s.Party req.root t := .inl ⟨id, req, hreq, rfl, ht⟩
    have hparty' : s.Party req.root t' := .inl ⟨id', req', hreq', hr.symm, ht'⟩
    have hcell := hf.oneCell _ t t' ⟨hparty, hopen⟩ ⟨hparty', hopen'⟩ hg
    exact ⟨hcell, by rw [(hc.issued _ t hparty).1, (hc.issued _ t' hparty').1, hcell]⟩
  · intro r g w w' hw hw'
    obtain ⟨t, hactive, hg, hwho⟩ := hw.active hc hx
    obtain ⟨t', hactive', hg', hwho'⟩ := hw'.active hc hx
    have hcell := hf.oneCell r t t' hactive hactive' (hg.trans hg'.symm)
    rcases hwho with ⟨id, b, rfl, hb, hne⟩ | ⟨id, job, rfl, hjob, hb⟩
    · rcases hwho' with ⟨id', b', rfl, hb', _⟩ | ⟨id', job', rfl, hjob', hb'⟩
      · rw [hc.oneBuilder _ _ _ _ _ _ hb hb' hcell]
      · exact absurd hcell.symm (hx.alone _ _ _ _ _ _ hb hne hjob' hb')
    · rcases hwho' with ⟨id', b', rfl, hb', hne'⟩ | ⟨id', job', rfl, hjob', hb'⟩
      · exact absurd hcell (hx.alone _ _ _ _ _ _ hb' hne' hjob hb)
      · rw [hx.oneJob _ _ _ _ _ _ hjob hjob' hb hb' hcell]
  · intro p hp id t b hb hcell
    obtain ⟨r, hparty⟩ := hb.party
    obtain ⟨id', t', b', hb', hcell', hset⟩ :=
      hf.published p hp r t ⟨hparty, hc.unfilled id t b hb⟩ hcell
    have hid := hc.oneBuilder _ _ _ _ _ _ hb' hb hcell'
    subst hid
    obtain ⟨req, hreq, hst⟩ := hb
    obtain ⟨req', hreq', hst'⟩ := hb'
    rw [Has, hreq.lookup] at hreq'
    cases hreq'
    rw [hst] at hst'
    cases hst'
    exact hset

/-- A second request waits on the cell of the first. -/
theorem single_flight_of_join :
    let host := versionedHost ⟨4, 16, 100000000⟩
    ∃ s : Server Nat, ∃ req req' t t', Runs host (fun s a => s.fliesAlone a = true) s ∧
      s.Has 0 req ∧ s.Has 1 req' ∧ req.ticket = some t ∧ req'.ticket = some t' ∧
      t.cell = t'.cell ∧ t.owner = t'.owner := by
  intro host
  have hplayed : (Steps.runWhile (step host) fliesAlone (start host)
      (List.flatten [[.arrive 0 [97] .index], List.replicate 8 (.advance 0 .done),
        [.arrive 1 [97] .index], List.replicate 3 (.advance 1 .done)])).bind (fun s =>
        (s.requests.lookup 0).bind fun req => (s.requests.lookup 1).bind fun req' =>
          req.ticket.bind fun t => req'.ticket.map fun t' =>
            (req.root, t.generation, (s.filled.lookup t.cell).isNone, req'.root, t'.generation,
              (s.filled.lookup t'.cell).isNone))
      = some ([97], 1, true, [97], 1, true) := by decide +kernel
  obtain ⟨s, hs, hreq⟩ := Option.bind_eq_some_iff.mp hplayed
  obtain ⟨req, hreq, hseen⟩ := Option.bind_eq_some_iff.mp hreq
  obtain ⟨req', hreq', hseen⟩ := Option.bind_eq_some_iff.mp hseen
  obtain ⟨t, ht, hseen⟩ := Option.bind_eq_some_iff.mp hseen
  obtain ⟨t', ht', hseen⟩ := Option.map_eq_some_iff.mp hseen
  simp only [Prod.mk.injEq, Option.isNone_iff_eq_none] at hseen
  obtain ⟨hr, hg, hopen, hr', hg', hopen'⟩ := hseen
  have hrun := Steps.reaches_of_runWhile _ hs
  exact ⟨s, req, req', t, t', hrun, hreq, hreq', ht, ht',
    (single_flight host hrun).1 0 1 req req' t t' hreq hreq' ht ht' (hr.trans hr'.symm)
      (hg.trans hg'.symm) hopen hopen'⟩

/-- The ticket and the build of a builder. -/
def buildOf (stage : Stage Nat) : Option (Ticket Nat × BuildStage) :=
  match stage with
  | .building ticket build => some (ticket, build)
  | _ => none

theorem eq_of_buildOf {stage : Stage Nat} {t : Ticket Nat} {b : BuildStage}
    (h : buildOf stage = some (t, b)) : stage = .building t b := by
  unfold buildOf at h
  split at h
  · cases h
    rfl
  · cases h

/-- **A generation can be built twice.**  Request 1 waits on the cell of request 0, which publishes
its index and is cancelled while it writes its classpath: request 1 takes the cell over and
builds again what is published already. -/
theorem flight_is_doubled :
    let host := versionedHost ⟨4, 16, 100000000⟩
    ¬ ∀ s : Server Nat, Runs host (fun _ _ => True) s →
      ∀ p ∈ s.published, ∀ id t b, s.Builds id t b → t.cell = p.cell → b.settled = true := by
  intro host h
  have hplayed : (Steps.runWhile (step host) (fun _ _ => true) (start host)
      (List.flatten [[.arrive 0 [97] .index], List.replicate 8 (.advance 0 .done),
        [.arrive 1 [97] .index], List.replicate 3 (.advance 1 .done),
        [.advance 0 (.judged true), .advance 0 .done, .advance 0 (.maven .success),
          .advance 0 (.judged true), .advance 0 (.stamped ⟨[]⟩), .advance 0 .done,
          .advance 0 .done, .advance 0 (.indexed (.built 10 0 0) false), .advance 0 .done,
          .cancel 0 false, .advance 1 .done, .advance 1 .done]])).bind (fun s =>
        s.published.head?.bind fun p => (s.requests.lookup 1).bind fun req =>
          (buildOf req.stage).map fun build => (p.cell, build.1.cell, build.2.settled))
      = some (0, 0, false) := by decide +kernel
  obtain ⟨s, hs, hp⟩ := Option.bind_eq_some_iff.mp hplayed
  obtain ⟨p, hp, hreq⟩ := Option.bind_eq_some_iff.mp hp
  obtain ⟨req, hreq, hseen⟩ := Option.bind_eq_some_iff.mp hreq
  obtain ⟨⟨t, b⟩, hst, hseen⟩ := Option.map_eq_some_iff.mp hseen
  obtain ⟨hcell, hseen⟩ := Prod.mk.inj hseen
  obtain ⟨hcell', hopen⟩ := Prod.mk.inj hseen
  have hset := h s ((Steps.reaches_of_runWhile _ hs).mono fun _ _ _ => trivial) p
    (List.mem_of_mem_head? hp) 1 t b ⟨req, hreq, eq_of_buildOf hst⟩ (hcell'.trans hcell.symm)
  rw [hopen] at hset
  cases hset

end Server

end MavenMcp
