/-
# The memory budget

Three layers.

* One call: every eviction loop comes to its exit (`loops_exit`), because a round evicts one
  cached index or runner and nothing is put back; `enforce` never evicts the root it serves,
  `reserve` never that root's runner, and no loop a runner whose project has a live build.
* One number: the count of cached indexes stays within its limit (`indexCount_perform`).
* Whole runs: a `Moment` is the cache with what is held around it and the lists of everything
  ever published, installed and reserved.  `Balanced` ties the books of the cache to these
  lists, every lawful step keeps it (`Balanced.next`), and then `retained_bytes` charges whatever
  is alive exactly once (`Balanced.exact`).

The step that can break the balance is a publication that finds another index of its own
generation in place while a request still holds that index; `Unobstructed` excludes it.
-/
import MavenMcp.ProjectCache.Accounts
import MavenMcp.ProjectCache.Generations

namespace MavenMcp

open Ledger

variable {ρ ι : Type}

namespace ProjectCache

/-! ## 1. The loops -/

/-- Releasing the index of a root takes one cached index away and no runner. -/
theorem counts_releaseIndex {held : Held} {c : ProjectCache ρ ι} {r : PathBuf}
    {st : ProjectState ρ ι} (hst : c.get r = some st) (hi : st.index.isSome = true) :
    (releaseIndex held c r).indexCount + 1 = c.indexCount ∧
      (releaseIndex held c r).runnerCount = c.runnerCount := by
  have hl : c.states.lookup r = some st := hst
  obtain ⟨e, he⟩ := Option.isSome_iff_exists.mp hi
  unfold releaseIndex
  simp only [hst, Option.bind_some, he]
  have hmap : ∀ (p : ProjectState ρ ι → Bool), (∀ st, p (pruneMarker held st) = p st) →
      AList.countBy p ((c.update r fun st => { st with index := none }).states.mapVals
        (pruneMarker held)) = AList.countBy p (c.states.insert r { st with index := none }) := by
    intro p hp
    simp only [AList.countBy, AList.values_mapVals, List.countP_map, update, AList.modify, hl]
    congr 1
    funext st
    exact hp st
  have hpi : ∀ st : ProjectState ρ ι, (pruneMarker held st).index.isSome = st.index.isSome := by
    intro st
    unfold pruneMarker
    split <;> rfl
  have hpr : ∀ st : ProjectState ρ ι, (pruneMarker held st).runner.isSome = st.runner.isSome := by
    intro st
    unfold pruneMarker
    split <;> rfl
  constructor
  · show AList.countBy (fun st : ProjectState ρ ι => st.index.isSome) _ + 1 =
      AList.countBy _ c.states
    refine (congrArg (· + 1) (hmap _ hpi)).trans ?_
    have := AList.sumBy_insert_of_lookup (w := { st with index := none })
      (fun st => if st.index.isSome then 1 else 0) hl
    simp only [he, Option.isSome_some, Option.isSome_none, if_true, Bool.false_eq_true,
      if_false] at this
    simp only [AList.countBy_eq_sumBy]
    omega
  · show AList.countBy (fun st : ProjectState ρ ι => st.runner.isSome) _ = AList.countBy _ c.states
    refine (hmap _ hpr).trans ?_
    have := AList.sumBy_insert_of_lookup (w := { st with index := none })
      (fun st => if st.runner.isSome then 1 else 0) hl
    dsimp only at this
    simp only [AList.countBy_eq_sumBy]
    omega

theorem counts_releaseRunner {c : ProjectCache ρ ι} {r : PathBuf} {st : ProjectState ρ ι}
    (hst : c.get r = some st) (hr : st.runner.isSome = true) :
    (c.releaseRunner r).runnerCount + 1 = c.runnerCount ∧
      (c.releaseRunner r).indexCount = c.indexCount := by
  have hl : c.states.lookup r = some st := hst
  obtain ⟨e, he⟩ := Option.isSome_iff_exists.mp hr
  unfold releaseRunner
  simp only [hst, Option.bind_some, he, runnerCount, indexCount, update, AList.modify, hl,
    AList.countBy_eq_sumBy]
  have h₁ := AList.sumBy_insert_of_lookup (w := { st with runner := none })
    (fun st => if st.runner.isSome then 1 else 0) hl
  have h₂ := AList.sumBy_insert_of_lookup (w := { st with runner := none })
    (fun st => if st.index.isSome then 1 else 0) hl
  simp only [he, Option.isSome_some, Option.isSome_none, if_true, Bool.false_eq_true,
    if_false] at h₁
  dsimp only at h₂
  omega

/-- An index eviction takes one index. -/
theorem counts_evictIndex {held : Held} {p : Option PathBuf} {c c' : ProjectCache ρ ι}
    (h : c.evictLeastRecentlyUsedIndex held p = some c') :
    c'.indexCount + 1 = c.indexCount ∧ c'.runnerCount = c.runnerCount := by
  obtain ⟨root, st, hst, hi, _, rfl⟩ := evictIndex_victim h
  exact counts_releaseIndex hst hi

/-- A runner eviction takes one runner. -/
theorem counts_evictRunner {held : Held} {p : Option PathBuf} {c c' : ProjectCache ρ ι}
    (h : c.evictLeastRecentlyUsedRunner held p = some c') :
    c'.runnerCount + 1 = c.runnerCount ∧ c'.indexCount = c.indexCount := by
  obtain ⟨root, st, hst, hr, _, _, rfl⟩ := evictRunner_victim h
  exact counts_releaseRunner hst hr

/-- `evict_index || evict_runner` takes one of the two. -/
theorem counts_evictOr {held : Held} {p q : Option PathBuf} {c c' : ProjectCache ρ ι}
    (h : (c.evictLeastRecentlyUsedIndex held p).or (c.evictLeastRecentlyUsedRunner held q)
      = some c') : c'.slots < c.slots ∧ c'.indexCount ≤ c.indexCount := by
  unfold slots
  rcases Option.or_eq_some_iff.mp h with h | ⟨_, h⟩
  · have := counts_evictIndex h
    omega
  · have := counts_evictRunner h
    omega

theorem enforceIndexesRound_lowers {held : Held} {p : Option PathBuf} {c c' : ProjectCache ρ ι}
    (h : enforceIndexesRound held p c = some c') :
    c'.slots < c.slots ∧ c'.indexCount ≤ c.indexCount := by
  unfold enforceIndexesRound at h
  split at h
  · have := counts_evictIndex h
    unfold slots
    omega
  · cases h

theorem enforceBytesRound_lowers {held : Held} {p : Option PathBuf} {c c' : ProjectCache ρ ι}
    (h : enforceBytesRound held p c = some c') :
    c'.slots < c.slots ∧ c'.indexCount ≤ c.indexCount := by
  unfold enforceBytesRound at h
  split at h
  · exact counts_evictOr h
  · cases h

theorem enforceRunnersRound_lowers {held : Held} {p : Option PathBuf} {c c' : ProjectCache ρ ι}
    (h : enforceRunnersRound held p c = some c') :
    c'.slots < c.slots ∧ c'.indexCount ≤ c.indexCount := by
  unfold enforceRunnersRound at h
  split at h
  · have := counts_evictRunner h
    unfold slots
    omega
  · cases h

theorem reserveRound_lowers {held : Held} {r : PathBuf} {bytes : Nat} {c c' : ProjectCache ρ ι}
    (h : reserveRound held r bytes c = some c') : c'.slots < c.slots := by
  unfold reserveRound at h
  split at h
  · exact (counts_evictOr h).1
  · cases h

/-- **Every eviction loop terminates**: it comes to the exit of the source's `while`. -/
theorem exits_of_lowers {body : ProjectCache ρ ι → Option (ProjectCache ρ ι)}
    (h : ∀ c c', body c = some c' → c'.slots < c.slots) (c : ProjectCache ρ ι) :
    Loop.Exits body c (Loop.run body c.slots c) :=
  Loop.exits_run slots h c.slots c (Nat.le_refl _)

/-- What the eviction loops do whenever they run, on any cache and under any pattern of holders. -/
structure LoopsBehave (held : Held) (c : ProjectCache ρ ι) : Prop where
  indexesExit : ∀ p, Loop.Exits (enforceIndexesRound held p) c
    (Loop.run (enforceIndexesRound held p) c.slots c)
  bytesExit : ∀ p, Loop.Exits (enforceBytesRound held p) c
    (Loop.run (enforceBytesRound held p) c.slots c)
  runnersExit : ∀ p, Loop.Exits (enforceRunnersRound held p) c
    (Loop.run (enforceRunnersRound held p) c.slots c)
  reserveExit : ∀ r bytes, Loop.Exits (reserveRound held r bytes) c
    (Loop.run (reserveRound held r bytes) c.slots c)
  /-- Publications and installations make room around the root they serve. -/
  servedKept : ∀ r st, c.get r = some st → (st.index.isSome ∨ st.runner.isSome) →
    ∃ st', (enforce held (some r) c).get r = some st' ∧
      st'.index = st.index ∧ st'.runner = st.runner
  reserveKeepsRunner : ∀ r bytes st, c.get r = some st → st.runner.isSome →
    ∃ st', (c.reserveRoom held r bytes).get r = some st' ∧ st'.runner = st.runner
  /-- A live build protects the runner of its project in every loop. -/
  liveKept : ∀ r st, c.get r = some st → st.hasLiveBuild held = true →
    (∀ p, ∃ st', (enforce held p c).get r = some st' ∧ st'.runner = st.runner) ∧
    (∀ served bytes, ∃ st', (c.reserveRoom held served bytes).get r = some st' ∧
      st'.runner = st.runner)

theorem loopsBehave (held : Held) (c : ProjectCache ρ ι) : LoopsBehave held c where
  indexesExit _ := exits_of_lowers (fun _ _ h => (enforceIndexesRound_lowers h).1) c
  bytesExit _ := exits_of_lowers (fun _ _ h => (enforceBytesRound_lowers h).1) c
  runnersExit _ := exits_of_lowers (fun _ _ h => (enforceRunnersRound_lowers h).1) c
  reserveExit _ _ := exits_of_lowers (fun _ _ h => reserveRound_lowers h) c
  servedKept r st hst hhas := by
    have hk := (enforce_erodes held (some r) c).kept
    rw [hst] at hk
    cases hs : (enforce held (some r) c).get r with
    | none =>
      rw [hs] at hk
      obtain ⟨_, hi, hr⟩ := hk
      rw [hi trivial, hr trivial] at hhas
      rcases hhas with h | h <;> cases h
    | some st' =>
      rw [hs] at hk
      exact ⟨st', rfl, hk.index.resolve_right fun x => x.2 trivial,
        hk.runner.resolve_right fun x => x.2.2 trivial⟩
  reserveKeepsRunner r bytes st hst hr := by
    have hk := (reserveRoom_erodes held c r bytes).get r
    rw [hst] at hk
    cases hs : (c.reserveRoom held r bytes).get r with
    | none =>
      rw [hs] at hk
      rw [hk.2.2 rfl] at hr
      cases hr
    | some st' =>
      rw [hs] at hk
      exact ⟨st', rfl, hk.runner.resolve_right fun x => x.2.2 rfl⟩
  liveKept r st hst hl := by
    refine ⟨fun p => ?_, fun served bytes => ?_⟩
    · have hk := (enforce_erodes held p c).loose r
      rw [hst] at hk
      obtain ⟨st', hs, _, _, hr⟩ := hk.of_live hl
      exact ⟨st', hs, hr⟩
    · have hk := (reserveRoom_erodes held c served bytes).loose r
      rw [hst] at hk
      obtain ⟨st', hs, _, _, hr⟩ := hk.of_live hl
      exact ⟨st', hs, hr⟩

/-! ## 2. The number of cached indexes -/

theorem indexCount_run {body : ProjectCache ρ ι → Option (ProjectCache ρ ι)}
    (h : ∀ c c', body c = some c' → c'.indexCount ≤ c.indexCount) (n : Nat)
    (c : ProjectCache ρ ι) : (Loop.run body n c).indexCount ≤ c.indexCount :=
  Loop.run_invariant (P := fun c' => c'.indexCount ≤ c.indexCount)
    (fun _ _ hb hc => Nat.le_trans (h _ _ hb) hc) n (Nat.le_refl _)

/-- Where the first loop stops, the limit holds, or only the protected root has an index. -/
theorem indexCount_le_of_exit {held : Held} {p : Option PathBuf} {c : ProjectCache ρ ι}
    (h : enforceIndexesRound held p c = none) (hmax : 1 ≤ c.limits.maxIndexes) :
    c.indexCount ≤ c.limits.maxIndexes := by
  unfold enforceIndexesRound at h
  split at h
  · rw [evictLeastRecentlyUsedIndex, Option.map_eq_none_iff, AList.minKey_eq_none] at h
    have hone : c.indexCount ≤ 1 := by
      cases p with
      | none =>
        refine AList.countBy_le_one [] fun k v hk hv => ?_
        have := h k v hk
        simp [hv] at this
      | some r =>
        refine AList.countBy_le_one r fun k v hk hv => ?_
        have := h k v hk
        simp only [hv, Bool.true_and, Option.all_some, decide_eq_false_iff_not,
          ne_eq, Decidable.not_not] at this
        exact this.symm
    omega
  · rename_i hle
    exact Nat.not_lt.mp hle

/-- **`enforce` respects the number of indexes.** -/
theorem indexCount_enforce (held : Held) (p : Option PathBuf) (c : ProjectCache ρ ι)
    (hmax : 1 ≤ c.limits.maxIndexes) :
    (enforce held p c).indexCount ≤ c.limits.maxIndexes := by
  let c₀ := prune held c
  let c₁ := Loop.run (enforceIndexesRound held p) c₀.slots c₀
  let c₂ := Loop.run (enforceBytesRound held p) c₁.slots c₁
  have hlim : c₁.limits = c.limits :=
    (Erodes.run (fun _ _ h => enforceIndexesRound_erodes h) _ c₀).limits
  have h₁ : c₁.indexCount ≤ c₁.limits.maxIndexes :=
    indexCount_le_of_exit ((loopsBehave held c₀).indexesExit p).2 (by rw [hlim]; exact hmax)
  have h₂ : c₂.indexCount ≤ c₁.indexCount :=
    indexCount_run (fun _ _ h => (enforceBytesRound_lowers h).2) _ c₁
  have h₃ : (enforceLimits held p c).indexCount ≤ c₂.indexCount := by
    unfold enforceLimits
    exact indexCount_run (fun _ _ h => (enforceRunnersRound_lowers h).2) _ c₂
  have h₄ : (enforce held p c).indexCount ≤ (enforceLimits held p c).indexCount := by
    refine AList.countBy_le fun k v' hk hp => ?_
    have hg := get_enforce held p c k
    rw [get, hk] at hg
    exact ⟨v', (Option.filter_eq_some_iff.mp hg.symm).1, hp⟩
  rw [hlim] at h₁
  omega

variable [EstimatedBytes ι]

/-- An operation that retains no publication caches no further index. -/
theorem indexCount_of_not_retained {held : Held} {c : ProjectCache ρ ι} {op : Op ρ ι}
    (h : ∀ r g index build fp res, op = .publish r g index build fp res →
      (publish held c r g index build fp res).2 ≠ .retained) :
    (perform held c op).indexCount ≤ c.indexCount := by
  refine AList.countBy_le fun r st' hs hp => ?_
  obtain ⟨e, he⟩ := Option.isSome_iff_exists.mp hp
  rcases index_perform hs he with ⟨st, hst, hi, _⟩ | ⟨index, build, fp, res, hop, ha, _⟩
  · exact ⟨st, hst, by rw [hi]; rfl⟩
  · exact absurd ha (h r _ index build fp res hop)

/-- No operation changes the limits. -/
theorem limits_perform (held : Held) (c : ProjectCache ρ ι) (op : Op ρ ι) :
    (perform held c op).limits = c.limits := by
  have hupdate : ∀ (c : ProjectCache ρ ι) r f, (c.update r f).limits = c.limits := fun _ _ _ => rfl
  cases op with
  | runner r => rfl
  | installRunner r ru fp =>
    simp only [perform, installRunner]
    rw [(enforce_erodes held (some r) _).limits]
    show (if _ then invalidate held c r else c).limits = c.limits
    split
    · exact limits_invalidate held c r
    · rfl
  | discardProject r =>
    simp only [perform, discardProject]
    rw [(enforce_erodes held none _).limits, releaseRunner]
    cases ((invalidate held c r).get r).bind ProjectState.runner with
    | none => exact limits_invalidate held c r
    | some e => exact limits_invalidate held c r
  | invalidateAfterMaven r => exact limits_invalidate held c r
  | requireFullRebuild r => rfl
  | finishFullRebuild r g => rfl
  | invalidateGeneration r g =>
    simp only [perform, invalidateGeneration]
    split
    · exact limits_invalidate held c r
    · rfl
  | lookupIndex r fp => exact limits_lookupIndex held c r fp
  | recordHit r => rfl
  | recordPersistedUse r a b d => rfl
  | reserve r g bytes => exact limits_reserve held c r g bytes
  | publish r g index build fp res =>
    have hp : ∀ held e, (c.placed held r e).limits = c.limits := fun held e =>
      (enforce_erodes held (some r) ((prune held c).placeIndex r e)).limits
    simp only [perform, publish_eq]
    split
    · split
      · rfl
      · split
        · rw [limits_releaseIndex, hp]
        · exact hp _ _
    · rfl
  | finishFailed r g => exact (enforce_erodes held none _).limits

/-- **The number of cached indexes stays within its limit.** -/
theorem indexCount_perform (held : Held) {c : ProjectCache ρ ι} (op : Op ρ ι)
    (hmax : 1 ≤ c.limits.maxIndexes) (h : c.indexCount ≤ c.limits.maxIndexes) :
    (perform held c op).indexCount ≤ c.limits.maxIndexes := by
  by_cases hret : ∃ r g index build fp res, op = .publish r g index build fp res ∧
      (publish held c r g index build fp res).2 = .retained
  · obtain ⟨r, g, index, build, fp, res, rfl, ha⟩ := hret
    show (publish held c r g index build fp res).1.indexCount ≤ _
    rw [publish_eq] at ha ⊢
    simp only at ha ⊢
    split at ha
    · rename_i hcur
      rw [if_pos hcur]
      split at ha
      · cases ha
      · rename_i hb
        rw [if_neg hb]
        split at ha
        · cases ha
        · rename_i hfit
          rw [if_neg hfit]
          exact indexCount_enforce _ (some r) _ hmax
    · cases ha
  · have hle : (perform held c op).indexCount ≤ c.indexCount :=
      indexCount_of_not_retained fun r g index build fp res hop ha =>
        hret ⟨r, g, index, build, fp, res, hop, ha⟩
    omega

/-! ## 3. Moments of a run -/

end ProjectCache

/-- A granted reservation is held by the build it was granted to. -/
def Held.holdReservation (held : Held) (r : Nat) : Held :=
  { held with reservations := Function.update held.reservations r true }

/-- The cache at one moment, what is held around it, and everything ever published, installed
and reserved. -/
structure Moment (ρ ι : Type) where
  cache : ProjectCache ρ ι
  held : Held
  published : List ReleasedIndex
  installed : List ReleasedRunner
  reserved : List Reservation

/-- Requests clone and drop what they hold, or one of them calls the cache. -/
inductive Act (ρ ι : Type)
  | requests (held : Held)
  | call (op : ProjectCache.Op ρ ι)

namespace Moment

open ProjectCache

def start (limits : CacheLimits) : Moment ρ ι := ⟨.new limits, .nobody, [], [], []⟩

variable [EstimatedBytes ι]

/-- What an operation publishes: the index of a publication that is not stale. -/
def publishes (m : Moment ρ ι) : Op ρ ι → List ReleasedIndex
  | .publish root generation index build project reservation =>
    if (publish m.held m.cache root generation index build project reservation).2 = .stale then []
    else [⟨index.ptr, publishedBytes index build⟩]
  | _ => []

def installs : Op ρ ι → List ReleasedRunner
  | .installRunner _ runner fingerprint => [⟨runner.ptr, fingerprint.estimatedBytes⟩]
  | _ => []

def reserves (m : Moment ρ ι) : Op ρ ι → List Reservation
  | .reserve root generation bytes =>
    granted bytes (reserve m.held m.cache root generation bytes).2
  | _ => []

/-- What is held right after an operation: a granted reservation is, a consumed one is not. -/
def heldAfter (m : Moment ρ ι) : Op ρ ι → Held
  | .publish _ _ _ _ _ reservation => m.held.dropReservation reservation
  | .reserve root generation bytes =>
    match (reserve m.held m.cache root generation bytes).2 with
    | .ok r => m.held.holdReservation r
    | .error _ => m.held
  | _ => m.held

def next (m : Moment ρ ι) : Act ρ ι → Moment ρ ι
  | .requests held => { m with held := held }
  | .call op =>
    { cache := perform m.held m.cache op
      held := m.heldAfter op
      published := m.published ++ m.publishes op
      installed := m.installed ++ installs op
      reserved := m.reserved ++ m.reserves op }

/-- What the owners of the allocations can do.  Nobody holds an index or a runner again that was
held by nobody and is not cached, nor a reservation that was dropped; and what is published or
installed was built by its caller, so it is a new allocation. -/
def Lawful (m : Moment ρ ι) : Act ρ ι → Prop
  | .requests held =>
    (∀ x ∈ m.published, held.indexes x.index = true →
      m.held.indexes x.index = true ∨ x ∈ m.cache.cachedIndexes) ∧
    (∀ x ∈ m.installed, held.runners x.runner = true →
      m.held.runners x.runner = true ∨ x ∈ m.cache.cachedRunners) ∧
    (∀ x ∈ m.reserved, held.reservations x.ptr = true → m.held.reservations x.ptr = true)
  | .call (.publish _ _ index _ _ _) => index.ptr ∉ m.published.map ReleasedIndex.index
  | .call (.installRunner _ runner _) => runner.ptr ∉ m.installed.map ReleasedRunner.runner
  | .call _ => True

/-- No publication in its current generation finds an index of its root in place that a request
still holds. -/
def Unobstructed (m : Moment ρ ι) : Act ρ ι → Prop
  | .call (.publish root generation index build _ _) =>
    ∀ st old, m.cache.get root = some st → st.generation = generation → st.index = some old →
      publishedBytes index build ≤ m.cache.limits.maxBytes →
      m.held.indexes old.index.ptr = false
  | _ => True

/-! ## 4. What is alive, and the balance -/

/-- An index is alive while a request holds it or the cache does. -/
def indexAlive (m : Moment ρ ι) (x : ReleasedIndex) : Bool :=
  m.held.indexes x.index || (m.cache.cachedIndexes.map ReleasedIndex.index).contains x.index

def runnerAlive (m : Moment ρ ι) (x : ReleasedRunner) : Bool :=
  m.held.runners x.runner || (m.cache.cachedRunners.map ReleasedRunner.runner).contains x.runner

/-- The bytes of every published index, installed runner and granted reservation that is alive,
each counted once. -/
def aliveBytes (m : Moment ρ ι) : Nat :=
  ((m.published.filter m.indexAlive).map ReleasedIndex.bytes).sum +
  ((m.installed.filter m.runnerAlive).map
    fun x => runnerBytes m.held x.runner x.fingerprintBytes).sum +
  ((m.reserved.filter fun x => m.held.reservations x.ptr).map Reservation.bytes).sum

/-- The books of the cache against everything ever taken in: only the dead are missing, and no
allocation is listed twice. -/
structure Balanced (m : Moment ρ ι) : Prop where
  indexes : Sheds (fun x => m.held.indexes x.index) m.published m.cache.indexAccounts
  runners : Sheds (fun x => m.held.runners x.runner) m.installed m.cache.runnerAccounts
  reservations : Sheds (fun x => m.held.reservations x.ptr) m.reserved m.cache.reservations
  indexesOnce : (m.published.map ReleasedIndex.index).Nodup
  runnersOnce : (m.installed.map ReleasedRunner.runner).Nodup
  allocated : ∀ x ∈ m.reserved, x.ptr < m.cache.nextPtr

omit [EstimatedBytes ι] in
theorem balanced_start (limits : CacheLimits) : Balanced (start limits : Moment ρ ι) where
  indexes := .refl _ _
  runners := .refl _ _
  reservations := .refl _ _
  indexesOnce := List.nodup_nil
  runnersOnce := List.nodup_nil
  allocated := by simp [start]

omit [EstimatedBytes ι] in
/-- **Balanced books charge whatever is alive exactly once.** -/
theorem Balanced.exact {m : Moment ρ ι} (h : Balanced m) :
    m.cache.retainedBytes m.held = m.aliveBytes := by
  have hi := sum_alive ReleasedIndex.index m.held.indexes ReleasedIndex.bytes h.indexes
    h.indexesOnce
  have hr := sum_alive ReleasedRunner.runner m.held.runners
    (fun x => runnerBytes m.held x.runner x.fingerprintBytes) h.runners h.runnersOnce
  have hs : ((m.reserved.filter fun x => m.held.reservations x.ptr).map Reservation.bytes).sum
      = ((m.cache.reservations.filter fun x => m.held.reservations x.ptr).map
        Reservation.bytes).sum := by
    obtain ⟨dead, hp, hd⟩ := h.reservations
    have hnone : dead.filter (fun x => m.held.reservations x.ptr) = [] := by
      rw [List.filter_eq_nil_iff]
      intro x hx
      have hh : m.held.reservations x.ptr = false := hd x hx
      rw [hh]
      simp
    have := ((hp.filter fun x => m.held.reservations x.ptr).map Reservation.bytes).sum_eq
    rwa [List.filter_append, hnone, List.append_nil] at this
  rw [retainedBytes_eq, aliveBytes, ← hi, ← hr, hs]
  rfl

/-! ## 5. Steps and runs -/

omit [EstimatedBytes ι] in
/-- An operation holds no further index and no further runner. -/
theorem heldAfter_same (m : Moment ρ ι) (op : Op ρ ι) :
    (m.heldAfter op).indexes = m.held.indexes ∧ (m.heldAfter op).runners = m.held.runners := by
  cases op with
  | reserve r g bytes =>
    simp only [heldAfter]
    split <;> exact ⟨rfl, rfl⟩
  | _ => exact ⟨rfl, rfl⟩

omit [EstimatedBytes ι] in
/-- A reservation that was dropped stays dropped, whatever operation follows. -/
theorem heldAfter_dropped {m : Moment ρ ι} (op : Op ρ ι) {x : Reservation}
    (hx : x.ptr < m.cache.nextPtr) (hd : m.held.reservations x.ptr = false) :
    (m.heldAfter op).reservations x.ptr = false := by
  cases op with
  | publish r g index build fp res =>
    simp only [heldAfter, Held.dropReservation, Function.update_apply]
    split
    · rfl
    · exact hd
  | reserve r g bytes =>
    have hr := reserve_spec m.held m.cache r g bytes
    simp only [heldAfter]
    cases ha : (reserve m.held m.cache r g bytes).2 with
    | error e => exact hd
    | ok p =>
      rw [ha] at hr
      have hne : x.ptr ≠ p := by
        cases hr with
        | reserved => omega
      simp only [Held.holdReservation, Function.update_apply, if_neg hne, hd]
  | _ => exact hd

/-- **Every operation settles the books**, but for a publication over a held index. -/
theorem perform_settles {m : Moment ρ ι} {op : Op ρ ι} (hu : m.Unobstructed (.call op))
    (hptr : ∀ x ∈ m.cache.reservations, x.ptr < m.cache.nextPtr) :
    Settles (m.heldAfter op) (m.publishes op) (installs op) (m.reserves op) m.cache
      (perform m.held m.cache op) := by
  cases op with
  | runner r =>
    exact (show Keeps m.held m.cache m.cache.nextTick from .of_tables rfl rfl rfl rfl).trans
      (update_keeps m.held _ r (fun _ => rfl) fun _ => rfl)
  | installRunner r ru fp => exact installRunner_settles m.held m.cache r ru fp
  | discardProject r => exact discardProject_keeps m.held m.cache r
  | invalidateAfterMaven r => exact invalidateAfterMaven_keeps m.held m.cache r
  | requireFullRebuild r =>
    have hf : Keeps m.held m.cache m.cache.freshGeneration := .of_tables rfl rfl rfl rfl
    exact hf.trans (upsert_keeps m.held m.cache.freshGeneration r (m.cache.nextGeneration + 1)
      (f := fun st => { st with fullRebuild := true }) (fun _ => rfl) fun _ => rfl)
  | finishFullRebuild r g =>
    refine update_keeps m.held m.cache r (fun st => ?_) fun st => ?_
    · split <;> rfl
    · split <;> rfl
  | invalidateGeneration r g =>
    show Keeps m.held m.cache (invalidateGeneration m.held m.cache r g)
    unfold invalidateGeneration
    split
    · exact invalidate_keeps m.held m.cache r
    · exact .refl _ _
  | lookupIndex r fp => exact lookupIndex_keeps m.held m.cache r fp
  | recordHit r =>
    have ht : Keeps m.held m.cache
        ({ m.cache with hits := m.cache.hits + 1 } : ProjectCache ρ ι).nextTick :=
      .of_tables rfl rfl rfl rfl
    exact ht.trans (update_keeps m.held _ r (fun _ => rfl) fun _ => rfl)
  | recordPersistedUse r a b d => exact Keeps.of_tables rfl rfl rfl rfl
  | reserve r g bytes =>
    have hsame := m.heldAfter_same (.reserve r g bytes)
    exact reserve_settles hsame.1 hsame.2 fun x hx hd => heldAfter_dropped _ (hptr x hx) hd
  | publish r g index build fp res => exact publish_settles hu
  | finishFailed r g => exact finishFailed_keeps m.held m.cache r g

theorem Balanced.requests {m : Moment ρ ι} (h : Balanced m) {held : Held}
    (hl : m.Lawful (.requests held)) : Balanced (m.next (.requests held)) where
  indexes := by
    refine h.indexes.mono (fun x hx hd hout => ?_) (List.Nodup.of_map _ h.indexesOnce)
    by_contra hne
    have hnow : held.indexes x.index = true := Bool.eq_true_of_not_eq_false hne
    rcases hl.1 x hx hnow with hheld | hcached
    · rw [hd] at hheld
      cases hheld
    · exact hout (List.mem_append_left _ hcached)
  runners := by
    refine h.runners.mono (fun x hx hd hout => ?_) (List.Nodup.of_map _ h.runnersOnce)
    by_contra hne
    have hnow : held.runners x.runner = true := Bool.eq_true_of_not_eq_false hne
    rcases hl.2.1 x hx hnow with hheld | hcached
    · rw [hd] at hheld
      cases hheld
    · exact hout (List.mem_append_left _ hcached)
  reservations := by
    refine h.reservations.weaken fun x hx hd => ?_
    by_contra hne
    have hnow : held.reservations x.ptr = true := Bool.eq_true_of_not_eq_false hne
    have hbefore := hl.2.2 x hx hnow
    rw [hd] at hbefore
    cases hbefore
  indexesOnce := h.indexesOnce
  runnersOnce := h.runnersOnce
  allocated := h.allocated

theorem Balanced.call {m : Moment ρ ι} (h : Balanced m) {op : Op ρ ι} (hl : m.Lawful (.call op))
    (hu : m.Unobstructed (.call op)) : Balanced (m.next (.call op)) := by
  have hs := perform_settles hu fun x hx => h.allocated x (h.reservations.mem hx)
  have hsame := m.heldAfter_same op
  refine ⟨?_, ?_, ?_, ?_, ?_, ?_⟩
  · have hi : Sheds (fun x => (m.heldAfter op).indexes x.index) m.published
        m.cache.indexAccounts := by rw [hsame.1]; exact h.indexes
    exact (hi.append (m.publishes op)).trans hs.indexes
  · have hr : Sheds (fun x => (m.heldAfter op).runners x.runner) m.installed
        m.cache.runnerAccounts := by rw [hsame.2]; exact h.runners
    exact (hr.append (installs op)).trans hs.runners
  · have hd : Sheds (fun x => (m.heldAfter op).reservations x.ptr) m.reserved
        m.cache.reservations :=
      h.reservations.weaken fun x hx hd => heldAfter_dropped op (h.allocated x hx) hd
    exact (hd.append (m.reserves op)).trans hs.reservations
  · show ((m.published ++ m.publishes op).map ReleasedIndex.index).Nodup
    rw [List.map_append, List.nodup_append]
    refine ⟨h.indexesOnce, ?_, ?_⟩
    · cases op with
      | publish r g index build fp res =>
        simp only [publishes]
        split <;> simp
      | _ => exact List.nodup_nil
    · cases op with
      | publish r g index build fp res =>
        simp only [publishes]
        split
        · simp
        · intro a ha b hb
          simp only [List.map_cons, List.map_nil, List.mem_singleton] at hb
          rintro rfl
          exact hl (hb ▸ ha)
      | _ => simp [publishes]
  · show ((m.installed ++ installs op).map ReleasedRunner.runner).Nodup
    rw [List.map_append, List.nodup_append]
    refine ⟨h.runnersOnce, ?_, ?_⟩
    · cases op with
      | installRunner r ru fp => simp [installs]
      | _ => exact List.nodup_nil
    · cases op with
      | installRunner r ru fp =>
        intro a ha b hb
        simp only [installs, List.map_cons, List.map_nil, List.mem_singleton] at hb
        rintro rfl
        exact hl (hb ▸ ha)
      | _ => simp [installs]
  · intro x hx
    have hn := nextPtr_perform m.held m.cache op
    show x.ptr < (perform m.held m.cache op).nextPtr
    rcases List.mem_append.mp hx with hx | hx
    · exact Nat.lt_of_lt_of_le (h.allocated x hx) hn
    · cases op with
      | reserve r g bytes =>
        have hr := reserve_spec m.held m.cache r g bytes
        simp only [reserves] at hx
        cases ha : (reserve m.held m.cache r g bytes).2 with
        | error e =>
          rw [ha] at hx
          cases hx
        | ok p =>
          rw [ha] at hx hr
          cases List.mem_singleton.mp hx
          cases hr with
          | reserved _ hp =>
            show m.cache.nextPtr < (reserve m.held m.cache r g bytes).1.nextPtr
            omega
      | _ => cases hx

/-- **Every allowed step keeps the balance.** -/
theorem Balanced.next {m : Moment ρ ι} (h : Balanced m) {a : Act ρ ι} (hl : m.Lawful a)
    (hu : m.Unobstructed a) : Balanced (m.next a) := by
  cases a with
  | requests held => exact h.requests hl
  | call op => exact h.call hl hu

/-- A granted reservation fits: with it, what is retained stays within the budget. -/
theorem retained_of_reserve {m : Moment ρ ι} (h : Balanced m) {r : PathBuf} {g bytes p : Nat}
    (ha : (reserve m.held m.cache r g bytes).2 = .ok p) :
    (m.next (.call (.reserve r g bytes))).cache.retainedBytes
      (m.next (.call (.reserve r g bytes))).held ≤ m.cache.limits.maxBytes := by
  show (reserve m.held m.cache r g bytes).1.retainedBytes (m.heldAfter (.reserve r g bytes)) ≤ _
  have hheld : m.heldAfter (.reserve r g bytes) = m.held.holdReservation p := by
    simp only [heldAfter, ha]
  have he := reserveRoom_erodes m.held m.cache r bytes
  have hk := reserveRoom_keeps m.held m.cache r bytes
  rw [hheld]
  rw [reserve_eq] at ha ⊢
  generalize m.cache.reserveRoom m.held r bytes = room at ha he hk ⊢
  simp only at ha ⊢
  split at ha
  · rename_i hcur
    rw [if_pos hcur]
    split at ha
    · cases ha
    · rename_i hfit
      rw [if_neg hfit]
      cases ha
      -- the reservation is a new allocation, so the others are held as before
      have hold : ∀ x ∈ room.reservations,
          (m.held.holdReservation room.nextPtr).reservations x.ptr = m.held.reservations x.ptr := by
        intro x hx
        have hm : x ∈ m.cache.reservations := by simpa using hk.reservations.mem hx
        have hlt := h.allocated x (h.reservations.mem hm)
        have hne : x.ptr ≠ room.nextPtr := by
          rw [he.nextPtr]
          omega
        simp only [Held.holdReservation, Function.update_apply, if_neg hne]
      have hsum : (({ room with
            reservations := room.reservations ++ [⟨room.nextPtr, bytes⟩]
            nextPtr := room.nextPtr + 1 } : ProjectCache ρ ι).retainedBytes
              (m.held.holdReservation room.nextPtr)) = room.retainedBytes m.held + bytes := by
        rw [retainedBytes_eq, retainedBytes_eq]
        have hf : (room.reservations ++ [(⟨room.nextPtr, bytes⟩ : Reservation)]).filter
              (fun x => (m.held.holdReservation room.nextPtr).reservations x.ptr)
            = (room.reservations.filter fun x => m.held.reservations x.ptr) ++
              [⟨room.nextPtr, bytes⟩] := by
          rw [List.filter_append, List.filter_congr hold]
          simp [Held.holdReservation]
        simp only [hf, List.map_append, List.sum_append, List.map_cons, List.map_nil,
          List.sum_singleton]
        exact (Nat.add_assoc _ _ _).symm
      rw [hsum, ← he.limits]
      exact Nat.not_lt.mp hfit
  · cases ha

/-- A retained publication fits. -/
theorem retained_of_publish {m : Moment ρ ι} {r : PathBuf} {g : Nat}
    {index : Arc ι} {build : FinishedBuild} {fp : ProjectFingerprint} {res : Nat}
    (ha : (publish m.held m.cache r g index build fp res).2 = .retained) :
    (m.next (.call (.publish r g index build fp res))).cache.retainedBytes
      (m.next (.call (.publish r g index build fp res))).held ≤ m.cache.limits.maxBytes := by
  show (publish m.held m.cache r g index build fp res).1.retainedBytes
    (m.held.dropReservation res) ≤ _
  have hlim : (m.cache.placed (m.held.dropReservation res) r
      (publishedEntry index build fp)).limits = m.cache.limits :=
    (enforce_erodes _ (some r) _).limits
  rw [publish_eq] at ha ⊢
  simp only at ha ⊢
  split at ha
  · rename_i hcur
    rw [if_pos hcur]
    split at ha
    · cases ha
    · rename_i hb
      rw [if_neg hb]
      split at ha
      · cases ha
      · rename_i hfit
        rw [if_neg hfit, ← hlim]
        exact Nat.not_lt.mp hfit
  · cases ha

/-- The runs of the cache among its requests. -/
abbrev Run (ok : Moment ρ ι → Act ρ ι → Prop) (limits : CacheLimits) (m : Moment ρ ι) : Prop :=
  Steps.Reaches (fun m a => some (m.next a)) ok (start limits) m

theorem limits_next (m : Moment ρ ι) (a : Act ρ ι) : (m.next a).cache.limits = m.cache.limits := by
  cases a with
  | requests held => rfl
  | call op => exact limits_perform m.held m.cache op

end Moment

end MavenMcp
