/-
# The effect of each operation on its own root

One lemma per operation of `Ops`: what the state of the served root is afterwards and what the
operation answered.  Other roots only fade (`Erosion`).  The lemmas say everything a step can
do, guards included; the files on generations, full rebuilds, the memory budget and the server's
protocol start from here.
-/
import MavenMcp.ProjectCache.Erosion

namespace MavenMcp
namespace ProjectCache

variable {ρ ι : Type}

/-! ## 1. Invalidation -/

@[simp] theorem nextGeneration_releaseIndex (held : Held) (c : ProjectCache ρ ι) (r : PathBuf) :
    (releaseIndex held c r).nextGeneration = c.nextGeneration := by
  unfold releaseIndex
  cases (c.get r).bind ProjectState.index <;> rfl

@[simp] theorem nextPtr_releaseIndex (held : Held) (c : ProjectCache ρ ι) (r : PathBuf) :
    (releaseIndex held c r).nextPtr = c.nextPtr := by
  unfold releaseIndex
  cases (c.get r).bind ProjectState.index <;> rfl

@[simp] theorem limits_releaseIndex (held : Held) (c : ProjectCache ρ ι) (r : PathBuf) :
    (releaseIndex held c r).limits = c.limits := by
  unfold releaseIndex
  cases (c.get r).bind ProjectState.index <;> rfl

/-- Releasing an index keeps everything else at every root, live markers included. -/
theorem releaseIndex_fades (held : Held) (c : ProjectCache ρ ι) {r r' : PathBuf} (h : r' ≠ r) :
    FadesTo held True True (c.get r') ((releaseIndex held c r).get r') := by
  have hp : (some r' : Option PathBuf) ≠ some r := fun e => h (Option.some.inj e)
  exact (releaseIndex_erodes held (some r') c hp).kept

/-- After releasing, the root has no index; a state without a marker loses nothing else. -/
theorem get_releaseIndex_self {held : Held} {c : ProjectCache ρ ι} {r : PathBuf}
    {st : ProjectState ρ ι} (h : c.get r = some st) (hm : st.inFlight = none) :
    (releaseIndex held c r).get r = some { st with index := none } := by
  unfold releaseIndex
  cases hi : st.index with
  | none =>
    simp only [h, Option.bind_some, hi]
    rw [← hi]
  | some entry =>
    simp only [h, Option.bind_some, hi]
    rw [get_prune]
    show ((c.update r fun st => { st with index := none }).get r).map _ = _
    rw [get_update_self, h]
    simp [pruneMarker, hm]

@[simp] theorem nextGeneration_invalidate (held : Held) (c : ProjectCache ρ ι) (r : PathBuf) :
    (invalidate held c r).nextGeneration = c.nextGeneration + 1 := by
  unfold invalidate
  cases h : c.freshGeneration.get r with
  | none => simp [h]
  | some st => simp only [h, nextGeneration_releaseIndex]; rfl

@[simp] theorem nextPtr_invalidate (held : Held) (c : ProjectCache ρ ι) (r : PathBuf) :
    (invalidate held c r).nextPtr = c.nextPtr := by
  unfold invalidate
  cases h : c.freshGeneration.get r with
  | none => simp only [h]; rfl
  | some st => simp only [h, nextPtr_releaseIndex]; rfl

@[simp] theorem limits_invalidate (held : Held) (c : ProjectCache ρ ι) (r : PathBuf) :
    (invalidate held c r).limits = c.limits := by
  unfold invalidate
  cases h : c.freshGeneration.get r with
  | none => simp only [h]; rfl
  | some st => simp only [h, limits_releaseIndex]; rfl

/-- **Invalidation.**  A fresh generation, no marker, no index; the runner and the flag stay. -/
@[simp] theorem get_invalidate_self (held : Held) (c : ProjectCache ρ ι) (r : PathBuf) :
    (invalidate held c r).get r = (c.get r).map fun st =>
      { st with generation := c.nextGeneration + 1, inFlight := none, index := none } := by
  unfold invalidate
  cases h : c.freshGeneration.get r with
  | none =>
    rw [get_freshGeneration] at h
    simp [h]
  | some st =>
    rw [get_freshGeneration] at h
    simp only [get_freshGeneration, h, Option.map_some]
    have hu : ({ (c.freshGeneration.update r fun st =>
        { st with generation := c.freshGeneration.nextGeneration, inFlight := none }) with
        invalidations := c.freshGeneration.invalidations + 1 } : ProjectCache ρ ι).get r
        = some { st with generation := c.nextGeneration + 1, inFlight := none } := by
      show (c.freshGeneration.update r _).get r = _
      rw [get_update_self, get_freshGeneration, h]
      rfl
    exact get_releaseIndex_self hu rfl

/-- Invalidating one root prunes dead markers at the others and touches nothing else there. -/
theorem invalidate_fades (held : Held) (c : ProjectCache ρ ι) {r r' : PathBuf} (h : r' ≠ r) :
    FadesTo held True True (c.get r') ((invalidate held c r).get r') := by
  unfold invalidate
  cases hg : c.freshGeneration.get r with
  | none => simpa [hg] using FadesTo.refl held True True (c.get r')
  | some st =>
    simp only [hg]
    have hu : ({ (c.freshGeneration.update r fun st =>
        { st with generation := c.freshGeneration.nextGeneration, inFlight := none }) with
        invalidations := c.freshGeneration.invalidations + 1 } : ProjectCache ρ ι).get r'
        = c.get r' := get_update_ne c.freshGeneration _ h
    have := releaseIndex_fades held ({ (c.freshGeneration.update r fun st =>
        { st with generation := c.freshGeneration.nextGeneration, inFlight := none }) with
        invalidations := c.freshGeneration.invalidations + 1 } : ProjectCache ρ ι) h
    rw [hu] at this
    exact this

theorem get_invalidateAfterMaven_self (held : Held) (c : ProjectCache ρ ι) (r : PathBuf) :
    (invalidateAfterMaven held c r).get r = (c.get r).map fun st =>
      { st with
        generation := c.nextGeneration + 1
        inFlight := none
        index := none
        runner := st.runner.map fun entry => { entry with revalidate := true } } := by
  unfold invalidateAfterMaven
  rw [get_update_self, get_invalidate_self, Option.map_map]
  rfl

theorem invalidateAfterMaven_fades (held : Held) (c : ProjectCache ρ ι) {r r' : PathBuf}
    (h : r' ≠ r) : FadesTo held True True (c.get r') ((invalidateAfterMaven held c r).get r') := by
  unfold invalidateAfterMaven
  rw [get_update_ne _ _ h]
  exact invalidate_fades held c h

/-- A state without a marker, a runner and an index does not survive `enforce`. -/
theorem enforce_drops {held : Held} {protect : Option PathBuf} {c : ProjectCache ρ ι}
    {r : PathBuf} {st : ProjectState ρ ι} (h : c.get r = some st)
    (ha : st.isActive held = false) : (enforce held protect c).get r = none := by
  have hf := (enforceLimits_erodes held protect c).get r
  rw [h] at hf
  rw [get_enforce]
  cases hs : (enforceLimits held protect c).get r with
  | none => rfl
  | some st' =>
    rw [hs] at hf
    simp only [ProjectState.isActive, Bool.or_eq_false_iff, Option.isSome_eq_false_iff,
      Option.isNone_iff_eq_none] at ha
    have hi : st'.index = none := by
      rcases hf.index with h | ⟨h, _⟩
      · rw [h]; exact ha.1.2
      · exact h
    have hr : st'.runner = none := by
      rcases hf.runner with h | ⟨h, _⟩
      · rw [h]; exact ha.1.1
      · exact h
    simp [Option.filter_some, ProjectState.isActive, hi, hr, hf.hasLiveBuild, ha.2]

/-- The runner of a root leaves; a state without a marker loses nothing else. -/
theorem get_releaseRunner_self (c : ProjectCache ρ ι) (r : PathBuf) :
    (c.releaseRunner r).get r = (c.get r).map fun st => { st with runner := none } := by
  unfold releaseRunner
  cases h : c.get r with
  | none => simp [h]
  | some st =>
    cases hr : st.runner with
    | none =>
      simp only [Option.bind_some, hr, h, Option.map_some]
      rw [← hr]
    | some entry =>
      simp only [Option.bind_some, hr]
      show (c.update r fun st => { st with runner := none }).get r = _
      rw [get_update_self, h]

theorem get_releaseRunner_ne (c : ProjectCache ρ ι) {r r' : PathBuf} (h : r' ≠ r) :
    (c.releaseRunner r).get r' = c.get r' := by
  unfold releaseRunner
  cases (c.get r).bind ProjectState.runner with
  | none => rfl
  | some entry => exact get_update_ne c _ h

@[simp] theorem nextGeneration_releaseRunner (c : ProjectCache ρ ι) (r : PathBuf) :
    (c.releaseRunner r).nextGeneration = c.nextGeneration := by
  unfold releaseRunner
  cases (c.get r).bind ProjectState.runner <;> rfl

@[simp] theorem nextPtr_releaseRunner (c : ProjectCache ρ ι) (r : PathBuf) :
    (c.releaseRunner r).nextPtr = c.nextPtr := by
  unfold releaseRunner
  cases (c.get r).bind ProjectState.runner <;> rfl

@[simp] theorem nextGeneration_enforce (held : Held) (p : Option PathBuf)
    (c : ProjectCache ρ ι) : (enforce held p c).nextGeneration = c.nextGeneration :=
  (enforce_erodes held p c).nextGeneration

@[simp] theorem nextPtr_enforce (held : Held) (p : Option PathBuf) (c : ProjectCache ρ ι) :
    (enforce held p c).nextPtr = c.nextPtr :=
  (enforce_erodes held p c).nextPtr

/-- **Discarding a project always removes its state.** -/
theorem get_discardProject_self (held : Held) (c : ProjectCache ρ ι) (r : PathBuf) :
    (discardProject held c r).get r = none := by
  unfold discardProject
  have hg : ((invalidate held c r).releaseRunner r).get r = (c.get r).map fun st =>
      { st with generation := c.nextGeneration + 1, inFlight := none, index := none,
                runner := none } := by
    rw [get_releaseRunner_self, get_invalidate_self, Option.map_map]
    rfl
  cases h : c.get r with
  | none =>
    have hf := (enforce_erodes held none ((invalidate held c r).releaseRunner r)).get r
    rw [hg, h] at hf
    cases hs : (enforce held none ((invalidate held c r).releaseRunner r)).get r with
    | none => rfl
    | some st' => rw [hs] at hf; exact hf.elim
  | some st =>
    rw [h, Option.map_some] at hg
    exact enforce_drops hg (by simp [ProjectState.isActive, ProjectState.hasLiveBuild])

theorem discardProject_fades (held : Held) (c : ProjectCache ρ ι) {r r' : PathBuf}
    (h : r' ≠ r) : FadesTo held False False (c.get r') ((discardProject held c r).get r') := by
  unfold discardProject
  have h₁ := (invalidate_fades held c h).loosen
  have h₂ : ((invalidate held c r).releaseRunner r).get r' = (invalidate held c r).get r' :=
    get_releaseRunner_ne _ h
  rw [← h₂] at h₁
  exact h₁.trans ((enforce_erodes held none _).loose r')

/-! ## 2. Runners -/

theorem get_runner_self (c : ProjectCache ρ ι) (r : PathBuf) :
    (c.runner r).1.get r = (c.get r).map fun st => { st with lastUsedTick := c.tick + 1 } := by
  unfold runner
  rw [get_update_self]
  rfl

theorem get_runner_ne (c : ProjectCache ρ ι) {r r' : PathBuf} (h : r' ≠ r) :
    (c.runner r).1.get r' = c.get r' :=
  get_update_ne c.nextTick _ h

/-- The snapshot handed out is the cached entry. -/
theorem runner_snd (c : ProjectCache ρ ι) (r : PathBuf) :
    (c.runner r).2 = (c.get r).bind ProjectState.runner := by
  unfold runner
  simp only [get_update_self, get_nextTick]
  cases c.get r <;> rfl

/-- The three ways `install_runner` finds the root. -/
inductive Installs (c : ProjectCache ρ ι) (r : PathBuf) (fp : ProjectFingerprint) (held : Held)
    (st' : ProjectState ρ ι) : Prop
  /-- Another fingerprint was cached: the project is invalidated. -/
  | changed (st : ProjectState ρ ι) (e : RunnerEntry ρ) :
      c.get r = some st → st.runner = some e → e.fingerprint ≠ fp →
      st'.generation = c.nextGeneration + 1 → st'.index = none → st'.inFlight = none →
      st'.fullRebuild = st.fullRebuild → Installs c r fp held st'
  /-- The same fingerprint, or no runner, was cached: index, marker and generation stay. -/
  | kept (st : ProjectState ρ ι) :
      c.get r = some st → (∀ e, st.runner = some e → e.fingerprint = fp) →
      st'.generation = st.generation → st'.index = st.index →
      (st'.inFlight = st.inFlight ∨ (st'.inFlight = none ∧ st.hasLiveBuild held = false)) →
      st'.fullRebuild = st.fullRebuild → Installs c r fp held st'
  | created :
      c.get r = none → st'.generation = c.nextGeneration + 1 → st'.index = none →
      st'.inFlight = none → st'.fullRebuild = false → Installs c r fp held st'

@[simp] theorem get_placeRunner_self (c : ProjectCache ρ ι) (r : PathBuf) (e : RunnerEntry ρ) :
    (c.placeRunner r e).get r = some
      { (c.get r).getD (.new (c.nextGeneration + 1)) with
        runner := some e, lastUsedTick := c.tick + 1 } :=
  get_upsert_self c.nextTick.freshGeneration r (c.nextGeneration + 1)
    fun st => { st with runner := some e, lastUsedTick := c.tick + 1 }

theorem get_placeRunner_ne (c : ProjectCache ρ ι) {r r' : PathBuf} (e : RunnerEntry ρ)
    (h : r' ≠ r) : (c.placeRunner r e).get r' = c.get r' :=
  get_upsert_ne c.nextTick.freshGeneration (c.nextGeneration + 1)
    (fun st => { st with runner := some e, lastUsedTick := c.tick + 1 }) h

@[simp] theorem nextGeneration_placeRunner (c : ProjectCache ρ ι) (r : PathBuf)
    (e : RunnerEntry ρ) : (c.placeRunner r e).nextGeneration = c.nextGeneration + 1 := rfl

@[simp] theorem nextPtr_placeRunner (c : ProjectCache ρ ι) (r : PathBuf) (e : RunnerEntry ρ) :
    (c.placeRunner r e).nextPtr = c.nextPtr := rfl

/-- Whether the cached runner has another fingerprint than the one to be installed. -/
theorem changed_iff {c : ProjectCache ρ ι} {r : PathBuf} {fp : ProjectFingerprint} :
    (((c.get r).bind ProjectState.runner).any fun p => decide (p.fingerprint ≠ fp)) = true ↔
      ∃ st e, c.get r = some st ∧ st.runner = some e ∧ e.fingerprint ≠ fp := by
  cases c.get r with
  | none => simp
  | some st => cases h : st.runner <;> simp [h]

/-- **Installing a runner.**  The root ends up with exactly the new entry, its mark cleared. -/
theorem installRunner_spec (held : Held) (c : ProjectCache ρ ι) (r : PathBuf) (ru : Arc ρ)
    (fp : ProjectFingerprint) :
    ∃ st', (installRunner held c r ru fp).1.get r = some st' ∧
      st'.runner = some ⟨ru, fp, false⟩ ∧ Installs c r fp held st' := by
  unfold installRunner
  simp only
  -- nothing of the root can fade while it is protected, except a dead marker
  have stays : ∀ (c₁ : ProjectCache ρ ι) (mid : ProjectState ρ ι),
      (c₁.placeRunner r ⟨ru, fp, false⟩).get r = some mid →
      ∃ st', (enforce held (some r) (c₁.placeRunner r ⟨ru, fp, false⟩)).get r = some st' ∧
        Fades held True True mid st' := by
    intro c₁ mid hmid
    have hf := (enforce_erodes held (some r) (c₁.placeRunner r ⟨ru, fp, false⟩)).kept
    rw [hmid] at hf
    rw [get_placeRunner_self] at hmid
    cases hs : (enforce held (some r) (c₁.placeRunner r ⟨ru, fp, false⟩)).get r with
    | none =>
      rw [hs] at hf
      have := hf.2.2 trivial
      rw [← Option.some.inj hmid] at this
      cases this
    | some st' =>
      rw [hs] at hf
      exact ⟨st', rfl, hf⟩
  split
  · rename_i hch
    obtain ⟨st, e, hst, he, hne⟩ := changed_iff.mp hch
    obtain ⟨st', hs, hf⟩ := stays (invalidate held c r) _ (get_placeRunner_self _ _ _)
    rw [get_invalidate_self, hst] at hf
    simp only [Option.map_some, Option.getD_some] at hf
    have hr : st'.runner = some ⟨ru, fp, false⟩ := by
      rcases hf.runner with h | ⟨_, _, h⟩
      · exact h
      · exact absurd trivial h
    have hi : st'.index = none := by
      rcases hf.index with h | ⟨_, h⟩
      · exact h
      · exact absurd trivial h
    have hm : st'.inFlight = none := by
      rcases hf.inFlight with h | ⟨h, _⟩ <;> exact h
    exact ⟨st', hs, hr, .changed st e hst he hne hf.generation hi hm hf.fullRebuild⟩
  · rename_i hch
    obtain ⟨st', hs, hf⟩ := stays c _ (get_placeRunner_self _ _ _)
    have hr : st'.runner = some ⟨ru, fp, false⟩ := by
      rcases hf.runner with h | ⟨_, _, h⟩
      · exact h
      · exact absurd trivial h
    refine ⟨st', hs, hr, ?_⟩
    have hi := hf.index.resolve_right fun h => h.2 trivial
    cases hg : c.get r with
    | none =>
      rw [hg] at hf hi
      have hm : st'.inFlight = none := by
        rcases hf.inFlight with h | ⟨h, _⟩ <;> exact h
      exact .created hg hf.generation hi hm hf.fullRebuild
    | some st =>
      rw [hg] at hf hi
      refine .kept st hg (fun e he => ?_) hf.generation hi hf.inFlight hf.fullRebuild
      by_contra hne
      exact hch (changed_iff.mpr ⟨st, e, hg, he, hne⟩)

theorem installRunner_fades (held : Held) (c : ProjectCache ρ ι) {r r' : PathBuf} (ru : Arc ρ)
    (fp : ProjectFingerprint) (h : r' ≠ r) :
    FadesTo held False False (c.get r') ((installRunner held c r ru fp).1.get r') := by
  unfold installRunner
  simp only
  have he : ∀ c₁ : ProjectCache ρ ι, FadesTo held False False (c₁.get r')
      ((enforce held (some r) (c₁.placeRunner r ⟨ru, fp, false⟩)).get r') := by
    intro c₁
    have := (enforce_erodes held (some r) (c₁.placeRunner r ⟨ru, fp, false⟩)).loose r'
    rwa [get_placeRunner_ne _ _ h] at this
  split
  · exact ((invalidate_fades held c h).mono False.elim False.elim).trans (he _)
  · exact he c

/-! ## 3. Full rebuilds, generations and hits -/

@[simp] theorem get_requireFullRebuild_self (c : ProjectCache ρ ι) (r : PathBuf) :
    (c.requireFullRebuild r).get r = some
      { (c.get r).getD (.new (c.nextGeneration + 1)) with fullRebuild := true } :=
  get_upsert_self c.freshGeneration r (c.nextGeneration + 1) fun st =>
    { st with fullRebuild := true }

theorem get_requireFullRebuild_ne (c : ProjectCache ρ ι) {r r' : PathBuf} (h : r' ≠ r) :
    (c.requireFullRebuild r).get r' = c.get r' :=
  get_upsert_ne c.freshGeneration (c.nextGeneration + 1)
    (fun st => { st with fullRebuild := true }) h

@[simp] theorem get_finishFullRebuild_self (c : ProjectCache ρ ι) (r : PathBuf) (g : Nat) :
    (c.finishFullRebuild r g).get r = (c.get r).map fun st =>
      if st.generation = g then { st with fullRebuild := false } else st :=
  get_update_self c r _

theorem get_finishFullRebuild_ne (c : ProjectCache ρ ι) {r r' : PathBuf} (g : Nat)
    (h : r' ≠ r) : (c.finishFullRebuild r g).get r' = c.get r' :=
  get_update_ne c _ h

theorem isCurrent_iff {c : ProjectCache ρ ι} {r : PathBuf} {g : Nat} :
    c.isCurrent r g = true ↔ ∃ st, c.get r = some st ∧ st.generation = g := by
  unfold isCurrent
  cases c.get r <;> simp

/-- Making room keeps a generation or drops it with its state. -/
theorem isCurrent_prune (held : Held) (c : ProjectCache ρ ι) (r : PathBuf) (g : Nat) :
    (prune held c).isCurrent r g = c.isCurrent r g := by
  unfold isCurrent
  rw [get_prune]
  cases c.get r with
  | none => rfl
  | some st => simp [(pruneMarker_fades held True True st).generation]

theorem invalidateGeneration_of_current {held : Held} {c : ProjectCache ρ ι} {r : PathBuf}
    {g : Nat} (h : c.isCurrent r g = true) :
    invalidateGeneration held c r g = invalidate held c r := by
  simp [invalidateGeneration, h]

theorem invalidateGeneration_of_stale {held : Held} {c : ProjectCache ρ ι} {r : PathBuf}
    {g : Nat} (h : c.isCurrent r g = false) : invalidateGeneration held c r g = c := by
  simp [invalidateGeneration, h]

theorem get_recordHit_self (c : ProjectCache ρ ι) (r : PathBuf) :
    (c.recordHit r).get r = (c.get r).map fun st => { st with lastUsedTick := c.tick + 1 } := by
  unfold recordHit
  rw [get_update_self]
  rfl

theorem get_recordHit_ne (c : ProjectCache ρ ι) {r r' : PathBuf} (h : r' ≠ r) :
    (c.recordHit r).get r' = c.get r' := by
  unfold recordHit
  rw [get_update_ne _ _ h]
  rfl

/-! ## 4. Lookups -/

/-- A lookup creates a missing state and marks the root as used. -/
def touched (c : ProjectCache ρ ι) (r : PathBuf) : ProjectState ρ ι :=
  { (c.get r).getD (.new (c.nextGeneration + 1)) with lastUsedTick := c.tick + 1 }

/-- The ways a lookup answers: from the cache, by joining the marker of the present generation,
or with a new cell, in the present generation or in the one begun because the cached index was
built for other files. -/
inductive Looks (c : ProjectCache ρ ι) (r : PathBuf) (fp : ProjectFingerprint)
    (c' : ProjectCache ρ ι) : IndexLookup ι → Prop
  | cached (e : CachedIndex ι) :
      (touched c r).index = some e → e.project = fp → c'.get r = some (touched c r) →
      c'.nextPtr = c.nextPtr → Looks c r fp c' (.cached e (touched c r).generation)
  | joined (m : InFlight) :
      (touched c r).index = none → (touched c r).inFlight = some m →
      m.generation = (touched c r).generation → c'.get r = some (touched c r) →
      c'.nextPtr = c.nextPtr → Looks c r fp c' (.build m.cell m.owner (touched c r).generation)
  | started :
      (touched c r).index = none →
      (∀ m, (touched c r).inFlight = some m → m.generation ≠ (touched c r).generation) →
      c'.get r = some { touched c r with
        inFlight := some ⟨(touched c r).generation, c.nextPtr, c.nextPtr + 1⟩ } →
      c'.nextPtr = c.nextPtr + 2 →
      Looks c r fp c' (.build c.nextPtr (c.nextPtr + 1) (touched c r).generation)
  | replaced (e : CachedIndex ι) :
      (touched c r).index = some e → e.project ≠ fp →
      c'.get r = some { touched c r with
        generation := c.nextGeneration + 2
        index := none
        inFlight := some ⟨c.nextGeneration + 2, c.nextPtr, c.nextPtr + 1⟩ } →
      c'.nextPtr = c.nextPtr + 2 →
      Looks c r fp c' (.build c.nextPtr (c.nextPtr + 1) (c.nextGeneration + 2))

/-- What `joinBuild` does to the state it finds. -/
theorem joinBuild_spec {c : ProjectCache ρ ι} {r : PathBuf} {st : ProjectState ρ ι}
    (h : c.get r = some st) :
    (∃ m, st.inFlight = some m ∧ m.generation = st.generation ∧
      (joinBuild c r).2 = .build m.cell m.owner st.generation ∧
      (joinBuild c r).1.get r = some st ∧ (joinBuild c r).1.nextPtr = c.nextPtr) ∨
    ((∀ m, st.inFlight = some m → m.generation ≠ st.generation) ∧
      (joinBuild c r).2 = .build c.nextPtr (c.nextPtr + 1) st.generation ∧
      (joinBuild c r).1.get r =
        some { st with inFlight := some ⟨st.generation, c.nextPtr, c.nextPtr + 1⟩ } ∧
      (joinBuild c r).1.nextPtr = c.nextPtr + 2) := by
  have hg : ({ c with misses := c.misses + 1 } : ProjectCache ρ ι).get r = some st := h
  unfold joinBuild
  simp only [hg, Option.map_some, Option.getD_some, Option.bind_some]
  cases hm : st.inFlight.filter (·.generation == st.generation) with
  | some m =>
    obtain ⟨hs, he⟩ := Option.filter_eq_some_iff.mp hm
    exact .inl ⟨m, hs, by simpa using he, rfl, hg, rfl⟩
  | none =>
    refine .inr ⟨fun m hs he => ?_, rfl, ?_, rfl⟩
    · rw [hs] at hm
      simp [Option.filter_some, he] at hm
    · have hu := get_update_self ({ c with misses := c.misses + 1 } : ProjectCache ρ ι) r
        (fun st' => { st' with inFlight := some ⟨st.generation, c.nextPtr, c.nextPtr + 1⟩ })
      rw [hg] at hu
      exact hu

theorem get_joinBuild_ne (c : ProjectCache ρ ι) {r r' : PathBuf} (h : r' ≠ r) :
    (joinBuild c r).1.get r' = c.get r' := by
  unfold joinBuild
  simp only
  split
  · rfl
  · exact get_update_ne _ _ h

@[simp] theorem nextGeneration_joinBuild (c : ProjectCache ρ ι) (r : PathBuf) :
    (joinBuild c r).1.nextGeneration = c.nextGeneration := by
  unfold joinBuild
  simp only
  split <;> rfl

@[simp] theorem limits_joinBuild (c : ProjectCache ρ ι) (r : PathBuf) :
    (joinBuild c r).1.limits = c.limits := by
  unfold joinBuild
  simp only
  split <;> rfl

/-- The cache as a lookup has prepared it before it reads the index. -/
def prepared (c : ProjectCache ρ ι) (r : PathBuf) : ProjectCache ρ ι :=
  c.nextTick.freshGeneration.upsert r (c.nextGeneration + 1) fun st =>
    { st with lastUsedTick := c.tick + 1 }

theorem get_prepared_self (c : ProjectCache ρ ι) (r : PathBuf) :
    (c.prepared r).get r = some (touched c r) :=
  get_upsert_self c.nextTick.freshGeneration r _ _

theorem get_prepared_ne (c : ProjectCache ρ ι) {r r' : PathBuf} (h : r' ≠ r) :
    (c.prepared r).get r' = c.get r' :=
  get_upsert_ne c.nextTick.freshGeneration _ _ h

/-- A lookup, case by case on the index it finds. -/
theorem lookupIndex_eq (held : Held) (c : ProjectCache ρ ι) (r : PathBuf)
    (fp : ProjectFingerprint) :
    lookupIndex held c r fp =
      match (touched c r).index with
      | some e =>
        if e.project = fp then (c.prepared r, .cached e (touched c r).generation)
        else joinBuild (invalidate (held.holdIndex e.index.ptr) (c.prepared r) r) r
      | none => joinBuild (c.prepared r) r := by
  have hp : (c.nextTick.freshGeneration.upsert r c.nextTick.freshGeneration.nextGeneration
      fun st => { st with lastUsedTick := c.nextTick.freshGeneration.tick }) = c.prepared r := rfl
  unfold lookupIndex
  cases hindex : (touched c r).index <;>
    simp only [hp, hindex, get_prepared_self, Option.bind_some, Option.map_some, Option.getD_some]

/-- **A lookup, at its own root.** -/
theorem lookupIndex_spec (held : Held) (c : ProjectCache ρ ι) (r : PathBuf)
    (fp : ProjectFingerprint) :
    Looks c r fp (lookupIndex held c r fp).1 (lookupIndex held c r fp).2 := by
  rw [lookupIndex_eq]
  cases hi : (touched c r).index with
  | none =>
    simp only
    rcases joinBuild_spec (get_prepared_self c r) with ⟨m, hm, hg, ha, hs, hn⟩ | ⟨hm, ha, hs, hn⟩
    · rw [ha]
      exact .joined m hi hm hg hs hn
    · rw [ha]
      exact .started hi hm hs hn
  | some e =>
    simp only
    split
    · rename_i hfp
      exact .cached e hi hfp (get_prepared_self c r) rfl
    · rename_i hfp
      have hst := get_invalidate_self (held.holdIndex e.index.ptr) (c.prepared r) r
      rw [get_prepared_self, Option.map_some] at hst
      rcases joinBuild_spec hst with ⟨m, hm, _⟩ | ⟨_, ha, hs, hn⟩
      · cases hm
      · rw [nextPtr_invalidate] at hn hs ha
        rw [ha]
        exact .replaced e hi hfp hs hn

theorem lookupIndex_fades (held : Held) (c : ProjectCache ρ ι) {r r' : PathBuf}
    (fp : ProjectFingerprint) (h : r' ≠ r) :
    FadesTo held True True (c.get r') ((lookupIndex held c r fp).1.get r') := by
  rw [lookupIndex_eq]
  cases (touched c r).index with
  | none =>
    simp only
    rw [get_joinBuild_ne _ h, get_prepared_ne _ h]
    exact FadesTo.refl _ _ _ _
  | some e =>
    simp only
    split
    · rw [get_prepared_ne _ h]
      exact FadesTo.refl _ _ _ _
    · rw [get_joinBuild_ne _ h]
      have := invalidate_fades (held.holdIndex e.index.ptr) (c.prepared r) h
      rw [get_prepared_ne _ h] at this
      exact this.congr_held rfl rfl

/-- A lookup never gives a generation back. -/
theorem nextGeneration_lookupIndex (held : Held) (c : ProjectCache ρ ι) (r : PathBuf)
    (fp : ProjectFingerprint) :
    (lookupIndex held c r fp).1.nextGeneration = c.nextGeneration + 1 ∨
    ((∃ e, (touched c r).index = some e ∧ e.project ≠ fp) ∧
      (lookupIndex held c r fp).1.nextGeneration = c.nextGeneration + 2) := by
  rw [lookupIndex_eq]
  cases (touched c r).index with
  | none =>
    left
    simp only [nextGeneration_joinBuild]
    rfl
  | some e =>
    simp only
    split
    · exact .inl rfl
    · rename_i hfp
      right
      refine ⟨⟨e, rfl, hfp⟩, ?_⟩
      rw [nextGeneration_joinBuild, nextGeneration_invalidate]
      rfl

theorem limits_lookupIndex (held : Held) (c : ProjectCache ρ ι) (r : PathBuf)
    (fp : ProjectFingerprint) : (lookupIndex held c r fp).1.limits = c.limits := by
  rw [lookupIndex_eq]
  cases (touched c r).index with
  | none => exact limits_joinBuild _ _
  | some e =>
    simp only
    split
    · rfl
    · rw [limits_joinBuild, limits_invalidate]
      rfl

/-! ## 5. Reservations -/

/-- How a reservation is answered: only for the present generation, with a new allocation. -/
inductive Reserves (c : ProjectCache ρ ι) (r : PathBuf) (g : Nat) (c' : ProjectCache ρ ι) :
    Except ReserveError Nat → Prop
  | stale : c.isCurrent r g = false → c'.nextPtr = c.nextPtr → Reserves c r g c' (.error .stale)
  | overBudget (needed limit : Nat) : c.isCurrent r g = true → c'.nextPtr = c.nextPtr →
      Reserves c r g c' (.error (.overBudget needed limit))
  | reserved : c.isCurrent r g = true → c'.nextPtr = c.nextPtr + 1 →
      Reserves c r g c' (.ok c.nextPtr)

/-- The cache in which `reserve` decides: pruned, and evicted until the bytes fit or nothing
is left to evict. -/
def reserveRoom (held : Held) (c : ProjectCache ρ ι) (r : PathBuf) (bytes : Nat) :
    ProjectCache ρ ι :=
  Loop.run (reserveRound held r bytes) (prune held c).slots (prune held c)

theorem reserveRoom_erodes (held : Held) (c : ProjectCache ρ ι) (r : PathBuf) (bytes : Nat) :
    Erodes held none (some r) c (c.reserveRoom held r bytes) :=
  (prune_erodes held none (some r) c).trans
    (Erodes.run (fun _ _ h => reserveRound_erodes h) _ _)

/-- A reservation, as a choice between named caches. -/
theorem reserve_eq (held : Held) (c : ProjectCache ρ ι) (r : PathBuf) (g bytes : Nat) :
    reserve held c r g bytes =
      let room := c.reserveRoom held r bytes
      if c.isCurrent r g then
        if room.retainedBytes held + bytes > room.limits.maxBytes then
          (room, .error (.overBudget (room.retainedBytes held + bytes) room.limits.maxBytes))
        else
          ({ room with
              reservations := room.reservations ++ [⟨room.nextPtr, bytes⟩]
              nextPtr := room.nextPtr + 1 },
            .ok room.nextPtr)
      else (prune held c, .error .stale) := by
  unfold reserve
  simp only [isCurrent_prune]
  rfl

theorem reserve_spec (held : Held) (c : ProjectCache ρ ι) (r : PathBuf) (g bytes : Nat) :
    Reserves c r g (reserve held c r g bytes).1 (reserve held c r g bytes).2 := by
  have he := reserveRoom_erodes held c r bytes
  rw [reserve_eq]
  simp only
  split
  · rename_i hg
    split
    · exact .overBudget _ _ hg he.nextPtr
    · rw [he.nextPtr]
      exact .reserved hg rfl
  · rename_i hg
    exact .stale (by simpa using hg) rfl

/-- Reserving makes room everywhere, but the served root keeps its runner. -/
theorem reserve_fades (held : Held) (c : ProjectCache ρ ι) (r : PathBuf) (g bytes : Nat)
    (r' : PathBuf) :
    FadesTo held False (some r = some r') (c.get r') ((reserve held c r g bytes).1.get r') := by
  have he := reserveRoom_erodes held c r bytes
  rw [reserve_eq]
  simp only
  split
  · split
    · exact (he.get r').mono False.elim id
    · exact (he.get r').mono False.elim id
  · exact ((prune_erodes held none (some r) c).get r').mono False.elim id

@[simp] theorem nextGeneration_reserve (held : Held) (c : ProjectCache ρ ι) (r : PathBuf)
    (g bytes : Nat) : (reserve held c r g bytes).1.nextGeneration = c.nextGeneration := by
  have he := reserveRoom_erodes held c r bytes
  rw [reserve_eq]
  simp only
  split
  · split <;> exact he.nextGeneration
  · rfl

@[simp] theorem limits_reserve (held : Held) (c : ProjectCache ρ ι) (r : PathBuf)
    (g bytes : Nat) : (reserve held c r g bytes).1.limits = c.limits := by
  have he := reserveRoom_erodes held c r bytes
  rw [reserve_eq]
  simp only
  split
  · split <;> exact he.limits
  · rfl

/-! ## 6. Publications -/

theorem Fades.eq_of_kept {held : Held} {st st' : ProjectState ρ ι}
    (h : Fades held True True st st') (hm : st.inFlight = none) : st' = st := by
  have hi := h.index.resolve_right fun x => x.2 trivial
  have hr := h.runner.resolve_right fun x => x.2.2 trivial
  have hf : st'.inFlight = st.inFlight := by
    rcases h.inFlight with h | ⟨h, _⟩
    · exact h
    · rw [h, hm]
  cases st with
  | mk => cases st' with
    | mk =>
      rw [ProjectState.mk.injEq]
      exact ⟨h.generation, hr, hi, hf, h.fullRebuild, h.lastUsedTick⟩

/-- A protected state with an index and no marker comes through unchanged. -/
theorem FadesTo.eq_of_kept {held : Held} {st : ProjectState ρ ι} {b : Option (ProjectState ρ ι)}
    (h : FadesTo held True True (some st) b) (hm : st.inFlight = none)
    (hi : st.index.isSome = true) : b = some st := by
  match b, h with
  | none, ⟨_, h, _⟩ =>
    rw [h trivial] at hi
    cases hi
  | some _, h => rw [Fades.eq_of_kept h hm]

theorem get_placeIndex_self (c : ProjectCache ρ ι) (r : PathBuf) (e : CachedIndex ι) :
    (c.placeIndex r e).get r = (c.get r).map fun st =>
      { st with inFlight := none, index := some e, lastUsedTick := c.tick + 1 } :=
  get_update_self c.nextTick r _

theorem get_placeIndex_ne (c : ProjectCache ρ ι) {r r' : PathBuf} (e : CachedIndex ι)
    (h : r' ≠ r) : (c.placeIndex r e).get r' = c.get r' :=
  get_update_ne c.nextTick _ h

/-- The cache once a published entry is in place and room is made around it. -/
def placed (held : Held) (c : ProjectCache ρ ι) (r : PathBuf) (e : CachedIndex ι) :
    ProjectCache ρ ι :=
  enforce held (some r) ((prune held c).placeIndex r e)

/-- The cache after a publication too large for any budget: only its marker went, and the
index is accounted for its holders. -/
def refused (held : Held) (c : ProjectCache ρ ι) (r : PathBuf) (index : ReleasedIndex) :
    ProjectCache ρ ι :=
  let c := (prune held c).update r fun st => { st with inFlight := none }
  { c with released := c.released ++ [index] }

theorem placed_get (held : Held) {c : ProjectCache ρ ι} {r : PathBuf} {st : ProjectState ρ ι}
    (h : c.get r = some st) (e : CachedIndex ι) :
    (c.placed held r e).get r =
      some { st with inFlight := none, index := some e, lastUsedTick := c.tick + 1 } := by
  have hk := (enforce_erodes held (some r) ((prune held c).placeIndex r e)).kept
  have hp : ((prune held c).placeIndex r e).get r =
      some { st with inFlight := none, index := some e, lastUsedTick := c.tick + 1 } := by
    rw [get_placeIndex_self, get_prune, h, Option.map_some, Option.map_some]
    unfold pruneMarker
    split <;> rfl
  rw [hp] at hk
  exact hk.eq_of_kept rfl rfl

theorem placed_fades (held : Held) (c : ProjectCache ρ ι) {r r' : PathBuf} (e : CachedIndex ι)
    (h : r' ≠ r) : FadesTo held False False (c.get r') ((c.placed held r e).get r') := by
  have h₁ := (prune_erodes held none none c).loose r'
  have h₂ := (enforce_erodes held (some r) ((prune held c).placeIndex r e)).loose r'
  rw [get_placeIndex_ne _ _ h] at h₂
  exact h₁.trans h₂

theorem refused_get {held : Held} {c : ProjectCache ρ ι} {r : PathBuf} {st : ProjectState ρ ι}
    (h : c.get r = some st) (index : ReleasedIndex) :
    (c.refused held r index).get r = some { st with inFlight := none } := by
  show ((prune held c).update r fun st => { st with inFlight := none }).get r = _
  rw [get_update_self, get_prune, h, Option.map_some, Option.map_some,
    pruneMarker_inFlight_none]

theorem refused_fades (held : Held) (c : ProjectCache ρ ι) {r r' : PathBuf}
    (index : ReleasedIndex) (h : r' ≠ r) :
    FadesTo held False False (c.get r') ((c.refused held r index).get r') := by
  show FadesTo held _ _ (c.get r') (((prune held c).update r _).get r')
  rw [get_update_ne _ _ h]
  exact (prune_erodes held none none c).loose r'

section

variable [EstimatedBytes ι]

/-- What a published index is charged. -/
def publishedBytes (index : Arc ι) (build : FinishedBuild) : Nat :=
  EstimatedBytes.estimatedBytes index.val + build.artifacts.estimatedBytes

/-- The entry a publication leaves. -/
def publishedEntry (index : Arc ι) (build : FinishedBuild) (project : ProjectFingerprint) :
    CachedIndex ι :=
  ⟨index, project, build.artifacts, publishedBytes index build⟩

/-- A publication, as a choice between named caches. -/
theorem publish_eq (held : Held) (c : ProjectCache ρ ι) (r : PathBuf) (g : Nat)
    (index : Arc ι) (build : FinishedBuild) (project : ProjectFingerprint) (reservation : Nat) :
    publish held c r g index build project reservation =
      let held := held.dropReservation reservation
      let done := c.placed held r (publishedEntry index build project)
      if c.isCurrent r g then
        if publishedBytes index build > c.limits.maxBytes then
          (c.refused held r ⟨index.ptr, publishedBytes index build⟩, .uncached)
        else if done.retainedBytes held > done.limits.maxBytes then
          (releaseIndex held done r, .uncached)
        else (done, .retained)
      else (prune held c, .stale) := by
  unfold publish
  have hp := isCurrent_prune (held.dropReservation reservation) c r g
  cases hg : c.isCurrent r g with
  | true =>
    rw [hg] at hp
    simp only [hp, if_true]
    rfl
  | false =>
    rw [hg] at hp
    simp only [hp]
    rfl

/-- How a publication ends at its own root. -/
inductive Publishes (held : Held) (c : ProjectCache ρ ι) (r : PathBuf) (g : Nat)
    (index : Arc ι) (build : FinishedBuild) (project : ProjectFingerprint)
    (c' : ProjectCache ρ ι) : Publication → Prop
  | stale : c.isCurrent r g = false → FadesTo held True True (c.get r) (c'.get r) →
      Publishes held c r g index build project c' .stale
  /-- Too large for any budget: the cached index, if there is one, stays. -/
  | oversized (st : ProjectState ρ ι) : c.get r = some st → st.generation = g →
      c.limits.maxBytes < publishedBytes index build →
      c'.get r = some { st with inFlight := none } →
      Publishes held c r g index build project c' .uncached
  | uncached (st : ProjectState ρ ι) : c.get r = some st → st.generation = g →
      c'.get r = some { st with inFlight := none, index := none, lastUsedTick := c.tick + 1 } →
      Publishes held c r g index build project c' .uncached
  | retained (st : ProjectState ρ ι) : c.get r = some st → st.generation = g →
      c'.get r = some { st with
        inFlight := none
        index := some (publishedEntry index build project)
        lastUsedTick := c.tick + 1 } →
      Publishes held c r g index build project c' .retained

/-- **A publication, at its own root.** -/
theorem publish_spec (held : Held) (c : ProjectCache ρ ι) (r : PathBuf) (g : Nat)
    (index : Arc ι) (build : FinishedBuild) (project : ProjectFingerprint) (reservation : Nat) :
    Publishes held c r g index build project
      (publish held c r g index build project reservation).1
      (publish held c r g index build project reservation).2 := by
  rw [publish_eq]
  simp only
  split
  · rename_i hg
    obtain ⟨st, hst, hgen⟩ := isCurrent_iff.mp hg
    have hs := placed_get (held.dropReservation reservation) hst
      (publishedEntry index build project)
    split
    · rename_i hb
      exact .oversized st hst hgen hb (refused_get hst _)
    · split
      · exact .uncached st hst hgen (get_releaseIndex_self hs rfl)
      · exact .retained st hst hgen hs
  · rename_i hg
    exact .stale (by simpa using hg)
      ((prune_erodes _ (some r) (some r) c).kept.congr_held rfl rfl)

theorem publish_fades (held : Held) (c : ProjectCache ρ ι) {r r' : PathBuf} (g : Nat)
    (index : Arc ι) (build : FinishedBuild) (project : ProjectFingerprint) (reservation : Nat)
    (h : r' ≠ r) : FadesTo held False False (c.get r')
      ((publish held c r g index build project reservation).1.get r') := by
  suffices hd : FadesTo (held.dropReservation reservation) False False (c.get r')
      ((publish held c r g index build project reservation).1.get r') from
    hd.congr_held rfl rfl
  rw [publish_eq]
  generalize held.dropReservation reservation = held'
  simp only
  split
  · split
    · exact refused_fades held' c _ h
    · have hp := placed_fades held' c (publishedEntry index build project) h
      split
      · exact hp.trans (releaseIndex_fades held' _ h).loosen
      · exact hp
  · exact (prune_erodes held' none none c).loose r'

@[simp] theorem nextGeneration_publish (held : Held) (c : ProjectCache ρ ι) (r : PathBuf)
    (g : Nat) (index : Arc ι) (build : FinishedBuild) (project : ProjectFingerprint)
    (reservation : Nat) :
    (publish held c r g index build project reservation).1.nextGeneration
      = c.nextGeneration := by
  rw [publish_eq]
  have hp : ∀ (held : Held) (e : CachedIndex ι),
      (c.placed held r e).nextGeneration = c.nextGeneration := fun held e =>
    nextGeneration_enforce held (some r) ((prune held c).placeIndex r e)
  simp only
  split
  · split
    · rfl
    · split
      · rw [nextGeneration_releaseIndex, hp]
      · exact hp _ _
  · rfl

@[simp] theorem nextPtr_publish (held : Held) (c : ProjectCache ρ ι) (r : PathBuf)
    (g : Nat) (index : Arc ι) (build : FinishedBuild) (project : ProjectFingerprint)
    (reservation : Nat) :
    (publish held c r g index build project reservation).1.nextPtr = c.nextPtr := by
  rw [publish_eq]
  have hp : ∀ (held : Held) (e : CachedIndex ι),
      (c.placed held r e).nextPtr = c.nextPtr := fun held e =>
    nextPtr_enforce held (some r) ((prune held c).placeIndex r e)
  simp only
  split
  · split
    · rfl
    · split
      · rw [nextPtr_releaseIndex, hp]
      · exact hp _ _
  · rfl

end

/-- A failed build takes its own marker with it; the state may go as well. -/
theorem finishFailed_self (held : Held) (c : ProjectCache ρ ι) (r : PathBuf) (g : Nat) :
    FadesTo held False False
      ((c.get r).map fun st => if st.generation = g then { st with inFlight := none } else st)
      ((finishFailed held c r g).get r) := by
  unfold finishFailed
  have := (enforce_erodes held none (c.update r fun st =>
    if st.generation = g then { st with inFlight := none } else st)).loose r
  rwa [get_update_self] at this

theorem finishFailed_fades (held : Held) (c : ProjectCache ρ ι) {r r' : PathBuf} (g : Nat)
    (h : r' ≠ r) : FadesTo held False False (c.get r') ((finishFailed held c r g).get r') := by
  unfold finishFailed
  have := (enforce_erodes held none (c.update r fun st =>
    if st.generation = g then { st with inFlight := none } else st)).loose r'
  rwa [get_update_ne _ _ h] at this

end ProjectCache

end MavenMcp
