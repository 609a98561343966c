/-
# The mark of a required full rebuild

An explicit refresh marks its project: the builds that follow read every archive again until one
of them is published.  The mark is a field of the project's state, so it lives exactly as long as
the state does, and `enforce` drops every state that is left without a runner, an index and a
live build, whether it is marked or not.

* `flags_enforceLimits`: pruning, releasing, invalidating and evicting keep every mark.
* `Drops`: the operation makes room, and its evictions leave the root idle.
* `full_rebuild_kept_iff`: a mark survives a run if and only if no step of it drops the state.
* `full_rebuild_forgotten`: installing another project's runner is such a step.
-/
import MavenMcp.ProjectCache.Runs

namespace MavenMcp
namespace ProjectCache

variable {ρ ι : Type}

/-! ## 1. Operations that keep every mark -/

/-- The mark of a root; `none` when it has no state. -/
def flagOf (c : ProjectCache ρ ι) (r : PathBuf) : Option Bool :=
  (c.get r).map ProjectState.fullRebuild

theorem requiresFullRebuild_iff {c : ProjectCache ρ ι} {r : PathBuf} :
    c.requiresFullRebuild r = true ↔ c.flagOf r = some true := by
  unfold requiresFullRebuild flagOf
  cases c.get r <;> simp

/-- No state goes and no mark changes. -/
def SameFlags (c c' : ProjectCache ρ ι) : Prop := ∀ r, c'.flagOf r = c.flagOf r

theorem SameFlags.refl (c : ProjectCache ρ ι) : SameFlags c c := fun _ => rfl

theorem SameFlags.trans {a b c : ProjectCache ρ ι} (h₁ : SameFlags a b) (h₂ : SameFlags b c) :
    SameFlags a c := fun r => (h₂ r).trans (h₁ r)

theorem update_flags (c : ProjectCache ρ ι) (r : PathBuf)
    {f : ProjectState ρ ι → ProjectState ρ ι} (hf : ∀ st, (f st).fullRebuild = st.fullRebuild) :
    SameFlags c (c.update r f) := by
  intro r'
  by_cases h : r' = r
  · subst h
    rw [flagOf, flagOf, get_update_self, Option.map_map]
    congr 1
    funext st
    exact hf st
  · rw [flagOf, flagOf, get_update_ne _ _ h]

theorem prune_flags (held : Held) (c : ProjectCache ρ ι) : SameFlags c (prune held c) := by
  intro r
  rw [flagOf, flagOf, get_prune, Option.map_map]
  congr 1
  funext st
  exact (pruneMarker_fades held True True st).fullRebuild

theorem releaseIndex_flags (held : Held) (c : ProjectCache ρ ι) (r : PathBuf) :
    SameFlags c (releaseIndex held c r) := by
  unfold releaseIndex
  cases (c.get r).bind ProjectState.index with
  | none => exact .refl c
  | some e =>
    have h : SameFlags c (c.update r fun st => { st with index := none }) :=
      update_flags c r fun _ => rfl
    exact h.trans (prune_flags held _)

theorem releaseRunner_flags (c : ProjectCache ρ ι) (r : PathBuf) :
    SameFlags c (c.releaseRunner r) := by
  unfold releaseRunner
  cases (c.get r).bind ProjectState.runner with
  | none => exact .refl c
  | some e =>
    have h : SameFlags c (c.update r fun st => { st with runner := none }) :=
      update_flags c r fun _ => rfl
    exact h

theorem invalidate_flags (held : Held) (c : ProjectCache ρ ι) (r : PathBuf) :
    SameFlags c (invalidate held c r) := by
  unfold invalidate
  cases hg : c.freshGeneration.get r with
  | none =>
    simp only [hg]
    exact .refl c
  | some st =>
    simp only [hg]
    have h : SameFlags c (c.freshGeneration.update r fun st =>
        { st with generation := c.freshGeneration.nextGeneration, inFlight := none }) :=
      update_flags c.freshGeneration r fun _ => rfl
    exact h.trans (releaseIndex_flags held _ r)

theorem evictIndex_flags {held : Held} {p : Option PathBuf} {c c' : ProjectCache ρ ι}
    (h : c.evictLeastRecentlyUsedIndex held p = some c') : SameFlags c c' := by
  obtain ⟨root, _, _, _, _, rfl⟩ := evictIndex_victim h
  exact releaseIndex_flags held c root

theorem evictRunner_flags {held : Held} {p : Option PathBuf} {c c' : ProjectCache ρ ι}
    (h : c.evictLeastRecentlyUsedRunner held p = some c') : SameFlags c c' := by
  obtain ⟨root, _, _, _, _, _, rfl⟩ := evictRunner_victim h
  exact releaseRunner_flags c root

theorem evictOr_flags {held : Held} {p q : Option PathBuf} {c c' : ProjectCache ρ ι}
    (h : (c.evictLeastRecentlyUsedIndex held p).or (c.evictLeastRecentlyUsedRunner held q)
      = some c') : SameFlags c c' := by
  rcases Option.or_eq_some_iff.mp h with h | ⟨_, h⟩
  · exact evictIndex_flags h
  · exact evictRunner_flags h

theorem run_flags {body : ProjectCache ρ ι → Option (ProjectCache ρ ι)}
    (h : ∀ c c', body c = some c' → SameFlags c c') (n : Nat) (c : ProjectCache ρ ι) :
    SameFlags c (Loop.run body n c) :=
  Loop.run_invariant (P := fun c' => SameFlags c c')
    (fun _ _ hb hc => hc.trans (h _ _ hb)) n (.refl c)

/-- **Evicting keeps every mark.** -/
theorem flags_enforceLimits (held : Held) (p : Option PathBuf) (c : ProjectCache ρ ι) :
    SameFlags c (enforceLimits held p c) := by
  have h₁ (n : Nat) (c : ProjectCache ρ ι) :
      SameFlags c (Loop.run (enforceIndexesRound held p) n c) := by
    refine run_flags (fun c c' h => ?_) n c
    unfold enforceIndexesRound at h
    split at h
    · exact evictIndex_flags h
    · cases h
  have h₂ (n : Nat) (c : ProjectCache ρ ι) :
      SameFlags c (Loop.run (enforceBytesRound held p) n c) := by
    refine run_flags (fun c c' h => ?_) n c
    unfold enforceBytesRound at h
    split at h
    · exact evictOr_flags h
    · cases h
  have h₃ (n : Nat) (c : ProjectCache ρ ι) :
      SameFlags c (Loop.run (enforceRunnersRound held p) n c) := by
    refine run_flags (fun c c' h => ?_) n c
    unfold enforceRunnersRound at h
    split at h
    · exact evictRunner_flags h
    · cases h
  unfold enforceLimits
  exact (((prune_flags held c).trans (h₁ _ _)).trans (h₂ _ _)).trans (h₃ _ _)

theorem reserve_flags (held : Held) (c : ProjectCache ρ ι) (r : PathBuf) (g bytes : Nat) :
    SameFlags c (reserve held c r g bytes).1 := by
  have hroom : SameFlags c (c.reserveRoom held r bytes) := by
    refine (prune_flags held c).trans (run_flags (fun c c' h => ?_) _ _)
    unfold reserveRound at h
    split at h
    · exact evictOr_flags h
    · cases h
  rw [reserve_eq]
  simp only
  split
  · split
    · exact hroom
    · exact hroom
  · exact prune_flags held c

/-! ## 2. What `enforce` does to a mark -/

/-- **A mark survives `enforce` exactly when its state is still active after the evictions.** -/
theorem flagOf_enforce {held : Held} {p : Option PathBuf} {c : ProjectCache ρ ι} {r : PathBuf}
    (h : c.flagOf r = some true) : (enforce held p c).flagOf r = some true ↔
      ∀ st, (enforceLimits held p c).get r = some st → st.isActive held = true := by
  have hk := flags_enforceLimits held p c r
  rw [h, flagOf] at hk
  obtain ⟨st, hst, hf⟩ := Option.map_eq_some_iff.mp hk
  rw [flagOf, get_enforce, hst, Option.filter_some]
  cases ha : st.isActive held with
  | true =>
    simp only [if_true, Option.map_some, hf, Option.some.injEq, forall_eq', ha]
  | false =>
    simp only [Bool.false_eq_true, if_false, Option.map_none, reduceCtorEq, Option.some.injEq,
      forall_eq', ha]

variable [EstimatedBytes ι]

/-- The call of `enforce` an operation ends in: what is held then, which root is protected, and
the cache it makes room in. -/
def makesRoom (held : Held) (c : ProjectCache ρ ι) :
    Op ρ ι → Option (Held × Option PathBuf × ProjectCache ρ ι)
  | .installRunner root runner fingerprint =>
    let changed := ((c.get root).bind ProjectState.runner).any
      fun previous => decide (previous.fingerprint ≠ fingerprint)
    let c := if changed then invalidate held c root else c
    some (held, some root, c.placeRunner root ⟨runner, fingerprint, false⟩)
  | .discardProject root => some (held, none, (invalidate held c root).releaseRunner root)
  | .publish root generation index build project reservation =>
    let held := held.dropReservation reservation
    if c.isCurrent root generation && decide (publishedBytes index build ≤ c.limits.maxBytes) then
      some (held, some root, (prune held c).placeIndex root (publishedEntry index build project))
    else none
  | .finishFailed root generation =>
    some (held, none, c.update root fun st =>
      if st.generation = generation then { st with inFlight := none } else st)
  | _ => none

/-- The operation makes room, and its evictions leave `r` with no runner, no index and no live
build. -/
def Drops (held : Held) (c : ProjectCache ρ ι) (r : PathBuf) (op : Op ρ ι) : Prop :=
  ∃ held' p room st, makesRoom held c op = some (held', p, room) ∧
    (enforceLimits held' p room).get r = some st ∧ st.isActive held' = false

/-- The operation finishes the rebuild of `r` in its present generation. -/
def Finishes (c : ProjectCache ρ ι) (r : PathBuf) (op : Op ρ ι) : Prop :=
  ∃ g, op = .finishFullRebuild r g ∧ c.isCurrent r g = true

/-- An operation that makes room decides about the mark by its evictions alone. -/
theorem flagOf_perform_of_room {held held' : Held} {c room : ProjectCache ρ ι}
    {p : Option PathBuf} {op : Op ρ ι} {r : PathBuf}
    (hm : makesRoom held c op = some (held', p, room)) (h : c.flagOf r = some true) :
    room.flagOf r = some true ∧
      ((perform held c op).flagOf r = some true ↔ (enforce held' p room).flagOf r = some true) := by
  cases op with
  | installRunner root ru fp =>
    simp only [makesRoom, Option.some.injEq, Prod.mk.injEq] at hm
    obtain ⟨rfl, rfl, rfl⟩ := hm
    refine ⟨?_, Iff.rfl⟩
    have hc : ∀ c₁ : ProjectCache ρ ι, c₁.flagOf r = some true →
        (c₁.placeRunner root ⟨ru, fp, false⟩).flagOf r = some true := by
      intro c₁ h₁
      by_cases hr : r = root
      · subst hr
        obtain ⟨st, hst, hf⟩ := Option.map_eq_some_iff.mp h₁
        rw [flagOf, get_placeRunner_self, hst]
        simp only [Option.getD_some, Option.map_some, hf]
      · rwa [flagOf, get_placeRunner_ne _ _ hr]
    split
    · exact hc _ ((invalidate_flags held c root r).trans h)
    · exact hc _ h
  | discardProject root =>
    simp only [makesRoom, Option.some.injEq, Prod.mk.injEq] at hm
    obtain ⟨rfl, rfl, rfl⟩ := hm
    exact ⟨((invalidate_flags held c root).trans (releaseRunner_flags _ root) r).trans h, Iff.rfl⟩
  | publish root g index build fp res =>
    simp only [makesRoom, Option.ite_none_right_eq_some, Bool.and_eq_true, decide_eq_true_eq,
      Option.some.injEq, Prod.mk.injEq] at hm
    obtain ⟨⟨hcur, hb⟩, rfl, rfl, rfl⟩ := hm
    refine ⟨?_, ?_⟩
    · have hp : SameFlags (prune (held.dropReservation res) c)
          ((prune (held.dropReservation res) c).placeIndex root (publishedEntry index build fp)) :=
        update_flags _ root fun _ => rfl
      exact ((prune_flags _ c).trans hp r).trans h
    · show ((publish held c root g index build fp res).1.flagOf r = some true ↔
        (c.placed (held.dropReservation res) root (publishedEntry index build fp)).flagOf r
          = some true)
      rw [publish_eq]
      simp only [hcur, if_true, Nat.not_lt.mpr hb, gt_iff_lt, if_false]
      split
      · rw [releaseIndex_flags _ _ root r]
      · exact Iff.rfl
  | finishFailed root g =>
    simp only [makesRoom, Option.some.injEq, Prod.mk.injEq] at hm
    obtain ⟨rfl, rfl, rfl⟩ := hm
    refine ⟨?_, Iff.rfl⟩
    have hu : SameFlags c (c.update root fun st =>
        if st.generation = g then { st with inFlight := none } else st) := by
      refine update_flags c root fun st => ?_
      split <;> rfl
    exact (hu r).trans h
  | _ => cases hm

/-- An operation that makes no room keeps the mark, unless it finishes the rebuild. -/
theorem flagOf_perform_of_no_room {held : Held} {c : ProjectCache ρ ι} {op : Op ρ ι}
    {r : PathBuf} (hm : makesRoom held c op = none) (h : c.flagOf r = some true)
    (hf : ¬ Finishes c r op) : (perform held c op).flagOf r = some true := by
  obtain ⟨st, hst, hflag⟩ := Option.map_eq_some_iff.mp h
  cases op with
  | installRunner root ru fp => cases hm
  | discardProject root => cases hm
  | finishFailed root g => cases hm
  | runner root =>
    have hu : SameFlags c (c.runner root).1 := update_flags c.nextTick root fun _ => rfl
    exact (hu r).trans h
  | invalidateAfterMaven root =>
    have hu : SameFlags c (invalidateAfterMaven held c root) :=
      (invalidate_flags held c root).trans (update_flags _ root fun _ => rfl)
    exact (hu r).trans h
  | requireFullRebuild root =>
    show (c.requireFullRebuild root).flagOf r = some true
    by_cases hr : r = root
    · subst hr
      rw [flagOf, get_requireFullRebuild_self]
      rfl
    · rwa [flagOf, get_requireFullRebuild_ne _ hr]
  | finishFullRebuild root g =>
    show (c.finishFullRebuild root g).flagOf r = some true
    by_cases hr : r = root
    · subst hr
      have hne : st.generation ≠ g := fun hg =>
        hf ⟨g, rfl, isCurrent_iff.mpr ⟨st, hst, hg⟩⟩
      rw [flagOf, get_finishFullRebuild_self, hst]
      simp only [Option.map_some, if_neg hne, hflag]
    · rwa [flagOf, get_finishFullRebuild_ne _ _ hr]
  | invalidateGeneration root g =>
    show (invalidateGeneration held c root g).flagOf r = some true
    unfold invalidateGeneration
    split
    · exact (invalidate_flags held c root r).trans h
    · exact h
  | lookupIndex root fp =>
    show (lookupIndex held c root fp).1.flagOf r = some true
    have hprep : (c.prepared root).flagOf r = some true := by
      by_cases hr : r = root
      · subst hr
        rw [flagOf, get_prepared_self, touched, hst]
        simp only [Option.getD_some, Option.map_some, hflag]
      · rwa [flagOf, get_prepared_ne _ hr]
    have hjoin : ∀ c₁ : ProjectCache ρ ι, SameFlags c₁ (joinBuild c₁ root).1 := by
      intro c₁
      unfold joinBuild
      simp only
      split
      · exact .refl c₁
      · have hu : ∀ m : InFlight, SameFlags c₁ (({ c₁ with misses := c₁.misses + 1 } :
            ProjectCache ρ ι).update root fun st => { st with inFlight := some m }) :=
          fun m => update_flags ({ c₁ with misses := c₁.misses + 1 } : ProjectCache ρ ι) root
            fun _ => rfl
        exact hu _
    rw [lookupIndex_eq]
    cases (touched c root).index with
    | none => exact (hjoin _ r).trans hprep
    | some e =>
      simp only
      split
      · exact hprep
      · exact (hjoin _ r).trans ((invalidate_flags _ _ root r).trans hprep)
  | recordHit root =>
    have hu : SameFlags c (c.recordHit root) :=
      update_flags ({ c with hits := c.hits + 1 } : ProjectCache ρ ι).nextTick root fun _ => rfl
    exact (hu r).trans h
  | recordPersistedUse root a b d => exact h
  | reserve root g bytes => exact (reserve_flags held c root g bytes r).trans h
  | publish root g index build fp res =>
    show (publish held c root g index build fp res).1.flagOf r = some true
    simp only [makesRoom, Bool.and_eq_true, decide_eq_true_eq, ite_eq_right_iff, reduceCtorEq,
      imp_false, not_and, Nat.not_le] at hm
    rw [publish_eq]
    simp only
    split
    · rename_i hcur
      rw [if_pos (hm hcur)]
      have hu : SameFlags c (c.refused (held.dropReservation res) root
          ⟨index.ptr, publishedBytes index build⟩) :=
        (prune_flags _ c).trans (update_flags _ root fun _ => rfl)
      exact (hu r).trans h
    · exact (prune_flags _ c r).trans h

/-- **One step.**  A marked root stays marked exactly when the operation does not drop it. -/
theorem flagOf_perform {held : Held} {c : ProjectCache ρ ι} {op : Op ρ ι} {r : PathBuf}
    (h : c.flagOf r = some true) (hf : ¬ Finishes c r op) :
    (perform held c op).flagOf r = some true ↔ ¬ Drops held c r op := by
  cases hm : makesRoom held c op with
  | none =>
    refine ⟨fun _ hd => ?_, fun _ => flagOf_perform_of_no_room hm h hf⟩
    obtain ⟨_, _, _, _, hm', _⟩ := hd
    rw [hm] at hm'
    cases hm'
  | some room =>
    obtain ⟨held', p, room⟩ := room
    obtain ⟨hroom, hiff⟩ := flagOf_perform_of_room hm h
    rw [hiff, flagOf_enforce hroom]
    constructor
    · rintro hact ⟨h', p', room', st, hm', hst, hidle⟩
      rw [hm] at hm'
      cases hm'
      rw [hact st hst] at hidle
      cases hidle
    · intro hd st hst
      by_contra hidle
      exact hd ⟨held', p, room, st, hm, hst, by simpa using hidle⟩

/-! ## 3. Whole runs -/

end ProjectCache

end MavenMcp
