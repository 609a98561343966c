/-
# What one operation does to the state of one project

Most operations serve ONE root and then make room: they prune dead markers, evict indexes and
runners of other roots, and drop idle states.  What all of this can do to a root is the same
small thing, `Fades`: an index may go, a runner may go, a dead marker may go, and a state left
with none of them may go; nothing else changes, and a live build protects both its marker and
its runner.

`Erodes` is `Fades` at every root at once, with the frame: limits, generation counter and
allocator untouched.  It is reflexive and transitive, so it survives the eviction loops
(`enforce_erodes`), and the rest of the file states for each operation what it does to its own
root, up to erosion.  Everything later about generations, flags, markers and builds is derived
from these lemmas and never unfolds an operation again.
-/
import MavenMcp.ProjectCache.Ops

namespace MavenMcp
namespace ProjectCache

variable {ρ ι : Type}

/-! ## 1. Reading a state back after an update -/

@[simp] theorem get_nextTick (c : ProjectCache ρ ι) (r : PathBuf) :
    c.nextTick.get r = c.get r := rfl

@[simp] theorem get_freshGeneration (c : ProjectCache ρ ι) (r : PathBuf) :
    c.freshGeneration.get r = c.get r := rfl

@[simp] theorem nextGeneration_nextTick (c : ProjectCache ρ ι) :
    c.nextTick.nextGeneration = c.nextGeneration := rfl

@[simp] theorem nextGeneration_freshGeneration (c : ProjectCache ρ ι) :
    c.freshGeneration.nextGeneration = c.nextGeneration + 1 := rfl

@[simp] theorem get_update_self (c : ProjectCache ρ ι) (r : PathBuf)
    (f : ProjectState ρ ι → ProjectState ρ ι) : (c.update r f).get r = (c.get r).map f := by
  simp [get, update]

theorem get_update_ne (c : ProjectCache ρ ι) {r r' : PathBuf}
    (f : ProjectState ρ ι → ProjectState ρ ι) (h : r' ≠ r) : (c.update r f).get r' = c.get r' :=
  AList.lookup_modify_ne f c.states h

@[simp] theorem get_upsert_self (c : ProjectCache ρ ι) (r : PathBuf) (g : Nat)
    (f : ProjectState ρ ι → ProjectState ρ ι) :
    (c.upsert r g f).get r = some (f ((c.get r).getD (.new g))) := by
  simp [get, upsert]

theorem get_upsert_ne (c : ProjectCache ρ ι) {r r' : PathBuf} (g : Nat)
    (f : ProjectState ρ ι → ProjectState ρ ι) (h : r' ≠ r) :
    (c.upsert r g f).get r' = c.get r' :=
  AList.lookup_insert_ne h

@[simp] theorem get_prune (held : Held) (c : ProjectCache ρ ι) (r : PathBuf) :
    (prune held c).get r = (c.get r).map (pruneMarker held) := by
  simp [get, prune]

theorem pruneMarker_inFlight_none (held : Held) (st : ProjectState ρ ι) :
    { pruneMarker held st with inFlight := none } = { st with inFlight := none } := by
  unfold pruneMarker
  split <;> rfl

/-! ## 2. Fading -/

/-- `st'` is what making room left of `st`: with `ki` (`kr`) the index (the runner) is kept. -/
structure Fades (held : Held) (ki kr : Prop) (st st' : ProjectState ρ ι) : Prop where
  generation : st'.generation = st.generation
  fullRebuild : st'.fullRebuild = st.fullRebuild
  lastUsedTick : st'.lastUsedTick = st.lastUsedTick
  index : st'.index = st.index ∨ (st'.index = none ∧ ¬ ki)
  runner : st'.runner = st.runner ∨
    (st'.runner = none ∧ st.hasLiveBuild held = false ∧ ¬ kr)
  inFlight : st'.inFlight = st.inFlight ∨
    (st'.inFlight = none ∧ st.hasLiveBuild held = false)

/-- A state that fades away altogether had no live build and nothing to keep. -/
def FadesTo (held : Held) (ki kr : Prop) :
    Option (ProjectState ρ ι) → Option (ProjectState ρ ι) → Prop
  | none, none => True
  | none, some _ => False
  | some st, some st' => Fades held ki kr st st'
  | some st, none =>
    st.hasLiveBuild held = false ∧ (ki → st.index = none) ∧ (kr → st.runner = none)

theorem Fades.refl (held : Held) (ki kr : Prop) (st : ProjectState ρ ι) :
    Fades held ki kr st st :=
  ⟨rfl, rfl, rfl, .inl rfl, .inl rfl, .inl rfl⟩

/-- A fading state keeps its live build. -/
theorem Fades.hasLiveBuild {held : Held} {ki kr : Prop} {st st' : ProjectState ρ ι}
    (h : Fades held ki kr st st') : st'.hasLiveBuild held = st.hasLiveBuild held := by
  rcases h.inFlight with he | ⟨hn, hl⟩
  · simp only [ProjectState.hasLiveBuild, he]
  · rw [hl]
    simp [ProjectState.hasLiveBuild, hn]

theorem Fades.trans {held : Held} {ki kr : Prop} {a b c : ProjectState ρ ι}
    (h₁ : Fades held ki kr a b) (h₂ : Fades held ki kr b c) : Fades held ki kr a c where
  generation := h₂.generation.trans h₁.generation
  fullRebuild := h₂.fullRebuild.trans h₁.fullRebuild
  lastUsedTick := h₂.lastUsedTick.trans h₁.lastUsedTick
  index := by
    rcases h₂.index with h | h
    · rw [h]; exact h₁.index
    · exact .inr h
  runner := by
    rcases h₂.runner with h | ⟨h, hl, hk⟩
    · rw [h]; exact h₁.runner
    · exact .inr ⟨h, h₁.hasLiveBuild ▸ hl, hk⟩
  inFlight := by
    rcases h₂.inFlight with h | ⟨h, hl⟩
    · rw [h]; exact h₁.inFlight
    · exact .inr ⟨h, h₁.hasLiveBuild ▸ hl⟩

theorem FadesTo.refl (held : Held) (ki kr : Prop) (a : Option (ProjectState ρ ι)) :
    FadesTo held ki kr a a := by
  cases a with
  | none => trivial
  | some st => exact Fades.refl held ki kr st

theorem FadesTo.trans {held : Held} {ki kr : Prop} {a b c : Option (ProjectState ρ ι)}
    (h₁ : FadesTo held ki kr a b) (h₂ : FadesTo held ki kr b c) : FadesTo held ki kr a c := by
  match a, b, c, h₁, h₂ with
  | none, none, none, _, _ => trivial
  | some _, none, none, h₁, _ => exact h₁
  | some _, some _, some _, h₁, h₂ => exact Fades.trans h₁ h₂
  | some a, some b, none, h₁, ⟨hl, hi, hr⟩ =>
    refine ⟨h₁.hasLiveBuild ▸ hl, fun hk => ?_, fun hk => ?_⟩
    · rcases h₁.index with h | ⟨_, h⟩
      · rw [← h]; exact hi hk
      · exact absurd hk h
    · rcases h₁.runner with h | ⟨_, _, h⟩
      · rw [← h]; exact hr hk
      · exact absurd hk h

/-- Keeping less is easier. -/
theorem FadesTo.mono {held : Held} {ki kr ki' kr' : Prop} {a b : Option (ProjectState ρ ι)}
    (h : FadesTo held ki kr a b) (hi : ki' → ki) (hr : kr' → kr) : FadesTo held ki' kr' a b := by
  match a, b, h with
  | none, none, _ => trivial
  | some _, none, ⟨hl, h₁, h₂⟩ => exact ⟨hl, fun hk => h₁ (hi hk), fun hk => h₂ (hr hk)⟩
  | some _, some _, h =>
    exact ⟨h.generation, h.fullRebuild, h.lastUsedTick,
      h.index.imp_right fun ⟨x, y⟩ => ⟨x, fun hk => y (hi hk)⟩,
      h.runner.imp_right fun ⟨x, y, z⟩ => ⟨x, y, fun hk => z (hr hk)⟩, h.inFlight⟩

theorem FadesTo.loosen {held : Held} {ki kr : Prop} {a b : Option (ProjectState ρ ι)}
    (h : FadesTo held ki kr a b) : FadesTo held False False a b :=
  h.mono False.elim False.elim

/-- Fading reads only the build liveness of the environment. -/
theorem FadesTo.congr_held {held held' : Held} {ki kr : Prop} {a b : Option (ProjectState ρ ι)}
    (h : FadesTo held ki kr a b) (hc : held'.cells = held.cells)
    (ho : held'.owners = held.owners) : FadesTo held' ki kr a b := by
  have hl : ∀ st : ProjectState ρ ι, st.hasLiveBuild held' = st.hasLiveBuild held := by
    intro st
    have : InFlight.isLive held' = InFlight.isLive held := by
      funext m
      simp only [InFlight.isLive, hc, ho]
    simp only [ProjectState.hasLiveBuild, this]
  match a, b, h with
  | none, none, _ => trivial
  | some st, none, ⟨h₁, h₂, h₃⟩ => exact ⟨(hl st).trans h₁, h₂, h₃⟩
  | some st, some _, h =>
    exact ⟨h.generation, h.fullRebuild, h.lastUsedTick, h.index,
      h.runner.imp_right fun ⟨x, y, z⟩ => ⟨x, (hl st).trans y, z⟩,
      h.inFlight.imp_right fun ⟨x, y⟩ => ⟨x, (hl st).trans y⟩⟩

/-- What is left of a state came from a state. -/
theorem FadesTo.some_right {held : Held} {ki kr : Prop} {a : Option (ProjectState ρ ι)}
    {st' : ProjectState ρ ι} (h : FadesTo held ki kr a (some st')) :
    ∃ st, a = some st ∧ Fades held ki kr st st' := by
  match a, h with
  | some st, h => exact ⟨st, rfl, h⟩

/-- A state with a live build stays, with its marker and its runner. -/
theorem FadesTo.of_live {held : Held} {ki kr : Prop} {st : ProjectState ρ ι}
    {b : Option (ProjectState ρ ι)} (h : FadesTo held ki kr (some st) b)
    (hl : st.hasLiveBuild held = true) :
    ∃ st', b = some st' ∧ Fades held ki kr st st' ∧ st'.inFlight = st.inFlight ∧
      st'.runner = st.runner := by
  match b, h with
  | none, ⟨h, _, _⟩ => rw [hl] at h; cases h
  | some st', h =>
    refine ⟨st', rfl, h, ?_, ?_⟩
    · rcases h.inFlight with h | ⟨_, h⟩
      · exact h
      · rw [hl] at h; cases h
    · rcases h.runner with h | ⟨_, h, _⟩
      · exact h
      · rw [hl] at h; cases h

/-! ## 3. Erosion of a whole cache -/

/-- Every root fades, and neither the limits nor a counter that names generations or
allocations moves.  `pi` (`pr`) is the root whose index (runner) is kept. -/
structure Erodes (held : Held) (pi pr : Option PathBuf) (c c' : ProjectCache ρ ι) : Prop where
  get : ∀ root, FadesTo held (pi = some root) (pr = some root) (c.get root) (c'.get root)
  limits : c'.limits = c.limits
  nextGeneration : c'.nextGeneration = c.nextGeneration
  nextPtr : c'.nextPtr = c.nextPtr

theorem Erodes.refl (held : Held) (pi pr : Option PathBuf) (c : ProjectCache ρ ι) :
    Erodes held pi pr c c :=
  ⟨fun _ => FadesTo.refl _ _ _ _, rfl, rfl, rfl⟩

theorem Erodes.trans {held : Held} {pi pr : Option PathBuf} {a b c : ProjectCache ρ ι}
    (h₁ : Erodes held pi pr a b) (h₂ : Erodes held pi pr b c) : Erodes held pi pr a c :=
  ⟨fun root => (h₁.get root).trans (h₂.get root), h₂.limits.trans h₁.limits,
    h₂.nextGeneration.trans h₁.nextGeneration, h₂.nextPtr.trans h₁.nextPtr⟩

/-- What an eroded cache says about a root it may take anything from. -/
theorem Erodes.loose {held : Held} {pi pr : Option PathBuf} {c c' : ProjectCache ρ ι}
    (h : Erodes held pi pr c c') (root : PathBuf) :
    FadesTo held False False (c.get root) (c'.get root) :=
  (h.get root).mono False.elim False.elim

/-- What it says about the protected root. -/
theorem Erodes.kept {held : Held} {root : PathBuf} {c c' : ProjectCache ρ ι}
    (h : Erodes held (some root) (some root) c c') :
    FadesTo held True True (c.get root) (c'.get root) :=
  (h.get root).mono (fun _ => rfl) (fun _ => rfl)

theorem Erodes.run {held : Held} {pi pr : Option PathBuf}
    {body : ProjectCache ρ ι → Option (ProjectCache ρ ι)}
    (h : ∀ c c', body c = some c' → Erodes held pi pr c c') (n : Nat) (c : ProjectCache ρ ι) :
    Erodes held pi pr c (Loop.run body n c) :=
  Loop.run_invariant (P := fun c' => Erodes held pi pr c c')
    (fun _ _ hb hc => hc.trans (h _ _ hb)) n (Erodes.refl held pi pr c)

theorem pruneMarker_fades (held : Held) (ki kr : Prop) (st : ProjectState ρ ι) :
    Fades held ki kr st (pruneMarker held st) := by
  unfold pruneMarker
  split
  · rename_i h
    refine ⟨rfl, rfl, rfl, .inl rfl, .inl rfl, .inr ⟨rfl, ?_⟩⟩
    cases hm : st.inFlight with
    | none => simp [ProjectState.hasLiveBuild, hm]
    | some m =>
      rw [hm] at h
      simpa [ProjectState.hasLiveBuild, hm] using h
  · exact Fades.refl held ki kr st

theorem prune_erodes (held : Held) (pi pr : Option PathBuf) (c : ProjectCache ρ ι) :
    Erodes held pi pr c (prune held c) where
  get root := by
    rw [get_prune]
    cases c.get root with
    | none => trivial
    | some st => exact pruneMarker_fades held _ _ st
  limits := rfl
  nextGeneration := rfl
  nextPtr := rfl

/-- Releasing one index erodes the cache, unless that index was to be kept. -/
theorem releaseIndex_erodes (held : Held) {pi : Option PathBuf} (pr : Option PathBuf)
    (c : ProjectCache ρ ι) {root : PathBuf} (hp : pi ≠ some root) :
    Erodes held pi pr c (releaseIndex held c root) := by
  unfold releaseIndex
  cases h : (c.get root).bind ProjectState.index with
  | none => exact Erodes.refl held pi pr c
  | some entry =>
    refine Erodes.trans (b := { c.update root (fun st => { st with index := none }) with
      released := c.released ++ [⟨entry.index.ptr, entry.bytes⟩] }) ⟨fun r => ?_, rfl, rfl, rfl⟩
      (prune_erodes held pi pr _)
    show FadesTo held _ _ (c.get r) ((c.update root fun st => { st with index := none }).get r)
    by_cases hr : r = root
    · subst hr
      rw [get_update_self]
      cases c.get r with
      | none => trivial
      | some st => exact ⟨rfl, rfl, rfl, .inr ⟨rfl, hp⟩, .inl rfl, .inl rfl⟩
    · rw [get_update_ne _ _ hr]
      exact FadesTo.refl _ _ _ _

theorem releaseRunner_erodes (held : Held) (pi : Option PathBuf) {pr : Option PathBuf}
    (c : ProjectCache ρ ι) {root : PathBuf} {st : ProjectState ρ ι} (hst : c.get root = some st)
    (hl : st.hasLiveBuild held = false) (hp : pr ≠ some root) :
    Erodes held pi pr c (c.releaseRunner root) := by
  unfold releaseRunner
  cases h : (c.get root).bind ProjectState.runner with
  | none => exact Erodes.refl held pi pr c
  | some entry =>
    refine ⟨fun r => ?_, rfl, rfl, rfl⟩
    show FadesTo held _ _ (c.get r) ((c.update root fun st => { st with runner := none }).get r)
    by_cases hr : r = root
    · subst hr
      rw [get_update_self, hst]
      exact ⟨rfl, rfl, rfl, .inl rfl, .inr ⟨rfl, hl, hp⟩, .inl rfl⟩
    · rw [get_update_ne _ _ hr]
      exact FadesTo.refl _ _ _ _

/-! ## 4. The evictions and `enforce` -/

/-- The victim of an index eviction is an unprotected root with an index. -/
theorem evictIndex_victim {held : Held} {protect : Option PathBuf} {c c' : ProjectCache ρ ι}
    (h : c.evictLeastRecentlyUsedIndex held protect = some c') :
    ∃ root st, c.get root = some st ∧ st.index.isSome ∧ protect ≠ some root ∧
      c' = { releaseIndex held c root with
        evictions := (releaseIndex held c root).evictions + 1 } := by
  simp only [evictLeastRecentlyUsedIndex, Option.map_eq_some_iff] at h
  obtain ⟨root, hm, rfl⟩ := h
  obtain ⟨st, hst, hp⟩ := AList.lookup_of_minKey hm
  rw [Bool.and_eq_true] at hp
  refine ⟨root, st, hst, hp.1, ?_, rfl⟩
  rintro rfl
  simp at hp

/-- The victim of a runner eviction is an unprotected root with a runner and no live build. -/
theorem evictRunner_victim {held : Held} {protect : Option PathBuf} {c c' : ProjectCache ρ ι}
    (h : c.evictLeastRecentlyUsedRunner held protect = some c') :
    ∃ root st, c.get root = some st ∧ st.runner.isSome ∧ st.hasLiveBuild held = false ∧
      protect ≠ some root ∧ c' = c.releaseRunner root := by
  simp only [evictLeastRecentlyUsedRunner, Option.map_eq_some_iff] at h
  obtain ⟨root, hm, rfl⟩ := h
  obtain ⟨st, hst, hp⟩ := AList.lookup_of_minKey hm
  simp only [Bool.and_eq_true, Bool.not_eq_true'] at hp
  refine ⟨root, st, hst, hp.1.1, hp.1.2, ?_, rfl⟩
  rintro rfl
  simp at hp

theorem evictIndex_erodes {held : Held} {protect : Option PathBuf} (pr : Option PathBuf)
    {c c' : ProjectCache ρ ι} (h : c.evictLeastRecentlyUsedIndex held protect = some c') :
    Erodes held protect pr c c' := by
  obtain ⟨root, st, _, _, hp, rfl⟩ := evictIndex_victim h
  have he := releaseIndex_erodes held pr c hp
  exact ⟨he.get, he.limits, he.nextGeneration, he.nextPtr⟩

theorem evictRunner_erodes {held : Held} {protect : Option PathBuf} (pi : Option PathBuf)
    {c c' : ProjectCache ρ ι} (h : c.evictLeastRecentlyUsedRunner held protect = some c') :
    Erodes held pi protect c c' := by
  obtain ⟨root, st, hst, _, hl, hp, rfl⟩ := evictRunner_victim h
  exact releaseRunner_erodes held pi c hst hl hp

/-- `evict_index || evict_runner`. -/
theorem evictOr_erodes {held : Held} {pi pr : Option PathBuf} {c c' : ProjectCache ρ ι}
    (h : (c.evictLeastRecentlyUsedIndex held pi).or (c.evictLeastRecentlyUsedRunner held pr)
      = some c') : Erodes held pi pr c c' := by
  rcases Option.or_eq_some_iff.mp h with h | ⟨_, h⟩
  · exact evictIndex_erodes pr h
  · exact evictRunner_erodes pi h

theorem enforceIndexesRound_erodes {held : Held} {protect : Option PathBuf}
    {c c' : ProjectCache ρ ι} (h : enforceIndexesRound held protect c = some c') :
    Erodes held protect protect c c' := by
  unfold enforceIndexesRound at h
  split at h
  · exact evictIndex_erodes protect h
  · cases h

theorem enforceBytesRound_erodes {held : Held} {protect : Option PathBuf}
    {c c' : ProjectCache ρ ι} (h : enforceBytesRound held protect c = some c') :
    Erodes held protect protect c c' := by
  unfold enforceBytesRound at h
  split at h
  · exact evictOr_erodes h
  · cases h

theorem enforceRunnersRound_erodes {held : Held} {protect : Option PathBuf}
    {c c' : ProjectCache ρ ι} (h : enforceRunnersRound held protect c = some c') :
    Erodes held protect protect c c' := by
  unfold enforceRunnersRound at h
  split at h
  · exact evictRunner_erodes protect h
  · cases h

theorem reserveRound_erodes {held : Held} {root : PathBuf} {bytes : Nat}
    {c c' : ProjectCache ρ ι} (h : reserveRound held root bytes c = some c') :
    Erodes held none (some root) c c' := by
  unfold reserveRound at h
  split at h
  · exact evictOr_erodes h
  · cases h

theorem enforceLimits_erodes (held : Held) (protect : Option PathBuf) (c : ProjectCache ρ ι) :
    Erodes held protect protect c (enforceLimits held protect c) := by
  have h₁ (n : Nat) (c : ProjectCache ρ ι) :
      Erodes held protect protect c (Loop.run (enforceIndexesRound held protect) n c) :=
    Erodes.run (fun _ _ h => enforceIndexesRound_erodes h) n c
  have h₂ (n : Nat) (c : ProjectCache ρ ι) :
      Erodes held protect protect c (Loop.run (enforceBytesRound held protect) n c) :=
    Erodes.run (fun _ _ h => enforceBytesRound_erodes h) n c
  have h₃ (n : Nat) (c : ProjectCache ρ ι) :
      Erodes held protect protect c (Loop.run (enforceRunnersRound held protect) n c) :=
    Erodes.run (fun _ _ h => enforceRunnersRound_erodes h) n c
  unfold enforceLimits
  exact (((prune_erodes held protect protect c).trans (h₁ _ _)).trans (h₂ _ _)).trans (h₃ _ _)

/-- Dropping the idle states of a cache erodes it. -/
theorem retain_erodes (held : Held) (pi pr : Option PathBuf) (c : ProjectCache ρ ι) :
    Erodes held pi pr c { c with states := c.states.retain (ProjectState.isActive held) } where
  get root := by
    show FadesTo held _ _ (c.get root) ((c.states.retain _).lookup root)
    rw [AList.lookup_retain]
    show FadesTo held _ _ (c.get root) ((c.get root).filter _)
    cases c.get root with
    | none => trivial
    | some st =>
      rw [Option.filter_some]
      cases ha : st.isActive held with
      | true => exact Fades.refl held _ _ st
      | false =>
        simp only [ProjectState.isActive, Bool.or_eq_false_iff, Option.isSome_eq_false_iff,
          Option.isNone_iff_eq_none] at ha
        exact ⟨ha.2, fun _ => ha.1.2, fun _ => ha.1.1⟩
  limits := rfl
  nextGeneration := rfl
  nextPtr := rfl

/-- `enforce` ends by keeping the active states. -/
theorem get_enforce (held : Held) (protect : Option PathBuf) (c : ProjectCache ρ ι)
    (r : PathBuf) : (enforce held protect c).get r =
      ((enforceLimits held protect c).get r).filter (ProjectState.isActive held) := by
  unfold enforce
  exact AList.lookup_retain _ _ _

theorem enforce_erodes (held : Held) (protect : Option PathBuf) (c : ProjectCache ρ ι) :
    Erodes held protect protect c (enforce held protect c) := by
  unfold enforce
  exact (enforceLimits_erodes held protect c).trans (retain_erodes held protect protect _)

end ProjectCache

end MavenMcp
