/-
# Generation safety

Every project has a generation that changes whenever its cached model or index becomes invalid.
The number is drawn from ONE counter for all roots, so a root whose state was dropped and made
again cannot meet an old number again.

* `never_returns`: a generation a root has left is never its generation again, in any run.
* `not_stale_of_issued`: a publication that is not stale belongs to the very generation its
  lookup issued, so nothing invalidated the root in between.
* `indexes_published`: every cached index was put there by a retained publication in the root's
  present generation.
* `stale_keeps_served`: a stale publication leaves what later lookups serve as it was.
-/
import MavenMcp.ProjectCache.Runs

namespace MavenMcp

variable {ρ ι : Type}

/-- The generation a lookup issues. -/
def IndexLookup.generation : IndexLookup ι → Nat
  | .cached _ generation => generation
  | .build _ _ generation => generation

/-- The cached entry a lookup serves, if it serves one. -/
def IndexLookup.entry : IndexLookup ι → Option (CachedIndex ι)
  | .cached entry _ => some entry
  | .build _ _ _ => none

namespace ProjectCache

/-! ## 1. Numbers that never come back -/

/-- Every generation in use was drawn from the counter. -/
def Drawn (c : ProjectCache ρ ι) : Prop :=
  ∀ r g, c.generationOf r = some g → g ≤ c.nextGeneration

theorem drawn_new (limits : CacheLimits) : Drawn (.new limits : ProjectCache ρ ι) := by
  intro r g h
  cases h

variable [EstimatedBytes ι]

theorem Drawn.perform {c : ProjectCache ρ ι} (h : Drawn c) (held : Held) (op : Op ρ ι) :
    Drawn (perform held c op) := by
  intro r g hg
  obtain ⟨hn, ha⟩ := generation_perform held c op r
  rcases ha with ha | ha | ⟨g', ha, _, hle⟩
  · rw [ha] at hg
    exact Nat.le_trans (h r g hg) hn
  · rw [ha] at hg
    cases hg
  · rw [ha] at hg
    cases hg
    exact hle

theorem Drawn.play {c : ProjectCache ρ ι} (h : Drawn c) (steps : List (Held × Op ρ ι)) :
    Drawn (c.play steps) :=
  play_invariant (fun held _ op hc => hc.perform held op) c steps h

/-- A number already drawn that the root has not got now. -/
structure Left (c : ProjectCache ρ ι) (r : PathBuf) (g : Nat) : Prop where
  drawn : g ≤ c.nextGeneration
  notCurrent : c.generationOf r ≠ some g

theorem Left.perform {c : ProjectCache ρ ι} {r : PathBuf} {g : Nat} (h : Left c r g)
    (held : Held) (op : Op ρ ι) : Left (perform held c op) r g := by
  obtain ⟨hn, ha⟩ := generation_perform held c op r
  refine ⟨Nat.le_trans h.drawn hn, fun hg => ?_⟩
  rcases ha with ha | ha | ⟨g', ha, hlt, _⟩
  · exact h.notCurrent (ha ▸ hg)
  · rw [ha] at hg
    cases hg
  · rw [ha] at hg
    cases hg
    exact absurd h.drawn (Nat.not_le.mpr hlt)

/-- **A generation a root has left never returns**, whatever happens to the root's state. -/
theorem never_returns {c : ProjectCache ρ ι} {r : PathBuf} {g : Nat} (h : Left c r g)
    (steps : List (Held × Op ρ ι)) : Left (c.play steps) r g :=
  play_invariant (P := fun c => Left c r g) (fun held _ op hc => hc.perform held op) c steps h

/-! ## 2. What invalidates a root -/

/-- The operation makes what is cached or being built for `r` invalid: another runner
fingerprint, a discard, an invalidation after Maven or of the present generation, a lookup for
other files, or the state of `r` going or being made again. -/
inductive Invalidates (held : Held) (c : ProjectCache ρ ι) (r : PathBuf) : Op ρ ι → Prop
  | runnerReplaced (st : ProjectState ρ ι) (e : RunnerEntry ρ) (ru : Arc ρ)
      (fp : ProjectFingerprint) : c.get r = some st → st.runner = some e → e.fingerprint ≠ fp →
      Invalidates held c r (.installRunner r ru fp)
  | discarded : Invalidates held c r (.discardProject r)
  | mavenRan : Invalidates held c r (.invalidateAfterMaven r)
  | abandoned (g : Nat) : c.isCurrent r g = true →
      Invalidates held c r (.invalidateGeneration r g)
  | filesChanged (st : ProjectState ρ ι) (e : CachedIndex ι) (fp : ProjectFingerprint) :
      c.get r = some st → st.index = some e → e.project ≠ fp →
      Invalidates held c r (.lookupIndex r fp)
  | removed (op : Op ρ ι) : (c.get r).isSome → (perform held c op).get r = none →
      Invalidates held c r op
  | created (op : Op ρ ι) : c.get r = none → ((perform held c op).get r).isSome →
      Invalidates held c r op

omit [EstimatedBytes ι] in
theorem generationOf_invalidate_ne (held : Held) {c : ProjectCache ρ ι} (r : PathBuf) {g : Nat}
    (hg : g ≤ c.nextGeneration) :
    (invalidate held c r).generationOf r ≠ some g := by
  rw [generationOf, get_invalidate_self]
  cases c.get r with
  | none => simp
  | some st =>
    simp only [Option.map_some, ne_eq, Option.some.injEq]
    omega

/-- **Whatever invalidates a root takes its generation**, if it had one. -/
theorem Invalidates.left {held : Held} {c : ProjectCache ρ ι} {r : PathBuf} {op : Op ρ ι}
    (h : Invalidates held c r op) {g : Nat} (hg : g ≤ c.nextGeneration) :
    c.generationOf r = none ∨ Left (perform held c op) r g := by
  have drawn : g ≤ (perform held c op).nextGeneration :=
    Nat.le_trans hg (nextGeneration_perform held c op)
  cases h with
  | runnerReplaced st e ru fp hst he hne =>
    obtain ⟨st', hs, _, hi⟩ := installRunner_spec held c r ru fp
    refine .inr ⟨drawn, ?_⟩
    show (installRunner held c r ru fp).1.generationOf r ≠ some g
    rw [generationOf_of_get hs]
    cases hi with
    | changed _ _ _ _ _ hgen =>
      rw [hgen]
      simp only [ne_eq, Option.some.injEq]
      omega
    | kept st₁ hst₁ hk =>
      rw [hst] at hst₁
      cases hst₁
      exact absurd (hk e he) hne
    | created hc =>
      rw [hst] at hc
      cases hc
  | discarded =>
    refine .inr ⟨drawn, ?_⟩
    show (discardProject held c r).generationOf r ≠ some g
    rw [generationOf, get_discardProject_self]
    simp
  | mavenRan =>
    refine .inr ⟨drawn, ?_⟩
    show (invalidateAfterMaven held c r).generationOf r ≠ some g
    rw [generationOf, get_invalidateAfterMaven_self]
    cases c.get r with
    | none => simp
    | some st =>
      simp only [Option.map_some, ne_eq, Option.some.injEq]
      omega
  | abandoned g' hc =>
    refine .inr ⟨drawn, ?_⟩
    show (invalidateGeneration held c r g').generationOf r ≠ some g
    rw [invalidateGeneration_of_current hc]
    exact generationOf_invalidate_ne held r hg
  | filesChanged st e fp hst he hne =>
    refine .inr ⟨drawn, ?_⟩
    show (lookupIndex held c r fp).1.generationOf r ≠ some g
    have ht : (touched c r).index = some e := by
      simp only [touched, hst, Option.getD_some, he]
    have hl := lookupIndex_spec held c r fp
    generalize (lookupIndex held c r fp).2 = answer at hl
    cases hl with
    | cached e' he' hfp _ _ =>
      rw [ht] at he'
      cases he'
      exact absurd hfp hne
    | joined m hi _ _ _ _ =>
      rw [ht] at hi
      cases hi
    | started hi _ _ _ =>
      rw [ht] at hi
      cases hi
    | replaced _ _ _ hs _ =>
      rw [generationOf_of_get hs]
      simp only [ne_eq, Option.some.injEq]
      omega
  | removed _ _ hn =>
    refine .inr ⟨drawn, ?_⟩
    rw [generationOf, hn]
    simp
  | created _ hn _ =>
    left
    rw [generationOf, hn]
    rfl

/-! ## 3. Publications -/

omit [EstimatedBytes ι] in
/-- A lookup leaves its root in the generation it issues. -/
theorem generationOf_lookupIndex (held : Held) (c : ProjectCache ρ ι) (r : PathBuf)
    (fp : ProjectFingerprint) :
    (lookupIndex held c r fp).1.generationOf r
      = some (lookupIndex held c r fp).2.generation := by
  have hl := lookupIndex_spec held c r fp
  generalize (lookupIndex held c r fp).2 = answer at hl
  cases hl with
  | cached e _ _ hs _ => exact generationOf_of_get hs
  | joined m _ _ _ hs _ => exact generationOf_of_get hs
  | started _ _ hs _ =>
    rw [generationOf_of_get hs]
    rfl
  | replaced e _ _ hs _ =>
    rw [generationOf_of_get hs]
    rfl

/-- A publication that is not stale finds its generation current. -/
theorem isCurrent_of_publish {held : Held} {c : ProjectCache ρ ι} {r : PathBuf} {g : Nat}
    {index : Arc ι} {build : FinishedBuild} {fp : ProjectFingerprint} {res : Nat}
    (h : (publish held c r g index build fp res).2 ≠ .stale) : c.isCurrent r g = true := by
  have hp := publish_spec held c r g index build fp res
  generalize (publish held c r g index build fp res).2 = answer at hp h
  cases hp with
  | stale => exact absurd rfl h
  | oversized st hst hg => exact isCurrent_iff.mpr ⟨st, hst, hg⟩
  | uncached st hst hg => exact isCurrent_iff.mpr ⟨st, hst, hg⟩
  | retained st hst hg => exact isCurrent_iff.mpr ⟨st, hst, hg⟩

/-- **Nothing invalidated the root since the lookup.**  `mid` is what happened between the
lookup and a publication in the generation it issued. -/
theorem not_invalidated_of_current {c : ProjectCache ρ ι} (hd : Drawn c) {r : PathBuf} {g : Nat}
    (hg : c.generationOf r = some g) {mid : List (Held × Op ρ ι)}
    (hcur : (c.play mid).isCurrent r g = true) {m₁ m₂ : List (Held × Op ρ ι)} {held : Held}
    {op : Op ρ ι} (hm : mid = m₁ ++ (held, op) :: m₂) :
    ¬ Invalidates held (c.play m₁) r op := by
  intro hi
  rw [hm, play_append, play_cons] at hcur
  have hlater : ¬ Left (perform held (c.play m₁) op) r g := fun hl =>
    (never_returns hl m₂).notCurrent (generationOf_eq_some.mpr hcur)
  have hdrawn : g ≤ c.nextGeneration := hd r g hg
  have hle : g ≤ (c.play m₁).nextGeneration :=
    play_invariant (P := fun c => g ≤ c.nextGeneration)
      (fun h c op hc => Nat.le_trans hc (nextGeneration_perform h c op)) c m₁ hdrawn
  -- until the invalidation the root kept the generation, or it would have left it for good
  have hkeep : (c.play m₁).generationOf r = some g := by
    by_contra hne
    exact hlater (Left.perform ⟨hle, hne⟩ held op)
  rcases hi.left hle with hn | hl
  · rw [hkeep] at hn
    cases hn
  · exact hlater hl

/-! ## 4. Where a cached index comes from -/

/-- The run holds a retained publication of exactly this entry for this root and generation. -/
def PublishedIn (c₀ : ProjectCache ρ ι) (steps : List (Held × Op ρ ι)) (r : PathBuf) (g : Nat)
    (e : CachedIndex ι) : Prop :=
  ∃ pre held index build fp res post,
    steps = pre ++ (held, .publish r g index build fp res) :: post ∧
    (publish held (c₀.play pre) r g index build fp res).2 = .retained ∧
    e = publishedEntry index build fp

theorem PublishedIn.extend {c₀ : ProjectCache ρ ι} {steps : List (Held × Op ρ ι)} {r : PathBuf}
    {g : Nat} {e : CachedIndex ι} (h : PublishedIn c₀ steps r g e) (s : Held × Op ρ ι) :
    PublishedIn c₀ (steps ++ [s]) r g e := by
  obtain ⟨pre, held, index, build, fp, res, post, rfl, hp, he⟩ := h
  exact ⟨pre, held, index, build, fp, res, post ++ [s], by simp, hp, he⟩

/-- How an index can be in the state of `r` after an operation: it was there before, in the same
generation, or the operation is the publication that retained it. -/
theorem index_perform {held : Held} {c : ProjectCache ρ ι} {op : Op ρ ι} {r : PathBuf}
    {st' : ProjectState ρ ι} {e : CachedIndex ι} (hs : (perform held c op).get r = some st')
    (he : st'.index = some e) :
    (∃ st, c.get r = some st ∧ st.index = some e ∧ st.generation = st'.generation) ∨
    (∃ index build fp res, op = .publish r st'.generation index build fp res ∧
      (publish held c r st'.generation index build fp res).2 = .retained ∧
      e = publishedEntry index build fp) := by
  have fade : ∀ {held' : Held} {ki kr : Prop}, FadesTo held' ki kr (c.get r) (some st') →
      ∃ st, c.get r = some st ∧ st.index = some e ∧ st.generation = st'.generation := by
    intro held' ki kr hf
    obtain ⟨st, hst, hf⟩ := hf.some_right
    rcases hf.index with h | ⟨h, _⟩
    · exact ⟨st, hst, h ▸ he, hf.generation.symm⟩
    · rw [h] at he
      cases he
  have keep : ∀ {st : ProjectState ρ ι}, c.get r = some st → st'.index = st.index →
      st'.generation = st.generation →
      ∃ st, c.get r = some st ∧ st.index = some e ∧ st.generation = st'.generation :=
    fun {st} hst hi hg => ⟨st, hst, hi ▸ he, hg.symm⟩
  have gone : ∀ {P : Prop}, st'.index = none → P := by
    intro P hi
    rw [hi] at he
    cases he
  by_cases hr : r = op.root
  · cases op with
    | runner root =>
      subst hr
      obtain ⟨st, hst, rfl⟩ := Option.map_eq_some_iff.mp ((get_runner_self c r).symm.trans hs)
      exact .inl (keep hst rfl rfl)
    | installRunner root ru fp =>
      subst hr
      obtain ⟨st₁, hs₁, _, hi⟩ := installRunner_spec held c r ru fp
      cases hs₁.symm.trans hs
      cases hi with
      | changed _ _ _ _ _ _ hi => exact gone hi
      | kept st hst _ hg hi => exact .inl (keep hst hi hg)
      | created _ _ hi => exact gone hi
    | discardProject root =>
      subst hr
      cases (get_discardProject_self held c r).symm.trans hs
    | invalidateAfterMaven root =>
      subst hr
      obtain ⟨st, _, rfl⟩ :=
        Option.map_eq_some_iff.mp ((get_invalidateAfterMaven_self held c r).symm.trans hs)
      exact gone rfl
    | requireFullRebuild root =>
      subst hr
      cases (get_requireFullRebuild_self c r).symm.trans hs
      cases hst : c.get r with
      | none =>
        rw [hst] at he
        cases he
      | some st =>
        rw [hst] at he
        exact .inl ⟨st, rfl, he, rfl⟩
    | finishFullRebuild root g =>
      subst hr
      obtain ⟨st, hst, rfl⟩ :=
        Option.map_eq_some_iff.mp ((get_finishFullRebuild_self c r g).symm.trans hs)
      refine .inl (keep hst ?_ ?_)
      · split <;> rfl
      · split <;> rfl
    | invalidateGeneration root g =>
      subst hr
      replace hs : (invalidateGeneration held c r g).get r = some st' := hs
      cases hc : c.isCurrent r g with
      | true =>
        rw [invalidateGeneration_of_current hc, get_invalidate_self] at hs
        obtain ⟨st, _, rfl⟩ := Option.map_eq_some_iff.mp hs
        exact gone rfl
      | false =>
        rw [invalidateGeneration_of_stale hc] at hs
        exact .inl (keep hs rfl rfl)
    | lookupIndex root fp =>
      subst hr
      have touch : (touched c r).index = some e → st'.generation = (touched c r).generation →
          ∃ st, c.get r = some st ∧ st.index = some e ∧ st.generation = st'.generation := by
        intro hi hg
        cases hst : c.get r with
        | none =>
          simp only [touched, hst] at hi
          cases hi
        | some st =>
          simp only [touched, hst] at hi hg
          exact ⟨st, rfl, hi, hg.symm⟩
      have hl := lookupIndex_spec held c r fp
      generalize (lookupIndex held c r fp).2 = answer at hl
      cases hl with
      | cached _ _ _ hs₁ _ =>
        cases hs₁.symm.trans hs
        exact .inl (touch he rfl)
      | joined _ _ _ _ hs₁ _ =>
        cases hs₁.symm.trans hs
        exact .inl (touch he rfl)
      | started _ _ hs₁ _ =>
        cases hs₁.symm.trans hs
        exact .inl (touch he rfl)
      | replaced _ _ _ hs₁ _ =>
        cases hs₁.symm.trans hs
        exact gone rfl
    | recordHit root =>
      subst hr
      obtain ⟨st, hst, rfl⟩ :=
        Option.map_eq_some_iff.mp ((get_recordHit_self c r).symm.trans hs)
      exact .inl (keep hst rfl rfl)
    | recordPersistedUse root a b d => exact .inl (keep hs rfl rfl)
    | reserve root g bytes => exact .inl (fade (hs ▸ reserve_fades held c root g bytes r))
    | publish root g index build fp res =>
      subst hr
      have hp := publish_spec held c r g index build fp res
      generalize ha : (publish held c r g index build fp res).2 = answer at hp
      replace hs : (publish held c r g index build fp res).1.get r = some st' := hs
      cases hp with
      | stale _ hf => exact .inl (fade (hs ▸ hf))
      | oversized st hst _ _ hs₁ =>
        cases hs₁.symm.trans hs
        exact .inl (keep hst rfl rfl)
      | uncached st hst _ hs₁ =>
        cases hs₁.symm.trans hs
        exact gone rfl
      | retained st hst hg hs₁ =>
        cases hs₁.symm.trans hs
        cases hg
        cases he
        exact .inr ⟨index, build, fp, res, rfl, ha, rfl⟩
    | finishFailed root g =>
      subst hr
      have hf := finishFailed_self held c r g
      rw [show (finishFailed held c r g).get r = some st' from hs] at hf
      obtain ⟨st₁, hst₁, hfade⟩ := hf.some_right
      obtain ⟨st, hst, rfl⟩ := Option.map_eq_some_iff.mp hst₁
      rcases hfade.index with h | ⟨h, _⟩
      · refine .inl (keep hst (h.trans ?_) (hfade.generation.trans ?_))
        · split <;> rfl
        · split <;> rfl
      · exact gone h
  · have hf := perform_fades held c op hr
    rw [hs] at hf
    exact .inl (fade hf)

/-- **Every cached index was published in its root's present generation.** -/
theorem indexes_published (limits : CacheLimits) (steps : List (Held × Op ρ ι)) :
    ∀ r st e, ((ProjectCache.new limits).play steps).get r = some st → st.index = some e →
      PublishedIn (.new limits) steps r st.generation e := by
  induction steps using List.reverseRecOn with
  | nil =>
    intro r st e hs _
    cases hs
  | append_singleton steps s ih =>
    intro r st e hs he
    rw [play_append, play_cons, play_nil] at hs
    rcases index_perform hs he with ⟨st₀, hst, hi, hg⟩ | ⟨index, build, fp, res, hop, ha, he⟩
    · rw [← hg]
      exact (ih r st₀ e hst hi).extend s
    · exact ⟨steps, s.1, index, build, fp, res, [], by rw [← hop], ha, he⟩

omit [EstimatedBytes ι] in
/-- A lookup that serves an entry serves the one of the root's state, for the files it asked. -/
theorem of_lookupIndex_cached {held : Held} {c : ProjectCache ρ ι} {r : PathBuf}
    {fp : ProjectFingerprint} {e : CachedIndex ι} {g : Nat}
    (h : (lookupIndex held c r fp).2 = .cached e g) :
    ∃ st, c.get r = some st ∧ st.index = some e ∧ st.generation = g ∧ e.project = fp := by
  have hl := lookupIndex_spec held c r fp
  rw [h] at hl
  cases hl with
  | cached _ hi hfp _ _ =>
    cases hst : c.get r with
    | none =>
      simp only [touched, hst] at hi
      cases hi
    | some st =>
      simp only [touched, hst] at hi ⊢
      exact ⟨st, rfl, hi, rfl, hfp⟩

/-! ## 5. Stale publications -/

/-- `c'` serves what `c` serves: every root has the same generation, runner, index and mark of a
required rebuild, every live build its marker, and lookups answer alike. -/
structure ServesAs (held : Held) (c c' : ProjectCache ρ ι) : Prop where
  nextGeneration : c'.nextGeneration = c.nextGeneration
  tick : c'.tick = c.tick
  limits : c'.limits = c.limits
  state : ∀ r, (c'.get r).map (fun st => { st with inFlight := none })
    = (c.get r).map (fun st => { st with inFlight := none })
  live : ∀ r st, c.get r = some st → st.hasLiveBuild held = true →
    (c'.get r).bind ProjectState.inFlight = st.inFlight
  /-- A lookup serves the same entry, or sends to a build of the same generation. -/
  lookup : ∀ later r fp,
    (lookupIndex later c' r fp).2.entry = (lookupIndex later c r fp).2.entry ∧
    (lookupIndex later c' r fp).2.generation = (lookupIndex later c r fp).2.generation

omit [EstimatedBytes ι] in
/-- A lookup serves the cached entry when it was built for the files asked for. -/
theorem entry_lookupIndex (held : Held) (c : ProjectCache ρ ι) (r : PathBuf)
    (fp : ProjectFingerprint) : (lookupIndex held c r fp).2.entry
      = (touched c r).index.filter fun e => decide (e.project = fp) := by
  have hl := lookupIndex_spec held c r fp
  generalize (lookupIndex held c r fp).2 = answer at hl
  cases hl with
  | cached e hi hfp _ _ => simp [IndexLookup.entry, hi, Option.filter_some, hfp]
  | joined _ hi _ _ _ _ => simp [IndexLookup.entry, hi]
  | started hi _ _ _ => simp [IndexLookup.entry, hi]
  | replaced e hi hfp _ _ => simp [IndexLookup.entry, hi, Option.filter_some, hfp]

omit [EstimatedBytes ι] in
theorem generation_lookupIndex (held : Held) (c : ProjectCache ρ ι) (r : PathBuf)
    (fp : ProjectFingerprint) : (lookupIndex held c r fp).2.generation
      = if (touched c r).index.any fun e => decide (e.project ≠ fp) then c.nextGeneration + 2
        else (touched c r).generation := by
  have hl := lookupIndex_spec held c r fp
  generalize (lookupIndex held c r fp).2 = answer at hl
  cases hl with
  | cached e hi hfp _ _ => simp [IndexLookup.generation, hi, hfp]
  | joined _ hi _ _ _ _ => simp [IndexLookup.generation, hi]
  | started hi _ _ _ => simp [IndexLookup.generation, hi]
  | replaced e hi hfp _ _ => simp [IndexLookup.generation, hi, hfp]

omit [EstimatedBytes ι] in
/-- Pruning drops dead markers and dead entries of the accounts, nothing a lookup serves. -/
theorem prune_servesAs (held : Held) (c : ProjectCache ρ ι) :
    ServesAs held c (prune held c) where
  nextGeneration := rfl
  tick := rfl
  limits := rfl
  state r := by
    rw [get_prune, Option.map_map]
    congr 1
    funext st
    exact pruneMarker_inFlight_none held st
  live r st hst hl := by
    have hf : FadesTo held False False (some st) ((prune held c).get r) :=
      hst ▸ (prune_erodes held none none c).loose r
    obtain ⟨st', hs, _, hm, _⟩ := hf.of_live hl
    rw [hs]
    exact hm
  lookup later r fp := by
    have hi : (touched (prune held c) r).index = (touched c r).index ∧
        (touched (prune held c) r).generation = (touched c r).generation := by
      simp only [touched, get_prune]
      cases c.get r with
      | none => exact ⟨rfl, rfl⟩
      | some st =>
        have hf := pruneMarker_fades held True True st
        exact ⟨hf.index.resolve_right fun h => h.2 trivial, hf.generation⟩
    rw [entry_lookupIndex, entry_lookupIndex, generation_lookupIndex, generation_lookupIndex,
      hi.1, hi.2]
    exact ⟨rfl, rfl⟩

/-- **A stale publication changes nothing that later lookups serve.** -/
theorem stale_keeps_served {held : Held} {c : ProjectCache ρ ι} {r : PathBuf} {g : Nat}
    {index : Arc ι} {build : FinishedBuild} {fp : ProjectFingerprint} {res : Nat}
    (h : (publish held c r g index build fp res).2 = .stale) :
    ServesAs (held.dropReservation res) c (publish held c r g index build fp res).1 := by
  have hc : c.isCurrent r g = false := by
    have hp := publish_spec held c r g index build fp res
    rw [h] at hp
    cases hp with
    | stale hc => exact hc
  rw [publish_eq]
  simp only [hc]
  exact prune_servesAs _ c

/-! ## 6. Generation safety of every run -/

/-- **Generation safety.**  In every run on any set of roots: a publication that is retained or
uncached was preceded by no invalidation of its root since the lookup that issued its
generation; a lookup that serves an index serves one published in the root's present generation
with the same fingerprint; and a stale publication changes nothing that later lookups serve. -/
theorem generation_safety (limits : CacheLimits) :
    (∀ (pre mid : List (Held × Op ρ ι)) (h₁ h₂ : Held) (r : PathBuf)
        (asked fp : ProjectFingerprint) (index : Arc ι) (build : FinishedBuild) (res : Nat),
      let looked := lookupIndex h₁ ((ProjectCache.new limits).play pre) r asked
      (publish h₂ (looked.1.play mid) r looked.2.generation index build fp res).2 ≠ .stale →
      ∀ m₁ held op m₂, mid = m₁ ++ (held, op) :: m₂ →
        ¬ Invalidates held (looked.1.play m₁) r op) ∧
    (∀ (steps : List (Held × Op ρ ι)) (held : Held) (r : PathBuf) (fp : ProjectFingerprint)
        (e : CachedIndex ι) (g : Nat),
      let c := (ProjectCache.new limits).play steps
      (lookupIndex held c r fp).2 = .cached e g →
      c.generationOf r = some g ∧ e.project = fp ∧ PublishedIn (.new limits) steps r g e) ∧
    (∀ (steps : List (Held × Op ρ ι)) (held : Held) (r : PathBuf) (g : Nat) (index : Arc ι)
        (build : FinishedBuild) (fp : ProjectFingerprint) (res : Nat),
      let c := (ProjectCache.new limits).play steps
      (publish held c r g index build fp res).2 = .stale →
      ServesAs (held.dropReservation res) c (publish held c r g index build fp res).1) := by
  refine ⟨?_, ?_, ?_⟩
  · intro pre mid h₁ h₂ r asked fp index build res looked hp m₁ held op m₂ hm
    have hd : Drawn looked.1 :=
      ((drawn_new limits).play pre).perform h₁ (.lookupIndex r asked)
    have hg : looked.1.generationOf r = some looked.2.generation :=
      generationOf_lookupIndex h₁ _ r asked
    exact not_invalidated_of_current hd hg (isCurrent_of_publish hp) hm
  · intro steps held r fp e g c h
    obtain ⟨st, hst, hi, rfl, hfp⟩ := of_lookupIndex_cached h
    exact ⟨generationOf_of_get hst, hfp, indexes_published limits steps r st e hst hi⟩
  · intro steps held r g index build fp res c h
    exact stale_keeps_served h

/-- A build of one root while another root's runner is installed: the publication is retained,
a lookup then serves it, and a second one in a generation never issued is stale. -/
theorem generation_safety_of_build :
    let busy : Held := { Held.nobody with cells := fun _ => true }
    let limits : CacheLimits := ⟨2, 4, 100000⟩
    let start : ProjectCache Unit Nat := .new limits
    let fp : ProjectFingerprint := ⟨[([112], none)]⟩
    let looked := lookupIndex busy start [97] fp
    let other : Op Unit Nat := .installRunner [98] ⟨8, ()⟩ fp
    let build : FinishedBuild := ⟨⟨[]⟩⟩
    let published : Op Unit Nat := .publish [97] 1 ⟨9, 500⟩ build fp 0
    let steps := [(busy, .lookupIndex [97] fp), (busy, published)]
    ¬ Invalidates busy looked.1 [97] other ∧
    (start.play steps).generationOf [97] = some 1 ∧
    ServesAs (busy.dropReservation 0) (start.play steps)
      (publish busy (start.play steps) [97] 7 ⟨9, 500⟩ build fp 0).1 := by
  intro busy limits start fp looked other build published steps
  have hs := generation_safety (ρ := Unit) (ι := Nat) limits
  refine ⟨?_, ?_, ?_⟩
  · exact hs.1 [] [(busy, other)] busy busy [97] fp fp ⟨9, 500⟩ build 0
      (by decide +kernel) [] busy other [] rfl
  · exact (hs.2.1 steps busy [97] fp ⟨⟨9, 500⟩, fp, ⟨[]⟩, 500⟩ 1 (by decide +kernel)).1
  · exact hs.2.2 steps busy [97] 7 ⟨9, 500⟩ build fp 0 (by decide +kernel)

end ProjectCache

end MavenMcp
