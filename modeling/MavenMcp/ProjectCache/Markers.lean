/-
# Build markers and runner entries

The marker of a running build is what sends later lookups to that build instead of a second one.
It goes when its build is published or fails, with its generation, and when nobody waits for the
build and none of its work is left; nothing else takes it, and only a lookup leaves a new one.

* `marker_perform`: where a marker comes from.
* `marker_kept`: when a live marker stays.
* `runner_perform`: where the runner entry of a root comes from.

A locked section of the server performs several operations in a row; the `performAll` companions
carry the three facts over such a row.
-/
import MavenMcp.ProjectCache.Generations

namespace MavenMcp
namespace ProjectCache

variable {ρ ι : Type} [EstimatedBytes ι]

/-! ## 1. Where a marker comes from -/

/-- **A marker was there before, in the same generation, or a lookup has just left it.** -/
theorem marker_perform {held : Held} {c : ProjectCache ρ ι} {op : Op ρ ι} {r : PathBuf}
    {st' : ProjectState ρ ι} {m : InFlight} (hs : (perform held c op).get r = some st')
    (hm : st'.inFlight = some m) :
    (∃ st, c.get r = some st ∧ st.inFlight = some m ∧ st.generation = st'.generation) ∨
    (∃ fp, op = .lookupIndex r fp ∧ m = ⟨st'.generation, c.nextPtr, c.nextPtr + 1⟩ ∧
      (lookupIndex held c r fp).2 = .build c.nextPtr (c.nextPtr + 1) st'.generation ∧
      (perform held c op).nextPtr = c.nextPtr + 2) := by
  have fade : ∀ {held' : Held} {ki kr : Prop} {a : Option (ProjectState ρ ι)},
      FadesTo held' ki kr a (some st') →
      ∃ st, a = some st ∧ st.inFlight = some m ∧ st.generation = st'.generation := by
    intro held' ki kr a hf
    obtain ⟨st, hst, hf⟩ := hf.some_right
    rcases hf.inFlight with h | ⟨h, _⟩
    · exact ⟨st, hst, h ▸ hm, hf.generation.symm⟩
    · rw [h] at hm
      cases hm
  have keep : ∀ {st : ProjectState ρ ι}, c.get r = some st → st'.inFlight = st.inFlight →
      st'.generation = st.generation →
      ∃ st, c.get r = some st ∧ st.inFlight = some m ∧ st.generation = st'.generation :=
    fun {st} hst hi hg => ⟨st, hst, hi ▸ hm, hg.symm⟩
  have gone : ∀ {P : Prop}, st'.inFlight = none → P := by
    intro P hi
    rw [hi] at hm
    cases hm
  by_cases hr : r = op.root
  · cases op with
    | runner root =>
      subst hr
      obtain ⟨st, hst, rfl⟩ := Option.map_eq_some_iff.mp ((get_runner_self c r).symm.trans hs)
      exact .inl (keep hst rfl rfl)
    | installRunner root ru fp =>
      subst hr
      obtain ⟨st₁, hs₁, _, hi⟩ := installRunner_spec held c r ru fp
      cases hs₁.symm.trans hs
      cases hi with
      | changed _ _ _ _ _ _ _ hi => exact gone hi
      | kept st hst _ hg _ hi =>
        rcases hi with hi | ⟨hi, _⟩
        · exact .inl (keep hst hi hg)
        · exact gone hi
      | created _ _ _ hi => exact gone hi
    | discardProject root =>
      subst hr
      cases (get_discardProject_self held c r).symm.trans hs
    | invalidateAfterMaven root =>
      subst hr
      obtain ⟨st, _, rfl⟩ :=
        Option.map_eq_some_iff.mp ((get_invalidateAfterMaven_self held c r).symm.trans hs)
      exact gone rfl
    | requireFullRebuild root =>
      subst hr
      cases (get_requireFullRebuild_self c r).symm.trans hs
      cases hst : c.get r with
      | none =>
        rw [hst] at hm
        cases hm
      | some st =>
        rw [hst] at hm
        exact .inl ⟨st, rfl, hm, rfl⟩
    | finishFullRebuild root g =>
      subst hr
      obtain ⟨st, hst, rfl⟩ :=
        Option.map_eq_some_iff.mp ((get_finishFullRebuild_self c r g).symm.trans hs)
      refine .inl (keep hst ?_ ?_)
      · split <;> rfl
      · split <;> rfl
    | invalidateGeneration root g =>
      subst hr
      replace hs : (invalidateGeneration held c r g).get r = some st' := hs
      cases hc : c.isCurrent r g with
      | true =>
        rw [invalidateGeneration_of_current hc, get_invalidate_self] at hs
        obtain ⟨st, _, rfl⟩ := Option.map_eq_some_iff.mp hs
        exact gone rfl
      | false =>
        rw [invalidateGeneration_of_stale hc] at hs
        exact .inl (keep hs rfl rfl)
    | lookupIndex root fp =>
      subst hr
      have touch : (touched c r).inFlight = some m → st'.generation = (touched c r).generation →
          ∃ st, c.get r = some st ∧ st.inFlight = some m ∧ st.generation = st'.generation := by
        intro hi hg
        cases hst : c.get r with
        | none =>
          simp only [touched, hst] at hi
          cases hi
        | some st =>
          simp only [touched, hst] at hi hg
          exact ⟨st, rfl, hi, hg.symm⟩
      have hl := lookupIndex_spec held c r fp
      generalize ha : (lookupIndex held c r fp).2 = answer at hl
      cases hl with
      | cached _ _ _ hs₁ _ =>
        cases hs₁.symm.trans hs
        exact .inl (touch hm rfl)
      | joined _ _ _ _ hs₁ _ =>
        cases hs₁.symm.trans hs
        exact .inl (touch hm rfl)
      | started _ _ hs₁ hn =>
        cases hs₁.symm.trans hs
        cases hm
        exact .inr ⟨fp, rfl, rfl, ha, hn⟩
      | replaced _ _ _ hs₁ hn =>
        cases hs₁.symm.trans hs
        cases hm
        exact .inr ⟨fp, rfl, rfl, ha, hn⟩
    | recordHit root =>
      subst hr
      obtain ⟨st, hst, rfl⟩ :=
        Option.map_eq_some_iff.mp ((get_recordHit_self c r).symm.trans hs)
      exact .inl (keep hst rfl rfl)
    | recordPersistedUse root a b d => exact .inl (keep hs rfl rfl)
    | reserve root g bytes => exact .inl (fade (hs ▸ reserve_fades held c root g bytes r))
    | publish root g index build fp res =>
      subst hr
      have hp := publish_spec held c r g index build fp res
      generalize (publish held c r g index build fp res).2 = answer at hp
      replace hs : (publish held c r g index build fp res).1.get r = some st' := hs
      cases hp with
      | stale _ hf => exact .inl (fade (hs ▸ hf))
      | oversized st hst _ _ hs₁ =>
        cases hs₁.symm.trans hs
        exact gone rfl
      | uncached st hst _ hs₁ =>
        cases hs₁.symm.trans hs
        exact gone rfl
      | retained st hst hg hs₁ =>
        cases hs₁.symm.trans hs
        exact gone rfl
    | finishFailed root g =>
      subst hr
      have hf := finishFailed_self held c r g
      rw [show (finishFailed held c r g).get r = some st' from hs] at hf
      obtain ⟨st₁, hst₁, hi, hg⟩ := fade hf
      obtain ⟨st, hst, rfl⟩ := Option.map_eq_some_iff.mp hst₁
      left
      by_cases hgen : st.generation = g
      · rw [if_pos hgen] at hi
        cases hi
      · rw [if_neg hgen] at hi hg
        exact ⟨st, hst, hi, hg⟩
  · have hf := perform_fades held c op hr
    rw [hs] at hf
    exact .inl (fade hf)

/-! ## 2. When a live marker stays -/

/-- The operation ends the build of this generation: a publication or a failure. -/
def Op.Ends (r : PathBuf) (g : Nat) : Op ρ ι → Prop
  | .publish root generation _ _ _ _ => root = r ∧ generation = g
  | .finishFailed root generation => root = r ∧ generation = g
  | _ => False

/-- **A live marker stays** as long as its generation does and its build is not ended. -/
theorem marker_kept {held : Held} {c : ProjectCache ρ ι} {op : Op ρ ι} {r : PathBuf}
    {st : ProjectState ρ ι} {m : InFlight} (hst : c.get r = some st)
    (hm : st.inFlight = some m) (hg : m.generation = st.generation)
    (hl : m.isLive held = true) (hd : st.generation ≤ c.nextGeneration)
    (he : ¬ op.Ends r st.generation)
    (hc : (perform held c op).generationOf r = some st.generation) :
    ∃ st', (perform held c op).get r = some st' ∧ st'.inFlight = some m := by
  have hlive : st.hasLiveBuild held = true := by
    simp only [ProjectState.hasLiveBuild, hm, Option.any_some, hl]
  have fade : ∀ {ki kr : Prop} {b : Option (ProjectState ρ ι)},
      FadesTo held ki kr (some st) b → ∃ st', b = some st' ∧ st'.inFlight = some m := by
    intro ki kr b hf
    obtain ⟨st', hs, _, hi, _⟩ := hf.of_live hlive
    exact ⟨st', hs, hi.trans hm⟩
  have moved : ∀ {f : ProjectState ρ ι → ProjectState ρ ι},
      (perform held c op).get r = (c.get r).map f → (f st).inFlight = st.inFlight →
      ∃ st', (perform held c op).get r = some st' ∧ st'.inFlight = some m := by
    intro f hs hf
    rw [hst] at hs
    exact ⟨f st, hs, hf.trans hm⟩
  have fresh : ∀ {P : Prop} {st' : ProjectState ρ ι}, (perform held c op).get r = some st' →
      c.nextGeneration < st'.generation → P := by
    intro P st' hs hlt
    rw [generationOf_of_get hs, Option.some.injEq] at hc
    omega
  by_cases hr : r = op.root
  · cases op with
    | runner root =>
      subst hr
      exact moved (get_runner_self c r) rfl
    | installRunner root ru fp =>
      subst hr
      obtain ⟨st', hs, _, hi⟩ := installRunner_spec held c r ru fp
      cases hi with
      | changed _ _ _ _ _ hgen => exact fresh hs (by omega)
      | kept st₁ hst₁ _ _ _ hi =>
        cases hst.symm.trans hst₁
        rcases hi with hi | ⟨_, hdead⟩
        · exact ⟨st', hs, hi.trans hm⟩
        · rw [hlive] at hdead
          cases hdead
      | created hn =>
        rw [hst] at hn
        cases hn
    | discardProject root =>
      subst hr
      rw [generationOf, show (perform held c (.discardProject r)).get r = none from
        get_discardProject_self held c r] at hc
      cases hc
    | invalidateAfterMaven root =>
      subst hr
      have hs := get_invalidateAfterMaven_self held c r
      rw [hst] at hs
      exact fresh hs (Nat.lt_succ_self _)
    | requireFullRebuild root =>
      subst hr
      refine ⟨_, get_requireFullRebuild_self c r, ?_⟩
      rw [hst]
      exact hm
    | finishFullRebuild root g =>
      subst hr
      refine moved (get_finishFullRebuild_self c r g) ?_
      split <;> rfl
    | invalidateGeneration root g =>
      subst hr
      cases hcur : c.isCurrent r g with
      | true =>
        have hs := get_invalidate_self held c r
        rw [hst, ← invalidateGeneration_of_current hcur] at hs
        exact fresh hs (Nat.lt_succ_self _)
      | false =>
        refine ⟨st, ?_, hm⟩
        show (invalidateGeneration held c r g).get r = some st
        rw [invalidateGeneration_of_stale hcur, hst]
    | lookupIndex root fp =>
      subst hr
      have ht : (touched c r).inFlight = some m ∧ (touched c r).generation = st.generation := by
        simp only [touched, hst, Option.getD_some]
        exact ⟨hm, trivial⟩
      have hl := lookupIndex_spec held c r fp
      generalize (lookupIndex held c r fp).2 = answer at hl
      cases hl with
      | cached _ _ _ hs _ => exact ⟨_, hs, ht.1⟩
      | joined _ _ _ _ hs _ => exact ⟨_, hs, ht.1⟩
      | started _ hnone _ _ => exact absurd (hg.trans ht.2.symm) (hnone m ht.1)
      | replaced _ _ _ hs _ => exact fresh hs (Nat.lt_succ_of_lt (Nat.lt_succ_self _))
    | recordHit root =>
      subst hr
      exact moved (get_recordHit_self c r) rfl
    | recordPersistedUse root a b d => exact ⟨st, hst, hm⟩
    | reserve root g bytes => exact fade (hst ▸ reserve_fades held c root g bytes r)
    | publish root g index build fp res =>
      subst hr
      have hp := publish_spec held c r g index build fp res
      generalize (publish held c r g index build fp res).2 = answer at hp
      have ended : ∀ {P : Prop} {st₁ : ProjectState ρ ι}, c.get r = some st₁ →
          st₁.generation = g → P := by
        intro P st₁ hst₁ hgen
        cases hst.symm.trans hst₁
        exact absurd ⟨rfl, hgen.symm⟩ he
      cases hp with
      | stale _ hf => exact fade (hst ▸ hf)
      | oversized st₁ hst₁ hgen => exact ended hst₁ hgen
      | uncached st₁ hst₁ hgen => exact ended hst₁ hgen
      | retained st₁ hst₁ hgen => exact ended hst₁ hgen
    | finishFailed root g =>
      subst hr
      have hf := finishFailed_self held c r g
      have hne : st.generation ≠ g := fun hgen => he ⟨rfl, hgen.symm⟩
      rw [hst, Option.map_some, if_neg hne] at hf
      exact fade hf
  · exact fade (hst ▸ perform_fades held c op hr)

omit [EstimatedBytes ι] in
/-- How a lookup that serves nothing answers: it joins the marker of the present generation, it
leaves a new one there, or it leaves one in a new generation. -/
inductive Joins (c : ProjectCache ρ ι) (r : PathBuf) (c' : ProjectCache ρ ι) :
    Nat → Nat → Nat → Prop
  | joined (st : ProjectState ρ ι) (m : InFlight) : c.get r = some st → st.index = none →
      st.inFlight = some m → m.generation = st.generation → c'.nextPtr = c.nextPtr →
      Joins c r c' m.cell m.owner st.generation
  | started (st : ProjectState ρ ι) : c.get r = some st → st.index = none →
      (∀ m, st.inFlight = some m → m.generation ≠ st.generation) →
      c'.nextPtr = c.nextPtr + 2 →
      Joins c r c' c.nextPtr (c.nextPtr + 1) st.generation
  | fresh (g : Nat) : c.nextGeneration < g → g ≤ c'.nextGeneration →
      c'.nextPtr = c.nextPtr + 2 → Joins c r c' c.nextPtr (c.nextPtr + 1) g

omit [EstimatedBytes ι] in
/-- **A lookup that sends to a build.** -/
theorem joins_of_lookupIndex {held : Held} {c : ProjectCache ρ ι} {r : PathBuf}
    {fp : ProjectFingerprint} {cell owner g : Nat}
    (h : (lookupIndex held c r fp).2 = .build cell owner g) :
    Joins c r (lookupIndex held c r fp).1 cell owner g := by
  have hdrawn := nextGeneration_lookupIndex held c r fp
  have hgen : (lookupIndex held c r fp).1.generationOf r = some g := by
    rw [generationOf_lookupIndex, h]
    rfl
  have hl := lookupIndex_spec held c r fp
  rw [h] at hl
  cases hst : c.get r with
  | some st =>
    have ht : (touched c r).inFlight = st.inFlight ∧ (touched c r).generation = st.generation ∧
        (touched c r).index = st.index := by
      simp only [touched, hst, Option.getD_some]
      exact ⟨trivial, trivial, trivial⟩
    cases hl with
    | joined m hi hm hg hs hn =>
      rw [ht.1] at hm
      rw [ht.2.1] at hg ⊢
      rw [ht.2.2] at hi
      exact .joined st m hst hi hm hg hn
    | started hi hm hs hn =>
      rw [ht.1, ht.2.1] at hm
      rw [ht.2.2] at hi
      rw [ht.2.1]
      exact .started st hst hi hm hn
    | replaced e hi he hs hn =>
      refine .fresh _ (by omega) ?_ hn
      rcases hdrawn with hd | ⟨_, hd⟩
      · rw [lookupIndex_eq, hi] at hd
        simp only [if_neg he, nextGeneration_joinBuild, nextGeneration_invalidate] at hd
        exact absurd hd (by simp [prepared, upsert, nextTick, freshGeneration])
      · omega
  | none =>
    have ht : touched c r = { ProjectState.new (c.nextGeneration + 1) with
        lastUsedTick := c.tick + 1 } := by
      simp only [touched, hst, Option.getD_none]
    cases hl with
    | joined m hi hm hg hs hn =>
      rw [ht] at hm
      cases hm
    | started hi hm hs hn =>
      rw [ht]
      refine .fresh _ (Nat.lt_succ_self _) ?_ hn
      rcases hdrawn with hd | ⟨_, hd⟩
      · exact hd.ge
      · exact Nat.le_trans (Nat.le_succ _) hd.ge
    | replaced e hi he hs hn =>
      rw [ht] at hi
      cases hi

omit [EstimatedBytes ι] in
/-- A lookup that sends to a build leaves the marker of that build. -/
theorem marker_of_lookupIndex {held : Held} {c : ProjectCache ρ ι} {r : PathBuf}
    {fp : ProjectFingerprint} {cell owner g : Nat}
    (h : (lookupIndex held c r fp).2 = .build cell owner g) :
    ∃ st', (lookupIndex held c r fp).1.get r = some st' ∧
      st'.inFlight = some ⟨g, cell, owner⟩ := by
  have hl := lookupIndex_spec held c r fp
  rw [h] at hl
  cases hl with
  | joined m hi hm hg hs hn =>
    rw [← hg]
    exact ⟨_, hs, hm⟩
  | started hi hm hs hn => exact ⟨_, hs, rfl⟩
  | replaced e hi he hs hn => exact ⟨_, hs, rfl⟩

/-- A build that was published or failed leaves no marker in its generation. -/
theorem inFlight_of_ends {held : Held} {c : ProjectCache ρ ι} {op : Op ρ ι} {r : PathBuf} {g : Nat}
    (he : op.Ends r g) {st' : ProjectState ρ ι} (hs : (perform held c op).get r = some st')
    (hg : st'.generation = g) : st'.inFlight = none := by
  cases op with
  | publish root generation index build fp res =>
    obtain ⟨rfl, rfl⟩ := he
    have hp := publish_spec held c root generation index build fp res
    generalize (publish held c root generation index build fp res).2 = answer at hp
    replace hs : (publish held c root generation index build fp res).1.get root = some st' := hs
    cases hp with
    | stale hc hf =>
      rw [hs] at hf
      obtain ⟨st, hst, hf⟩ := hf.some_right
      rw [← Bool.not_eq_true, isCurrent_iff] at hc
      exact absurd ⟨st, hst, hf.generation.symm.trans hg⟩ hc
    | oversized st hst _ _ hs₁ =>
      cases hs₁.symm.trans hs
      rfl
    | uncached st hst _ hs₁ =>
      cases hs₁.symm.trans hs
      rfl
    | retained st hst _ hs₁ =>
      cases hs₁.symm.trans hs
      rfl
  | finishFailed root generation =>
    obtain ⟨rfl, rfl⟩ := he
    have hf := finishFailed_self held c root generation
    rw [show (finishFailed held c root generation).get root = some st' from hs] at hf
    obtain ⟨st₁, hst₁, hf⟩ := hf.some_right
    obtain ⟨st, hst, rfl⟩ := Option.map_eq_some_iff.mp hst₁
    have hgen : st.generation = generation := by
      have := hf.generation.symm.trans hg
      split at this <;> exact this
    rcases hf.inFlight with h | ⟨h, _⟩
    · rw [h, if_pos hgen]
    · exact h
  | _ => cases he

/-! ## 3. Where a runner comes from -/

/-- **A runner entry was there before, or was just installed, or was just marked** for a new
reading of the model. -/
theorem runner_perform {held : Held} {c : ProjectCache ρ ι} {op : Op ρ ι} {r : PathBuf}
    {st' : ProjectState ρ ι} {e : RunnerEntry ρ} (hs : (perform held c op).get r = some st')
    (he : st'.runner = some e) :
    (op ≠ .invalidateAfterMaven r ∧ ∃ st, c.get r = some st ∧ st.runner = some e) ∨
    (∃ ru fp, op = .installRunner r ru fp ∧ e = ⟨ru, fp, false⟩) ∨
    (op = .invalidateAfterMaven r ∧ e.revalidate = true) := by
  have fade : ∀ {held' : Held} {ki kr : Prop} {a : Option (ProjectState ρ ι)},
      FadesTo held' ki kr a (some st') → ∃ st, a = some st ∧ st.runner = some e := by
    intro held' ki kr a hf
    obtain ⟨st, hst, hf⟩ := hf.some_right
    rcases hf.runner with h | ⟨h, _⟩
    · exact ⟨st, hst, h ▸ he⟩
    · rw [h] at he
      cases he
  by_cases hr : r = op.root
  · cases op with
    | runner root =>
      subst hr
      obtain ⟨st, hst, rfl⟩ := Option.map_eq_some_iff.mp ((get_runner_self c r).symm.trans hs)
      exact .inl ⟨by simp, st, hst, he⟩
    | installRunner root ru fp =>
      subst hr
      obtain ⟨st₁, hs₁, hr₁, _⟩ := installRunner_spec held c r ru fp
      cases hs₁.symm.trans hs
      cases hr₁.symm.trans he
      exact .inr (.inl ⟨ru, fp, rfl, rfl⟩)
    | discardProject root =>
      subst hr
      cases (get_discardProject_self held c r).symm.trans hs
    | invalidateAfterMaven root =>
      subst hr
      obtain ⟨st, _, rfl⟩ :=
        Option.map_eq_some_iff.mp ((get_invalidateAfterMaven_self held c r).symm.trans hs)
      obtain ⟨e₀, _, rfl⟩ := Option.map_eq_some_iff.mp he
      exact .inr (.inr ⟨rfl, rfl⟩)
    | requireFullRebuild root =>
      subst hr
      cases (get_requireFullRebuild_self c r).symm.trans hs
      cases hst : c.get r with
      | none =>
        rw [hst] at he
        cases he
      | some st =>
        rw [hst] at he
        exact .inl ⟨by simp, st, rfl, he⟩
    | finishFullRebuild root g =>
      subst hr
      obtain ⟨st, hst, rfl⟩ :=
        Option.map_eq_some_iff.mp ((get_finishFullRebuild_self c r g).symm.trans hs)
      refine .inl ⟨by simp, st, hst, ?_⟩
      split at he <;> exact he
    | invalidateGeneration root g =>
      subst hr
      replace hs : (invalidateGeneration held c r g).get r = some st' := hs
      cases hc : c.isCurrent r g with
      | true =>
        rw [invalidateGeneration_of_current hc, get_invalidate_self] at hs
        obtain ⟨st, hst, rfl⟩ := Option.map_eq_some_iff.mp hs
        exact .inl ⟨by simp, st, hst, he⟩
      | false =>
        rw [invalidateGeneration_of_stale hc] at hs
        exact .inl ⟨by simp, st', hs, he⟩
    | lookupIndex root fp =>
      subst hr
      have touch : (touched c r).runner = some e →
          ∃ st, c.get r = some st ∧ st.runner = some e := by
        intro hi
        cases hst : c.get r with
        | none =>
          simp only [touched, hst] at hi
          cases hi
        | some st =>
          simp only [touched, hst] at hi
          exact ⟨st, rfl, hi⟩
      have hl := lookupIndex_spec held c r fp
      generalize (lookupIndex held c r fp).2 = answer at hl
      refine .inl ⟨by simp, ?_⟩
      cases hl with
      | cached _ _ _ hs₁ _ =>
        cases hs₁.symm.trans hs
        exact touch he
      | joined _ _ _ _ hs₁ _ =>
        cases hs₁.symm.trans hs
        exact touch he
      | started _ _ hs₁ _ =>
        cases hs₁.symm.trans hs
        exact touch he
      | replaced _ _ _ hs₁ _ =>
        cases hs₁.symm.trans hs
        exact touch he
    | recordHit root =>
      subst hr
      obtain ⟨st, hst, rfl⟩ :=
        Option.map_eq_some_iff.mp ((get_recordHit_self c r).symm.trans hs)
      exact .inl ⟨by simp, st, hst, he⟩
    | recordPersistedUse root a b d => exact .inl ⟨by simp, st', hs, he⟩
    | reserve root g bytes =>
      exact .inl ⟨by simp, fade (hs ▸ reserve_fades held c root g bytes r)⟩
    | publish root g index build fp res =>
      subst hr
      have hp := publish_spec held c r g index build fp res
      generalize (publish held c r g index build fp res).2 = answer at hp
      replace hs : (publish held c r g index build fp res).1.get r = some st' := hs
      refine .inl ⟨by simp, ?_⟩
      cases hp with
      | stale _ hf => exact fade (hs ▸ hf)
      | oversized st hst _ _ hs₁ =>
        cases hs₁.symm.trans hs
        exact ⟨st, hst, he⟩
      | uncached st hst _ hs₁ =>
        cases hs₁.symm.trans hs
        exact ⟨st, hst, he⟩
      | retained st hst _ hs₁ =>
        cases hs₁.symm.trans hs
        exact ⟨st, hst, he⟩
    | finishFailed root g =>
      subst hr
      have hf := finishFailed_self held c r g
      rw [show (finishFailed held c r g).get r = some st' from hs] at hf
      obtain ⟨st₁, hst₁, hi⟩ := fade hf
      obtain ⟨st, hst, rfl⟩ := Option.map_eq_some_iff.mp hst₁
      refine .inl ⟨by simp, st, hst, ?_⟩
      split at hi <;> exact hi
  · have hf := perform_fades held c op hr
    rw [hs] at hf
    refine .inl ⟨fun h => ?_, fade hf⟩
    subst h
    exact hr rfl

/-! ## 4. A row of operations -/

/-- The operations of one locked section, all with the `Held` of its moment. -/
def performAll (held : Held) (c : ProjectCache ρ ι) (ops : List (Op ρ ι)) : ProjectCache ρ ι :=
  c.play (ops.map (held, ·))

@[simp] theorem performAll_nil (held : Held) (c : ProjectCache ρ ι) :
    performAll held c [] = c := rfl

@[simp] theorem performAll_cons (held : Held) (c : ProjectCache ρ ι) (op : Op ρ ι)
    (ops : List (Op ρ ι)) :
    performAll held c (op :: ops) = performAll held (perform held c op) ops := rfl

theorem performAll_append (held : Held) (c : ProjectCache ρ ι) (ops ops' : List (Op ρ ι)) :
    performAll held c (ops ++ ops') = performAll held (performAll held c ops) ops' := by
  simp only [performAll, List.map_append, play_append]

theorem nextGeneration_performAll (held : Held) (c : ProjectCache ρ ι) (ops : List (Op ρ ι)) :
    c.nextGeneration ≤ (performAll held c ops).nextGeneration := by
  induction ops generalizing c with
  | nil => exact Nat.le_refl _
  | cons op ops ih => exact Nat.le_trans (nextGeneration_perform held c op) (ih _)

theorem nextPtr_performAll (held : Held) (c : ProjectCache ρ ι) (ops : List (Op ρ ι)) :
    c.nextPtr ≤ (performAll held c ops).nextPtr := by
  induction ops generalizing c with
  | nil => exact Nat.le_refl _
  | cons op ops ih => exact Nat.le_trans (nextPtr_perform held c op) (ih _)

/-- **A generation that is current was current before**, if it had been drawn. -/
theorem isCurrent_of_performAll {held : Held} {c : ProjectCache ρ ι} {ops : List (Op ρ ι)}
    {r : PathBuf} {g : Nat} (hg : g ≤ c.nextGeneration)
    (h : (performAll held c ops).isCurrent r g = true) : c.isCurrent r g = true := by
  by_contra hn
  have hleft : Left c r g := ⟨hg, fun h => hn (generationOf_eq_some.mp h)⟩
  exact (never_returns hleft _).notCurrent (generationOf_eq_some.mpr h)

/-- Without a lookup among the operations, every marker was there before. -/
theorem marker_performAll {held : Held} {ops : List (Op ρ ι)}
    (hl : ∀ r fp, .lookupIndex r fp ∉ ops) {r : PathBuf} {st' : ProjectState ρ ι} {m : InFlight}
    (hm : st'.inFlight = some m) : ∀ {c : ProjectCache ρ ι},
    (performAll held c ops).get r = some st' →
      ∃ st, c.get r = some st ∧ st.inFlight = some m ∧ st.generation = st'.generation := by
  induction ops with
  | nil => exact fun hs => ⟨st', hs, hm, rfl⟩
  | cons op ops ih =>
    intro c hs
    obtain ⟨st₁, hst₁, hm₁, hg₁⟩ :=
      ih (fun r fp h => hl r fp (List.mem_cons_of_mem _ h)) (c := perform held c op) hs
    rcases marker_perform hst₁ hm₁ with ⟨st, hst, hm₀, hg₀⟩ | ⟨fp, rfl, _⟩
    · exact ⟨st, hst, hm₀, hg₀.trans hg₁⟩
    · exact absurd List.mem_cons_self (hl r fp)

/-- After the end of a build no marker of its generation is left, unless a lookup came. -/
theorem inFlight_of_ends_performAll {held : Held} {c : ProjectCache ρ ι} {op : Op ρ ι}
    {pre post : List (Op ρ ι)} {r : PathBuf} {g : Nat} (he : op.Ends r g)
    (hl : ∀ r fp, .lookupIndex r fp ∉ post) {st' : ProjectState ρ ι}
    (hs : (performAll held c (pre ++ op :: post)).get r = some st')
    (hg : st'.generation = g) : st'.inFlight = none := by
  rw [performAll_append, performAll_cons] at hs
  by_contra hm
  obtain ⟨m, hm⟩ := Option.ne_none_iff_exists'.mp hm
  obtain ⟨st, hst, hm₀, hg₀⟩ := marker_performAll hl hm hs
  rw [inFlight_of_ends he hst (hg₀.trans hg)] at hm₀
  cases hm₀

/-- A live marker stays through operations that do not end its build, as long as its generation
does. -/
theorem marker_kept_performAll {held : Held} {r : PathBuf} {m : InFlight} {g : Nat}
    (hg : m.generation = g) (hl : m.isLive held = true) {ops : List (Op ρ ι)}
    (he : ∀ op ∈ ops, ¬ op.Ends r g) : ∀ {c : ProjectCache ρ ι} {st : ProjectState ρ ι},
    c.get r = some st → st.inFlight = some m → st.generation = g → g ≤ c.nextGeneration →
    (performAll held c ops).isCurrent r g = true →
      ∃ st', (performAll held c ops).get r = some st' ∧ st'.inFlight = some m := by
  induction ops with
  | nil => exact fun hst hm _ _ _ => ⟨_, hst, hm⟩
  | cons op ops ih =>
    intro c st hst hm hgen hd hc
    have hd₁ : g ≤ (perform held c op).nextGeneration :=
      Nat.le_trans hd (nextGeneration_perform held c op)
    have hc₁ : (perform held c op).generationOf r = some g :=
      generationOf_eq_some.mpr (isCurrent_of_performAll hd₁ hc)
    subst hgen
    obtain ⟨st₁, hst₁, hm₁⟩ :=
      marker_kept hst hm hg hl hd (he op List.mem_cons_self) hc₁
    rw [generationOf_of_get hst₁, Option.some.injEq] at hc₁
    exact ih (fun op h => he op (List.mem_cons_of_mem _ h)) hst₁ hm₁ hc₁ hd₁ hc

/-- A runner entry without a mark was there before and no invalidation came over it, or it was
installed among the operations. -/
theorem runner_performAll {held : Held} {r : PathBuf} {st' : ProjectState ρ ι}
    {e : RunnerEntry ρ} (he : st'.runner = some e) (hv : e.revalidate = false)
    {ops : List (Op ρ ι)} : ∀ {c : ProjectCache ρ ι}, (performAll held c ops).get r = some st' →
    (.invalidateAfterMaven r ∉ ops ∧ ∃ st, c.get r = some st ∧ st.runner = some e) ∨
    (∃ ru fp, .installRunner r ru fp ∈ ops ∧ e = ⟨ru, fp, false⟩) := by
  induction ops with
  | nil => exact fun hs => .inl ⟨List.not_mem_nil, st', hs, he⟩
  | cons op ops ih =>
    intro c hs
    rcases ih hs with ⟨hn, st₁, hst₁, he₁⟩ | ⟨ru, fp, hop, he₁⟩
    · rcases runner_perform hst₁ he₁ with ⟨hne, hst⟩ | ⟨ru, fp, rfl, he₂⟩ | ⟨_, hmark⟩
      · refine .inl ⟨fun h => ?_, hst⟩
        rcases List.mem_cons.mp h with h | h
        · exact hne h.symm
        · exact hn h
      · exact .inr ⟨ru, fp, List.mem_cons_self, he₂⟩
      · rw [hv] at hmark
        cases hmark
    · exact .inr ⟨ru, fp, List.mem_cons_of_mem _ hop, he₁⟩

/-- A publication that is not refused was one of the present generation. -/
theorem current_of_publish {held : Held} {c : ProjectCache ρ ι} {r : PathBuf} {g : Nat}
    {index : Arc ι} {build : FinishedBuild} {fp : ProjectFingerprint} {res : Nat}
    (h : (publish held c r g index build fp res).2 ≠ .stale) : c.isCurrent r g = true := by
  have hp := publish_spec held c r g index build fp res
  generalize (publish held c r g index build fp res).2 = answer at h hp
  cases hp with
  | stale => exact absurd rfl h
  | oversized st hst hg => exact isCurrent_iff.mpr ⟨st, hst, hg⟩
  | uncached st hst hg => exact isCurrent_iff.mpr ⟨st, hst, hg⟩
  | retained st hst hg => exact isCurrent_iff.mpr ⟨st, hst, hg⟩

/-- A cached index was there before, or it was published among the operations, in the present
generation. -/
theorem index_performAll {held : Held} {r : PathBuf} {st' : ProjectState ρ ι} {e : CachedIndex ι}
    (he : st'.index = some e) {ops : List (Op ρ ι)} : ∀ {c : ProjectCache ρ ι},
    (performAll held c ops).get r = some st' →
    (∃ st, c.get r = some st ∧ st.index = some e ∧ st.generation = st'.generation) ∨
    (∃ g index build fp res, .publish r g index build fp res ∈ ops ∧
      e = publishedEntry index build fp ∧ (g ≤ c.nextGeneration → c.isCurrent r g = true)) := by
  induction ops with
  | nil => exact fun hs => .inl ⟨st', hs, he, rfl⟩
  | cons op ops ih =>
    intro c hs
    rcases ih hs with ⟨st₁, hst₁, he₁, hg₁⟩ | ⟨g, index, build, fp, res, hop, he₁, hc₁⟩
    · rcases index_perform hst₁ he₁ with ⟨st, hst, he₀, hg₀⟩ | ⟨index, build, fp, res, rfl, ha, he₂⟩
      · exact .inl ⟨st, hst, he₀, hg₀.trans hg₁⟩
      · refine .inr ⟨_, index, build, fp, res, List.mem_cons_self, he₂, fun _ => ?_⟩
        exact current_of_publish (by rw [ha]; simp)
    · refine .inr ⟨g, index, build, fp, res, List.mem_cons_of_mem _ hop, he₁, fun hg => ?_⟩
      have hg₁ : g ≤ (perform held c op).nextGeneration :=
        Nat.le_trans hg (nextGeneration_perform held c op)
      have hstep : (performAll held c [op]).isCurrent r g = true := hc₁ hg₁
      exact isCurrent_of_performAll hg hstep

end ProjectCache

end MavenMcp
