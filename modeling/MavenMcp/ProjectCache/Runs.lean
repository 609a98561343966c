/-
# Runs of the project cache

The cache sits behind one mutex, so what concurrent requests do to it is a SEQUENCE of
operations.  `Op` names the operations with their arguments, `perform` applies one, and `play`
applies a list of them, each with the `Held` of its moment: which of the cache's allocations
requests hold then is decided from outside, differently at every step.

The rest of the file is what every operation does to every root, whichever root it serves.

* `perform_fades`: a root an operation does not serve only fades.
* `generation_perform`: the generation of a root stays, goes with its state, or becomes a number
  never used before.  All of generation safety follows from this one fact.
-/
import MavenMcp.ProjectCache.Effects

namespace MavenMcp
namespace ProjectCache

variable {ρ ι : Type}

/-! ## 1. Operations and runs -/

/-- One call of a `pub fn` of `ProjectCache`. -/
inductive Op (ρ ι : Type)
  | runner (root : PathBuf)
  | installRunner (root : PathBuf) (runner : Arc ρ) (fingerprint : ProjectFingerprint)
  | discardProject (root : PathBuf)
  | invalidateAfterMaven (root : PathBuf)
  | requireFullRebuild (root : PathBuf)
  | finishFullRebuild (root : PathBuf) (generation : Nat)
  | invalidateGeneration (root : PathBuf) (generation : Nat)
  | lookupIndex (root : PathBuf) (project : ProjectFingerprint)
  | recordHit (root : PathBuf)
  | recordPersistedUse (root : PathBuf) (classpathHit : Bool) (recordHits recordMisses : Nat)
  | reserve (root : PathBuf) (generation bytes : Nat)
  | publish (root : PathBuf) (generation : Nat) (index : Arc ι) (build : FinishedBuild)
      (project : ProjectFingerprint) (reservation : Nat)
  | finishFailed (root : PathBuf) (generation : Nat)

/-- The root an operation serves. -/
def Op.root : Op ρ ι → PathBuf
  | .runner root | .installRunner root _ _ | .discardProject root | .invalidateAfterMaven root
  | .requireFullRebuild root | .finishFullRebuild root _ | .invalidateGeneration root _
  | .lookupIndex root _ | .recordHit root | .recordPersistedUse root _ _ _ | .reserve root _ _
  | .publish root _ _ _ _ _ | .finishFailed root _ => root

variable [EstimatedBytes ι]

def perform (held : Held) (c : ProjectCache ρ ι) : Op ρ ι → ProjectCache ρ ι
  | .runner root => (c.runner root).1
  | .installRunner root runner fingerprint => (installRunner held c root runner fingerprint).1
  | .discardProject root => discardProject held c root
  | .invalidateAfterMaven root => invalidateAfterMaven held c root
  | .requireFullRebuild root => c.requireFullRebuild root
  | .finishFullRebuild root generation => c.finishFullRebuild root generation
  | .invalidateGeneration root generation => invalidateGeneration held c root generation
  | .lookupIndex root project => (lookupIndex held c root project).1
  | .recordHit root => c.recordHit root
  | .recordPersistedUse _ hit hits misses => c.recordPersistedUse hit hits misses
  | .reserve root generation bytes => (reserve held c root generation bytes).1
  | .publish root generation index build project reservation =>
    (publish held c root generation index build project reservation).1
  | .finishFailed root generation => finishFailed held c root generation

/-- Perform the operations of a run one after the other. -/
def play (c : ProjectCache ρ ι) : List (Held × Op ρ ι) → ProjectCache ρ ι
  | [] => c
  | s :: steps => play (perform s.1 c s.2) steps

@[simp] theorem play_nil (c : ProjectCache ρ ι) : c.play [] = c := rfl

@[simp] theorem play_cons (c : ProjectCache ρ ι) (s : Held × Op ρ ι)
    (steps : List (Held × Op ρ ι)) : c.play (s :: steps) = (perform s.1 c s.2).play steps := rfl

theorem play_append (c : ProjectCache ρ ι) (l₁ l₂ : List (Held × Op ρ ι)) :
    c.play (l₁ ++ l₂) = (c.play l₁).play l₂ := by
  induction l₁ generalizing c with
  | nil => rfl
  | cons s l₁ ih =>
    rw [List.cons_append, play_cons, play_cons]
    exact ih (perform s.1 c s.2)

/-- A property every operation keeps survives every run. -/
theorem play_invariant {P : ProjectCache ρ ι → Prop}
    (hstep : ∀ held c op, P c → P (perform held c op)) (c : ProjectCache ρ ι)
    (steps : List (Held × Op ρ ι)) (h : P c) : P (c.play steps) := by
  induction steps generalizing c with
  | nil => exact h
  | cons s steps ih => exact ih _ (hstep s.1 c s.2 h)

/-- For runs on concrete inputs: an index that is nothing but its size. -/
instance : EstimatedBytes Nat := ⟨id⟩

/-! ## 2. The roots an operation does not serve -/

/-- **A root that is not served only fades.** -/
theorem perform_fades (held : Held) (c : ProjectCache ρ ι) (op : Op ρ ι) {r : PathBuf}
    (h : r ≠ op.root) : FadesTo held False False (c.get r) ((perform held c op).get r) := by
  have same : ∀ {c' : ProjectCache ρ ι}, c'.get r = c.get r →
      FadesTo held False False (c.get r) (c'.get r) := by
    intro c' hc
    rw [hc]
    exact FadesTo.refl _ _ _ _
  cases op with
  | runner root => exact same (get_runner_ne c h)
  | installRunner root ru fp => exact installRunner_fades held c ru fp h
  | discardProject root => exact discardProject_fades held c h
  | invalidateAfterMaven root => exact (invalidateAfterMaven_fades held c h).loosen
  | requireFullRebuild root => exact same (get_requireFullRebuild_ne c h)
  | finishFullRebuild root g => exact same (get_finishFullRebuild_ne c g h)
  | invalidateGeneration root g =>
    show FadesTo held False False (c.get r) ((invalidateGeneration held c root g).get r)
    cases hc : c.isCurrent root g with
    | true =>
      rw [invalidateGeneration_of_current hc]
      exact (invalidate_fades held c h).loosen
    | false =>
      rw [invalidateGeneration_of_stale hc]
      exact FadesTo.refl _ _ _ _
  | lookupIndex root fp => exact (lookupIndex_fades held c fp h).loosen
  | recordHit root => exact same (get_recordHit_ne c h)
  | recordPersistedUse root a b d => exact same rfl
  | reserve root g bytes => exact (reserve_fades held c root g bytes r).loosen
  | publish root g index build fp res => exact publish_fades held c g index build fp res h
  | finishFailed root g => exact finishFailed_fades held c g h

/-! ## 3. Generations -/

/-- The generation of a root; `none` when it has no state. -/
def generationOf (c : ProjectCache ρ ι) (r : PathBuf) : Option Nat :=
  (c.get r).map ProjectState.generation

omit [EstimatedBytes ι] in
theorem generationOf_eq_some {c : ProjectCache ρ ι} {r : PathBuf} {g : Nat} :
    c.generationOf r = some g ↔ c.isCurrent r g = true := by
  rw [isCurrent_iff, generationOf, Option.map_eq_some_iff]

omit [EstimatedBytes ι] in
theorem generationOf_of_get {c : ProjectCache ρ ι} {r : PathBuf} {st : ProjectState ρ ι}
    (h : c.get r = some st) : c.generationOf r = some st.generation := by
  rw [generationOf, h]
  rfl

/-- What an operation may do to the generation of a root: nothing, drop it with the state, or
begin a generation whose number no state has had before. -/
structure Advances (c : ProjectCache ρ ι) (r : PathBuf) (c' : ProjectCache ρ ι) : Prop where
  nextGeneration : c.nextGeneration ≤ c'.nextGeneration
  generation : c'.generationOf r = c.generationOf r ∨ c'.generationOf r = none ∨
    ∃ g, c'.generationOf r = some g ∧ c.nextGeneration < g ∧ g ≤ c'.nextGeneration

omit [EstimatedBytes ι] in
theorem Advances.of_fades {held : Held} {ki kr : Prop} {c c' : ProjectCache ρ ι} {r : PathBuf}
    (hn : c.nextGeneration ≤ c'.nextGeneration) (h : FadesTo held ki kr (c.get r) (c'.get r)) :
    Advances c r c' := by
  refine ⟨hn, ?_⟩
  cases hs : c'.get r with
  | none => exact .inr (.inl (by rw [generationOf, hs]; rfl))
  | some st' =>
    rw [hs] at h
    obtain ⟨st, hst, hf⟩ := h.some_right
    left
    rw [generationOf_of_get hs, generationOf_of_get hst, hf.generation]

omit [EstimatedBytes ι] in
/-- A state that kept its generation, or begins with a new one. -/
theorem Advances.of_get {c c' : ProjectCache ρ ι} {r : PathBuf} {st' : ProjectState ρ ι}
    (hn : c.nextGeneration ≤ c'.nextGeneration) (h : c'.get r = some st')
    (hg : c.generationOf r = some st'.generation ∨
      (c.nextGeneration < st'.generation ∧ st'.generation ≤ c'.nextGeneration)) :
    Advances c r c' := by
  refine ⟨hn, ?_⟩
  rw [generationOf_of_get h]
  rcases hg with hg | hg
  · exact .inl hg.symm
  · exact .inr (.inr ⟨_, rfl, hg⟩)

omit [EstimatedBytes ι] in
/-- An update that keeps the generation of whatever state there is. -/
theorem Advances.of_map {c c' : ProjectCache ρ ι} {r : PathBuf}
    {f : ProjectState ρ ι → ProjectState ρ ι} (hn : c.nextGeneration ≤ c'.nextGeneration)
    (h : c'.get r = (c.get r).map f) (hf : ∀ st, (f st).generation = st.generation) :
    Advances c r c' := by
  refine ⟨hn, .inl ?_⟩
  rw [generationOf, generationOf, h, Option.map_map]
  congr 1
  funext st
  exact hf st

omit [EstimatedBytes ι] in
theorem invalidate_advances (held : Held) (c : ProjectCache ρ ι) (r : PathBuf) :
    Advances c r (invalidate held c r) := by
  have hn := nextGeneration_invalidate held c r
  refine ⟨by omega, ?_⟩
  cases hg : c.get r with
  | none => exact .inr (.inl (by rw [generationOf, get_invalidate_self, hg]; rfl))
  | some st =>
    refine .inr (.inr ⟨c.nextGeneration + 1, ?_, by omega, by omega⟩)
    rw [generationOf, get_invalidate_self, hg]
    rfl

omit [EstimatedBytes ι] in
theorem touched_generation (c : ProjectCache ρ ι) (r : PathBuf) :
    c.generationOf r = some (touched c r).generation ∨
      (c.get r = none ∧ (touched c r).generation = c.nextGeneration + 1) := by
  cases h : c.get r with
  | none =>
    right
    refine ⟨rfl, ?_⟩
    simp only [touched, h]
    rfl
  | some st =>
    left
    rw [generationOf_of_get h]
    simp only [touched, h]
    rfl

omit [EstimatedBytes ι] in
theorem lookupIndex_advances (held : Held) (c : ProjectCache ρ ι) (r : PathBuf)
    (fp : ProjectFingerprint) : Advances c r (lookupIndex held c r fp).1 := by
  have hn := nextGeneration_lookupIndex held c r fp
  have ht := touched_generation c r
  have touch : ∀ {st'}, (lookupIndex held c r fp).1.get r = some st' →
      st'.generation = (touched c r).generation → Advances c r (lookupIndex held c r fp).1 := by
    intro st' hs hg
    refine .of_get (by omega) hs ?_
    rw [hg]
    rcases ht with h | ⟨_, h⟩
    · exact .inl h
    · exact .inr (by omega)
  have hl := lookupIndex_spec held c r fp
  generalize (lookupIndex held c r fp).2 = answer at hl
  cases hl with
  | cached e _ _ hs _ => exact touch hs rfl
  | joined m _ _ _ hs _ => exact touch hs rfl
  | started _ _ hs _ => exact touch hs rfl
  | replaced e hi he hs _ =>
    have h2 : (lookupIndex held c r fp).1.nextGeneration = c.nextGeneration + 2 := by
      rw [lookupIndex_eq, hi]
      simp only [if_neg he, nextGeneration_joinBuild, nextGeneration_invalidate]
      rfl
    exact .of_get (by omega) hs (.inr ⟨by simp, by simp [h2]⟩)

omit [EstimatedBytes ι] in
theorem nextGeneration_installRunner (held : Held) (c : ProjectCache ρ ι) (r : PathBuf)
    (ru : Arc ρ) (fp : ProjectFingerprint) :
    c.nextGeneration + 1 ≤ (installRunner held c r ru fp).1.nextGeneration := by
  unfold installRunner
  simp only [nextGeneration_enforce, nextGeneration_placeRunner]
  split
  · rw [nextGeneration_invalidate]
    omega
  · exact Nat.le_refl _

omit [EstimatedBytes ι] in
@[simp] theorem nextGeneration_discardProject (held : Held) (c : ProjectCache ρ ι)
    (r : PathBuf) : (discardProject held c r).nextGeneration = c.nextGeneration + 1 := by
  unfold discardProject
  simp

/-- No operation gives a generation back. -/
theorem nextGeneration_perform (held : Held) (c : ProjectCache ρ ι) (op : Op ρ ι) :
    c.nextGeneration ≤ (perform held c op).nextGeneration := by
  cases op with
  | runner root => exact Nat.le_refl _
  | installRunner root ru fp =>
    have := nextGeneration_installRunner held c root ru fp
    exact Nat.le_of_succ_le this
  | discardProject root =>
    simp only [perform, nextGeneration_discardProject]
    omega
  | invalidateAfterMaven root =>
    show c.nextGeneration ≤ (invalidate held c root).nextGeneration
    rw [nextGeneration_invalidate]
    omega
  | requireFullRebuild root => exact Nat.le_succ _
  | finishFullRebuild root g => exact Nat.le_refl _
  | invalidateGeneration root g =>
    show c.nextGeneration ≤ (invalidateGeneration held c root g).nextGeneration
    unfold invalidateGeneration
    split
    · rw [nextGeneration_invalidate]
      omega
    · exact Nat.le_refl _
  | lookupIndex root fp =>
    have := nextGeneration_lookupIndex held c root fp
    simp only [perform]
    omega
  | recordHit root => exact Nat.le_refl _
  | recordPersistedUse root a b d => exact Nat.le_refl _
  | reserve root g bytes => simp [perform]
  | publish root g index build fp res => simp [perform]
  | finishFailed root g =>
    simp only [perform, finishFailed, nextGeneration_enforce]
    exact Nat.le_refl _

/-- **Generations advance.**  Whatever an operation does, at every root. -/
theorem generation_perform (held : Held) (c : ProjectCache ρ ι) (op : Op ρ ι) (r : PathBuf) :
    Advances c r (perform held c op) := by
  have hn := nextGeneration_perform held c op
  by_cases hr : r = op.root
  · cases op with
    | runner root =>
      subst hr
      exact .of_map hn (get_runner_self c r) fun _ => rfl
    | installRunner root ru fp =>
      subst hr
      obtain ⟨st', hs, _, hi⟩ := installRunner_spec held c r ru fp
      refine .of_get hn hs ?_
      cases hi with
      | changed st e hst he hne hg =>
        have hl := nextGeneration_installRunner held c r ru fp
        refine .inr ⟨by omega, ?_⟩
        show st'.generation ≤ (installRunner held c r ru fp).1.nextGeneration
        omega
      | kept st hst _ hg =>
        left
        rw [generationOf_of_get hst, hg]
      | created hst hg _ _ _ =>
        have hl := nextGeneration_installRunner held c r ru fp
        refine .inr ⟨by omega, ?_⟩
        show st'.generation ≤ (installRunner held c r ru fp).1.nextGeneration
        omega
    | discardProject root =>
      subst hr
      exact ⟨hn, .inr (.inl (by
        rw [generationOf]
        exact congrArg _ (get_discardProject_self held c r)))⟩
    | invalidateAfterMaven root =>
      subst hr
      have hi := invalidate_advances held c r
      refine ⟨hn, ?_⟩
      have : (invalidateAfterMaven held c r).generationOf r
          = (invalidate held c r).generationOf r := by
        rw [generationOf, generationOf, invalidateAfterMaven, get_update_self, Option.map_map]
        rfl
      simp only [perform, this]
      exact hi.generation
    | requireFullRebuild root =>
      subst hr
      refine .of_get hn (get_requireFullRebuild_self c r) ?_
      cases hg : c.get r with
      | none => exact .inr ⟨Nat.lt_succ_self _, Nat.le_refl _⟩
      | some st =>
        left
        rw [generationOf_of_get hg]
        rfl
    | finishFullRebuild root g =>
      subst hr
      refine .of_map hn (get_finishFullRebuild_self c r g) fun st => ?_
      split <;> rfl
    | invalidateGeneration root g =>
      subst hr
      show Advances c r (invalidateGeneration held c r g)
      cases hc : c.isCurrent r g with
      | true =>
        rw [invalidateGeneration_of_current hc]
        exact invalidate_advances held c r
      | false =>
        rw [invalidateGeneration_of_stale hc]
        exact ⟨Nat.le_refl _, .inl rfl⟩
    | lookupIndex root fp =>
      subst hr
      exact lookupIndex_advances held c r fp
    | recordHit root =>
      subst hr
      exact .of_map hn (get_recordHit_self c r) fun _ => rfl
    | recordPersistedUse root a b d => exact ⟨hn, .inl rfl⟩
    | reserve root g bytes => exact .of_fades hn (reserve_fades held c root g bytes r)
    | publish root g index build fp res =>
      subst hr
      have hp := publish_spec held c r g index build fp res
      generalize (publish held c r g index build fp res).2 = answer at hp
      have kept : ∀ {st st'}, c.get r = some st →
          (perform held c (.publish r g index build fp res)).get r = some st' →
          st'.generation = st.generation →
          Advances c r (perform held c (.publish r g index build fp res)) := by
        intro st st' hst hs hg
        refine .of_get hn hs (.inl ?_)
        rw [generationOf_of_get hst, hg]
      cases hp with
      | stale _ hf => exact .of_fades hn hf
      | oversized st hst _ _ hs => exact kept hst hs rfl
      | uncached st hst _ hs => exact kept hst hs rfl
      | retained st hst _ hs => exact kept hst hs rfl
    | finishFailed root g =>
      subst hr
      have hf := finishFailed_self held c r g
      refine ⟨hn, ?_⟩
      cases hs : (finishFailed held c r g).get r with
      | none => exact .inr (.inl (by simp only [perform, generationOf, hs, Option.map_none]))
      | some st' =>
        rw [hs] at hf
        obtain ⟨st, hst, hfade⟩ := hf.some_right
        obtain ⟨st₀, hst₀, rfl⟩ := Option.map_eq_some_iff.mp hst
        left
        show (finishFailed held c r g).generationOf r = c.generationOf r
        rw [generationOf_of_get hs, generationOf_of_get hst₀, hfade.generation]
        split <;> rfl
  · exact .of_fades hn (perform_fades held c op hr)

/-! ## 4. Allocations -/

/-- No operation gives an allocation back. -/
theorem nextPtr_perform (held : Held) (c : ProjectCache ρ ι) (op : Op ρ ι) :
    c.nextPtr ≤ (perform held c op).nextPtr := by
  cases op with
  | runner r => exact Nat.le_refl _
  | installRunner r ru fp =>
    simp only [perform, installRunner, nextPtr_enforce, nextPtr_placeRunner]
    split
    · rw [nextPtr_invalidate]
    · exact Nat.le_refl _
  | discardProject r =>
    simp only [perform, discardProject, nextPtr_enforce, nextPtr_releaseRunner, nextPtr_invalidate]
    exact Nat.le_refl _
  | invalidateAfterMaven r =>
    show c.nextPtr ≤ (invalidate held c r).nextPtr
    rw [nextPtr_invalidate]
  | requireFullRebuild r => exact Nat.le_refl _
  | finishFullRebuild r g => exact Nat.le_refl _
  | invalidateGeneration r g =>
    simp only [perform, invalidateGeneration]
    split
    · rw [nextPtr_invalidate]
    · exact Nat.le_refl _
  | lookupIndex r fp =>
    have hl := lookupIndex_spec held c r fp
    show c.nextPtr ≤ (lookupIndex held c r fp).1.nextPtr
    generalize (lookupIndex held c r fp).2 = answer at hl
    cases hl with
    | cached _ _ _ _ hn => omega
    | joined _ _ _ _ _ hn => omega
    | started _ _ _ hn => omega
    | replaced _ _ _ _ hn => omega
  | recordHit r => exact Nat.le_refl _
  | recordPersistedUse r a b d => exact Nat.le_refl _
  | reserve r g bytes =>
    have hr := reserve_spec held c r g bytes
    show c.nextPtr ≤ (reserve held c r g bytes).1.nextPtr
    generalize (reserve held c r g bytes).2 = answer at hr
    cases hr with
    | stale _ hn => omega
    | overBudget _ _ _ hn => omega
    | reserved _ hn => omega
  | publish r g index build fp res => simp [perform]
  | finishFailed r g =>
    simp only [perform, finishFailed, nextPtr_enforce]
    exact Nat.le_refl _

end ProjectCache

end MavenMcp
