/-
# `while` loops and runs of a step function

Small pieces that every state machine of this development uses.

* `Loop.run body n s` is `while let Some(s') = body(s) { s = s' }`, cut off after `n` rounds.
  A measure that each round lowers makes the cut-off invisible: `Loop.exits_run` says the
  result is the state in which the loop really exits.
* `Loop.flow body n s` is the same for a `loop` whose last round may change the state, too
  (`break` after work); `Loop.flow_eq` unfolds one round once the cut-off does not show.
* `Loop.iterate body μ hμ s` repeats a body until it comes to a result, without a cut-off: `μ` takes
  values in any well-founded order.
* `Steps.run step s as` plays a list of actions against a partial step function, and
  `Steps.Reaches` is the relation it realises.  `Steps.Reaches.invariant` is the only induction
  over runs: a property of the start that every step keeps holds at the end.
-/
import Mathlib.Logic.Relation

namespace Loop

variable {σ : Type}

/-- Run the loop body until it answers `none`, for at most `n` rounds. -/
def run (body : σ → Option σ) : Nat → σ → σ
  | 0, s => s
  | n + 1, s =>
    match body s with
    | some s' => run body n s'
    | none => s

/-- One round of the loop. -/
def Round (body : σ → Option σ) (s s' : σ) : Prop := body s = some s'

/-- The loop started in `s` comes to its exit in `t`. -/
def Exits (body : σ → Option σ) (s t : σ) : Prop :=
  Relation.ReflTransGen (Round body) s t ∧ body t = none

theorem reaches_run (body : σ → Option σ) : ∀ (n : Nat) (s : σ),
    Relation.ReflTransGen (Round body) s (run body n s)
  | 0, _ => .refl
  | n + 1, s => by
    unfold run
    cases h : body s with
    | none => exact .refl
    | some s' => exact .head h (reaches_run body n s')

/-- The cut-off never shows from states with a property that every round keeps, when every round
from such a state lowers `μ`. -/
theorem run_exits {body : σ → Option σ} {P : σ → Prop} (μ : σ → Nat)
    (hround : ∀ s s', body s = some s' → P s → P s' ∧ μ s' < μ s) :
    ∀ (n : Nat) (s : σ), P s → μ s ≤ n → P (run body n s) ∧ body (run body n s) = none := by
  intro n
  induction n with
  | zero =>
    intro s hP hn
    refine ⟨hP, ?_⟩
    cases h : body s with
    | none => exact h
    | some s' => have := (hround s s' h hP).2; omega
  | succ n ih =>
    intro s hP hn
    unfold run
    cases h : body s with
    | none => exact ⟨hP, h⟩
    | some s' =>
      obtain ⟨hP', hμ⟩ := hround s s' h hP
      exact ih s' hP' (by omega)

/-- **The cut-off never shows.**  When every round lowers `μ`, as many rounds as `μ s` reach
the exit of the loop. -/
theorem exits_run {body : σ → Option σ} (μ : σ → Nat)
    (hμ : ∀ s s', body s = some s' → μ s' < μ s) :
    ∀ (n : Nat) (s : σ), μ s ≤ n → Exits body s (run body n s) := by
  intro n s hn
  have hround : ∀ s s', body s = some s' → True → True ∧ μ s' < μ s :=
    fun s s' h _ => ⟨trivial, hμ s s' h⟩
  exact ⟨reaches_run body n s, (run_exits μ hround n s trivial hn).2⟩

/-- A property that every round keeps survives any number of rounds. -/
theorem run_invariant {body : σ → Option σ} {P : σ → Prop}
    (hP : ∀ s s', body s = some s' → P s → P s') (n : Nat) {s : σ} (h : P s) :
    P (run body n s) := by
  have hr := reaches_run body n s
  generalize run body n s = t at hr ⊢
  induction hr with
  | refl => exact h
  | tail _ hb ih => exact hP _ _ hb ih

/-- Run the loop body, which goes on or leaves, for at most `n` rounds. -/
def flow (body : σ → ForInStep σ) : Nat → σ → σ
  | 0, s => s
  | n + 1, s =>
    match body s with
    | .yield s' => flow body n s'
    | .done s' => s'

/-- More rounds than the measure allows make no difference. -/
theorem flow_stable {body : σ → ForInStep σ} (μ : σ → Nat)
    (hμ : ∀ s s', body s = .yield s' → μ s' < μ s) :
    ∀ (n m : Nat) (s : σ), μ s < n → μ s < m → flow body n s = flow body m s := by
  intro n
  induction n with
  | zero => intro m s hn; omega
  | succ n ih =>
    intro m s hn hm
    cases m with
    | zero => omega
    | succ m =>
      unfold flow
      cases h : body s with
      | done s' => rfl
      | yield s' =>
        have := hμ s s' h
        exact ih m s' (by omega) (by omega)

/-- **One round of the loop**, when every round that goes on lowers `μ`. -/
theorem flow_eq {body : σ → ForInStep σ} (μ : σ → Nat)
    (hμ : ∀ s s', body s = .yield s' → μ s' < μ s) (s : σ) :
    flow body (μ s + 1) s =
      match body s with
      | .yield s' => flow body (μ s' + 1) s'
      | .done s' => s' := by
  rw [flow]
  cases h : body s with
  | done s' => rfl
  | yield s' =>
    have := hμ s s' h
    exact flow_stable μ hμ _ _ s' (by omega) (by omega)

/-- What every round does, a reflexive and transitive relation, the loop does. -/
theorem flow_rel {body : σ → ForInStep σ} {R : σ → σ → Prop} (hrefl : ∀ s, R s s)
    (htrans : ∀ s t u, R s t → R t u → R s u) (hround : ∀ s, R s (body s).value) (n : Nat)
    (s : σ) : R s (flow body n s) := by
  induction n generalizing s with
  | zero => exact hrefl s
  | succ n ih =>
    have hs := hround s
    unfold flow
    cases h : body s with
    | done s' =>
      rw [h] at hs
      exact hs
    | yield s' =>
      rw [h] at hs
      exact htrans s s' _ hs (ih s')

/-- Two loops leave or go on alike, in related states. -/
def Alike {τ : Type} (R : σ → τ → Prop) : ForInStep σ → ForInStep τ → Prop
  | .yield s, .yield t => R s t
  | .done s, .done t => R s t
  | _, _ => False

/-- **Two loops in step.**  `Q` is what is known of the state in which the first loop ends, and of
every state on the way there. -/
theorem flow_alike {τ : Type} {body : σ → ForInStep σ} {body' : τ → ForInStep τ} (μ : σ → Nat)
    (μ' : τ → Nat) (hμ : ∀ s s', body s = .yield s' → μ s' < μ s)
    (hμ' : ∀ t t', body' t = .yield t' → μ' t' < μ' t) {Q : σ → Prop} {R : σ → τ → Prop}
    (hback : ∀ s, Q (body s).value → Q s)
    (hround : ∀ s t, R s t → Q (body s).value → Alike R (body s) (body' t)) :
    ∀ (n m : Nat) (s : σ) (t : τ), μ s < n → μ' t < m → R s t → Q (flow body n s) →
      R (flow body n s) (flow body' m t) := by
  intro n
  induction n with
  | zero => intro m s t hn; omega
  | succ n ih =>
    intro m s t hn hm hr hq
    obtain ⟨m, rfl⟩ : ∃ k, m = k + 1 := ⟨m - 1, by omega⟩
    have hend : ∀ (k : Nat) (s : σ), Q (flow body k s) → Q s := fun k s hk =>
      flow_rel (R := fun s s' => Q s' → Q s) (fun _ => id) (fun _ _ _ h h' h'' => h (h' h'')) hback
        k s hk
    have halike := hround s t hr
    unfold flow at hq ⊢
    cases hs : body s with
    | done s' =>
      simp only [hs] at hq halike ⊢
      cases ht : body' t with
      | done t' =>
        rw [ht] at halike
        exact halike hq
      | yield t' =>
        rw [ht] at halike
        exact (halike hq).elim
    | yield s' =>
      simp only [hs] at hq halike ⊢
      have hq' := hend n s' hq
      cases ht : body' t with
      | done t' =>
        rw [ht] at halike
        exact (halike hq').elim
      | yield t' =>
        rw [ht] at halike
        have hlt := hμ s s' hs
        have hlt' := hμ' t t' ht
        exact ih m s' t' (by omega) (by omega) (halike hq') hq

/-! ### Loops without a cut-off -/

section

variable {α γ : Type} [WellFoundedRelation γ]

/-- Repeat a body that goes on or comes to a result; every round lowers `μ`. -/
def iterate (body : σ → σ ⊕ α) (μ : σ → γ)
    (hμ : ∀ s s', body s = .inl s' → WellFoundedRelation.rel (μ s') (μ s)) (s : σ) : α :=
  match _h : body s with
  | .inl s' => iterate body μ hμ s'
  | .inr a => a
termination_by μ s
decreasing_by exact hμ _ _ _h

/-- A round that goes on. -/
def Goes (body : σ → σ ⊕ α) (s s' : σ) : Prop := body s = .inl s'

variable {body : σ → σ ⊕ α} {μ : σ → γ}
  (hμ : ∀ s s', body s = .inl s' → WellFoundedRelation.rel (μ s') (μ s))

/-- **The result** is that of a state which rounds lead to. -/
theorem exists_end_of_iterate (s : σ) :
    ∃ t, Relation.ReflTransGen (Goes body) s t ∧ body t = .inr (iterate body μ hμ s) := by
  fun_induction iterate body μ hμ s with
  | case1 s s' h ih =>
    obtain ⟨t, hrounds, ht⟩ := ih
    exact ⟨t, .head h hrounds, ht⟩
  | case2 s a h => exact ⟨s, .refl, h⟩

/-- The first rounds, if they come to a result. -/
def first (body : σ → σ ⊕ α) : Nat → σ → Option α
  | 0, _ => none
  | n + 1, s =>
    match body s with
    | .inl s' => first body n s'
    | .inr a => some a

theorem iterate_eq_of_first {n : Nat} {s : σ} {a : α} (h : first body n s = some a) :
    iterate body μ hμ s = a := by
  induction n generalizing s with
  | zero => cases h
  | succ n ih =>
    unfold first at h
    unfold iterate
    split
    · rename_i s' hs
      simp only [hs] at h
      exact ih h
    · rename_i b hs
      simp only [hs] at h
      exact Option.some.inj h

end

end Loop

namespace Steps

variable {σ α : Type}

/-- Play a list of actions; `none` as soon as one of them is not enabled. -/
def run (step : σ → α → Option σ) : σ → List α → Option σ
  | s, [] => some s
  | s, a :: as => (step s a).bind fun s' => run step s' as

/-- `t` is reached from `s` by steps whose actions were all allowed by `ok` when taken. -/
inductive Reaches (step : σ → α → Option σ) (ok : σ → α → Prop) (s : σ) : σ → Prop
  | refl : Reaches step ok s s
  | tail {t u : σ} {a : α} :
      Reaches step ok s t → ok t a → step t a = some u → Reaches step ok s u

theorem Reaches.trans {step : σ → α → Option σ} {ok : σ → α → Prop} {s t u : σ}
    (h₁ : Reaches step ok s t) (h₂ : Reaches step ok t u) : Reaches step ok s u := by
  induction h₂ with
  | refl => exact h₁
  | tail _ ha hs ih => exact ih.tail ha hs

/-- Play a list of actions while a monitor allows them. -/
def runWhile (step : σ → α → Option σ) (ok : σ → α → Bool) : σ → List α → Option σ
  | s, [] => some s
  | s, a :: as => if ok s a then (step s a).bind fun s' => runWhile step ok s' as else none

theorem Reaches.mono {step : σ → α → Option σ} {ok ok' : σ → α → Prop}
    (hok : ∀ s a, ok s a → ok' s a) {s t : σ} (h : Reaches step ok s t) :
    Reaches step ok' s t := by
  induction h with
  | refl => exact .refl
  | tail _ ha hs ih => exact ih.tail (hok _ _ ha) hs

/-- A played list of actions is a run. -/
theorem reaches_of_runWhile {step : σ → α → Option σ} {ok : σ → α → Bool} :
    ∀ (as : List α) {s t : σ}, runWhile step ok s as = some t →
      Reaches step (fun s a => ok s a = true) s t
  | [], s, t, h => by
    cases h
    exact .refl
  | a :: as, s, t, h => by
    simp only [runWhile] at h
    split at h
    · rename_i ha
      obtain ⟨s', hs, ht⟩ := Option.bind_eq_some_iff.mp h
      have hfirst : Reaches step (fun s a => ok s a = true) s s' := .tail .refl ha hs
      exact hfirst.trans (reaches_of_runWhile as ht)
    · cases h

/-- **The induction over runs.**  What holds at the start and is kept by every allowed step
holds at the end. -/
theorem Reaches.invariant {step : σ → α → Option σ} {ok : σ → α → Prop} {P : σ → Prop} {s t : σ}
    (h : Reaches step ok s t) (h₀ : P s)
    (hstep : ∀ u v a, P u → ok u a → step u a = some v → P v) : P t := by
  induction h with
  | refl => exact h₀
  | tail _ ha hs ih => exact hstep _ _ _ ih ha hs

end Steps
