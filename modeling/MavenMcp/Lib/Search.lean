/-
# Searches that say when they are incomplete

A search goes over lists, and lists inside of them, and collects what it finds.  A step goes on with
the next element, stops the whole search, or fails.  Where it leaves something out it raises a flag.

`Covers` is what makes such a search trustworthy: where the flag is down in the end, nothing was
stopped and the finds are the expected ones.  There is one rule for a loop (`Covers.loop`) and one
for a step behind another change of the state (`Covers.after`).
-/
import Mathlib.Data.List.Basic

namespace Search

variable {ε σ α M : Type}

/-- `continue`, `break` out of all loops, and `?`. -/
inductive Outcome (ε σ : Type)
  | next (s : σ)
  | stop (s : σ)
  | failed (e : ε)
deriving DecidableEq, Repr

/-- The state in which the search ends. -/
def Outcome.final : Outcome ε σ → Except ε σ
  | next s => .ok s
  | stop s => .ok s
  | failed e => .error e

/-- The loop over a list. -/
def loop (step : α → σ → Outcome ε σ) : List α → σ → Outcome ε σ
  | [], s => .next s
  | a :: as, s =>
    match step a s with
    | .next s => loop step as s
    | .stop s => .stop s
    | .failed e => .failed e

section

variable (incomplete : σ → Bool) (finds : σ → List M)

/-- Where the flag is down in the end, the step has not stopped, the flag was down before, the finds
are as expected, and `P` holds. -/
def Covers (step : σ → Outcome ε σ) (expected : List M) (P : Prop) : Prop :=
  ∀ s t, (step s).final = .ok t → incomplete t = false →
    step s = .next t ∧ incomplete s = false ∧ finds t = finds s ++ expected ∧ P

end

variable {incomplete : σ → Bool} {finds : σ → List M}

theorem Covers.mono {step : σ → Outcome ε σ} {expected : List M} {P Q : Prop}
    (h : Covers incomplete finds step expected P) (hPQ : P → Q) :
    Covers incomplete finds step expected Q := by
  intro s t ht hflag
  obtain ⟨hnext, hstart, hfinds, hP⟩ := h s t ht hflag
  exact ⟨hnext, hstart, hfinds, hPQ hP⟩

/-- **The finds of a loop** are those of its elements, one after the other. -/
theorem Covers.loop {step : α → σ → Outcome ε σ} {expected : α → List M} {P : α → Prop} {l : List α}
    (h : ∀ a ∈ l, Covers incomplete finds (step a) (expected a) (P a)) :
    Covers incomplete finds (loop step l) (l.flatMap expected) (∀ a ∈ l, P a) := by
  induction l with
  | nil =>
    intro s t ht hflag
    cases ht
    exact ⟨rfl, hflag, (List.append_nil _).symm, nofun⟩
  | cons a as ih =>
    obtain ⟨ha, has⟩ := List.forall_mem_cons.mp h
    intro s t ht hflag
    rw [Search.loop] at ht ⊢
    cases hstep : step a s with
    | next s' =>
      rw [hstep] at ht
      obtain ⟨hnext, hmiddle, hfinds, hP⟩ := ih has s' t ht hflag
      obtain ⟨-, hstart, hfinds', hPa⟩ := ha s s' (by rw [hstep]; rfl) hmiddle
      refine ⟨hnext, hstart, ?_, List.forall_mem_cons.mpr ⟨hPa, hP⟩⟩
      rw [hfinds, hfinds', List.flatMap_cons, List.append_assoc]
    | stop s' =>
      rw [hstep] at ht
      cases ht
      obtain ⟨hnext, -⟩ := ha s t (by rw [hstep]; rfl) hflag
      rw [hstep] at hnext
      cases hnext
    | failed e =>
      rw [hstep] at ht
      cases ht

/-- A step that first changes the state, and does not lower the flag or touch the finds. -/
theorem Covers.after {step : σ → Outcome ε σ} {change : σ → σ} {expected : List M} {P : Prop}
    (h : Covers incomplete finds step expected P)
    (hflag : ∀ s, incomplete (change s) = false → incomplete s = false)
    (hfinds : ∀ s, finds (change s) = finds s) :
    Covers incomplete finds (fun s => step (change s)) expected P := by
  intro s t ht ht'
  obtain ⟨hnext, hstart, hfinds', hP⟩ := h (change s) t ht ht'
  exact ⟨hnext, hflag s hstart, hfinds s ▸ hfinds', hP⟩

end Search
