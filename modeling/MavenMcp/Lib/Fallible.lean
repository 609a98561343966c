/-
# Programs that stop at a failure

A program of steps that may fail answers an error at the first one that does.  `Completes x all a`
says that it answers `a` where `all` holds (nothing fails), and an error otherwise; the rules
collect the condition along the binds and loops of the program.
-/
import Mathlib.Data.List.Basic

/-- The program answers `a` where nothing fails, and an error elsewhere. -/
structure Completes {ε α : Type} (x : Except ε α) (all : Prop) (a : α) : Prop where
  ok : all → x = .ok a
  error : ¬ all → ∃ e, x = .error e

namespace Completes

variable {ε α β σ : Type} {x : Except ε α} {F G : Prop} {a : α}

theorem pure (a : α) : Completes (.ok a : Except ε α) True a :=
  ⟨fun _ => rfl, fun h => absurd trivial h⟩

theorem congr (h : Completes x F a) (hFG : F ↔ G) : Completes x G a :=
  ⟨fun hG => h.ok (hFG.mpr hG), fun hG => h.error fun hF => hG (hFG.mp hF)⟩

theorem congrAnswer {b : α} (h : Completes x F a) (hab : F → a = b) : Completes x F b :=
  ⟨fun hF => hab hF ▸ h.ok hF, h.error⟩

/-- One program after another. -/
theorem bind {f : α → Except ε β} {b : β} (hx : Completes x F a) (hf : Completes (f a) G b) :
    Completes (x >>= f) (F ∧ G) b where
  ok h := by
    rw [hx.ok h.1]
    exact hf.ok h.2
  error h := by
    by_cases hF : F
    · rw [hx.ok hF]
      exact hf.error fun hG => h ⟨hF, hG⟩
    · obtain ⟨e, he⟩ := hx.error hF
      rw [he]
      exact ⟨e, rfl⟩

/-- A program that ends with its answer. -/
theorem bind_pure (h : Completes x F a) (f : α → β) :
    Completes (x >>= fun a => Pure.pure (f a)) F (f a) :=
  (h.bind (pure (f a))).congr (and_iff_left trivial)

/-- A program that asks first. -/
theorem ite {p : Prop} [Decidable p] {y : Except ε α} {b : α} (hx : p → Completes x F a)
    (hy : ¬ p → Completes y G b) :
    Completes (if p then x else y) ((p → F) ∧ (¬ p → G)) (if p then a else b) := by
  by_cases hp : p
  · rw [if_pos hp, if_pos hp]
    exact (hx hp).congr ⟨fun hF => ⟨fun _ => hF, fun hn => absurd hp hn⟩, fun h => h.1 hp⟩
  · rw [if_neg hp, if_neg hp]
    exact (hy hp).congr ⟨fun hG => ⟨fun hn => absurd hn hp, fun _ => hG⟩, fun h => h.2 hp⟩

/-- **Loops.** -/
theorem foldlM {f : σ → α → Except ε σ} {F : α → Prop} {next : σ → α → σ}
    (h : ∀ s a, Completes (f s a) (F a) (next s a)) (l : List α) (s : σ) :
    Completes (l.foldlM f s) (∀ a ∈ l, F a) (l.foldl next s) := by
  induction l generalizing s with
  | nil => exact (pure s).congr (by simp)
  | cons a l ih => exact ((h s a).bind (ih (next s a))).congr (by simp)

end Completes
