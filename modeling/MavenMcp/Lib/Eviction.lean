/-
# Evicting to a budget

What is held in a list, in the order in which it is given up, and has weights.  `victims` walks the
list with the excess over a budget and gives up elements until none is left; `ShortestPrefix` says
what this should be, and `shortestPrefix_victims` that it is, for any list and any budget.
-/
import Mathlib.Algebra.GroupWithZero.Nat
import Mathlib.Data.List.Basic
import Mathlib.Data.List.Infix

namespace Eviction

variable {α : Type} (weight : α → Nat)

/-- The weight of a list. -/
def load (l : List α) : Nat := (l.map weight).sum

@[simp] theorem load_nil : load weight [] = 0 := rfl

@[simp] theorem load_cons (x : α) (l : List α) :
    load weight (x :: l) = weight x + load weight l := by
  simp [load]

theorem load_perm {l l' : List α} (h : l.Perm l') : load weight l = load weight l' :=
  (h.map weight).sum_nat

/-- The elements at the front are as few as can go for the others to be within the budget. -/
structure ShortestPrefix (budget : Nat) (l front : List α) : Prop where
  isPrefix : front <+: l
  fits : load weight (l.drop front.length) ≤ budget
  shortest : ∀ n < front.length, budget < load weight (l.drop n)

/-- What is given up for an excess. -/
def victims : Int → List α → List α
  | _, [] => []
  | excess, x :: l => if 0 < excess then x :: victims (excess - weight x) l else []

variable {weight}

theorem victims_of_nonpos {excess : Int} (h : excess ≤ 0) (l : List α) :
    victims weight excess l = [] := by
  cases l with
  | nil => rfl
  | cons x l => exact if_neg (by omega)

/-- **Just enough is given up.** -/
theorem shortestPrefix_victims (budget : Nat) (l : List α) :
    ShortestPrefix weight budget l (victims weight (load weight l - budget) l) := by
  induction l with
  | nil => exact ⟨List.nil_prefix, Nat.zero_le _, nofun⟩
  | cons x l ih =>
    rw [victims]
    split
    next hexcess =>
      have hrest : ((load weight (x :: l) : Int) - budget) - weight x = load weight l - budget := by
        rw [load_cons]
        omega
      rw [hrest]
      refine ⟨List.cons_prefix_cons.mpr ⟨rfl, ih.isPrefix⟩, ih.fits, fun n hn => ?_⟩
      cases n with
      | zero =>
        rw [List.drop_zero]
        omega
      | succ n => exact ih.shortest n (Nat.lt_of_succ_lt_succ hn)
    next hexcess =>
      refine ⟨List.nil_prefix, ?_, nofun⟩
      rw [List.length_nil, List.drop_zero]
      omega

/-- There is only one such front. -/
theorem ShortestPrefix.unique {budget : Nat} {l front front' : List α}
    (h : ShortestPrefix weight budget l front) (h' : ShortestPrefix weight budget l front') :
    front = front' := by
  have hle : ∀ {front front' : List α}, ShortestPrefix weight budget l front →
      ShortestPrefix weight budget l front' → front.length ≤ front'.length := by
    intro front front' h h'
    by_contra hlt
    exact absurd h'.fits (Nat.not_le_of_lt (h.shortest _ (by omega)))
  rw [List.prefix_iff_eq_take.mp h.isPrefix, List.prefix_iff_eq_take.mp h'.isPrefix,
    Nat.le_antisymm (hle h h') (hle h' h)]

end Eviction
