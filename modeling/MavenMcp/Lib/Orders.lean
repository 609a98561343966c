/-
# Orders put together from others

A record is compared field by field, an optional value with its absence first.  Each comparison is
lawful where those of the parts are, so a sort by it depends on the elements only and not on their
order (`mergeSort_eq_of_perm`).
-/
import Mathlib.Data.List.Sort

namespace Orders

variable {α β : Type}

/-- Compare by a field. -/
def onField (f : α → β) (cmp : β → β → Ordering) (a b : α) : Ordering := cmp (f a) (f b)

/-- Compare optional values; what is absent comes first. -/
def option (cmp : α → α → Ordering) : Option α → Option α → Ordering
  | none, none => .eq
  | none, some _ => .lt
  | some _, none => .gt
  | some a, some b => cmp a b

/-- Sort by a comparison. -/
def sortBy (cmp : α → α → Ordering) (l : List α) : List α := l.mergeSort fun a b => (cmp a b).isLE

instance onField_trans (f : α → β) (cmp : β → β → Ordering) [Std.TransCmp cmp] :
    Std.TransCmp (onField f cmp) where
  eq_swap {a b} := by
    have h : cmp (f a) (f b) = (cmp (f b) (f a)).swap := Std.OrientedCmp.eq_swap
    exact h
  isLE_trans {a b c} hab hbc := by
    have h : (cmp (f a) (f c)).isLE = true := Std.TransCmp.isLE_trans hab hbc
    exact h

theorem option_eq_swap {cmp : α → α → Ordering} [Std.OrientedCmp cmp] (a b : Option α) :
    option cmp a b = (option cmp b a).swap := by
  cases a with
  | none => cases b <;> rfl
  | some a =>
    cases b with
    | none => rfl
    | some b =>
      have h : cmp a b = (cmp b a).swap := Std.OrientedCmp.eq_swap
      exact h

instance option_trans (cmp : α → α → Ordering) [Std.TransCmp cmp] : Std.TransCmp (option cmp) where
  eq_swap := option_eq_swap _ _
  isLE_trans {a b c} hab hbc := by
    cases a with
    | none => cases c <;> rfl
    | some a =>
      cases b with
      | none => cases hab
      | some b =>
        cases c with
        | none => cases hbc
        | some c =>
          have h : (cmp a c).isLE = true := Std.TransCmp.isLE_trans hab hbc
          exact h

instance option_lawful (cmp : α → α → Ordering) [Std.LawfulEqCmp cmp] :
    Std.LawfulEqCmp (option cmp) where
  compare_self {a} := by
    cases a with
    | none => rfl
    | some a =>
      have h : cmp a a = .eq := Std.ReflCmp.compare_self
      exact h
  eq_of_compare {a b} h := by
    cases a with
    | none =>
      cases b with
      | none => rfl
      | some b => cases h
    | some a =>
      cases b with
      | none => cases h
      | some b => exact congrArg some (Std.LawfulEqCmp.eq_of_compare h)

theorem eq_of_onField {f : α → β} {cmp : β → β → Ordering} [Std.LawfulEqCmp cmp] {a b : α}
    (h : onField f cmp a b = .eq) : f a = f b := Std.LawfulEqCmp.eq_of_compare h

theorem compareLex_eq_iff {cmp cmp' : α → α → Ordering} {a b : α} :
    compareLex cmp cmp' a b = .eq ↔ cmp a b = .eq ∧ cmp' a b = .eq := by
  rw [compareLex, Ordering.then_eq_eq]

/-- **A sort depends on the elements only**, where it tells them apart. -/
theorem mergeSort_eq_of_perm {cmp : α → α → Ordering} [Std.TransCmp cmp] {l l' : List α}
    (h : l.Perm l') (hapart : ∀ a ∈ l, ∀ b ∈ l, cmp a b = .eq → a = b) :
    sortBy cmp l = sortBy cmp l' := by
  have htrans : ∀ a b c : α, (cmp a b).isLE = true → (cmp b c).isLE = true →
      (cmp a c).isLE = true := fun _ _ _ => Std.TransCmp.isLE_trans
  have htotal : ∀ a b : α, ((cmp a b).isLE || (cmp b a).isLE) = true := by
    intro a b
    have hswap : cmp b a = (cmp a b).swap := Std.OrientedCmp.eq_swap
    rw [hswap]
    cases cmp a b <;> rfl
  refine List.Perm.eq_of_pairwise (fun a b ha hb hab hba => ?_)
    (List.pairwise_mergeSort htrans htotal l) (List.pairwise_mergeSort htrans htotal l')
    ((List.mergeSort_perm l _).trans (h.trans (List.mergeSort_perm l' _).symm))
  exact hapart a (List.mem_mergeSort.mp ha) b (h.mem_iff.mpr (List.mem_mergeSort.mp hb))
    (Std.OrientedCmp.isLE_antisymm hab hba)

/-- The same elements in another order, each up to a relation. -/
def Reordered (R : α → α → Prop) (l l' : List α) : Prop := ∃ m, l.Perm m ∧ List.Forall₂ R m l'

theorem map_eq_of_forall₂ {R : α → α → Prop} {f : α → β} (hf : ∀ a b, R a b → f a = f b)
    {l l' : List α} (h : List.Forall₂ R l l') : l.map f = l'.map f := by
  induction h with
  | nil => rfl
  | cons hab _ ih => rw [List.map_cons, List.map_cons, hf _ _ hab, ih]

theorem Reordered.map {R : α → α → Prop} {l l' : List α} (h : Reordered R l l') {f : α → β}
    (hf : ∀ a b, R a b → f a = f b) : (l.map f).Perm (l'.map f) := by
  obtain ⟨m, hperm, hforall⟩ := h
  exact map_eq_of_forall₂ hf hforall ▸ hperm.map f

end Orders
