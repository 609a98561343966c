/-
# Slots held by the entries of a list

A counter of free slots and a list of holders belong together: the free slots and the entries
that hold one make up the capacity.  `Balanced` says so, and its rules are the ways in which a
list changes: a new entry, and one entry replaced by what it became.
-/
import Mathlib.Data.List.Basic

namespace Slots

variable {β : Type} {holds : β → Bool} {capacity free free' : Nat} {l : List β}

/-- The free slots and those held by an entry of `l` make up the capacity. -/
def Balanced (holds : β → Bool) (capacity free : Nat) (l : List β) : Prop :=
  free + l.countP holds = capacity

theorem Balanced.empty (holds : β → Bool) (capacity : Nat) :
    Balanced holds capacity capacity [] := by
  simp [Balanced]

/-- No more entries hold a slot than there are. -/
theorem Balanced.holders_le (h : Balanced holds capacity free l) : l.countP holds ≤ capacity := by
  unfold Balanced at h
  omega

/-- A new entry comes with its slot, or without one. -/
theorem Balanced.append (h : Balanced holds capacity free l) {b : β}
    (hfree : free' + (holds b).toNat = free) : Balanced holds capacity free' (l ++ [b]) := by
  unfold Balanced at h ⊢
  rw [List.countP_append, List.countP_singleton]
  cases hb : holds b <;> simp only [hb, Bool.toNat_false, Bool.toNat_true] at hfree ⊢ <;>
    simp <;> omega

/-- **One entry changes.**  What it holds less afterwards is free, and the other way round. -/
theorem Balanced.set (h : Balanced holds capacity free l) {i : Nat} {b b' : β}
    (hi : l[i]? = some b) (hfree : free' + (holds b').toNat = free + (holds b).toNat) :
    Balanced holds capacity free' (l.set i b') := by
  obtain ⟨hlt, hget⟩ := List.getElem?_eq_some_iff.mp hi
  have hle : (if holds l[i] then 1 else 0) ≤ l.countP holds := List.boole_getElem_le_countP hlt
  unfold Balanced at h ⊢
  rw [List.countP_set hlt]
  rw [hget] at hle ⊢
  cases hb : holds b <;> cases hb' : holds b' <;>
    simp only [hb, hb', Bool.toNat_false, Bool.toNat_true, Bool.false_eq_true, if_true,
      if_false] at hfree hle ⊢ <;> omega

end Slots
