/-
# Orders of parts

A number that is counted in units and a rest, as a day is in years and days or a numeral in digits,
is compared by its units first and then by its rest.
-/
import Mathlib.Order.Compare
import Mathlib.Order.Monotone.Basic

/-- What is taken away from both does not matter. -/
theorem compare_sub_same {a b k : Nat} (ha : k ≤ a) (hb : k ≤ b) :
    compare (a - k) (b - k) = compare a b := by
  rcases Nat.lt_trichotomy a b with h | h | h
  · rw [Nat.compare_eq_lt.mpr h, Nat.compare_eq_lt.mpr (by omega)]
  · rw [Nat.compare_eq_eq.mpr h, Nat.compare_eq_eq.mpr (by omega)]
  · rw [Nat.compare_eq_gt.mpr h, Nat.compare_eq_gt.mpr (by omega)]

/-- Numbers are compared by the part that is counted by `f` first, and then by what is left. -/
theorem compare_of_floors {f : Nat → Nat} (hf : Monotone f) {a b m n : Nat} (ha : f a ≤ m)
    (ha' : m < f (a + 1)) (hb : f b ≤ n) (hb' : n < f (b + 1)) :
    compare m n = (compare a b).then (compare (m - f a) (n - f b)) := by
  rcases Nat.lt_trichotomy a b with h | rfl | h
  · have hlt : m < n := ha'.trans_le ((hf h).trans hb)
    rw [Nat.compare_eq_lt.mpr h, Nat.compare_eq_lt.mpr hlt]
    rfl
  · rw [Nat.compare_eq_eq.mpr rfl, Ordering.eq_then, compare_sub_same ha hb]
  · have hlt : n < m := hb'.trans_le ((hf h).trans ha)
    rw [Nat.compare_eq_gt.mpr h, Nat.compare_eq_gt.mpr hlt]
    rfl

/-- Numbers in a mixed base are compared digit by digit. -/
theorem compare_mul_add {k a b x y : Nat} (hx : x < k) (hy : y < k) :
    compare (a * k + x) (b * k + y) = (compare a b).then (compare x y) := by
  have hmono : Monotone fun n => n * k := fun m n h => Nat.mul_le_mul_right k h
  have h := compare_of_floors hmono (a := a) (b := b) (m := a * k + x) (n := b * k + y)
    (Nat.le_add_right _ _) (by rw [Nat.add_mul]; omega) (Nat.le_add_right _ _)
    (by rw [Nat.add_mul]; omega)
  simpa using h
