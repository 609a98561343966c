/-
# Decimal numerals

A canonical numeral, digits without a leading zero, is the spelling of the number it reads as
(`toDigits_ofDigitChars`), so parsing and spelling are inverse to each other.

Numerals of a fixed width may begin with zeros; their order as texts is the order of what they spell
(`compareLex_digits`).
-/
import Mathlib.Data.List.Induction
import Mathlib.Tactic.IntervalCases
import MavenMcp.Lib.Radix

namespace Decimal

theorem digitChar_of_isDigit {c : Char} (h : c.isDigit = true) :
    c.toNat - '0'.toNat < 10 ∧ (c.toNat - '0'.toNat).digitChar = c := by
  simp only [Char.isDigit, Bool.and_eq_true, decide_eq_true_eq] at h
  have hlow : 48 ≤ c.toNat := UInt32.le_iff_toNat_le.mp h.1
  have hhigh : c.toNat ≤ 57 := UInt32.le_iff_toNat_le.mp h.2
  have hzero : '0'.toNat = 48 := by decide
  obtain ⟨n, hn⟩ : ∃ n, c.toNat = n := ⟨_, rfl⟩
  have hc : c = Char.ofNat n := by rw [← hn, Char.ofNat_toNat]
  rw [hn] at hlow hhigh
  rw [hc, hzero]
  interval_cases n
  all_goals decide

/-- A canonical numeral is the spelling of its value. -/
theorem toDigits_ofDigitChars {text : List Char} (hne : text ≠ [])
    (hzero : text.head? ≠ some '0') (hdigits : ∀ c ∈ text, c.isDigit = true) :
    Nat.toDigits 10 (Nat.ofDigitChars 10 text 0) = text := by
  induction text using List.reverseRecOn with
  | nil => exact absurd rfl hne
  | append_singleton front c ih =>
    obtain ⟨hlt, hchar⟩ := digitChar_of_isDigit (hdigits c (by simp))
    rw [Nat.ofDigitChars_append, Nat.ofDigitChars_cons, Nat.ofDigitChars_nil]
    by_cases hfront : front = []
    · rw [hfront, Nat.ofDigitChars_nil, Nat.mul_zero, Nat.zero_add, Nat.toDigits_of_lt_base hlt,
        hchar]
      rfl
    · obtain ⟨d, rest, rfl⟩ := List.exists_cons_of_ne_nil hfront
      have hspelled := ih hfront hzero fun x hx => hdigits x (List.mem_append_left _ hx)
      have hpos : 0 < Nat.ofDigitChars 10 (d :: rest) 0 := by
        refine Nat.pos_of_ne_zero fun hnil => ?_
        rw [hnil, Nat.toDigits_zero] at hspelled
        cases hspelled
        exact hzero rfl
      rw [← Nat.toDigits_append_toDigits (by decide) hpos hlt, hspelled,
        Nat.toDigits_of_lt_base hlt, hchar]

/-- A positive number is spelled without a leading zero. -/
theorem head_toDigits {n : Nat} (hn : 0 < n) : (Nat.toDigits 10 n).head? ≠ some '0' := by
  induction n using Nat.strongRecOn with
  | ind n ih =>
    by_cases hlt : n < 10
    · rw [Nat.toDigits_of_lt_base hlt, List.head?_cons]
      intro h
      exact absurd (Nat.digitChar_eq_zero.mp (Option.some.inj h)) (by omega)
    · have hhead := ih (n / 10) (by omega) (by omega)
      rw [Nat.toDigits_of_base_le (by decide) (by omega)]
      obtain ⟨c, rest, hdigits⟩ :=
        List.exists_cons_of_ne_nil (Nat.toDigits_ne_nil (n := n / 10) (b := 10))
      rw [hdigits] at hhead ⊢
      exact hhead

/-! ## Numerals of a fixed width -/

/-- A numeral of so many digits. -/
structure Digits (n : Nat) (w : List Char) : Prop where
  length_eq : w.length = n
  isDigit : ∀ c ∈ w, c.isDigit = true

theorem digits_cons_iff {n : Nat} {c : Char} {w : List Char} :
    Digits (n + 1) (c :: w) ↔ c.isDigit = true ∧ Digits n w := by
  constructor
  · rintro ⟨hlength, hdigits⟩
    obtain ⟨hc, hw⟩ := List.forall_mem_cons.mp hdigits
    exact ⟨hc, Nat.succ.inj hlength, hw⟩
  · rintro ⟨hc, hlength, hw⟩
    exact ⟨congrArg Nat.succ hlength, List.forall_mem_cons.mpr ⟨hc, hw⟩⟩

/-- The value of a numeral, by its first digit. -/
theorem ofDigitChars_digit_cons (c : Char) (w : List Char) :
    Nat.ofDigitChars 10 (c :: w) 0
      = (c.toNat - '0'.toNat) * 10 ^ w.length + Nat.ofDigitChars 10 w 0 := by
  rw [Nat.ofDigitChars_cons, Nat.ofDigitChars_eq_ofDigitChars_zero, Nat.mul_zero, Nat.zero_add,
    Nat.mul_comm]

theorem ofDigitChars_digits_append (u v : List Char) :
    Nat.ofDigitChars 10 (u ++ v) 0
      = 10 ^ v.length * Nat.ofDigitChars 10 u 0 + Nat.ofDigitChars 10 v 0 := by
  rw [Nat.ofDigitChars_append, Nat.ofDigitChars_eq_ofDigitChars_zero (l := v)]

theorem Digits.lt {n : Nat} {w : List Char} (h : Digits n w) :
    Nat.ofDigitChars 10 w 0 < 10 ^ n := by
  induction w generalizing n with
  | nil => exact Nat.pow_pos (by decide)
  | cons c w ih =>
    obtain ⟨n, rfl⟩ : ∃ m, n = m + 1 := ⟨w.length, h.length_eq.symm⟩
    obtain ⟨hc, hw⟩ := digits_cons_iff.mp h
    have hlt := ih hw
    have hdigit := (digitChar_of_isDigit hc).1
    rw [ofDigitChars_digit_cons, hw.length_eq, Nat.pow_succ]
    generalize 10 ^ n = k at hlt ⊢
    have hle : (c.toNat - '0'.toNat) * k ≤ 9 * k := Nat.mul_le_mul_right k (by omega)
    omega

/-- Digits are ordered as their values. -/
theorem compare_sub_zero {c d : Char} (hc : c.isDigit = true) (hd : d.isDigit = true) :
    compare (c.toNat - '0'.toNat) (d.toNat - '0'.toNat) = compare c.toNat d.toNat := by
  simp only [Char.isDigit, Bool.and_eq_true, decide_eq_true_eq] at hc hd
  have hc' : 48 ≤ c.toNat := UInt32.le_iff_toNat_le.mp hc.1
  have hd' : 48 ≤ d.toNat := UInt32.le_iff_toNat_le.mp hd.1
  exact compare_sub_same hc' hd'

/-- **Numerals of one width** are ordered as what they spell, and what follows them decides between
equal ones. -/
theorem compareLex_digits {n : Nat} {u v a b : List Char} {cmp : Char → Char → Ordering}
    (hcmp : ∀ c d, cmp c d = compare c.toNat d.toNat) (hu : Digits n u) (hv : Digits n v) :
    List.compareLex cmp (u ++ a) (v ++ b)
      = (compare (Nat.ofDigitChars 10 u 0) (Nat.ofDigitChars 10 v 0)).then
          (List.compareLex cmp a b) := by
  induction n generalizing u v with
  | zero =>
    rw [List.eq_nil_of_length_eq_zero hu.length_eq, List.eq_nil_of_length_eq_zero hv.length_eq]
    rfl
  | succ n ih =>
    obtain ⟨c, u, rfl⟩ := List.exists_cons_of_length_eq_add_one hu.length_eq
    obtain ⟨d, v, rfl⟩ := List.exists_cons_of_length_eq_add_one hv.length_eq
    obtain ⟨hc, hu⟩ := digits_cons_iff.mp hu
    obtain ⟨hd, hv⟩ := digits_cons_iff.mp hv
    rw [List.cons_append, List.cons_append, List.compareLex_cons_cons, hcmp, ih hu hv,
      ofDigitChars_digit_cons, ofDigitChars_digit_cons, hu.length_eq, hv.length_eq,
      compare_mul_add hu.lt hv.lt, compare_sub_zero hc hd]
    cases compare c.toNat d.toNat <;> rfl

/-- A number in at least so many digits. -/
theorem digits_pad {n k : Nat} (hk : 0 < k) (h : n < 10 ^ k) :
    Digits k (List.replicate (k - (Nat.toDigits 10 n).length) '0' ++ Nat.toDigits 10 n) := by
  have hlength := (Nat.length_toDigits_le_iff (by decide) hk).mpr h
  constructor
  · rw [List.length_append, List.length_replicate]
    omega
  · intro c hc
    rcases List.mem_append.mp hc with hc | hc
    · rw [List.eq_of_mem_replicate hc]
      rfl
    · exact Nat.isDigit_of_mem_toDigits (by decide) (by decide) hc

theorem ofDigitChars_pad (n k : Nat) :
    Nat.ofDigitChars 10 (List.replicate k '0' ++ Nat.toDigits 10 n) 0 = n := by
  rw [Nat.ofDigitChars_append, Nat.ofDigitChars_replicate_zero, Nat.mul_zero,
    Nat.ofDigitChars_ten_toDigits]

end Decimal
