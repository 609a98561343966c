/-
# Text cut off at a limit

A source that is longer than its limit is read up to there, and `complete_utf8_prefix_len` drops the
character that the limit cuts in two.  The loop skips what is invalid and asks `from_utf8` again
behind it.  Of a valid text, what is left ends at the last boundary up to the limit; of any bytes,
at most the front of one character is dropped (`completeUtf8PrefixLen_spec`).
-/
import MavenMcp.Lib.Utf8Error
import Mathlib.Order.Bounds.Basic

namespace MavenMcp
namespace Index

open Text Utf8

theorem lt_length_of_error {bytes : List UInt8} {offset validUpTo invalidLen : Nat}
    (h : fromUtf8 (bytes.drop offset) = some { validUpTo, errorLen := some invalidLen }) :
    0 < invalidLen ∧ offset + validUpTo + invalidLen ≤ bytes.length := by
  have hanswer := fromUtf8_spec (bytes.drop offset)
  rw [h] at hanswer
  obtain ⟨text, tail, hbytes, hvalid, rest, hnext⟩ := hanswer
  obtain ⟨bad, rfl, hlength, hpos⟩ := eq_append_of_invalid hnext
  have hlen := congrArg List.length hbytes
  simp only [List.length_drop, List.length_append] at hlen hvalid
  omega

/-- The loop of `complete_utf8_prefix_len`; `none` where slicing the bytes at `offset` panics. -/
def completeUtf8PrefixFrom (bytes : List UInt8) (offset : Nat) : Option Nat :=
  if offset ≤ bytes.length then
    match _h : fromUtf8 (bytes.drop offset) with
    | none => some bytes.length
    | some { validUpTo, errorLen := some invalidLen } =>
      completeUtf8PrefixFrom bytes (offset + (validUpTo + invalidLen))
    | some { validUpTo, errorLen := none } => some (offset + validUpTo)
  else none
termination_by bytes.length - offset
decreasing_by
  have := lt_length_of_error _h
  omega

/-- Length of `bytes` without a trailing UTF-8 sequence cut off by truncation. -/
def completeUtf8PrefixLen (bytes : List UInt8) : Option Nat := completeUtf8PrefixFrom bytes 0

/-- What the loop leaves out is nothing, or the input ends inside of it. -/
theorem completeUtf8PrefixFrom_spec {bytes : List UInt8} {offset : Nat}
    (h : offset ≤ bytes.length) :
    ∃ k, completeUtf8PrefixFrom bytes offset = some k ∧ k ≤ bytes.length ∧
      (bytes.drop k = [] ∨ next (bytes.drop k) = .cut) := by
  fun_induction completeUtf8PrefixFrom bytes offset with
  | case1 offset _ _ => exact ⟨_, rfl, Nat.le_refl _, .inl (List.drop_length)⟩
  | case2 offset _ validUpTo invalidLen herror ih =>
    exact ih (by have := lt_length_of_error herror; omega)
  | case3 offset _ validUpTo herror =>
    have hanswer := fromUtf8_spec (bytes.drop offset)
    rw [herror] at hanswer
    obtain ⟨text, tail, hbytes, hvalid, hnext⟩ := hanswer
    have hlen := congrArg List.length hbytes
    simp only [List.length_drop, List.length_append] at hlen hvalid
    refine ⟨_, rfl, by omega, .inr ?_⟩
    rw [← List.drop_drop, hbytes, hvalid, Nat.zero_add, List.drop_left]
    exact hnext
  | case4 => contradiction

/-- Bytes begin with characters in one way only. -/
theorem encode_append_unique {a b : Str} {tail tail' : List UInt8}
    (htail : ∀ c rest, next tail ≠ .char c rest) (htail' : ∀ c rest, next tail' ≠ .char c rest)
    (h : encode a ++ tail = encode b ++ tail') : a = b ∧ tail = tail' := by
  induction a generalizing b with
  | nil =>
    cases b with
    | nil => exact ⟨rfl, h⟩
    | cons c b =>
      rw [encode_cons, List.append_assoc] at h
      have hnext := next_encodeChar c (encode b ++ tail')
      rw [← h] at hnext
      exact absurd hnext (htail _ _)
  | cons c a ih =>
    rw [encode_cons, List.append_assoc] at h
    have hnext := next_encodeChar c (encode a ++ tail)
    cases b with
    | nil =>
      rw [h] at hnext
      exact absurd hnext (htail' _ _)
    | cons d b =>
      rw [encode_cons, List.append_assoc] at h
      rw [h, next_encodeChar] at hnext
      obtain ⟨rfl, hrest⟩ := Next.char.inj hnext
      obtain ⟨rfl, rfl⟩ := ih hrest.symm
      exact ⟨rfl, rfl⟩

/-- A text cut anywhere: whole characters, and the front of the next one. -/
theorem take_encode (text : Str) (n : Nat) :
    ∃ a b part, text = a ++ b ∧ (encode text).take n = encode a ++ part ∧
      (part = [] ∨ next part = .cut) ∧ byteLen a ≤ n ∧
      ∀ k, isBoundary text k = true → k ≤ n → k ≤ byteLen a := by
  induction text generalizing n with
  | nil =>
    refine ⟨[], [], [], rfl, List.take_nil, .inl rfl, Nat.zero_le n, fun k hk _ => ?_⟩
    obtain ⟨a, b, hsplit, rfl⟩ := isBoundary_iff.mp hk
    rw [(List.append_eq_nil_iff.mp hsplit.symm).1]
  | cons c text ih =>
    rw [encode_cons]
    by_cases hn : n < c.utf8Size
    · refine ⟨[], c :: text, (encodeChar c).take n, rfl, ?_, ?_, Nat.zero_le n, fun k hk hle => ?_⟩
      · exact List.take_append_of_le_length (by rw [length_encodeChar]; omega)
      · by_cases hzero : n = 0
        · exact .inl (by rw [hzero, List.take_zero])
        · refine .inr (next_eq_cut (List.take_append_drop n _).symm ?_ ?_)
          · rw [ne_eq, List.take_eq_nil_iff, not_or]
            exact ⟨hzero, encodeChar_ne_nil c⟩
          · rw [ne_eq, List.drop_eq_nil_iff, length_encodeChar]
            omega
      · obtain ⟨a, b, hsplit, rfl⟩ := isBoundary_iff.mp hk
        cases a with
        | nil => exact Nat.le_refl _
        | cons d a =>
          obtain ⟨rfl, -⟩ := List.cons.inj hsplit
          rw [byteLen_cons] at hle
          omega
    · obtain ⟨a, b, part, rfl, htake, hpart, hle, hgreatest⟩ := ih (n - c.utf8Size)
      refine ⟨c :: a, b, part, rfl, ?_, hpart, ?_, fun k hk hkn => ?_⟩
      · rw [List.take_append, length_encodeChar, htake, encode_cons, List.append_assoc,
          List.take_of_length_le (by rw [length_encodeChar]; omega)]
      · rw [byteLen_cons]
        omega
      · obtain ⟨a', b', hsplit, rfl⟩ := isBoundary_iff.mp hk
        rw [byteLen_cons]
        cases a' with
        | nil =>
          rw [byteLen_nil]
          exact Nat.zero_le _
        | cons d a' =>
          obtain ⟨rfl, hrest⟩ := List.cons.inj hsplit
          rw [byteLen_cons] at hkn ⊢
          have := hgreatest (byteLen a') (isBoundary_iff.mpr ⟨a', b', hrest, rfl⟩) (by omega)
          omega

/-- The first answer on a text that is cut is the last one. -/
theorem completeUtf8PrefixLen_append {a : Str} {part : List UInt8}
    (hpart : part = [] ∨ next part = .cut) :
    completeUtf8PrefixLen (encode a ++ part) = some (byteLen a) := by
  have hno : ∀ c rest, next part ≠ .char c rest := by
    rcases hpart with rfl | hcut
    · exact nofun
    · rw [hcut]
      exact nofun
  have hanswer := fromUtf8_spec (encode a ++ part)
  rw [completeUtf8PrefixLen, completeUtf8PrefixFrom, if_pos (Nat.zero_le _)]
  split
  · rename_i hnone
    rw [List.drop_zero] at hnone
    rw [hnone] at hanswer
    obtain ⟨text, tail, hbytes, rfl⟩ := hanswer
    obtain ⟨rfl, rfl⟩ := encode_append_unique hno (by exact nofun) hbytes
    rw [List.append_nil, length_encode]
  · rename_i herror
    rw [List.drop_zero] at herror
    rw [herror] at hanswer
    obtain ⟨text, tail, hbytes, -, rest, hnext⟩ := hanswer
    obtain ⟨rfl, rfl⟩ := encode_append_unique hno (by rw [hnext]; exact nofun) hbytes
    rcases hpart with rfl | hcut
    · cases hnext
    · rw [hcut] at hnext
      cases hnext
  · rename_i herror
    rw [List.drop_zero] at herror
    rw [herror] at hanswer
    obtain ⟨text, tail, hbytes, hvalid, hnext⟩ := hanswer
    obtain ⟨rfl, rfl⟩ := encode_append_unique hno (by rw [hnext]; exact nofun) hbytes
    simp only at hvalid
    rw [hvalid, length_encode, Nat.zero_add, Nat.zero_add]

/-- **Cutting UTF-8 at a limit.**  Of the first bytes of a valid text, what is left ends at the last
boundary up to the cut.  Of any bytes, at most three are dropped, the front of one character. -/
theorem completeUtf8PrefixLen_spec :
    (∀ (text : Str) (n : Nat), ∃ k, completeUtf8PrefixLen ((encode text).take n) = some k ∧
      IsGreatest {k | isBoundary text k = true ∧ k ≤ n} k) ∧
    ∀ bytes : List UInt8, ∃ k, completeUtf8PrefixLen bytes = some k ∧ k ≤ bytes.length ∧
      bytes.length - k ≤ 3 ∧
      (bytes.drop k = [] ∨ ∃ c rest, encodeChar c = bytes.drop k ++ rest ∧ rest ≠ []) := by
  constructor
  · intro text n
    obtain ⟨a, b, part, rfl, htake, hpart, hle, hgreatest⟩ := take_encode text n
    refine ⟨byteLen a, ?_, ⟨isBoundary_iff.mpr ⟨a, b, rfl, rfl⟩, hle⟩,
      fun k hk => hgreatest k hk.1 hk.2⟩
    rw [htake]
    exact completeUtf8PrefixLen_append hpart
  · intro bytes
    obtain ⟨k, hk, hle, hdrop⟩ := completeUtf8PrefixFrom_spec (Nat.zero_le bytes.length)
    refine ⟨k, hk, hle, ?_⟩
    rcases hdrop with hnil | hcut
    · have := congrArg List.length hnil
      rw [List.length_drop, List.length_nil] at this
      exact ⟨by omega, .inl hnil⟩
    · obtain ⟨c, rest, hchar, hrest, hlen⟩ := exists_char_of_cut hcut
      rw [List.length_drop] at hlen
      exact ⟨hlen, .inr ⟨c, rest, hchar, hrest⟩⟩

end Index
end MavenMcp
