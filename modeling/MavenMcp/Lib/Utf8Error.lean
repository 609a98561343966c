/-
# Why bytes are not UTF-8

`String::from_utf8` says up to where the input is valid, and how many bytes are wrong there; it does
not say how many where the input ends inside a character.  `fromUtf8_spec` is that answer against
`Utf8.next`.  What is cut off is the front of a character (`exists_char_of_cut`), and what is the
front of a character is cut off (`next_eq_cut`).
-/
import MavenMcp.Lib.Utf8

namespace Utf8

/-! ## 1. Errors -/

/-- `Utf8Error`. -/
structure Error where
  /-- `valid_up_to`. -/
  validUpTo : Nat
  /-- `error_len`: `none` where the input ends too early. -/
  errorLen : Option Nat
deriving DecidableEq, Repr

/-- Read at most `n` characters, with this many bytes before them. -/
def fromUtf8N : (n : Nat) → (seen : Nat) → List UInt8 → Option Error
  | 0, _, _ => none
  | n + 1, seen, bytes =>
    match next bytes with
    | .done => none
    | .char _ rest => fromUtf8N n (seen + (bytes.length - rest.length)) rest
    | .invalid length _ => some { validUpTo := seen, errorLen := some length }
    | .cut => some { validUpTo := seen, errorLen := none }

/-- `std::str::from_utf8`: the error, if there is one. -/
def fromUtf8 (bytes : List UInt8) : Option Error := fromUtf8N (bytes.length + 1) 0 bytes

theorem eq_nil_of_next {bytes : List UInt8} (h : next bytes = .done) : bytes = [] := by
  cases bytes with
  | nil => rfl
  | cons b bytes =>
    rw [next] at h
    split at h
    · cases h
    · split at h
      · cases h
      · exact absurd h (continuation_ne_done _ _ _ _ _ _)

/-- What an answer says about the bytes. -/
def Says (error : Option Error) (seen : Nat) (bytes : List UInt8) : Prop :=
  ∃ text tail, bytes = encode text ++ tail ∧
    match error with
    | none => tail = []
    | some error => error.validUpTo = seen + (encode text).length ∧
      match error.errorLen with
      | some length => ∃ rest, next tail = .invalid length rest
      | none => next tail = .cut

theorem fromUtf8N_spec {n seen : Nat} {bytes : List UInt8} (h : bytes.length < n) :
    Says (fromUtf8N n seen bytes) seen bytes := by
  induction n generalizing seen bytes with
  | zero => omega
  | succ n ih =>
    rw [fromUtf8N]
    split
    · rename_i hnext
      exact ⟨[], [], eq_nil_of_next hnext, rfl⟩
    · rename_i c rest hnext
      have hbytes := eq_of_next hnext
      have hpos := List.length_pos_iff.mpr (encodeChar_ne_nil c)
      have hlen := congrArg List.length hbytes
      rw [List.length_append] at hlen
      have hanswer : Says (fromUtf8N n (seen + (bytes.length - rest.length)) rest)
          (seen + (bytes.length - rest.length)) rest := ih (by omega)
      obtain ⟨text, tail, hrest, hanswer⟩ := hanswer
      refine ⟨c :: text, tail, by rw [hbytes, encode_cons, List.append_assoc, ← hrest], ?_⟩
      split at hanswer
      · exact hanswer
      · refine ⟨?_, hanswer.2⟩
        rw [hanswer.1, encode_cons, List.length_append]
        omega
    · rename_i length rest hnext
      exact ⟨[], bytes, rfl, rfl, rest, hnext⟩
    · rename_i hnext
      exact ⟨[], bytes, rfl, rfl, hnext⟩

/-- **What `from_utf8` answers.** -/
theorem fromUtf8_spec (bytes : List UInt8) : Says (fromUtf8 bytes) 0 bytes :=
  fromUtf8N_spec (Nat.lt_succ_self _)

/-! ## 2. Invalid bytes -/

theorem eq_append_of_continuation {value seen more low high length : Nat} {bytes rest : List UInt8}
    (h : continuation value seen more low high bytes = .invalid length rest) :
    ∃ bad, bytes = bad ++ rest ∧ length = seen + bad.length := by
  induction more generalizing value seen low high bytes with
  | zero => cases h
  | succ more ih =>
    cases bytes with
    | nil => cases h
    | cons b bytes =>
      rw [continuation] at h
      split at h
      · obtain ⟨bad, rfl, hlength⟩ := ih h
        refine ⟨b :: bad, rfl, ?_⟩
        rw [List.length_cons]
        omega
      · cases h
        exact ⟨[], rfl, rfl⟩

/-- The bytes that no character begins with. -/
theorem eq_append_of_invalid {bytes rest : List UInt8} {length : Nat}
    (h : next bytes = .invalid length rest) :
    ∃ bad, bytes = bad ++ rest ∧ bad.length = length ∧ 0 < length := by
  cases bytes with
  | nil => cases h
  | cons b bytes =>
    rw [next] at h
    split at h
    · cases h
    · split at h
      · cases h
        exact ⟨[b], rfl, rfl, Nat.one_pos⟩
      · obtain ⟨bad, rfl, hlength⟩ := eq_append_of_continuation h
        refine ⟨b :: bad, rfl, ?_, ?_⟩
        · rw [List.length_cons]
          omega
        · omega

theorem continuation_append {value seen more low high length : Nat} {bytes rest : List UInt8}
    (h : continuation value seen more low high bytes = .invalid length rest) (more' : List UInt8) :
    continuation value seen more low high (bytes ++ more') = .invalid length (rest ++ more') := by
  induction more generalizing value seen low high bytes with
  | zero => cases h
  | succ more ih =>
    cases bytes with
    | nil => cases h
    | cons b bytes =>
      rw [continuation] at h
      rw [List.cons_append, continuation]
      split
      · rename_i hb
        rw [if_pos hb] at h
        exact ih h
      · rename_i hb
        rw [if_neg hb] at h
        cases h
        rfl

/-- What is invalid stays invalid when more follows. -/
theorem next_append {bytes rest : List UInt8} {length : Nat}
    (h : next bytes = .invalid length rest) (more : List UInt8) :
    next (bytes ++ more) = .invalid length (rest ++ more) := by
  cases bytes with
  | nil => cases h
  | cons b bytes =>
    rw [next] at h
    rw [List.cons_append, next]
    split
    · rename_i hascii
      rw [if_pos hascii] at h
      cases h
    · rename_i hascii
      rw [if_neg hascii] at h
      split at h
      · cases h
        rfl
      · exact continuation_append h more

/-! ## 3. Characters that are cut off -/

theorem exists_continuation (more : Nat) {value seen low high : Nat} (hlow : low ≤ high)
    (hhigh : high < 256) :
    ∃ tail c, tail.length = more ∧ continuation value seen more low high tail = .char c [] := by
  induction more generalizing value seen low high with
  | zero => exact ⟨[], _, rfl, rfl⟩
  | succ more ih =>
    have hnat : (UInt8.ofNat low).toNat = low := toNat_ofNat (by omega)
    have hfurther : ∃ tail c, tail.length = more ∧
        continuation (value * 64 + low % 64) (seen + 1) more 0x80 0xBF tail = .char c [] :=
      ih (by decide) (by decide)
    obtain ⟨tail, c, hlength, htail⟩ := hfurther
    refine ⟨UInt8.ofNat low :: tail, c, congrArg (· + 1) hlength, ?_⟩
    rw [continuation, hnat, if_pos ⟨Nat.le_refl low, hlow⟩, htail]

theorem exists_of_continuation_cut {value seen more low high : Nat} {bytes : List UInt8}
    (hlow : low ≤ high) (hhigh : high < 256)
    (h : continuation value seen more low high bytes = .cut) :
    ∃ tail c, bytes.length + tail.length = more ∧ tail ≠ [] ∧
      continuation value seen more low high (bytes ++ tail) = .char c [] := by
  induction more generalizing value seen low high bytes with
  | zero => cases h
  | succ more ih =>
    cases bytes with
    | nil =>
      obtain ⟨tail, c, hlength, htail⟩ := exists_continuation (more + 1) hlow hhigh
      refine ⟨tail, c, by rw [List.length_nil]; omega, ?_, htail⟩
      rintro rfl
      cases hlength
    | cons b bytes =>
      rw [continuation] at h
      split at h
      · rename_i hb
        obtain ⟨tail, c, hlength, hne, htail⟩ := ih (by decide) (by decide) h
        refine ⟨tail, c, by rw [List.length_cons]; omega, hne, ?_⟩
        rw [List.cons_append, continuation, if_pos hb]
        exact htail
      · cases h

/-- **What is cut off is the front of a character.** -/
theorem exists_char_of_cut {bytes : List UInt8} (h : next bytes = .cut) :
    ∃ c tail, encodeChar c = bytes ++ tail ∧ tail ≠ [] ∧ bytes.length ≤ 3 := by
  cases bytes with
  | nil => cases h
  | cons b bytes =>
    rw [next] at h
    split at h
    · cases h
    · rename_i hascii
      split at h
      · cases h
      · rename_i low high more hleading
        have hbounds : low ≤ high ∧ high < 256 ∧ more ≤ 3 := by
          unfold leading at hleading
          repeat' split at hleading
          all_goals simp only [Option.some.injEq, Prod.mk.injEq, reduceCtorEq] at hleading
          all_goals omega
        obtain ⟨tail, c, hlength, hne, htail⟩ :=
          exists_of_continuation_cut hbounds.1 hbounds.2.1 h
        have hnext : next (b :: bytes ++ tail) = .char c [] := by
          rw [List.cons_append, next, if_neg hascii, hleading]
          exact htail
        have heq := eq_of_next hnext
        rw [List.append_nil] at heq
        have hpos := List.length_pos_iff.mpr hne
        exact ⟨c, tail, heq.symm, hne, by rw [List.length_cons]; omega⟩

/-- **The front of a character is cut off.** -/
theorem next_eq_cut {c : Char} {front rest : List UInt8} (h : encodeChar c = front ++ rest)
    (hfront : front ≠ []) (hrest : rest ≠ []) : next front = .cut := by
  have hchar := next_encodeChar c []
  rw [List.append_nil, h] at hchar
  cases hnext : next front with
  | done => exact absurd (eq_nil_of_next hnext) hfront
  | char d more =>
    rw [eq_of_next hnext, List.append_assoc, next_encodeChar] at hchar
    obtain ⟨-, hnil⟩ := Next.char.inj hchar
    exact absurd (List.append_eq_nil_iff.mp hnil).2 hrest
  | invalid length more =>
    rw [next_append hnext] at hchar
    cases hchar
  | cut => rfl

theorem length_encodeChar (c : Char) : (encodeChar c).length = c.utf8Size := by
  have hsize : c.utf8Size = if c.toNat ≤ 0x7F then 1 else if c.toNat ≤ 0x7FF then 2
      else if c.toNat ≤ 0xFFFF then 3 else 4 := by
    simp only [Char.utf8Size, UInt32.le_iff_toNat_le]
    rfl
  rw [hsize]
  unfold encodeChar
  generalize c.toNat = n
  simp only
  by_cases h1 : n < 0x80
  · rw [if_pos h1, if_pos (show n ≤ 0x7F by omega)]
    rfl
  by_cases h2 : n < 0x800
  · rw [if_neg h1, if_pos h2, if_neg (show ¬ n ≤ 0x7F by omega), if_pos (show n ≤ 0x7FF by omega)]
    rfl
  rw [if_neg h1, if_neg h2, if_neg (show ¬ n ≤ 0x7F by omega), if_neg (show ¬ n ≤ 0x7FF by omega)]
  by_cases h3 : n < 0x10000
  · rw [if_pos h3, if_pos (show n ≤ 0xFFFF by omega)]
    rfl
  · rw [if_neg h3, if_neg (show ¬ n ≤ 0xFFFF by omega)]
    rfl

theorem length_encode (text : Str) : (encode text).length = Text.byteLen text := by
  induction text with
  | nil => rfl
  | cons c text ih =>
    rw [encode_cons, List.length_append, length_encodeChar, ih, Text.byteLen_cons]

end Utf8
