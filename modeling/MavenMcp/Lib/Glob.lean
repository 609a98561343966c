/-
# Patterns with stars

A value fills a pattern when it is the pattern with a list in the place of each star.  The facts
that a matcher needs are here: a literal part takes one place only (`fills_append_iff`), and of the
places where a star may end the first one is enough (`fills_greedy_iff`).

A pattern and a value in UTF-8 may be compared byte by byte (`fills_encode_iff`).
-/
import MavenMcp.Lib.Utf8

namespace Glob

/-! ## 1. Filled patterns -/

section

variable {α : Type} {star : α}

/-- The value is the pattern with a list in the place of each star. -/
inductive Fills (star : α) : List α → List α → Prop
  | nil : Fills star [] []
  | literal {c : α} {pattern value : List α} (hc : c ≠ star) (h : Fills star pattern value) :
      Fills star (c :: pattern) (c :: value)
  | filled {pattern value : List α} (filling : List α) (h : Fills star pattern value) :
      Fills star (star :: pattern) (filling ++ value)

theorem fills_star_iff {pattern value : List α} :
    Fills star (star :: pattern) value ↔ ∃ filling rest, value = filling ++ rest ∧
      Fills star pattern rest := by
  constructor
  · intro h
    cases h with
    | literal hc _ => exact absurd rfl hc
    | filled filling h => exact ⟨filling, _, rfl, h⟩
  · rintro ⟨filling, rest, rfl, h⟩
    exact .filled filling h

/-- What a filled pattern begins with: a star, or the beginning of the value. -/
theorem Fills.head {b c : α} {pattern value : List α} (h : Fills star (b :: pattern) (c :: value)) :
    b = c ∨ b = star := by
  generalize hv : c :: value = whole at h
  cases h with
  | literal _ _ => exact .inl (List.cons.inj hv).1.symm
  | filled _ _ => exact .inr rfl

/-- A literal part stands at the front of the value. -/
theorem fills_append_iff {literal pattern value : List α} (hliteral : star ∉ literal) :
    Fills star (literal ++ pattern) value ↔ ∃ rest, value = literal ++ rest ∧
      Fills star pattern rest := by
  induction literal generalizing value with
  | nil => exact ⟨fun h => ⟨value, rfl, h⟩, by rintro ⟨_, rfl, h⟩; exact h⟩
  | cons c literal ih =>
    rw [List.mem_cons, not_or] at hliteral
    obtain ⟨hc, hliteral⟩ := hliteral
    constructor
    · intro h
      cases h with
      | literal _ h =>
        obtain ⟨rest, rfl, hrest⟩ := (ih hliteral).mp h
        exact ⟨rest, rfl, hrest⟩
      | filled _ _ => exact absurd rfl hc
    · rintro ⟨rest, rfl, h⟩
      exact .literal (Ne.symm hc) ((ih hliteral).mpr ⟨rest, rfl, h⟩)

theorem fills_nil_iff {pattern : List α} : Fills star pattern [] ↔ ∀ c ∈ pattern, c = star := by
  induction pattern with
  | nil => exact ⟨fun _ => nofun, fun _ => .nil⟩
  | cons c pattern ih =>
    rw [List.forall_mem_cons]
    constructor
    · intro h
      generalize hvalue : ([] : List α) = value at h
      cases h with
      | literal _ _ => cases hvalue
      | filled filling h =>
        obtain ⟨-, rfl⟩ := List.append_eq_nil_iff.mp hvalue.symm
        exact ⟨rfl, ih.mp h⟩
    · rintro ⟨rfl, h⟩
      exact .filled [] (ih.mpr h)

/-- A star takes whatever stands before. -/
theorem Fills.append_left {pattern value : List α} (h : Fills star (star :: pattern) value)
    (front : List α) : Fills star (star :: pattern) (front ++ value) := by
  obtain ⟨filling, rest, rfl, hrest⟩ := fills_star_iff.mp h
  rw [← List.append_assoc]
  exact .filled _ hrest

/-- **The first place is enough.**  Where the literal part between two stars has been found, no
later place of it needs to be tried: the second star takes what lies between. -/
theorem fills_greedy_iff {literal pattern value : List α} (hliteral : star ∉ literal) :
    Fills star (star :: (literal ++ star :: pattern)) (literal ++ value) ↔
      Fills star (star :: pattern) value := by
  constructor
  · intro h
    obtain ⟨filling, _, hvalue, hpart⟩ := fills_star_iff.mp h
    obtain ⟨rest, rfl, hrest⟩ := (fills_append_iff hliteral).mp hpart
    -- The value ends in what the second star is to match, so that lies behind the literal part.
    have hsuffix : rest <:+ value := by
      refine List.suffix_of_suffix_length_le ⟨filling ++ literal, ?_⟩ ⟨literal, hvalue⟩ ?_
      · rw [List.append_assoc]
      · have hlength := congrArg List.length hvalue
        simp only [List.length_append] at hlength
        omega
    obtain ⟨front, rfl⟩ := hsuffix
    exact hrest.append_left front
  · intro h
    exact .filled [] ((fills_append_iff hliteral).mpr ⟨value, rfl, h⟩)

/-- Where the rest of the pattern does not match, the star takes one more element. -/
theorem fills_star_cons_iff {pattern value : List α} {a : α}
    (h : ¬ Fills star pattern (a :: value)) :
    Fills star (star :: pattern) (a :: value) ↔ Fills star (star :: pattern) value := by
  constructor
  · intro hstar
    obtain ⟨filling, rest, hvalue, hrest⟩ := fills_star_iff.mp hstar
    cases filling with
    | nil =>
      rw [List.nil_append] at hvalue
      rw [← hvalue] at hrest
      exact absurd hrest h
    | cons b filling =>
      obtain ⟨rfl, rfl⟩ := List.cons.inj hvalue
      exact .filled filling hrest
  · exact fun hstar => hstar.append_left [a]

end

/-! ## 2. Patterns in UTF-8 -/

section

variable {star : Char}

theorem ofNat_not_mem_encodeChar (hascii : star.toNat < 0x80) {c : Char} (hc : c ≠ star) :
    UInt8.ofNat star.toNat ∉ Utf8.encodeChar c := by
  intro hmem
  have hnat : (UInt8.ofNat star.toNat).toNat = star.toNat := Utf8.toNat_ofNat (by omega)
  have hchar : Char.ofNat (UInt8.ofNat star.toNat).toNat ∈ [c] := by
    refine Utf8.mem_encode_ascii (by omega) ?_
    rw [Utf8.encode_cons]
    exact List.mem_append_left _ hmem
  rw [hnat, Char.ofNat_toNat] at hchar
  exact hc (List.mem_singleton.mp hchar).symm

theorem encode_star (hascii : star.toNat < 0x80) (pattern : Str) :
    Utf8.encode (star :: pattern) = UInt8.ofNat star.toNat :: Utf8.encode pattern := by
  rw [Utf8.encode_cons, Utf8.encodeChar, if_pos hascii, List.singleton_append]

theorem Fills.encode (hascii : star.toNat < 0x80) {pattern value : Str}
    (h : Fills star pattern value) :
    Fills (UInt8.ofNat star.toNat) (Utf8.encode pattern) (Utf8.encode value) := by
  induction h with
  | nil => exact .nil
  | literal hc _ ih =>
    rw [Utf8.encode_cons, Utf8.encode_cons]
    exact (fills_append_iff (ofNat_not_mem_encodeChar hascii hc)).mpr ⟨_, rfl, ih⟩
  | filled filling _ ih =>
    rw [encode_star hascii, Utf8.encode_append]
    exact .filled _ ih

/-- A pattern that is filled by the last bytes of a text is filled by its last characters: by those
bytes, or, where a star begins it, by fewer. -/
theorem fills_of_encode (hascii : star.toNat < 0x80) {pattern value : Str}
    {front bytes : List UInt8}
    (h : Fills (UInt8.ofNat star.toNat) (Utf8.encode pattern) bytes)
    (hvalue : Utf8.encode value = front ++ bytes) :
    ∃ rest, rest <:+ value ∧ Fills star pattern rest ∧
      (Utf8.encode rest = bytes ∨ ∃ tail, pattern = star :: tail) := by
  induction pattern generalizing value front bytes with
  | nil =>
    have hnil : bytes = [] := by
      cases h
      rfl
    exact ⟨[], List.nil_suffix, .nil, .inl hnil.symm⟩
  | cons c pattern ih =>
    by_cases hc : c = star
    · subst hc
      rw [encode_star hascii] at h
      obtain ⟨filling, bytes', rfl, hpart⟩ := fills_star_iff.mp h
      obtain ⟨rest, hsuffix, hrest, -⟩ := ih hpart (hvalue.trans (List.append_assoc _ _ _).symm)
      exact ⟨rest, hsuffix, .filled [] hrest, .inr ⟨pattern, rfl⟩⟩
    · rw [Utf8.encode_cons] at h
      obtain ⟨bytes', rfl, hpart⟩ :=
        (fills_append_iff (ofNat_not_mem_encodeChar hascii hc)).mp h
      -- A character of the pattern stands at a character of the value.
      obtain ⟨before, after, rfl, -, rfl⟩ := Utf8.eq_append_of_encode hvalue
      obtain ⟨rest, hsuffix, hrest, hbytes⟩ := ih hpart (List.nil_append _).symm
      have hafter : Fills star pattern after := by
        rcases hbytes with hbytes | ⟨tail, rfl⟩
        · rwa [Utf8.encode_injective hbytes] at hrest
        · obtain ⟨skipped, rfl⟩ := hsuffix
          exact hrest.append_left skipped
      exact ⟨c :: after, ⟨before, rfl⟩, .literal hc hafter, .inl (Utf8.encode_cons c after)⟩

/-- **Bytes or characters**: a pattern whose star is in ASCII is filled alike. -/
theorem fills_encode_iff (hascii : star.toNat < 0x80) {pattern value : Str} :
    Fills (UInt8.ofNat star.toNat) (Utf8.encode pattern) (Utf8.encode value) ↔
      Fills star pattern value := by
  constructor
  · intro h
    obtain ⟨rest, ⟨skipped, rfl⟩, hrest, hbytes⟩ := fills_of_encode hascii h
      (List.nil_append _).symm
    rcases hbytes with hbytes | ⟨tail, rfl⟩
    · rwa [Utf8.encode_injective hbytes] at hrest
    · exact hrest.append_left skipped
  · exact Fills.encode hascii

end

end Glob
