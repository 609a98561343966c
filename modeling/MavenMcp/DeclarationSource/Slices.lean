/-
# Slices

What `locate` finds is always a `slice` (`slice_of_locate`), and a slice is cut at the lines of two
tokens.  So slices are right as long as the lines of the tokens are; these are wrong only for a
literal that is cut off right behind a newline, whose end line may lie past the end of the text.
-/
import MavenMcp.DeclarationSource.Lines
import MavenMcp.DeclarationSource.Locate

namespace MavenMcp.DeclarationSource

open Text

namespace SourceOutline

variable {u : Unicode} {o : SourceOutline}

/-! ## 1. What is found is a slice -/

theorem not_found_of_unresolvedMembers {members : List Member} {s : SourceSlice} :
    o.unresolvedMembers members ≠ some (.found s) := by
  intro h
  rw [unresolvedMembers] at h
  split at h
  · cases h
  · cases hlines : o.memberLines members with
    | none =>
      rw [hlines] at h
      cases h
    | some lines =>
      rw [hlines] at h
      cases h

theorem not_found_of_unproven {members : List Member} {s : SourceSlice} :
    (o.memberLines members).map (SliceOutcome.unresolved .unproven) ≠ some (.found s) := by
  intro h
  obtain ⟨lines, -, hs⟩ := Option.map_eq_some_iff.mp h
  cases hs

theorem slice_of_found {start stop : Nat} {s : SourceSlice}
    (h : (o.slice start stop).map SliceOutcome.found = some (.found s)) :
    o.slice start stop = some s := by
  obtain ⟨s', hs', heq⟩ := Option.map_eq_some_iff.mp h
  cases heq
  exact hs'

theorem slice_of_locateField {members : List Member} {name : Str} {s : SourceSlice}
    (h : o.locateField members name = some (.found s)) :
    ∃ start stop, o.slice start stop = some s := by
  obtain ⟨found, -, h⟩ := Option.bind_eq_some_iff.mp h
  split at h
  · exact ⟨_, _, slice_of_found h⟩
  · exact absurd h not_found_of_unresolvedMembers

theorem slice_of_resolveOverload {owners : Owners} {expected : List ErasedType}
    {found : List Member} {s : SourceSlice}
    (h : o.resolveOverload u owners expected found = some (.found s)) :
    ∃ start stop, o.slice start stop = some s := by
  rw [resolveOverload] at h
  split at h
  · exact ⟨_, _, slice_of_found h⟩
  · exact absurd h not_found_of_unproven
  · exact absurd h not_found_of_unresolvedMembers

theorem slice_of_locateFunction {members : List Member} {owners : Owners}
    {candidate : DeclarationCandidate} {isCompilerGenerated : Bool} {s : SourceSlice}
    (h : o.locateFunction u members owners candidate isCompilerGenerated = some (.found s)) :
    ∃ start stop, o.slice start stop = some s := by
  obtain ⟨found, -, h⟩ := Option.bind_eq_some_iff.mp h
  split at h
  · cases h
  · split at h
    · exact absurd h not_found_of_unproven
    · split at h
      · split at h
        · exact ⟨_, _, slice_of_found h⟩
        · exact absurd h not_found_of_unresolvedMembers
      · split at h
        · exact absurd h not_found_of_unproven
        · exact slice_of_resolveOverload h

theorem slice_of_locateIn {candidate : DeclarationCandidate} {isCompilerGenerated : Bool}
    {path : List Str} {members : List Member} {owners : Owners} {s : SourceSlice}
    (h : o.locateIn u candidate isCompilerGenerated path members owners = some (.found s)) :
    ∃ start stop, o.slice start stop = some s := by
  induction path generalizing members owners with
  | nil =>
    rw [locateIn] at h
    split at h
    · cases h
    · split at h
      · exact ⟨_, _, slice_of_found h⟩
      · exact slice_of_locateField h
      · exact slice_of_locateFunction h
  | cons segment path ih =>
    rw [locateIn] at h
    split at h
    · split at h
      · cases h
      · obtain ⟨members, -, h⟩ := Option.bind_eq_some_iff.mp h
        exact ih h
    · exact absurd h not_found_of_unresolvedMembers

theorem slice_of_locate {className : Str} {candidate : DeclarationCandidate}
    {isCompilerGenerated : Bool} {s : SourceSlice}
    (h : o.locate u className candidate isCompilerGenerated = some (.found s)) :
    ∃ start stop, o.slice start stop = some s := by
  rw [locate] at h
  split at h
  · cases h
  · obtain ⟨members, -, h⟩ := Option.bind_eq_some_iff.mp h
    exact slice_of_locateIn h

/-- A slice is cut at the lines of two tokens. -/
theorem slice_eq_some {start stop : Nat} {s : SourceSlice} (h : o.slice start stop = some s) :
    ∃ first last, o.tokens[start]? = some first ∧ o.tokens[stop]? = some last ∧
      s.startLine = first.line + 1 ∧ s.endLine = max last.endLine first.line + 1 ∧
      s.source = ['\n'].intercalate
        (((lines o.source).drop (s.startLine - 1)).take (s.endLine - s.startLine + 1)) := by
  obtain ⟨first, hfirst, h⟩ := Option.bind_eq_some_iff.mp h
  obtain ⟨last, hlast, h⟩ := Option.bind_eq_some_iff.mp h
  obtain ⟨further, hfurther, h⟩ := Option.bind_eq_some_iff.mp h
  have hle : first.line ≤ max last.endLine first.line := Nat.le_max_right _ _
  rw [checkedSub, if_pos hle, Option.some.injEq] at hfurther
  cases h
  refine ⟨first, last, hfirst, hlast, rfl, rfl, ?_⟩
  simp only [← hfurther, Nat.add_sub_cancel, Nat.add_sub_add_right]

end SourceOutline

/-! ## 2. Lines of the text -/

/-- A character that is no newline lies on one of the lines. -/
theorem count_lt_length_lines (front back : Str) {character : Char} (h : character ≠ '\n') :
    front.count '\n' < (lines (front ++ character :: back)).length := by
  rw [lines, List.length_map]
  induction front with
  | nil =>
    rw [List.nil_append, splitInclusive, if_neg h, List.count_nil]
    split
    · exact Nat.zero_lt_one
    · exact Nat.succ_pos _
  | cons x front ih =>
    rw [List.cons_append, splitInclusive]
    split
    · rename_i hx
      rw [hx, List.count_cons_self, List.length_cons]
      exact Nat.succ_lt_succ ih
    · rename_i hx
      rw [List.count_cons_of_ne hx]
      split
      · rename_i hnil
        rw [hnil] at ih
        exact absurd ih (Nat.not_lt_zero _)
      · rename_i hparts
        rw [hparts] at ih
        exact ih

/-- A token that does not end with a newline ends on one of the lines of the text. -/
theorem Placed.endLine_lt {source front back : Str} {token : Token}
    (h : Placed source token front back) (hlast : token.text.getLast? ≠ some '\n') :
    token.endLine < (lines source).length := by
  obtain ⟨text, character, htext⟩ := (List.eq_nil_or_concat' token.text).resolve_left h.ne_nil
  have hcharacter : character ≠ '\n' := by
    rintro rfl
    exact hlast (by rw [htext, List.getLast?_concat])
  have hline := count_lt_length_lines (front ++ text) back hcharacter
  have hsource : source = (front ++ text) ++ character :: back := by
    simp only [h.source, htext, List.append_assoc, List.cons_append, List.nil_append]
  rw [h.endLine, htext, ← List.append_assoc, List.count_append,
    List.count_singleton, if_neg (by simpa using hcharacter), Nat.add_zero, hsource]
  exact hline

theorem Placed.line_le {source front back : Str} {token : Token}
    (h : Placed source token front back) : token.line ≤ token.endLine := by
  rw [h.line, h.endLine, List.count_append]
  exact Nat.le_add_right _ _

/-! ## 3. Faithful slices -/

/-- These lines of the text. -/
structure SourceSlice.Faithful (s : SourceSlice) (source : Str) : Prop where
  one_le : 1 ≤ s.startLine
  le : s.startLine ≤ s.endLine
  endLine_le : s.endLine ≤ (lines source).length
  eq_lines : s.source = ['\n'].intercalate
    (((lines source).drop (s.startLine - 1)).take (s.endLine - s.startLine + 1))

/-- The lines of a token are the lines of its first and of its last byte. -/
def Token.LinesRight (source : Str) (token : Token) : Prop :=
  token.line = lineAt source token.start ∧ token.endLine = lineAt source (token.stop - 1)

theorem faithful_of_locate {u : Unicode} (hu : u.Ascii) {source : Str} {language : SourceLanguage}
    (hends : ∀ token ∈ tokenize u language source, token.text.getLast? ≠ some '\n')
    {className : Str} {candidate : DeclarationCandidate} {isCompilerGenerated : Bool}
    {s : SourceSlice}
    (h : (SourceOutline.parse u source language).locate u className candidate isCompilerGenerated
      = some (.found s)) : s.Faithful source := by
  obtain ⟨start, stop, hslice⟩ := SourceOutline.slice_of_locate h
  obtain ⟨first, last, hfirst, hlast, hstart, hend, hsource⟩ :=
    SourceOutline.slice_eq_some hslice
  have hmem {index : Nat} {token : Token}
      (hindex : (SourceOutline.parse u source language).tokens[index]? = some token) :
      token.line ≤ token.endLine ∧ token.endLine < (lines source).length := by
    have htoken : token ∈ tokenize u language source := List.mem_of_getElem? hindex
    obtain ⟨front, back, hplaced⟩ := tokenize_placed u language hu source htoken
    exact ⟨hplaced.line_le, hplaced.endLine_lt (hends token htoken)⟩
  have hfirst := hmem hfirst
  have hlast := hmem hlast
  refine ⟨by omega, by omega, by omega, hsource⟩

/-- **Slices and lines are right exactly when no token ends with a newline**, that is, when no
literal is cut off right behind one. -/
theorem slices_faithful_iff (u : Unicode) (hu : u.Ascii) (language : SourceLanguage)
    (source : Str) :
    ((∀ token ∈ tokenize u language source, token.LinesRight source) ∧
      ∀ (className : Str) (candidate : DeclarationCandidate) (isCompilerGenerated : Bool)
        (s : SourceSlice), (SourceOutline.parse u source language).locate u className candidate
          isCompilerGenerated = some (.found s) → s.Faithful source) ↔
      ∀ token ∈ tokenize u language source, token.text.getLast? ≠ some '\n' := by
  constructor
  · rintro ⟨hlines, -⟩ token htoken
    obtain ⟨front, back, hplaced⟩ := tokenize_placed u language hu source htoken
    exact hplaced.endLine_eq_iff.mp (hlines token htoken).2
  · intro hends
    refine ⟨fun token htoken => ?_, fun _ _ _ _ => faithful_of_locate hu hends⟩
    obtain ⟨front, back, hplaced⟩ := tokenize_placed u language hu source htoken
    exact ⟨hplaced.line_eq, hplaced.endLine_eq_iff.mpr (hends token htoken)⟩

theorem slice_of_class_faithful :
    SourceSlice.Faithful { startLine := 1, endLine := 1, source := "class A;".toList }
      "class A;\n".toList :=
  ((slices_faithful_iff .asciiOnly Unicode.asciiOnly_ascii .java "class A;\n".toList).mpr
    (by decide +kernel)).2 "A".toList { kind := .inClass, name := "A".toList, descriptor := none }
    false _ (by decide +kernel)

/-- A text block that is opened on the last line of the file ends one line after it. -/
theorem slice_past_the_end :
    (SourceOutline.parse .asciiOnly "class A\x7b\"\"\"\n".toList .java).locate .asciiOnly "A".toList
        { kind := .inClass, name := "A".toList, descriptor := none } false =
      some (.found { startLine := 1, endLine := 2, source := "class A\x7b\"\"\"".toList }) ∧
    ¬ SourceSlice.Faithful { startLine := 1, endLine := 2, source := "class A\x7b\"\"\"".toList }
      "class A\x7b\"\"\"\n".toList := by
  constructor
  · decide +kernel
  · intro h
    exact absurd h.endLine_le (by decide)

end MavenMcp.DeclarationSource
