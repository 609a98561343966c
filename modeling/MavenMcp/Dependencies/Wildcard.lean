/-
# Filtering explanations by a pattern

`wildcard_matches` compares bytes from left to right and remembers the last star it passed; where
the comparison fails it goes back to that star and lets it take one byte more.

* `Tracks`: the loop always asks a question with the answer of the first one.  That a star is
  never tried again once a later one is passed is `Glob.fills_greedy_iff`.
* `wildcardRank`: every round goes on in the pattern, lengthens what a star takes, or passes a star.
* `coordinateMatches_iff`: so an explanation is kept exactly when its artifact, or its own node in
  some path, is the pattern with a text in the place of each star.
-/
import MavenMcp.Lib.Glob
import MavenMcp.Lib.Loop
import MavenMcp.Dependencies.Resolution

namespace MavenMcp

open Glob

/-! ## 1. The matcher -/

/-- `b'*'`. -/
def starByte : UInt8 := 42

/-- The variables of the loop of `wildcard_matches`. -/
structure WildcardState where
  patternIndex : Nat
  valueIndex : Nat
  starIndex : Option Nat
  starValueIndex : Nat
deriving DecidableEq, Repr

/-- One round; `none` at the end of the value, and where the loop returns `false`. -/
def wildcardRound (pattern value : List UInt8) (s : WildcardState) : Option WildcardState :=
  if h : s.valueIndex < value.length then
    if pattern[s.patternIndex]? = some value[s.valueIndex] then
      some { s with patternIndex := s.patternIndex + 1, valueIndex := s.valueIndex + 1 }
    else if pattern[s.patternIndex]? = some starByte then
      some { s with
        starIndex := some s.patternIndex
        patternIndex := s.patternIndex + 1
        starValueIndex := s.valueIndex }
    else
      match s.starIndex with
      | some star =>
        some { s with
          patternIndex := star + 1
          starValueIndex := s.starValueIndex + 1
          valueIndex := s.starValueIndex + 1 }
      | none => none
  else none

/-- What is left to do: stars to pass, bytes for the last one to take, bytes of the pattern. -/
def wildcardRank (pattern value : List UInt8) (s : WildcardState) : Nat :=
  ((pattern.length + 1 - (s.starIndex.map (· + 1)).getD 0) * (value.length + 1)
      + (value.length - s.starValueIndex)) * (pattern.length + 1)
    + (pattern.length - s.patternIndex)

def wildcardStart : WildcardState :=
  { patternIndex := 0, valueIndex := 0, starIndex := none, starValueIndex := 0 }

/-- `wildcard_matches` on the bytes of the two texts. -/
def wildcardMatchesBytes (pattern value : List UInt8) : Bool :=
  let s := Loop.run (wildcardRound pattern value) (wildcardRank pattern value wildcardStart)
    wildcardStart
  -- The loop was left before the end of the value by `return false`.
  if s.valueIndex < value.length then false
  else (pattern.drop s.patternIndex).all (· == starByte)

def wildcardMatches (pattern value : Str) : Bool :=
  wildcardMatchesBytes (Utf8.encode pattern) (Utf8.encode value)

def coordinateMatches (pattern : Str) (explanation : DependencyResolutionExplanation) : Bool :=
  wildcardMatches pattern explanation.artifact ||
    explanation.paths.any fun path =>
      match path.nodes.getLast? with
      | some node => wildcardMatches pattern node
      | none => false

/-- The `retain` of `explain_dependency_resolution`. -/
def filterExplanations (coordinateFilter : Option Str)
    (explanations : List DependencyResolutionExplanation) : List DependencyResolutionExplanation :=
  match coordinateFilter with
  | none => explanations
  | some filter => explanations.filter (coordinateMatches filter)

/-! ## 2. The loop -/

section

variable {pattern value : List UInt8} {s s' : WildcardState}

/-- The star at this index is tried: a literal part behind it has been found in the value. -/
structure Trying (pattern value : List UInt8) (star : Nat) (s : WildcardState) : Prop where
  behind : star < s.patternIndex
  taken : s.starValueIndex ≤ s.valueIndex
  literal : ∃ literal, starByte ∉ literal ∧
    pattern.drop star = starByte :: (literal ++ pattern.drop s.patternIndex) ∧
    value.drop s.starValueIndex = literal ++ value.drop s.valueIndex
  question : Fills starByte pattern value ↔
    Fills starByte (pattern.drop star) (value.drop s.starValueIndex)

/-- The rest of the loop asks whether the pattern is filled by the value. -/
structure Tracks (pattern value : List UInt8) (s : WildcardState) : Prop where
  inPattern : s.patternIndex ≤ pattern.length
  inValue : s.valueIndex ≤ value.length
  /-- Without a star, the question is about what is left of both. -/
  direct : s.starIndex = none → (Fills starByte pattern value ↔
    Fills starByte (pattern.drop s.patternIndex) (value.drop s.valueIndex))
  trying : ∀ star, s.starIndex = some star → Trying pattern value star s

theorem tracks_start : Tracks pattern value wildcardStart where
  inPattern := Nat.zero_le _
  inValue := Nat.zero_le _
  direct := fun _ => Iff.rfl
  trying := nofun

theorem drop_of_getElem? {l : List UInt8} {i : Nat} {b : UInt8} (h : l[i]? = some b) :
    i < l.length ∧ l.drop i = b :: l.drop (i + 1) := by
  obtain ⟨hlt, hget⟩ := List.getElem?_eq_some_iff.mp h
  exact ⟨hlt, by rw [List.drop_eq_getElem_cons hlt, hget]⟩

/-- A literal byte of the pattern is found. -/
theorem Tracks.found (hvalue : starByte ∉ value) (h : Tracks pattern value s)
    (hlt : s.valueIndex < value.length)
    (hbyte : pattern[s.patternIndex]? = some value[s.valueIndex]) :
    Tracks pattern value
      { s with patternIndex := s.patternIndex + 1, valueIndex := s.valueIndex + 1 } := by
  obtain ⟨hpattern, hdrop⟩ := drop_of_getElem? hbyte
  have hdropValue := List.drop_eq_getElem_cons hlt
  have hliteral : starByte ∉ [value[s.valueIndex]] := by
    intro hmem
    rw [List.mem_singleton] at hmem
    exact hvalue (hmem ▸ List.getElem_mem hlt)
  refine ⟨hpattern, hlt, fun hnone => ?_, fun star hstar => ?_⟩
  · rw [h.direct hnone, hdrop, hdropValue, ← List.singleton_append, fills_append_iff hliteral]
    constructor
    · rintro ⟨rest, hrest, hfills⟩
      rwa [(List.cons.inj hrest).2]
    · exact fun hfills => ⟨_, rfl, hfills⟩
  · obtain ⟨hbehind, htaken, ⟨literal, hnot, hp, hv⟩, hquestion⟩ := h.trying star hstar
    refine ⟨Nat.lt_succ_of_lt hbehind, Nat.le_succ_of_le htaken,
      ⟨literal ++ [value[s.valueIndex]], ?_, ?_, ?_⟩, hquestion⟩
    · rw [List.mem_append, not_or]
      exact ⟨hnot, hliteral⟩
    · rw [hp, hdrop, List.append_assoc, List.singleton_append]
    · rw [hv, hdropValue, List.append_assoc, List.singleton_append]

/-- A star is passed; a star before it is not tried again. -/
theorem Tracks.passed (h : Tracks pattern value s)
    (hbyte : pattern[s.patternIndex]? = some starByte) :
    Tracks pattern value
      { s with
        starIndex := some s.patternIndex
        patternIndex := s.patternIndex + 1
        starValueIndex := s.valueIndex } := by
  obtain ⟨hpattern, hdrop⟩ := drop_of_getElem? hbyte
  refine ⟨hpattern, h.inValue, nofun, ?_⟩
  rintro star hstar
  obtain rfl := Option.some.inj hstar
  refine ⟨Nat.lt_succ_self _, Nat.le_refl _, ⟨[], List.not_mem_nil, hdrop, rfl⟩, ?_⟩
  cases hnone : s.starIndex with
  | none => exact h.direct hnone
  | some before =>
    obtain ⟨-, -, ⟨literal, hnot, hp, hv⟩, hquestion⟩ := h.trying before hnone
    rw [hquestion, hp, hv, hdrop]
    exact fills_greedy_iff hnot

/-- The comparison fails; the last star takes one byte more. -/
theorem Tracks.retried (h : Tracks pattern value s) {star : Nat} (hstar : s.starIndex = some star)
    (hlt : s.valueIndex < value.length)
    (hbyte : pattern[s.patternIndex]? ≠ some value[s.valueIndex])
    (hnoStar : pattern[s.patternIndex]? ≠ some starByte) :
    Tracks pattern value
      { s with
        patternIndex := star + 1
        starValueIndex := s.starValueIndex + 1
        valueIndex := s.starValueIndex + 1 } := by
  obtain ⟨hbehind, htaken, ⟨literal, hnot, hp, hv⟩, hquestion⟩ := h.trying star hstar
  have hpattern := h.inPattern
  have hstarByte : pattern.drop star = starByte :: pattern.drop (star + 1) := by
    have hcons := List.drop_eq_getElem_cons (l := pattern) (i := star) (by omega)
    rw [hp] at hcons
    rw [hp, (List.cons.inj hcons).2]
  have hstarValue := List.drop_eq_getElem_cons (l := value) (i := s.starValueIndex) (by omega)
  refine ⟨by simp only; omega, by simp only; omega, fun hnone => ?_, fun star' hstar' => ?_⟩
  · exact absurd (hstar.symm.trans hnone) nofun
  obtain rfl := Option.some.inj (hstar.symm.trans hstar')
  refine ⟨Nat.lt_succ_self _, Nat.le_refl _, ⟨[], List.not_mem_nil, hstarByte, rfl⟩, ?_⟩
  rw [hquestion, hstarByte, hstarValue]
  refine fills_star_cons_iff ?_
  -- The literal part stands here, and what comes after it in the pattern does not.
  rw [← hstarValue, hv, ← (List.cons.inj (hp.symm.trans hstarByte)).2, fills_append_iff hnot]
  rintro ⟨rest, hrest, hfills⟩
  rw [← List.append_cancel_left hrest, List.drop_eq_getElem_cons hlt] at hfills
  cases hget : pattern[s.patternIndex]? with
  | none =>
    rw [List.drop_eq_nil_of_le (List.getElem?_eq_none_iff.mp hget)] at hfills
    cases hfills
  | some b =>
    rw [(drop_of_getElem? hget).2] at hfills
    rcases hfills.head with rfl | rfl
    · exact hbyte hget
    · exact hnoStar hget

/-- Numbers with a leading digit that is lower are lower. -/
theorem digits_lt {x y c c' n : Nat} (h : x < y) (hc : c ≤ n) :
    x * (n + 1) + c < y * (n + 1) + c' := by
  have hmul := Nat.mul_le_mul_right (n + 1) h
  rw [Nat.succ_mul] at hmul
  omega

/-- **One round** keeps the question and lowers the rank. -/
theorem wildcardRound_tracks (hvalue : starByte ∉ value)
    (hround : wildcardRound pattern value s = some s') (h : Tracks pattern value s) :
    Tracks pattern value s' ∧ wildcardRank pattern value s' < wildcardRank pattern value s := by
  unfold wildcardRound at hround
  split at hround
  · rename_i hlt
    split at hround
    · rename_i hbyte
      obtain rfl := Option.some.inj hround
      have hpattern := (drop_of_getElem? hbyte).1
      refine ⟨h.found hvalue hlt hbyte, ?_⟩
      unfold wildcardRank
      simp only
      omega
    · rename_i hbyte
      split at hround
      · rename_i hstarByte
        obtain rfl := Option.some.inj hround
        have hpattern := (drop_of_getElem? hstarByte).1
        refine ⟨h.passed hstarByte, ?_⟩
        refine digits_lt (digits_lt ?_ (Nat.sub_le _ _)) (Nat.sub_le _ _)
        cases hstar : s.starIndex with
        | none =>
          simp only [Option.map_some, Option.getD_some, Option.map_none, Option.getD_none]
          omega
        | some before =>
          have hbehind := (h.trying before hstar).behind
          simp only [Option.map_some, Option.getD_some]
          omega
      · rename_i hnoStar
        split at hround
        · rename_i star hstar
          obtain rfl := Option.some.inj hround
          refine ⟨h.retried hstar hlt hbyte hnoStar, digits_lt ?_ (Nat.sub_le _ _)⟩
          have htaken := (h.trying star hstar).taken
          simp only
          omega
        · cases hround
  · cases hround

/-- **Where the loop ends**, its question has the answer of the code. -/
theorem tracks_answer (hround : wildcardRound pattern value s = none)
    (h : Tracks pattern value s) :
    (if s.valueIndex < value.length then false
      else (pattern.drop s.patternIndex).all (· == starByte)) = true ↔
        Fills starByte pattern value := by
  unfold wildcardRound at hround
  split at hround
  · rename_i hlt
    split at hround
    · cases hround
    · rename_i hbyte
      split at hround
      · cases hround
      · rename_i hnoStar
        split at hround
        · cases hround
        · rename_i hnone
          rw [if_pos hlt, h.direct hnone, List.drop_eq_getElem_cons hlt]
          refine iff_of_false Bool.false_ne_true fun hfills => ?_
          cases hget : pattern[s.patternIndex]? with
          | none =>
            rw [List.drop_eq_nil_of_le (List.getElem?_eq_none_iff.mp hget)] at hfills
            cases hfills
          | some b =>
            rw [(drop_of_getElem? hget).2] at hfills
            rcases hfills.head with rfl | rfl
            · exact hbyte hget
            · exact hnoStar hget
  · rename_i hend
    have hnil : value.drop s.valueIndex = [] := List.drop_eq_nil_of_le (by omega)
    have hall : (pattern.drop s.patternIndex).all (· == starByte) = true ↔
        Fills starByte (pattern.drop s.patternIndex) [] := by
      rw [fills_nil_iff, List.all_eq_true]
      exact forall₂_congr fun _ _ => beq_iff_eq
    rw [if_neg hend, hall]
    cases hstar : s.starIndex with
    | none => rw [h.direct hstar, hnil]
    | some star =>
      obtain ⟨-, -, ⟨literal, hnot, hp, hv⟩, hquestion⟩ := h.trying star hstar
      rw [hquestion, hp, hv, hnil, List.append_nil]
      constructor
      · exact fun hfills => .filled [] ((fills_append_iff hnot).mpr ⟨[], by simp, hfills⟩)
      · intro hfills
        obtain ⟨filling, rest, hliteral, hpart⟩ := fills_star_iff.mp hfills
        obtain ⟨rest', rfl, hrest⟩ := (fills_append_iff hnot).mp hpart
        -- The literal part takes the whole of the value.
        have hlength := congrArg List.length hliteral
        simp only [List.length_append] at hlength
        rwa [List.eq_nil_of_length_eq_zero (by omega : rest'.length = 0)] at hrest

theorem wildcardMatchesBytes_iff (hvalue : starByte ∉ value) :
    wildcardMatchesBytes pattern value = true ↔ Fills starByte pattern value := by
  obtain ⟨htracks, hexit⟩ := Loop.run_exits (wildcardRank pattern value)
    (fun _ _ hround => wildcardRound_tracks hvalue hround) _ wildcardStart tracks_start
    (Nat.le_refl _)
  exact tracks_answer hexit htracks

end

/-! ## 3. Texts -/

/-- **Wildcards are globs.** -/
theorem wildcardMatches_iff {pattern value : Str} (hvalue : '*' ∉ value) :
    wildcardMatches pattern value = true ↔ Fills '*' pattern value := by
  have hascii : '*'.toNat < 0x80 := by decide
  have hbytes : starByte ∉ Utf8.encode value := fun hmem =>
    hvalue (Utf8.mem_encode_ascii (by decide) hmem)
  rw [wildcardMatches, wildcardMatchesBytes_iff hbytes]
  exact fills_encode_iff hascii

/-- The explanation is about an artifact that the pattern names, by its identity or by the
coordinate it has in some path. -/
def Names (pattern : Str) (explanation : DependencyResolutionExplanation) : Prop :=
  Fills '*' pattern explanation.artifact ∨
    ∃ path ∈ explanation.paths, ∃ node, path.nodes.getLast? = some node ∧ Fills '*' pattern node

/-- No text that a pattern is compared with has a star of its own. -/
structure Starless (explanation : DependencyResolutionExplanation) : Prop where
  artifact : '*' ∉ explanation.artifact
  node : ∀ path ∈ explanation.paths, ∀ node, path.nodes.getLast? = some node → '*' ∉ node

theorem coordinateMatches_iff {pattern : Str} {explanation : DependencyResolutionExplanation}
    (h : Starless explanation) :
    coordinateMatches pattern explanation = true ↔ Names pattern explanation := by
  rw [coordinateMatches, Bool.or_eq_true, wildcardMatches_iff h.artifact, List.any_eq_true]
  refine or_congr_right (exists_congr fun path => and_congr_right fun hpath => ?_)
  cases hlast : path.nodes.getLast? with
  | none => exact iff_of_false Bool.false_ne_true nofun
  | some node =>
    simp only [Option.some.injEq, exists_eq_left']
    exact wildcardMatches_iff (h.node path hpath node hlast)

/-- **The filter is a glob filter.**  `wildcard_matches` accepts a value without stars exactly when
it is the pattern with a text in the place of each star, and so the explanations that are kept are
those of the artifacts that the pattern names. -/
theorem wildcard_filters :
    (∀ pattern value : Str, '*' ∉ value →
      (wildcardMatches pattern value = true ↔ Fills '*' pattern value)) ∧
      ∀ (pattern : Str) (explanations : List DependencyResolutionExplanation),
        (∀ explanation ∈ explanations, Starless explanation) →
          ∀ explanation, explanation ∈ filterExplanations (some pattern) explanations ↔
            explanation ∈ explanations ∧ Names pattern explanation := by
  refine ⟨fun _ _ => wildcardMatches_iff, fun pattern explanations h explanation => ?_⟩
  rw [filterExplanations, List.mem_filter]
  exact and_congr_right fun hmem => coordinateMatches_iff (h explanation hmem)

def sampleExplanation : DependencyResolutionExplanation :=
  { artifact := "org:lib-lib:jar".toList, selectedVersion := none, requestedVersions := []
    selectionReasons := [], paths := [] }

/-- The star has to be tried again after the first `lib`. -/
theorem wildcard_filters_lib :
    sampleExplanation ∈ filterExplanations (some "*lib:jar".toList) [sampleExplanation] ∧
      (wildcardMatches "*lib:jar".toList sampleExplanation.artifact = true ↔
        Fills '*' "*lib:jar".toList sampleExplanation.artifact) ∧
      (sampleExplanation ∈ filterExplanations (some "*lib:jar".toList) [sampleExplanation] ↔
        sampleExplanation ∈ [sampleExplanation] ∧ Names "*lib:jar".toList sampleExplanation) :=
  ⟨by decide +kernel, wildcard_filters.1 _ _ (by decide),
    wildcard_filters.2 _ _
      (List.forall_mem_singleton.mpr ⟨by decide, fun _ h => (List.not_mem_nil h).elim⟩) _⟩

end MavenMcp
