/-
# Continued lines

A shell deletes a backslash with the newline after it, outside single quotes and comments, before
it reads a word (`joinLines`).  The tokenizer skips the pair as well, but it takes the word around
it for a quoted one, and it looks for the second character of an operator in the text as it stands.

* `tokenStep_joinLines`: a round that looks past no continuation is a round on the joined text.
* `tokens_joinLines`: so a text in which no continuation stands in an operator, nor makes a
  descriptor a word, has the tokens of its joined text.
-/
import MavenMcp.LogAnalysis.Shell

namespace MavenMcp.LogAnalysis

open Text

/-! ## 1. What a shell deletes -/

/-- Where a shell is in a text. -/
inductive Place
  | unquoted (inWord : Bool)
  | single
  | double
  | comment
deriving DecidableEq, Repr

namespace Place

/-- The place after a character that no backslash escapes. -/
def next : Place → Char → Place
  | comment, c => if c = '\n' then unquoted false else comment
  | single, c => if c = '\'' then unquoted true else single
  | double, c => if c = '"' then unquoted true else double
  | unquoted inWord, c =>
    if c = '\'' then single
    else if c = '"' then double
    else if c = '#' ∧ inWord = false then comment
    else if isWhitespace c ∨ c ∈ [';', '|', '&', '(', ')', '<', '>'] then unquoted false
    else unquoted true

/-- Whether a backslash escapes here. -/
def escapes : Place → Bool
  | unquoted _ => true
  | double => true
  | single => false
  | comment => false

/-- The place after an escaped character. -/
def escaped : Place → Place
  | unquoted _ => unquoted true
  | place => place

end Place

/-- The text without the continuations that a shell deletes. -/
def joinLines : Place → Str → Str
  | _, [] => []
  | place, [c] => if c = '\\' ∧ place.escapes then [c] else c :: joinLines (place.next c) []
  | place, c :: d :: rest =>
    if c = '\\' ∧ place.escapes then
      if d = '\n' then joinLines place rest else c :: d :: joinLines place.escaped rest
    else c :: joinLines (place.next c) (d :: rest)

/-- The first character that no continuation hides. -/
def nextChar : Str → Option Char
  | [] => none
  | [c] => some c
  | c :: d :: rest => if c = '\\' ∧ d = '\n' then nextChar rest else some c

/-! ## 2. What goes wrong -/

/-- Two characters that the tokenizer takes together. -/
def isOperator (quote : Option Char) (c : Char) (next : Option Char) : Bool :=
  match next with
  | none => false
  | some next =>
    if quote = none then
      (c, next) ∈ [('$', '('), ('<', '<'), ('&', '>')] || isPair c next
    else quote = some '"' && c == '$' && next == '('

/-- A continuation stands in an operator that begins with `c`. -/
def splitsOperator (c : Char) (rest : Str) (s : TokenState) : Bool :=
  (decide (rest.head? ≠ nextChar rest) && isOperator s.quote c (nextChar rest))
    -- the second `>` of `&>>`
    || (s.quote.isNone && c == '&' && rest.head? == some '>'
      && decide (rest.tail.head? ≠ nextChar rest.tail) && nextChar rest.tail == some '>')

/-- A descriptor in front of the redirection is taken for a word, `j` being the state without the
continuations that were skipped. -/
def misreadsDescriptor (c : Char) (rest : Str) (s j : TokenState) : Bool :=
  s.quote.isNone && isRedirect c rest && s.started && decide (s.isDescriptor ≠ j.isDescriptor)

def isContinuation (c : Char) (rest : Str) (s : TokenState) : Bool :=
  c == '\\' && rest.head? == some '\n' && decide (s.quote ≠ some '\'')

/-- The rounds of the tokenizer with its state `s`, and the state `j` it would have without the
continuations it has skipped, as long as nothing goes wrong. -/
def smoothLoop : Nat → Str → TokenState → TokenState → Bool
  | _, [], _, _ => true
  | 0, _ :: _, _, _ => true
  | n + 1, c :: rest, s, j =>
    if isContinuation c rest s then smoothLoop n rest.tail { s with plainWord := false } j
    else
      !splitsOperator c rest s && !misreadsDescriptor c rest s j &&
        match tokenStep c rest s, tokenStep c rest j with
        | some (s, rest), some (j, _) => smoothLoop n rest s j
        | _, _ => true

/-- No continuation stands in an operator or makes a descriptor a word. -/
def Smooth (command : Str) : Prop :=
  smoothLoop command.length command .start .start = true

instance (command : Str) : Decidable (Smooth command) := inferInstanceAs (Decidable (_ = _))

/-! ## 3. Joined texts -/

section

variable {place : Place} {c d : Char} {rest : Str}

theorem joinLines_cons (h : ¬(c = '\\' ∧ place.escapes = true)) (rest : Str) :
    joinLines place (c :: rest) = c :: joinLines (place.next c) rest := by
  cases rest with
  | nil => simp only [joinLines, if_neg h]
  | cons d rest => rw [joinLines, if_neg h]

theorem joinLines_escaped (hplace : place.escapes = true) (hd : d ≠ '\n') (rest : Str) :
    joinLines place ('\\' :: d :: rest) = '\\' :: d :: joinLines place.escaped rest := by
  rw [joinLines, if_pos ⟨rfl, hplace⟩, if_neg hd]

theorem joinLines_continuation (hplace : place.escapes = true) (rest : Str) :
    joinLines place ('\\' :: '\n' :: rest) = joinLines place rest := by
  rw [joinLines, if_pos ⟨rfl, hplace⟩, if_pos rfl]

/-- What a joined text begins with. -/
theorem head?_joinLines (hplace : place.escapes = true) (rest : Str) :
    (joinLines place rest).head? = nextChar rest := by
  fun_induction nextChar rest with
  | case1 => rfl
  | case2 c =>
    rw [joinLines]
    split <;> rfl
  | case3 c d rest h ih =>
    obtain ⟨rfl, rfl⟩ := h
    rw [joinLines_continuation hplace, ih]
  | case4 c d rest h =>
    by_cases hc : c = '\\'
    · subst hc
      rw [joinLines_escaped hplace fun hd => h ⟨rfl, hd⟩]
      rfl
    · rw [joinLines_cons fun h => hc h.1]
      rfl

/-- A character that a continuation hides is not the one in front. -/
theorem head?_of_ne_nextChar (h : rest.head? ≠ nextChar rest) : rest.head? = some '\\' := by
  cases rest with
  | nil => exact absurd rfl h
  | cons c rest =>
    cases rest with
    | nil => exact absurd rfl h
    | cons d rest =>
      by_cases hc : c = '\\' ∧ d = '\n'
      · rw [hc.1]
        rfl
      · rw [nextChar, if_neg hc] at h
        exact absurd rfl h

/-- Where no operator is split, the tokenizer sees its second character in both texts. -/
theorem head?_joinLines_iff {s : TokenState} (hplace : place.escapes = true) (hd : d ≠ '\\')
    (hoperator : isOperator s.quote c (some d) = true) (hsplit : splitsOperator c rest s = false) :
    (joinLines place rest).head? = some d ↔ rest.head? = some d := by
  rw [head?_joinLines hplace]
  by_cases hsame : rest.head? = nextChar rest
  · rw [hsame]
  · refine ⟨fun h => ?_, fun h => ?_⟩
    · rw [splitsOperator, h, hoperator, ← h, decide_eq_true hsame] at hsplit
      exact absurd hsplit (by simp)
    · exact absurd (Option.some.inj (h.symm.trans (head?_of_ne_nextChar hsame))) hd

theorem afterComment_joinLines (rest : Str) :
    afterComment (joinLines .comment rest) = joinLines (.unquoted false) (afterComment rest) := by
  have hplace : Place.comment.escapes ≠ true := Bool.false_ne_true
  induction rest with
  | nil => rfl
  | cons c rest ih =>
    rw [joinLines_cons fun h => hplace h.2, afterComment, afterComment]
    by_cases hc : c = '\n'
    · rw [if_pos hc, if_pos hc, Place.next, if_pos hc]
    · rw [if_neg hc, if_neg hc, Place.next, if_neg hc]
      exact ih

/-- An operator character in front stays in front. -/
theorem joinLines_operator (hc : c ∈ ['>', '|', '&']) (rest : Str) :
    joinLines (.unquoted false) (c :: rest) = c :: joinLines (.unquoted false) rest := by
  have hne : ¬(c = '\\' ∧ (Place.unquoted false).escapes = true) := by
    rintro ⟨rfl, -⟩
    exact absurd hc (by decide)
  have hnext : (Place.unquoted false).next c = .unquoted false := by
    simp only [List.mem_cons, List.not_mem_nil, or_false] at hc
    rcases hc with rfl | rfl | rfl <;> rfl
  rw [joinLines_cons hne, hnext]

theorem mem_of_isPair (h : isPair c d = true) : d ∈ ['>', '|', '&'] := by
  simp only [isPair, List.mem_cons, Prod.mk.injEq, List.not_mem_nil, or_false,
    decide_eq_true_eq] at h
  rcases h with ⟨-, rfl⟩ | ⟨-, rfl⟩ | ⟨-, rfl⟩ | ⟨-, rfl⟩ | ⟨-, rfl⟩ <;> decide

end

/-! ## 4. One round -/

/-- The place of a state. -/
def Place.of (s : TokenState) : Place :=
  if s.quote = none then .unquoted s.started
  else if s.quote = some '\'' then .single
  else .double

/-- The quotations are those of a shell, and stand in a word. -/
structure Valid (s : TokenState) : Prop where
  quote : s.quote = none ∨ s.quote = some '\'' ∨ s.quote = some '"'
  started : s.quote ≠ none → s.started = true

theorem valid_start : Valid .start := ⟨.inl rfl, fun h => absurd rfl h⟩

/-- A round on the joined text does what the round does. -/
def Joins (c : Char) (rest tail : Str) (j : TokenState) : Prop :=
  match tokenStep c rest j with
  | none => tokenStep c tail j = none
  | some (j', rest') =>
    Valid j' ∧ tokenStep c tail j = some (j', joinLines (Place.of j') rest')

theorem joins_none {c : Char} {rest tail : Str} {j : TokenState}
    (hstep : tokenStep c rest j = none) (htail : tokenStep c tail j = none) :
    Joins c rest tail j := by
  unfold Joins
  rw [hstep]
  exact htail

theorem joins_some {c : Char} {rest rest' tail tail' : Str} {j j' : TokenState}
    (hstep : tokenStep c rest j = some (j', rest')) (htail : tokenStep c tail j = some (j', tail'))
    (hjoin : tail' = joinLines (Place.of j') rest') (hvalid : Valid j') : Joins c rest tail j := by
  unfold Joins
  rw [hstep]
  exact ⟨hvalid, hjoin ▸ htail⟩

theorem Place.of_unquoted {s : TokenState} (h : s.quote = none) :
    Place.of s = .unquoted s.started := if_pos h

theorem Place.of_single {s : TokenState} (h : s.quote = some '\'') : Place.of s = .single := by
  rw [Place.of, if_neg (by rw [h]; exact Option.some_ne_none _), if_pos h]

theorem Place.of_double {s : TokenState} (h : s.quote = some '"') : Place.of s = .double := by
  rw [Place.of, if_neg (by rw [h]; exact Option.some_ne_none _), if_neg (by rw [h]; decide)]

/-- The quote that is open ends the quotation. -/
theorem joins_close {c : Char} {rest : Str} {j : TokenState} (hc : some c = j.quote)
    (hescape : ¬(c = '\\' ∧ j.quote ≠ some '\'')) (hstarted : j.started = true) :
    Joins c rest (joinLines (.unquoted true) rest) j := by
  have hstep : ∀ text, tokenStep c text j = some ({ j with quote := none }, text) := fun text => by
    unfold tokenStep
    rw [if_neg hescape, if_pos hc]
  refine joins_some (hstep _) (hstep _) ?_ ⟨.inl rfl, fun _ => hstarted⟩
  rw [Place.of_unquoted rfl, hstarted]

/-- In single quotes nothing is joined. -/
theorem joins_single {c : Char} {rest : Str} {j : TokenState} (hquote : j.quote = some '\'')
    (hstarted : j.started = true) : Joins c rest (joinLines (Place.single.next c) rest) j := by
  have hescape : ¬(c = '\\' ∧ j.quote ≠ some '\'') := fun h => h.2 hquote
  by_cases hc : c = '\''
  · rw [Place.next, if_pos hc]
    exact joins_close (by rw [hc, hquote]) hescape hstarted
  · have hstep : ∀ text, tokenStep c text j = some ({ j with word := j.word ++ [c] }, text) :=
      fun text => by
        unfold tokenStep
        rw [if_neg hescape, if_neg fun h => hc (Option.some.inj (h.trans hquote)), if_pos hquote]
    refine joins_some (hstep _) (hstep _) ?_ ⟨.inr (.inl hquote), fun _ => hstarted⟩
    rw [Place.of_single (s := { j with word := j.word ++ [c] }) hquote, Place.next, if_neg hc]

theorem isRefused_joinLines {place : Place} {c : Char} {rest : Str} {j : TokenState}
    (hplace : place.escapes = true) (hsplit : splitsOperator c rest j = false)
    (hquote : j.quote = none ∨ j.quote = some '"') :
    isRefused c (joinLines place rest) j = isRefused c rest j := by
  have hsubstitution : (c == '$' && (joinLines place rest).head? == some '(')
      = (c == '$' && rest.head? == some '(') := by
    by_cases hc : c = '$'
    · have hoperator : isOperator j.quote c (some '(') = true := by
        rw [hc]
        rcases hquote with h | h <;> rw [h] <;> rfl
      rw [Bool.eq_iff_iff]
      simp only [hc, beq_self_eq_true, Bool.true_and, beq_iff_eq]
      exact head?_joinLines_iff hplace (by decide) hoperator hsplit
    · rw [beq_false_of_ne hc, Bool.false_and, Bool.false_and]
  have hdocument : (j.quote.isNone && c == '<' && (joinLines place rest).head? == some '<')
      = (j.quote.isNone && c == '<' && rest.head? == some '<') := by
    by_cases hc : j.quote = none ∧ c = '<'
    · have hoperator : isOperator j.quote c (some '<') = true := by
        rw [hc.1, hc.2]
        rfl
      rw [Bool.eq_iff_iff]
      simp only [hc.1, hc.2, beq_self_eq_true, Option.isNone_none, Bool.true_and, beq_iff_eq]
      exact head?_joinLines_iff hplace (by decide) hoperator hsplit
    · have hfalse : (j.quote.isNone && c == '<') = false := by
        rw [← Bool.not_eq_true, Bool.and_eq_true, Option.isNone_iff_eq_none, beq_iff_eq]
        exact hc
      rw [hfalse, Bool.false_and, Bool.false_and]
  rw [isRefused, isRefused, hsubstitution, hdocument]

/-- In double quotes. -/
theorem joins_double {c : Char} {rest : Str} {j : TokenState} (hquote : j.quote = some '"')
    (hstarted : j.started = true) (hc : c ≠ '\\') (hsplit : splitsOperator c rest j = false) :
    Joins c rest (joinLines (Place.double.next c) rest) j := by
  have hescape : ¬(c = '\\' ∧ j.quote ≠ some '\'') := fun h => hc h.1
  by_cases hclose : c = '"'
  · rw [Place.next, if_pos hclose]
    exact joins_close (by rw [hclose, hquote]) hescape hstarted
  rw [Place.next, if_neg hclose]
  have hstep : ∀ text, tokenStep c text j
      = if isRefused c text j then none else some (j.push c, text) := fun text => by
    unfold tokenStep
    rw [if_neg hescape, if_neg fun h => hclose (Option.some.inj (h.trans hquote)),
      if_neg (by rw [hquote]; decide)]
    split
    · rfl
    · rw [if_pos (by rw [hquote]; rfl)]
  have hrefused : isRefused c (joinLines .double rest) j = isRefused c rest j :=
    isRefused_joinLines rfl hsplit (.inr hquote)
  by_cases h : isRefused c rest j = true
  · refine joins_none ((hstep _).trans (if_pos h)) ((hstep _).trans (if_pos ?_))
    exact hrefused.trans h
  · refine joins_some ((hstep _).trans (if_neg h)) ((hstep _).trans (if_neg ?_)) ?_
      ⟨.inr (.inr hquote), fun _ => rfl⟩
    · rw [hrefused]
      exact h
    · rw [Place.of_double (s := j.push c) hquote]

theorem isRedirect_joinLines {place : Place} {c : Char} {rest : Str} {j : TokenState}
    (hplace : place.escapes = true) (hsplit : splitsOperator c rest j = false)
    (hquote : j.quote = none) : isRedirect c (joinLines place rest) = isRedirect c rest := by
  have hboth : (c == '&' && (joinLines place rest).head? == some '>')
      = (c == '&' && rest.head? == some '>') := by
    by_cases hc : c = '&'
    · have hoperator : isOperator j.quote c (some '>') = true := by
        rw [hc, hquote]
        rfl
      rw [Bool.eq_iff_iff]
      simp only [hc, beq_self_eq_true, Bool.true_and, beq_iff_eq]
      exact head?_joinLines_iff hplace (by decide) hoperator hsplit
    · rw [beq_false_of_ne hc, Bool.false_and, Bool.false_and]
  rw [isRedirect, isRedirect, hboth]

/-- The rest after an operator character. -/
theorem tail_joinLines {d : Char} {rest : Str} (hd : d ∈ ['>', '|', '&'])
    (hhead : rest.head? = some d) :
    (joinLines (.unquoted false) rest).tail = joinLines (.unquoted false) rest.tail := by
  obtain ⟨rest, rfl⟩ := List.head?_eq_some_iff.mp hhead
  rw [joinLines_operator hd, List.tail_cons, List.tail_cons]

/-- `&>` and `&>>`. -/
theorem afterBoth_joinLines {rest : Str} {j : TokenState} (hquote : j.quote = none)
    (hhead : rest.head? = some '>') (hsplit : splitsOperator '&' rest j = false) :
    afterRedirect '&' (joinLines (.unquoted false) rest)
      = joinLines (.unquoted false) (afterRedirect '&' rest) := by
  have hhead' : (joinLines (.unquoted false) rest.tail).head? = some '>'
      ↔ rest.tail.head? = some '>' := by
    rw [head?_joinLines rfl]
    by_cases hsame : rest.tail.head? = nextChar rest.tail
    · rw [hsame]
    · refine ⟨fun h => ?_, fun h => ?_⟩
      · simp only [splitsOperator, Bool.or_eq_false_iff] at hsplit
        have hsecond := hsplit.2
        rw [h, decide_eq_true (h ▸ hsame), hquote, hhead] at hsecond
        exact absurd hsecond (by decide)
      · exact absurd (Option.some.inj (h.symm.trans (head?_of_ne_nextChar hsame))) (by decide)
  rw [afterRedirect, afterRedirect, if_pos rfl, if_pos rfl, tail_joinLines (by decide) hhead]
  simp only
  by_cases hnext : rest.tail.head? = some '>'
  · rw [if_pos hnext, if_pos (hhead'.mpr hnext), tail_joinLines (by decide) hnext]
  · rw [if_neg hnext, if_neg (hnext ∘ hhead'.mp)]

/-- The operators of two characters. -/
theorem afterPair_joinLines {c : Char} {rest : Str} {j : TokenState} (hquote : j.quote = none)
    (hc : c ≠ '&') (hsplit : splitsOperator c rest j = false) :
    afterRedirect c (joinLines (.unquoted false) rest)
      = joinLines (.unquoted false) (afterRedirect c rest) := by
  have hoperator {d : Char} (hd : isPair c d = true) : isOperator j.quote c (some d) = true := by
    rw [isOperator, hquote]
    simp only [if_true, hd, Bool.or_true]
  have hne {d : Char} (hd : isPair c d = true) : d ≠ '\\' := by
    rintro rfl
    exact absurd (mem_of_isPair hd) (by decide)
  rw [afterRedirect, afterRedirect, if_neg hc, if_neg hc]
  by_cases hpair : ∃ d, rest.head? = some d ∧ isPair c d = true
  · obtain ⟨d, hhead, hd⟩ := hpair
    have hhead' : (joinLines (.unquoted false) rest).head? = some d :=
      (head?_joinLines_iff rfl (hne hd) (hoperator hd) hsplit).mpr hhead
    rw [hhead, hhead', Option.any_some, if_pos hd, if_pos hd,
      tail_joinLines (mem_of_isPair hd) hhead]
  · have hpair' : ¬∃ d, (joinLines (.unquoted false) rest).head? = some d ∧ isPair c d = true :=
      fun ⟨d, hhead, hd⟩ =>
        hpair ⟨d, (head?_joinLines_iff rfl (hne hd) (hoperator hd) hsplit).mp hhead, hd⟩
    rw [if_neg (by rwa [Option.any_eq_true]), if_neg (by rwa [Option.any_eq_true])]

theorem afterRedirect_joinLines {c : Char} {rest : Str} {j : TokenState} (hquote : j.quote = none)
    (hredirect : isRedirect c rest = true) (hsplit : splitsOperator c rest j = false) :
    afterRedirect c (joinLines (.unquoted false) rest)
      = joinLines (.unquoted false) (afterRedirect c rest) := by
  by_cases hc : c = '&'
  · subst hc
    exact afterBoth_joinLines hquote (by simpa [isRedirect] using hredirect) hsplit
  · exact afterPair_joinLines hquote hc hsplit

/-- The rounds outside quotations. -/
theorem tokenStep_unquoted {c : Char} {j : TokenState} (hquote : j.quote = none) (hc : c ≠ '\\')
    (text : Str) :
    tokenStep c text j =
      if isRefused c text j then none
      else if c = '\'' ∨ c = '"' then
        some ({ j with quote := some c, started := true, plainWord := false }, text)
      else if isRedirect c text then some (j.redirect, afterRedirect c text)
      else if c = '#' ∧ j.started = false then
        some ({ j with result := j.result ++ [.boundary] }, afterComment text)
      else if isWhitespace c ∨ c ∈ [';', '|', '&', '(', ')'] then some (j.endWord c, text)
      else some (j.push c, text) := by
  have hnone : ¬j.quote.isSome = true := by
    rw [hquote]
    exact Bool.false_ne_true
  unfold tokenStep
  rw [if_neg fun h => hc h.1, if_neg (by rw [hquote]; exact Option.some_ne_none c),
    if_neg (by rw [hquote]; exact (Option.some_ne_none _).symm), if_neg hnone]

/-- A quotation opens. -/
theorem joins_open {c : Char} {rest : Str} {j : TokenState} (hquote : j.quote = none)
    (hc : c = '\'' ∨ c = '"') :
    Joins c rest (joinLines ((Place.unquoted j.started).next c) rest) j := by
  have hstep : ∀ text, tokenStep c text j
      = some ({ j with quote := some c, started := true, plainWord := false }, text) := by
    intro text
    have hrefused : isRefused c text j = false := by
      rcases hc with rfl | rfl <;> simp [isRefused, backQuote]
    rw [tokenStep_unquoted hquote (by rcases hc with rfl | rfl <;> decide), hrefused,
      if_neg Bool.false_ne_true, if_pos hc]
  refine joins_some (hstep _) (hstep _) ?_ ⟨.inr ?_, fun _ => rfl⟩
  · rcases hc with rfl | rfl <;> rfl
  · rcases hc with rfl | rfl
    · exact .inl rfl
    · exact .inr rfl

/-- A comment. -/
theorem joins_comment {rest : Str} {j : TokenState} (hquote : j.quote = none)
    (hstarted : j.started = false) : Joins '#' rest (joinLines .comment rest) j := by
  have hstep : ∀ text, tokenStep '#' text j
      = some ({ j with result := j.result ++ [.boundary] }, afterComment text) := fun text => by
    have hrefused : isRefused '#' text j = false := by simp [isRefused, backQuote]
    have hredirect : isRedirect '#' text = false := by simp [isRedirect]
    rw [tokenStep_unquoted hquote (by decide), hrefused, if_neg Bool.false_ne_true,
      if_neg (by decide), hredirect, if_neg Bool.false_ne_true, if_pos ⟨rfl, hstarted⟩]
  refine joins_some (hstep _) (hstep _) ?_ ⟨.inl hquote, fun h => absurd hquote h⟩
  rw [afterComment_joinLines,
    Place.of_unquoted (s := { j with result := j.result ++ [.boundary] }) hquote, hstarted]

theorem started_endWord (s : TokenState) (c : Char) : (s.endWord c).started = false := by
  unfold TokenState.endWord
  simp only
  split
  · rfl
  · next h => exact Bool.eq_false_iff.mpr h

theorem quote_endWord (s : TokenState) (c : Char) : (s.endWord c).quote = s.quote := by
  unfold TokenState.endWord
  simp only
  split <;> rfl

/-- Any other character outside quotations. -/
theorem joins_plain {c : Char} {rest : Str} {j : TokenState} (hquote : j.quote = none)
    (hc : c ≠ '\\') (hopen : ¬(c = '\'' ∨ c = '"')) (hcomment : ¬(c = '#' ∧ j.started = false))
    (hsplit : splitsOperator c rest j = false) :
    Joins c rest (joinLines ((Place.unquoted j.started).next c) rest) j := by
  have hstep := tokenStep_unquoted hquote hc
  simp only [if_neg hopen, if_neg hcomment] at hstep
  have hnext : (Place.unquoted j.started).next c
      = if isWhitespace c ∨ c ∈ [';', '|', '&', '(', ')', '<', '>'] then .unquoted false
        else .unquoted true := by
    rw [Place.next, if_neg fun h => hopen (.inl h), if_neg fun h => hopen (.inr h), if_neg hcomment]
  obtain ⟨inWord, hplace⟩ : ∃ inWord, (Place.unquoted j.started).next c = .unquoted inWord := by
    rw [hnext]
    split
    · exact ⟨false, rfl⟩
    · exact ⟨true, rfl⟩
  have hrefused : isRefused c (joinLines (.unquoted inWord) rest) j = isRefused c rest j :=
    isRefused_joinLines rfl hsplit (.inl hquote)
  have hredirect : isRedirect c (joinLines (.unquoted inWord) rest) = isRedirect c rest :=
    isRedirect_joinLines rfl hsplit hquote
  rw [hplace]
  by_cases h : isRefused c rest j = true
  · exact joins_none ((hstep _).trans (if_pos h)) ((hstep _).trans (if_pos (hrefused.trans h)))
  have hsteps := hstep rest
  have htails := hstep (joinLines (.unquoted inWord) rest)
  rw [if_neg h] at hsteps
  rw [hrefused, if_neg h, hredirect] at htails
  by_cases hredirects : isRedirect c rest = true
  · -- a redirection ends the word
    have hends : inWord = false := by
      have hmem : c ∈ [';', '|', '&', '(', ')', '<', '>'] := by
        simp only [isRedirect, Bool.or_eq_true, Bool.and_eq_true, beq_iff_eq] at hredirects
        rcases hredirects with (rfl | rfl) | ⟨rfl, -⟩ <;> decide
      rw [if_pos (.inr hmem)] at hnext
      exact Place.unquoted.inj (hplace.symm.trans hnext)
    rw [if_pos hredirects] at hsteps htails
    refine joins_some hsteps htails ?_ ⟨.inl hquote, fun h => absurd hquote h⟩
    rw [hends, afterRedirect_joinLines hquote hredirects hsplit,
      Place.of_unquoted (s := j.redirect) hquote]
    rfl
  rw [if_neg hredirects] at hsteps htails
  by_cases hblank : isWhitespace c ∨ c ∈ [';', '|', '&', '(', ')']
  · have hends : inWord = false := by
      have hmem : isWhitespace c ∨ c ∈ [';', '|', '&', '(', ')', '<', '>'] :=
        hblank.imp_right fun h => List.mem_append_left ['<', '>'] h
      rw [if_pos hmem] at hnext
      exact Place.unquoted.inj (hplace.symm.trans hnext)
    rw [if_pos hblank] at hsteps htails
    have hquote' := (quote_endWord j c).trans hquote
    refine joins_some hsteps htails ?_ ⟨.inl hquote', fun h => absurd hquote' h⟩
    rw [Place.of_unquoted hquote', started_endWord, hends]
  · have hgoes : inWord = true := by
      have hmem : ¬(isWhitespace c ∨ c ∈ [';', '|', '&', '(', ')', '<', '>']) := by
        simp only [isRedirect, Bool.or_eq_true, beq_iff_eq, not_or] at hredirects
        simp only [List.mem_cons, List.not_mem_nil, or_false, not_or] at hblank ⊢
        exact ⟨hblank.1, hblank.2.1, hblank.2.2.1, hblank.2.2.2.1, hblank.2.2.2.2.1,
          hblank.2.2.2.2.2, hredirects.1⟩
      rw [if_neg hmem] at hnext
      exact Place.unquoted.inj (hplace.symm.trans hnext)
    rw [if_neg hblank] at hsteps htails
    refine joins_some hsteps htails ?_ ⟨.inl hquote, fun _ => rfl⟩
    rw [Place.of_unquoted (s := j.push c) hquote, hgoes]
    rfl

/-- **One round** that looks past no continuation, on the joined text. -/
theorem tokenStep_joinLines {c : Char} {rest : Str} {j : TokenState} (hvalid : Valid j)
    (hc : ¬(c = '\\' ∧ j.quote ≠ some '\'')) (hsplit : splitsOperator c rest j = false) :
    Joins c rest (joinLines ((Place.of j).next c) rest) j := by
  by_cases hsingle : j.quote = some '\''
  · rw [Place.of_single hsingle]
    exact joins_single hsingle (hvalid.started (by rw [hsingle]; exact Option.some_ne_none _))
  have hne : c ≠ '\\' := fun h => hc ⟨h, hsingle⟩
  rcases hvalid.quote with hquote | hquote | hquote
  · rw [Place.of_unquoted hquote]
    by_cases hopen : c = '\'' ∨ c = '"'
    · exact joins_open hquote hopen
    by_cases hcomment : c = '#' ∧ j.started = false
    · obtain ⟨rfl, hstarted⟩ := hcomment
      rw [hstarted]
      exact joins_comment hquote hstarted
    exact joins_plain hquote hne hopen hcomment hsplit
  · exact absurd hquote hsingle
  · rw [Place.of_double hquote]
    exact joins_double hquote (hvalid.started (by rw [hquote]; exact Option.some_ne_none _)) hne
      hsplit

theorem Place.of_escaped {s : TokenState} (hvalid : Valid s) (hquote : s.quote ≠ some '\'')
    (d : Char) : Place.of (s.escaped d) = (Place.of s).escaped := by
  rcases hvalid.quote with h | h | h
  · rw [Place.of_unquoted h, Place.of_unquoted (s := s.escaped d) h]
    rfl
  · exact absurd h hquote
  · rw [Place.of_double h, Place.of_double (s := s.escaped d) h]
    rfl

theorem escapes_of {s : TokenState} (hvalid : Valid s) :
    (Place.of s).escapes = true ↔ s.quote ≠ some '\'' := by
  rcases hvalid.quote with h | h | h
  · rw [Place.of_unquoted h, h]
    exact iff_of_true rfl (Option.some_ne_none _).symm
  · rw [Place.of_single h, h]
    exact iff_of_false Bool.false_ne_true fun hne => hne rfl
  · rw [Place.of_double h, h]
    exact iff_of_true rfl (by decide)

/-- What a round does, as the joined text does it. -/
def RoundJoins (c : Char) (rest : Str) (j : TokenState) : Prop :=
  match tokenStep c rest j with
  | none => run (joinLines (Place.of j) (c :: rest)) j = none
  | some (j', rest') =>
    Valid j' ∧ run (joinLines (Place.of j) (c :: rest)) j = run (joinLines (Place.of j') rest') j'

/-- An escaped character. -/
theorem roundJoins_escape {rest : Str} {j : TokenState} (hvalid : Valid j)
    (hquote : j.quote ≠ some '\'') (hcontinued : isContinuation '\\' rest j = false) :
    RoundJoins '\\' rest j := by
  have hescapes := (escapes_of hvalid).mpr hquote
  unfold RoundJoins
  cases rest with
  | nil =>
    have hjoin : joinLines (Place.of j) ['\\'] = ['\\'] := by
      rw [joinLines, if_pos ⟨rfl, hescapes⟩]
    have hstep : tokenStep '\\' [] j = none := by
      unfold tokenStep
      rw [if_pos ⟨rfl, hquote⟩]
    rw [hstep, hjoin, run_cons, hstep]
  | cons d rest =>
    have hd : d ≠ '\n' := by
      rintro rfl
      rw [isContinuation, decide_eq_true hquote] at hcontinued
      exact absurd hcontinued (by simp)
    have hstep : ∀ rest, tokenStep '\\' (d :: rest) j = some (j.escaped d, rest) := fun rest => by
      unfold tokenStep
      rw [if_pos ⟨rfl, hquote⟩]
      simp only
      rw [if_neg hd]
    rw [hstep, joinLines_escaped hescapes hd, run_of_step (hstep _),
      ← Place.of_escaped hvalid hquote d]
    exact ⟨⟨hvalid.quote, fun _ => rfl⟩, rfl⟩

theorem roundJoins {c : Char} {rest : Str} {j : TokenState} (hvalid : Valid j)
    (hcontinued : isContinuation c rest j = false) (hsplit : splitsOperator c rest j = false) :
    RoundJoins c rest j := by
  by_cases hc : c = '\\' ∧ j.quote ≠ some '\''
  · obtain ⟨rfl, hquote⟩ := hc
    exact roundJoins_escape hvalid hquote hcontinued
  have hplain : ¬(c = '\\' ∧ (Place.of j).escapes = true) := by
    rwa [escapes_of hvalid]
  have hjoins := tokenStep_joinLines hvalid hc hsplit
  unfold Joins at hjoins
  unfold RoundJoins
  rw [joinLines_cons hplain, run_cons]
  cases hstep : tokenStep c rest j with
  | none =>
    rw [hstep] at hjoins
    rw [hjoins]
  | some after =>
    rw [hstep] at hjoins
    rw [hjoins.2]
    exact ⟨hjoins.1, rfl⟩

/-! ## 5. Whole texts -/

/-- States that differ at most in whether the word is plain. -/
def Alike (s j : TokenState) : Prop := s = { j with plainWord := s.plainWord }

theorem Alike.finish {s j : TokenState} (h : Alike s j) : s.finish = j.finish := by
  rw [h]
  rfl

theorem Alike.splitsOperator {s j : TokenState} (h : Alike s j) (c : Char) (rest : Str) :
    splitsOperator c rest s = splitsOperator c rest j := by
  rw [h]
  rfl

theorem Alike.isContinuation {s j : TokenState} (h : Alike s j) (c : Char) (rest : Str) :
    isContinuation c rest s = isContinuation c rest j := by
  rw [h]
  rfl

/-- A redirection that finds the descriptor either way. -/
theorem Alike.redirect {s j : TokenState} (h : Alike s j)
    (hdescriptor : s.started = true → s.isDescriptor = j.isDescriptor) :
    s.redirect = j.redirect := by
  have hword : (if s.started && !s.isDescriptor then [Token.word s.word] else [])
      = if j.started && !j.isDescriptor then [Token.word j.word] else [] := by
    have hstarted : s.started = j.started := by rw [h]
    have hwords : s.word = j.word := by rw [h]
    rw [← hstarted, ← hwords]
    cases hs : s.started with
    | false => rfl
    | true => rw [hdescriptor hs]
  unfold TokenState.redirect
  rw [hword]
  rw [h]

/-- Alike states take alike rounds unless a descriptor is misread. -/
theorem tokenStep_alike {c : Char} {rest : Str} {s j : TokenState} (h : Alike s j)
    (hdescriptor : misreadsDescriptor c rest s j = false) :
    Option.Rel (fun a b => Alike a.1 b.1 ∧ a.2 = b.2)
      (tokenStep c rest s) (tokenStep c rest j) := by
  obtain ⟨result, word, started, plainWord, quote⟩ := j
  obtain ⟨b, rfl⟩ : ∃ b, s = ⟨result, word, started, b, quote⟩ := ⟨_, h⟩
  have hredirect (hquote : ¬quote.isSome = true) (hredirects : isRedirect c rest = true) :
      TokenState.redirect ⟨result, word, started, b, quote⟩
        = TokenState.redirect ⟨result, word, started, plainWord, quote⟩ := by
    refine Alike.redirect h fun hstarted => ?_
    replace hstarted : started = true := hstarted
    rw [← Option.isNone_eq_false_iff, Bool.not_eq_false] at hquote
    simp only [misreadsDescriptor, hquote, hredirects, hstarted, Bool.true_and,
      decide_eq_false_iff_not, not_not] at hdescriptor
    exact hdescriptor
  have hendWord : Alike (TokenState.endWord ⟨result, word, started, b, quote⟩ c)
      (TokenState.endWord ⟨result, word, started, plainWord, quote⟩ c) := by
    cases started <;> rfl
  have hrefused : isRefused c rest ⟨result, word, started, b, quote⟩
      = isRefused c rest ⟨result, word, started, plainWord, quote⟩ := rfl
  unfold tokenStep
  simp only [hrefused]
  split_ifs with hescape hclose hsingle hrefuses hquoted hopen hredirects
  · cases rest with
    | nil => exact .none
    | cons d rest =>
      simp only
      split_ifs
      · exact .some ⟨rfl, rfl⟩
      · exact .some ⟨rfl, rfl⟩
  · exact .some ⟨rfl, rfl⟩
  · exact .some ⟨rfl, rfl⟩
  · exact .none
  · exact .some ⟨rfl, rfl⟩
  · exact .some ⟨rfl, rfl⟩
  · rw [hredirect hquoted hredirects]
    exact .some ⟨rfl, rfl⟩
  · exact .some ⟨rfl, rfl⟩
  · exact .some ⟨hendWord, rfl⟩
  · exact .some ⟨rfl, rfl⟩

/-- **A run**: the joined text takes the state without continuations to the same tokens. -/
theorem run_joinLines {n : Nat} {text : Str} {s j : TokenState} (hn : text.length ≤ n)
    (halike : Alike s j) (hvalid : Valid j) (hsmooth : smoothLoop n text s j = true) :
    run (joinLines (Place.of j) text) j = run text s := by
  induction n generalizing text s j with
  | zero =>
    obtain rfl := List.eq_nil_of_length_eq_zero (Nat.le_zero.mp hn)
    exact halike.finish.symm
  | succ n ih =>
    cases text with
    | nil => exact halike.finish.symm
    | cons c rest =>
      have hrest : rest.length ≤ n := Nat.le_of_succ_le_succ hn
      rw [smoothLoop] at hsmooth
      cases hcontinued : isContinuation c rest s with
      | true =>
        rw [if_pos hcontinued] at hsmooth
        simp only [isContinuation, Bool.and_eq_true, beq_iff_eq, decide_eq_true_eq] at hcontinued
        obtain ⟨⟨rfl, hhead⟩, hquote⟩ := hcontinued
        obtain ⟨rest, rfl⟩ := List.head?_eq_some_iff.mp hhead
        have hstep : tokenStep '\\' ('\n' :: rest) s
            = some ({ s with plainWord := false }, rest) := by
          unfold tokenStep
          rw [if_pos ⟨rfl, hquote⟩]
          rfl
        have hescapes : (Place.of j).escapes = true := (escapes_of hvalid).mpr <| by
          rw [halike] at hquote
          exact hquote
        rw [run_of_step hstep, joinLines_continuation hescapes]
        refine ih (Nat.le_of_succ_le hrest) ?_ hvalid hsmooth
        unfold Alike
        rw [halike]
      | false =>
        rw [if_neg (by rw [hcontinued]; exact Bool.false_ne_true)] at hsmooth
        simp only [Bool.and_eq_true, Bool.not_eq_true'] at hsmooth
        obtain ⟨⟨hsplit, hdescriptor⟩, hsmooth⟩ := hsmooth
        have hround := roundJoins hvalid ((halike.isContinuation c rest).symm.trans hcontinued)
          ((halike.splitsOperator c rest).symm.trans hsplit)
        have hrel := tokenStep_alike halike hdescriptor
        unfold RoundJoins at hround
        rw [run_cons c rest s]
        cases hs : tokenStep c rest s with
        | none =>
          cases hj : tokenStep c rest j with
          | none => rwa [hj] at hround
          | some after =>
            rw [hs, hj] at hrel
            cases hrel
        | some after =>
          obtain ⟨s', rest'⟩ := after
          cases hj : tokenStep c rest j with
          | none =>
            rw [hs, hj] at hrel
            cases hrel
          | some after =>
            obtain ⟨j', rest''⟩ := after
            rw [hs, hj] at hrel hsmooth
            rw [hj] at hround
            rw [Option.rel_some_some] at hrel
            obtain ⟨halike', hrests⟩ := hrel
            obtain rfl : rest' = rest'' := hrests
            have hle : rest'.length ≤ n := Nat.le_trans (length_tokenStep hs) hrest
            exact hround.2.trans (ih hle halike' hround.1 hsmooth)

/-- **Continuations do not matter** to the tokenizer where none stands in an operator or makes a
descriptor a word. -/
theorem tokens_joinLines (command : Str) (h : Smooth command) :
    tokens (joinLines (.unquoted false) command) = tokens command :=
  run_joinLines (s := .start) (j := .start) (Nat.le_refl _) rfl valid_start h

theorem tokens_joinLines_command :
    tokens (joinLines (.unquoted false) "mvn \\\n te\\\nst '-Da\\\nb' 2>x #c\\\n\\\n>y".toList)
      = tokens "mvn \\\n te\\\nst '-Da\\\nb' 2>x #c\\\n\\\n>y".toList :=
  tokens_joinLines "mvn \\\n te\\\nst '-Da\\\nb' 2>x #c\\\n\\\n>y".toList (by decide +kernel)

/-- A descriptor after a continued line is a word: no word has begun that a space could end, so the
next one is still taken for a quoted one. -/
theorem tokens_descriptor_continued :
    joinLines (.unquoted false) "mvn test \\\n2>err".toList = "mvn test 2>err".toList ∧
      tokens "mvn test 2>err".toList
        = some [.word "mvn".toList, .word "test".toList, .redirect, .word "err".toList] ∧
      tokens "mvn test \\\n2>err".toList
        = some [.word "mvn".toList, .word "test".toList, .word "2".toList, .redirect,
          .word "err".toList] := by
  refine ⟨?_, ?_, ?_⟩ <;> decide +kernel

end MavenMcp.LogAnalysis
