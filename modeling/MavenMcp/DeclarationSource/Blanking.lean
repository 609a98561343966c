/-
# The lexer over a text without its comments

`Comments.lean` relates two runs of the lexer (`Sim`).  Here every function of the lexer keeps them
together: a literal, a name or a number is read alike (`alike_*`), a template by induction on the
levels that are left, and in trivia a comment is passed at once by the first run and as white space
by the second one (`Sim.skipTrivia`).  So the tokens are the same.
-/
import MavenMcp.DeclarationSource.Comments

namespace MavenMcp.DeclarationSource

open Text

/-! ## 1. Loops -/

section

variable {all : List (Nat × Nat)} {c c' : Cursor}

/-- A round that both runs take alike. -/
def AlikeRound (all : List (Nat × Nat)) (body : Cursor → ForInStep Cursor) : Prop :=
  ∀ c c', Sim all c c' → OnTheWay all (body c).value → Loop.Alike (Sim all) (body c) (body c')

theorem Goes.length_lt {body : Cursor → ForInStep Cursor} (hbody : ∀ c, Goes c (body c))
    (c d : Cursor) (h : body c = .yield d) : d.rest.length < c.rest.length := by
  have hgoes := hbody c
  rw [h] at hgoes
  exact Advances.length_lt hgoes

/-- **A loop keeps the runs together.** -/
theorem Sim.loop {body : Cursor → ForInStep Cursor} (hbody : ∀ c, Goes c (body c))
    (halike : AlikeRound all body) (h : Sim all c c') (hway : OnTheWay all (c.loop body)) :
    Sim all (c.loop body) (c'.loop body) :=
  Loop.flow_alike (fun c => c.rest.length) (fun c => c.rest.length) (Goes.length_lt hbody)
    (Goes.length_lt hbody) (fun c => (hbody c).forward.onTheWay) halike _ _ c c'
    (Nat.lt_succ_self _) (Nat.lt_succ_self _) h hway

/-! ## 2. Literals and names -/

theorem alike_textBlockRound : AlikeRound all textBlockRound := by
  intro c c' h hway
  rw [textBlockRound] at hway ⊢
  rw [textBlockRound]
  cases hc : c.current with
  | none =>
    simp only [hc] at hway ⊢
    rw [h.none hway hc]
    exact h
  | some character =>
    simp only [hc] at hway ⊢
    by_cases hslash : character = '\\'
    · simp only [hslash, if_true] at hway ⊢
      have hfirst := h.bump ((Forward.bump c.bump).onTheWay hway)
      rw [hfirst.1, hc, hslash]
      exact (hfirst.2.bump hway).2
    · simp only [hslash, if_false] at hway ⊢
      by_cases hclose : c.startsWith "\"\"\"".toList = true
      · simp only [hclose, if_true] at hway ⊢
        have hhere := (Forward.bumpAscii hclose (by decide)).onTheWay hway
        obtain ⟨hclose', hsim⟩ := h.bumpAscii hhere hclose (by decide) (by decide)
        rw [current_of_startsWith hclose']
        simp only [hclose', if_true]
        exact hsim
      · simp only [hclose, Bool.false_eq_true, if_false] at hway ⊢
        have hhere := (Forward.bump c).onTheWay hway
        have hstarts := h.startsWith "\"\"\"".toList hhere (by decide) (by decide)
        obtain ⟨hcurrent, hsim⟩ := h.bump hway
        simp only [hcurrent, hc, hslash, hstarts, hclose, Bool.false_eq_true, if_false]
        exact hsim

theorem alike_quotesRound : AlikeRound all quotesRound := by
  intro c c' h hway
  rw [quotesRound] at hway ⊢
  rw [quotesRound]
  by_cases hc : c.current = some '"'
  · rw [if_pos hc] at hway ⊢
    obtain ⟨hcurrent, hsim⟩ := h.bump hway
    rw [if_pos (hcurrent.trans hc)]
    exact hsim
  · rw [if_neg hc] at hway ⊢
    rcases h.peek hway with ⟨hcurrent, -⟩ | ⟨-, w, hcurrent, hw⟩
    · rw [if_neg (by rw [hcurrent]; exact hc)]
      exact h
    · rw [if_neg]
      · exact h
      · rw [hcurrent]
        rintro ⟨rfl⟩
        exact absurd hw (by decide)

variable (language : SourceLanguage)

theorem Sim.isTemplateStart (h : Sim all c c') (hway : OnTheWay all c) :
    isTemplateStart language c' = isTemplateStart language c := by
  rw [DeclarationSource.isTemplateStart, DeclarationSource.isTemplateStart,
    h.startsWith _ hway (by decide) (by decide)]

/-- What is asked of `skip_template`: it moves on, and keeps the runs together. -/
structure AlikeTemplate (all : List (Nat × Nat)) (language : SourceLanguage)
    (skipTemplate : Cursor → Cursor) : Prop where
  advances : ∀ c, DeclarationSource.isTemplateStart language c = true → Advances c (skipTemplate c)
  alike : ∀ c c', DeclarationSource.isTemplateStart language c = true → Sim all c c' →
    OnTheWay all (skipTemplate c) → Sim all (skipTemplate c) (skipTemplate c')

variable {language} {skipTemplate : Cursor → Cursor}

theorem alike_rawStringRound (ht : AlikeTemplate all language skipTemplate) :
    AlikeRound all (rawStringRound language skipTemplate) := by
  intro c c' h hway
  have hhere := (goes_rawStringRound language ht.advances c).forward.onTheWay hway
  have hstarts := h.startsWith "\"\"\"".toList hhere (by decide) (by decide)
  have htemplate := h.isTemplateStart language hhere
  rw [rawStringRound] at hway ⊢
  rw [rawStringRound, hstarts, htemplate]
  cases hc : c.current with
  | none =>
    rw [h.none hhere hc]
    exact h
  | some character =>
    simp only [hc, Option.isNone_some, Bool.false_eq_true, if_false] at hway ⊢
    by_cases hclose : c.startsWith "\"\"\"".toList = true
    · have hcurrent : c'.current = some '"' := current_of_startsWith (hstarts.trans hclose)
      simp only [hclose, hcurrent, if_true, Option.isNone_some, Bool.false_eq_true,
        if_false] at hway ⊢
      exact h.loop goes_quotesRound alike_quotesRound hway
    · by_cases hopen : DeclarationSource.isTemplateStart language c = true
      · have hcurrent : c'.current = some '$' := by
          rw [hopen, DeclarationSource.isTemplateStart, Bool.and_eq_true] at htemplate
          exact current_of_startsWith htemplate.2
        simp only [hclose, hopen, hcurrent, if_true, Option.isNone_some, Bool.false_eq_true,
          if_false] at hway ⊢
        exact ht.alike c c' hopen h hway
      · simp only [hclose, hopen, Bool.false_eq_true, if_false] at hway ⊢
        obtain ⟨hcurrent, hsim⟩ := h.bump hway
        simp only [hcurrent, hc, Option.isNone_some, Bool.false_eq_true, if_false]
        exact hsim

theorem alike_stringRound (ht : AlikeTemplate all language skipTemplate) :
    AlikeRound all (stringRound language skipTemplate) := by
  intro c c' h hway
  have hhere := (goes_stringRound language ht.advances c).forward.onTheWay hway
  have htemplate := h.isTemplateStart language hhere
  by_cases hcurrent : c'.current = c.current
  · rw [stringRound] at hway ⊢
    rw [stringRound, hcurrent, htemplate]
    split at hway
    · exact h
    · exact h
    · exact ((h.bump ((Forward.bump c.bump).onTheWay hway)).2.bump hway).2
    · exact (h.bump hway).2
    · split at hway
      · rename_i hopen
        simp only [hopen, if_true]
        exact ht.alike c c' hopen h hway
      · rename_i hopen
        simp only [hopen, Bool.false_eq_true, if_false]
        exact (h.bump hway).2
    · exact (h.bump hway).2
  · -- the round takes a slash, which then begins no comment
    have hslash : c.current = some '/' := by
      by_contra hne
      exact hcurrent (h.current_of_ne hhere hne).1
    rw [stringRound, hslash] at hway
    exact absurd (h.bump hway).1 hcurrent

theorem Sim.skipString (ht : AlikeTemplate all language skipTemplate) (h : Sim all c c')
    (hquote : c.current = some '"')
    (hway : OnTheWay all (skipString language skipTemplate c)) :
    Sim all (skipString language skipTemplate c) (skipString language skipTemplate c') := by
  have hhere := (advances_skipString language ht.advances hquote).forward.onTheWay hway
  have hstarts := h.startsWith "\"\"\"".toList hhere (by decide) (by decide)
  unfold DeclarationSource.skipString at hway ⊢
  rw [hstarts]
  by_cases htriple : c.startsWith "\"\"\"".toList = true
  · simp only [htriple, if_true] at hway ⊢
    have hopen := (h.bumpAscii hhere htriple (by decide) (by decide)).2
    cases language with
    | java => exact hopen.loop goes_textBlockRound alike_textBlockRound hway
    | kotlin =>
      exact hopen.loop (goes_rawStringRound .kotlin ht.advances) (alike_rawStringRound ht) hway
  · simp only [htriple, Bool.false_eq_true, if_false] at hway ⊢
    have hopen := (h.bumpAscii hhere (startsWith_current hquote) (by decide) (by decide)).2
    exact hopen.loop (goes_stringRound language ht.advances) (alike_stringRound ht) hway

theorem alike_quotedRound (quote : Char) : AlikeRound all (quotedRound quote) := by
  intro c c' h hway
  have hhere := (goes_quotedRound quote c).forward.onTheWay hway
  by_cases hcurrent : c'.current = c.current
  · rw [quotedRound] at hway ⊢
    rw [quotedRound, hcurrent]
    cases hc : c.current with
    | none => exact h
    | some character =>
      simp only [hc] at hway ⊢
      split
      · exact h
      · rename_i hnewline
        simp only [hnewline, if_false] at hway
        split
        · rename_i hslash
          simp only [hslash, if_true] at hway
          exact ((h.bump ((Forward.bump c.bump).onTheWay hway)).2.bump hway).2
        · rename_i hslash
          simp only [hslash, if_false] at hway
          split
          · rename_i hend
            simp only [hend, if_true] at hway
            exact (h.bump hway).2
          · rename_i hend
            simp only [hend, if_false] at hway
            exact (h.bump hway).2
  · have hslash : c.current = some '/' := by
      by_contra hne
      exact hcurrent (h.current_of_ne hhere hne).1
    have hbump : OnTheWay all c.bump := by
      simp only [quotedRound, hslash] at hway
      split at hway
      · rename_i hnewline
        exact absurd hnewline (by decide)
      · split at hway
        · rename_i hescape
          exact absurd hescape (by decide)
        · split at hway
          · exact hway
          · exact hway
    exact absurd (h.bump hbump).1 hcurrent

theorem Sim.skipQuoted (quote : Char) (h : Sim all c c')
    (hway : OnTheWay all (skipQuoted quote c)) :
    Sim all (skipQuoted quote c) (skipQuoted quote c') :=
  (h.bump ((Forward.loop (goes_quotedRound quote) c.bump).onTheWay hway)).2.loop
    (goes_quotedRound quote) (alike_quotedRound quote) hway

variable (u : Unicode)

/-- White space is no part of an identifier. -/
theorem isIdentifierChar_of_isWhitespace (hs : u.Spaced) {w : Char} (hw : isWhitespace w = true) :
    isIdentifierChar u w = false := by
  have hne : w ≠ '_' ∧ w ≠ '$' := by
    refine ⟨?_, ?_⟩
    · rintro rfl
      exact absurd hw (by decide)
    · rintro rfl
      exact absurd hw (by decide)
  simp [isIdentifierChar, hs w hw, hne.1, hne.2]

theorem alike_identifierRound (hs : u.Spaced) : AlikeRound all (identifierRound u) := by
  intro c c' h hway
  rw [identifierRound] at hway ⊢
  rw [identifierRound]
  by_cases hid : c.current.any (isIdentifierChar u) = true
  · simp only [hid, if_true] at hway ⊢
    obtain ⟨hcurrent, hsim⟩ := h.bump hway
    simp only [hcurrent, hid, if_true]
    exact hsim
  · simp only [hid, Bool.false_eq_true, if_false] at hway ⊢
    rcases h.peek hway with ⟨hcurrent, -⟩ | ⟨-, w, hcurrent, hw⟩
    · simp only [hcurrent, hid, Bool.false_eq_true, if_false]
      exact h
    · simp only [hcurrent, Option.any_some, isIdentifierChar_of_isWhitespace u hs hw,
        Bool.false_eq_true, if_false]
      exact h

theorem alike_numberRound (hu : u.Ascii) (hs : u.Spaced) : AlikeRound all (numberRound u) := by
  intro c c' h hway
  have hhere := (goes_numberRound u c).forward.onTheWay hway
  cases hrest : c.rest with
  | nil =>
    have hnil' : c'.rest = [] :=
      List.head?_eq_none_iff.mp (h.none hhere (by rw [Cursor.current, hrest]; rfl))
    simp only [numberRound, hrest, hnil']
    exact h
  | cons character rest =>
    have hc : c.current = some character := current_eq_some.mpr ⟨rest, hrest⟩
    have hbump : c.bump.rest = rest := by rw [bump_of_rest hrest]
    by_cases hid : isIdentifierChar u character = true
    · simp only [numberRound, hrest, hid, if_true] at hway ⊢
      obtain ⟨hcurrent, hsim⟩ := h.bump hway
      obtain ⟨rest', hrest'⟩ := current_eq_some.mp (hcurrent.trans hc)
      simp only [hrest', hid, if_true]
      exact hsim
    · simp only [numberRound, hrest, hid, Bool.false_eq_true, if_false] at hway ⊢
      rcases h.peek hhere with ⟨hcurrent, hnext⟩ | ⟨hcomment, w, hcurrent, hw⟩
      · obtain ⟨rest', hrest'⟩ := current_eq_some.mp (hcurrent.trans hc)
        have hbump' : c'.bump.rest = rest' := by rw [bump_of_rest hrest']
        have hsim := (h.bump hnext).2
        -- the digit behind the dot
        have hdigit : rest'.head?.any Char.isDigit = rest.head?.any Char.isDigit := by
          rw [← hbump, ← hbump']
          rcases hsim.peek hnext with ⟨hcurrent', -⟩ | ⟨hcomment, w, hcurrent', hw⟩
          · rw [← Cursor.current, ← Cursor.current, hcurrent']
          · have hw' : w.isDigit = false := by
              by_contra hdigit
              rw [Bool.not_eq_false] at hdigit
              have hid' := isIdentifierChar_of_isDigit u hu hdigit
              rw [isIdentifierChar_of_isWhitespace u hs hw] at hid'
              cases hid'
            rw [hcomment.current, ← Cursor.current, hcurrent', Option.any_some, Option.any_some,
              hw']
            rfl
        simp only [hrest', hid, hdigit, Bool.false_eq_true, if_false]
        split
        · rename_i hdot
          exact hsim
        · exact h
      · obtain ⟨rest', hrest'⟩ := current_eq_some.mp hcurrent
        have hdot : w ≠ '.' := by
          rintro rfl
          exact absurd hw (by decide)
        have hslash : character = '/' := by
          have hcurrent' := hcomment.current
          rw [← Cursor.current, hc] at hcurrent'
          exact Option.some.inj hcurrent'
        simp only [hrest', isIdentifierChar_of_isWhitespace u hs hw, hdot, hslash, false_and,
          Bool.false_eq_true, if_false]
        exact h

/-! ## 3. Trivia -/

variable (language)

/-- The lexer behind some text. -/
def Cursor.behind (text rest : Str) (c : Cursor) : Cursor :=
  { c with
    rest
    position := c.position + byteLen text
    line := c.line + text.count '\n' }

theorem skipTrivia_yield {d : Cursor} (h : triviaRound language c = .yield d) :
    skipTrivia language c = skipTrivia language d := by
  rw [skipTrivia, loop_eq (goes_triviaRound language), h]

theorem skipTrivia_done {d : Cursor} (h : triviaRound language c = .done d) :
    skipTrivia language c = d := by
  rw [skipTrivia, loop_eq (goes_triviaRound language), h]

/-- White space is skipped character by character. -/
theorem skipTrivia_behind {blank rest : Str} (hblank : ∀ w ∈ blank, isWhitespace w = true)
    {c : Cursor} (hc : c.rest = blank ++ rest) :
    skipTrivia language c = skipTrivia language (c.behind blank rest) := by
  induction blank generalizing c with
  | nil =>
    have hsame : c.behind [] rest = c := by
      rw [List.nil_append] at hc
      rw [Cursor.behind, ← hc]
      rfl
    rw [hsame]
  | cons w blank ih =>
    rw [List.cons_append] at hc
    have hround : triviaRound language c = .yield c.bump := by
      rw [triviaRound, Cursor.current, hc, List.head?_cons, Option.any_some,
        hblank w List.mem_cons_self, if_pos rfl]
    have hbump : c.bump.rest = blank ++ rest := by rw [bump_of_rest hc]
    have hbehind : c.bump.behind blank rest = c.behind (w :: blank) rest := by
      rw [bump_of_rest hc]
      simp only [Cursor.behind, byteLen_cons, List.count_cons, beq_iff_eq, Nat.add_assoc,
        Cursor.mk.injEq, true_and, and_true]
      split
      · omega
      · omega
    rw [← hbehind, ← ih (fun x hx => hblank x (List.mem_cons_of_mem w hx)) hbump]
    exact skipTrivia_yield language hround

/-- Texts of the same length before the rest are the same. -/
theorem append_inj_byteLen {a b s t : Str} (h : a ++ s = b ++ t) (hlen : byteLen a = byteLen b) :
    a = b ∧ s = t := by
  have hsplit := splitBytes_append a s
  rw [h, hlen, splitBytes_append b t] at hsplit
  cases hsplit
  exact ⟨rfl, rfl⟩

/-- **A comment**: the second run stands before as much white space. -/
theorem Sim.comment {stop : Cursor} (h : Sim all c c') (hstop : Advances c stop)
    (hcomments : stop.comments = c.comments)
    (hway : OnTheWay all (c.afterComment stop)) :
    ∃ blank rest, c'.rest = blank ++ rest ∧ (∀ w ∈ blank, isWhitespace w = true) ∧
      Sim all (c.afterComment stop) (c'.behind blank rest) := by
  obtain ⟨text, hne, hmoves⟩ := hstop
  obtain ⟨later, hlater⟩ := hway.behind
  have hall : all = c.comments ++ ((c.position, stop.position) :: later) := by
    rw [← hlater, Cursor.afterComment, hcomments, List.append_assoc]
    rfl
  have hahead : c.ahead all = (c.position, stop.position) :: later := by
    rw [Cursor.ahead, hall, List.drop_left]
  have hafter : (c.afterComment stop).ahead all = later := by
    rw [Cursor.ahead, ← hlater, List.drop_left]
  have hrest := h.rest
  rw [hahead] at hrest
  generalize hs : c.rest = s at hrest
  generalize hs' : c'.rest = s' at hrest
  generalize hp : c.position = p at hrest
  generalize hq : stop.position = q at hrest
  cases hrest with
  | @code _ _ character _ _ hrest =>
    have hle := hrest.le _ List.mem_cons_self
    have hpos := character.utf8Size_pos
    simp only at hle
    omega
  | @comment _ _ comment blank s s' _ hblank hrest =>
    have hposition := hmoves.position
    rw [hq, hp] at hposition
    have hsame : comment = text ∧ s = stop.rest :=
      append_inj_byteLen (hs.symm.trans hmoves.rest) (by omega)
    obtain ⟨rfl, rfl⟩ := hsame
    refine ⟨blank, s', rfl, hblank.whitespace, ?_, ?_, ?_⟩
    · rw [Cursor.behind, Cursor.afterComment, h.position, hblank.length, hp, hq]
    · rw [Cursor.behind, Cursor.afterComment, h.line, hmoves.line, ← length_newlines 0 blank,
        hblank.newlines, length_newlines]
    · rw [hafter, Cursor.behind, Cursor.afterComment, hq]
      exact hrest

/-- **Trivia**: behind it both runs stand at the same place again. -/
theorem Sim.skipTrivia (h : Sim all c c') (hway : OnTheWay all (skipTrivia language c)) :
    Sim all (skipTrivia language c) (skipTrivia language c') := by
  induction hn : c.rest.length using Nat.strongRecOn generalizing c c' with
  | ind n ih =>
    have hgoes := goes_triviaRound language c
    have hcomment : ∀ stop, Advances c stop → stop.comments = c.comments →
        triviaRound language c = .yield (c.afterComment stop) →
        Sim all (DeclarationSource.skipTrivia language c)
          (DeclarationSource.skipTrivia language c') := by
      intro stop hstop hcomments hround
      rw [hround] at hgoes
      have hshorter := Advances.length_lt hgoes
      rw [skipTrivia_yield language hround] at hway ⊢
      obtain ⟨blank, rest, hrest, hblank, hsim⟩ :=
        h.comment hstop hcomments ((forward_skipTrivia language _).onTheWay hway)
      rw [skipTrivia_behind language hblank hrest]
      exact ih _ (by omega) hsim hway rfl
    by_cases hspace : c.current.any isWhitespace = true
    · have hround : triviaRound language c = .yield c.bump := by
        rw [triviaRound, if_pos hspace]
      rw [hround] at hgoes
      have hshorter := Advances.length_lt hgoes
      rw [skipTrivia_yield language hround] at hway ⊢
      obtain ⟨hcurrent, hsim⟩ := h.bump ((forward_skipTrivia language _).onTheWay hway)
      have hround' : triviaRound language c' = .yield c'.bump := by
        rw [triviaRound, hcurrent, if_pos hspace]
      rw [skipTrivia_yield language hround']
      exact ih _ (by omega) hsim hway rfl
    · by_cases hline : c.startsWith "//".toList = true
      · refine hcomment _ (advances_skipLineComment hline) (comments_skipLineComment c) ?_
        rw [triviaRound, if_neg hspace, if_pos hline]
      · by_cases hblock : c.startsWith "/*".toList = true
        · refine hcomment _ (advances_skipBlockComment language hblock)
            (comments_skipBlockComment language c) ?_
          rw [triviaRound, if_neg hspace, if_neg hline, if_pos hblock]
        · have hround : triviaRound language c = .done c := by
            rw [triviaRound, if_neg hspace, if_neg hline, if_neg hblock]
          rw [skipTrivia_done language hround] at hway ⊢
          have hnone : ∀ text, (∀ x ∈ text, isWhitespace x = false) → c.startsWith text ≠ true →
              c'.startsWith text ≠ true := fun text htext hnot hstarts =>
            hnot (startsWith_iff.mpr (h.rest.prefix_of htext (startsWith_iff.mp hstarts)))
          rcases h.peek hway with ⟨hcurrent, -⟩ | ⟨hstarts, -⟩
          · have hround' : triviaRound language c' = .done c' := by
              rw [triviaRound, hcurrent, if_neg hspace, if_neg (hnone _ (by decide) hline),
                if_neg (hnone _ (by decide) hblock)]
            rw [skipTrivia_done language hround']
            exact h
          · exact (hstarts.elim hline hblock).elim

/-! ## 4. Tokens -/

/-- The same token of both texts. -/
structure SameToken (token token' : Token) : Prop where
  kind : token'.kind = token.kind
  start : token'.start = token.start
  stop : token'.stop = token.stop
  line : token'.line = token.line
  endLine : token'.endLine = token.endLine
  punctuation : token.kind = .punctuation → token'.text = token.text

variable {language}

theorem Sim.skipIdentifier (hs : u.Spaced) (h : Sim all c c')
    (hway : OnTheWay all (skipIdentifier u c)) :
    Sim all (skipIdentifier u c) (skipIdentifier u c') :=
  h.loop (goes_identifierRound u) (alike_identifierRound u hs) hway

theorem Sim.skipNumber (hu : u.Ascii) (hs : u.Spaced) (h : Sim all c c')
    (hway : OnTheWay all (skipNumber u c)) : Sim all (skipNumber u c) (skipNumber u c') :=
  h.loop (goes_numberRound u) (alike_numberRound u hu hs) hway

/-- The text of a token of punctuation. -/
theorem textTo_of_punctuation {character : Char} (hc : c.current = some character)
    (hkind : (scanToken u language skipTemplate character c).1 = .punctuation) :
    c.textTo (scanToken u language skipTemplate character c).2 =
      if c.startsWith "->".toList then "->".toList else [character] := by
  obtain ⟨rest, hrest⟩ := current_eq_some.mp hc
  have hbump : c.textTo c.bump = [character] := by
    rw [Cursor.textTo, bump_of_rest hrest, hrest, List.length_cons, Nat.add_sub_cancel_left]
    rfl
  unfold scanToken at hkind ⊢
  split at hkind
  · cases hkind
  · split at hkind
    · cases hkind
    · split at hkind
      · cases hkind
      · split at hkind
        · cases hkind
        · split at hkind
          · cases hkind
          · rename_i hquote hchar htick hdigit hid
            simp only [hquote, hchar, htick, hdigit, hid, Bool.false_eq_true, if_false]
            by_cases harrow : c.startsWith "->".toList = true
            · simp only [harrow, if_true]
              obtain ⟨tail, htail⟩ := startsWith_iff.mp harrow
              have hlength : ("->".toList ++ tail).length - tail.length = "->".toList.length := by
                rw [List.length_append, Nat.add_sub_cancel]
              rw [Cursor.textTo, Cursor.bumpAscii, ← htail]
              change List.take (("->".toList ++ tail).length - tail.length) _ = _
              rw [hlength, List.take_left]
            · simp only [harrow, Bool.false_eq_true, if_false]
              exact hbump

/-- **A token is scanned alike.** -/
theorem Sim.scanToken (hu : u.Ascii) (hs : u.Spaced)
    (ht : AlikeTemplate all language skipTemplate) {character : Char} (h : Sim all c c')
    (hc : c.current = some character)
    (hway : OnTheWay all (scanToken u language skipTemplate character c).2) :
    c'.current = some character ∧
      (scanToken u language skipTemplate character c').1 =
        (scanToken u language skipTemplate character c).1 ∧
      Sim all (scanToken u language skipTemplate character c).2
        (scanToken u language skipTemplate character c').2 := by
  have hhere := (advances_scanToken u language hu ht.advances hc).forward.onTheWay hway
  have harrow := h.startsWith "->".toList hhere (by decide) (by decide)
  have hcurrent : c'.current = some character := by
    by_cases hslash : character = '/'
    · have hid : isIdentifierChar u '/' = false := by
        rw [isIdentifierChar, hu.alphanumeric _ (by decide)]
        rfl
      have hnot : c.startsWith "->".toList = false := by
        by_contra hstarts
        rw [Bool.not_eq_false] at hstarts
        have hdash := current_of_startsWith hstarts
        rw [hc, hslash] at hdash
        exact absurd (Option.some.inj hdash) (by decide)
      have hscan : (DeclarationSource.scanToken u language skipTemplate character c).2 =
        c.bump := by
        rw [hslash]
        simp only [DeclarationSource.scanToken, hid, hnot, Bool.false_eq_true, if_false]
        rfl
      rw [hscan] at hway
      exact (h.bump hway).1.trans hc
    · exact (h.current_of_ne hhere (by
        rw [hc]
        exact fun heq => hslash (Option.some.inj heq))).1.trans hc
  refine ⟨hcurrent, ?_⟩
  unfold DeclarationSource.scanToken at hway ⊢
  split
  · rename_i hquote
    rw [if_pos hquote] at hway
    exact ⟨rfl, h.skipString ht (hquote ▸ hc) hway⟩
  · rename_i hquote
    rw [if_neg hquote] at hway
    split
    · rename_i hchar
      rw [if_pos hchar] at hway
      exact ⟨rfl, h.skipQuoted _ hway⟩
    · rename_i hchar
      rw [if_neg hchar] at hway
      split
      · rename_i htick
        rw [if_pos htick] at hway
        exact ⟨rfl, h.skipQuoted _ hway⟩
      · rename_i htick
        rw [if_neg htick] at hway
        split
        · rename_i hdigit
          rw [if_pos hdigit] at hway
          exact ⟨rfl, h.skipNumber u hu hs hway⟩
        · rename_i hdigit
          rw [if_neg hdigit] at hway
          split
          · rename_i hid
            rw [if_pos hid] at hway
            exact ⟨rfl, h.skipIdentifier u hs hway⟩
          · rename_i hid
            rw [if_neg hid] at hway
            refine ⟨rfl, ?_⟩
            simp only [harrow] at hway ⊢
            split
            · rename_i hstarts
              exact (h.bumpAscii hhere hstarts (by decide) (by decide)).2
            · rename_i hstarts
              rw [if_neg hstarts] at hway
              exact (h.bump hway).2

/-- What is asked of `next_token`: the same tokens, and the runs stay together. -/
def AlikeNext (all : List (Nat × Nat)) (next : Cursor → Option Token × Cursor) : Prop :=
  ∀ c c', Sim all c c' → OnTheWay all (next c).2 →
    Option.Rel SameToken (next c).1 (next c').1 ∧ Sim all (next c).2 (next c').2

theorem alike_nextTokenWith (hu : u.Ascii) (hs : u.Spaced)
    (ht : AlikeTemplate all language skipTemplate) :
    AlikeNext all (nextTokenWith u language skipTemplate) := by
  intro c c' h hway
  rw [nextTokenWith] at hway ⊢
  rw [nextTokenWith]
  have htrivia := h.skipTrivia language
  generalize skipTrivia language c = start at hway htrivia ⊢
  generalize skipTrivia language c' = start' at htrivia ⊢
  cases hcurrent : start.current with
  | none =>
    simp only [hcurrent] at hway ⊢
    have hsim := htrivia hway
    rw [hsim.none hway hcurrent]
    exact ⟨.none, hsim⟩
  | some character =>
    simp only [hcurrent] at hway ⊢
    have hhere :=
      (advances_scanToken u language hu ht.advances hcurrent).forward.onTheWay hway
    have hsim := htrivia hhere
    obtain ⟨hcurrent', hkind, hstop⟩ := hsim.scanToken u hu hs ht hcurrent hway
    simp only [hcurrent']
    refine ⟨.some ⟨hkind, hsim.position, hstop.position, hsim.line, hstop.line, fun hp => ?_⟩,
      hstop⟩
    rw [textTo_of_punctuation u hcurrent hp,
      textTo_of_punctuation u hcurrent' (hkind.trans hp),
      hsim.startsWith "->".toList hhere (by decide) (by decide)]

/-- The state of the loop over a template. -/
def SimWith (all : List (Nat × Nat)) (s s' : Cursor × Nat) : Prop := Sim all s.1 s'.1 ∧ s'.2 = s.2

theorem alike_templateRound {next : Cursor → Option Token × Cursor} (hnext : AlikeNext all next)
    (s s' : Cursor × Nat) (h : SimWith all s s')
    (hway : OnTheWay all (templateRound next s).value.1) :
    Loop.Alike (SimWith all) (templateRound next s) (templateRound next s') := by
  obtain ⟨c, depth⟩ := s
  obtain ⟨c', depth'⟩ := s'
  obtain ⟨hsim, rfl⟩ := h
  have hboth := hnext c c' hsim
  have hvalue : (templateRound next (c, depth')).value.1 = (next c).2 := by
    simp only [templateRound]
    split
    · rename_i heq
      rw [heq]
      rfl
    · rename_i heq
      rw [heq]
      split
      · rfl
      · split
        · rfl
        · split
          · split
            · rfl
            · rfl
          · rfl
  rw [hvalue] at hway
  obtain ⟨htoken, hafter⟩ := hboth hway
  simp only [templateRound]
  rcases heq : next c with ⟨_ | token, d⟩ <;> rcases heq' : next c' with ⟨_ | token', d'⟩ <;>
    rw [heq, heq'] at htoken hafter
  · exact ⟨hafter, rfl⟩
  · cases htoken
  · cases htoken
  · cases htoken with
    | some hsame =>
      simp only [hsame.kind]
      by_cases hp : token.kind = .punctuation
      · simp only [hsame.punctuation hp, hp, ne_eq, not_true_eq_false, if_false]
        split
        · exact ⟨hafter, rfl⟩
        · split
          · split
            · exact ⟨hafter, rfl⟩
            · exact ⟨hafter, rfl⟩
          · exact ⟨hafter, rfl⟩
      · simp only [hp, ne_eq, not_false_eq_true, if_true]
        exact ⟨hafter, rfl⟩

theorem GoesWith.length_lt {body : Cursor × Nat → ForInStep (Cursor × Nat)}
    (hbody : ∀ s, GoesWith s (body s)) (s t : Cursor × Nat) (h : body s = .yield t) :
    t.1.rest.length < s.1.rest.length := by
  have hgoes := hbody s
  rw [h] at hgoes
  exact Advances.length_lt hgoes

/-- A loop with a counter keeps the runs together, too. -/
theorem Sim.loopWith {body : Cursor × Nat → ForInStep (Cursor × Nat)}
    (hbody : ∀ s, GoesWith s (body s))
    (halike : ∀ s s', SimWith all s s' → OnTheWay all (body s).value.1 →
      Loop.Alike (SimWith all) (body s) (body s')) (h : Sim all c c') (depth : Nat)
    (hway : OnTheWay all (c.loopWith body depth)) :
    Sim all (c.loopWith body depth) (c'.loopWith body depth) := by
  have hboth := Loop.flow_alike (Q := fun s : Cursor × Nat => OnTheWay all s.1)
    (R := SimWith all) (fun s => s.1.rest.length) (fun s => s.1.rest.length)
    (GoesWith.length_lt hbody) (GoesWith.length_lt hbody) (fun s => (hbody s).forward.onTheWay)
    halike (c.rest.length + 1) (c'.rest.length + 1) (c, depth) (c', depth) (Nat.lt_succ_self _)
    (Nat.lt_succ_self _) ⟨h, rfl⟩ hway
  exact hboth.1

/-- **A template**: its code is lexed alike. -/
theorem alike_skipTemplateWith {next : Option (Cursor → Option Token × Cursor)}
    (hspec : ∀ f ∈ next, ∀ c, match f c with
      | (none, c') => Forward c c' ∧ c'.rest = []
      | (some token, c') => Lexed c token c')
    (halike : ∀ f ∈ next, AlikeNext all f) :
    AlikeTemplate all language (skipTemplateWith next) where
  advances _ := advances_skipTemplateWith language hspec
  alike c c' hstart h hway := by
    have hhere := (advances_skipTemplateWith language hspec hstart).forward.onTheWay hway
    have hopen : c.startsWith ['$', '\x7b'] = true := by
      rw [DeclarationSource.isTemplateStart, Bool.and_eq_true] at hstart
      exact hstart.2
    have hsim := (h.bumpAscii hhere hopen (by decide) (by decide)).2
    cases next with
    | none => exact hsim
    | some f =>
      have hgoes := goes_templateRound (hspec f rfl)
      exact hsim.loopWith hgoes (alike_templateRound (halike f rfl)) 1 hway

variable (language)

/-- **The next token is the same**, at every level of templates. -/
theorem alike_nextToken (hu : u.Ascii) (hs : u.Spaced) (levels : Nat) :
    AlikeNext all (nextToken u language levels) := by
  induction levels with
  | zero =>
    refine alike_nextTokenWith u hu hs (alike_skipTemplateWith ?_ ?_)
    · exact fun f hf => absurd hf (Option.not_mem_none f)
    · exact fun f hf => absurd hf (Option.not_mem_none f)
  | succ levels ih =>
    refine alike_nextTokenWith u hu hs (alike_skipTemplateWith (fun f hf => ?_) fun f hf => ?_)
    · cases hf
      exact nextToken_spec u language hu levels
    · cases hf
      exact ih

/-! ## 5. Runs -/

/-- **Two runs find the same tokens.** -/
theorem Lexes.alike (hu : u.Ascii) (hs : u.Spaced) {d d' : Cursor} {tokens tokens' : List Token}
    (h : Lexes u language c tokens d) (hway : OnTheWay all d) (hsim : Sim all c c')
    (h' : Lexes u language c' tokens' d') : List.Forall₂ SameToken tokens tokens' := by
  induction h generalizing c' tokens' with
  | @stop c d hnext =>
    have halike := alike_nextToken language u hu hs maxTemplateDepth c c' hsim
    rw [hnext] at halike
    obtain ⟨htoken, -⟩ := halike hway
    cases h' with
    | stop _ => exact .nil
    | token hnext' _ =>
      rw [hnext'] at htoken
      cases htoken
  | @token c c₁ d token tokens hnext hrun ih =>
    have halike := alike_nextToken language u hu hs maxTemplateDepth c c' hsim
    rw [hnext] at halike
    obtain ⟨htoken, hafter⟩ := halike ((hrun.forward u language hu).1.onTheWay hway)
    cases h' with
    | stop hnext' =>
      rw [hnext'] at htoken
      cases htoken
    | token hnext' hrun' =>
      rw [hnext'] at htoken hafter
      cases htoken with
      | some hsame => exact .cons hsame (ih hway hafter hrun')

/-- The tokens of a text whose comments are blanked. -/
theorem tokenize_blanked (hu : u.Ascii) (hs : u.Spaced) {source source' : Str}
    (h : Blanked 0 (commentRanges u language source) source source') :
    List.Forall₂ SameToken (tokenize u language source) (tokenize u language source') := by
  have hway : OnTheWay (commentRanges u language source) (lex u language source).1 := by
    refine ⟨List.prefix_rfl, ?_⟩
    have hnil : (lex u language source).1.ahead (commentRanges u language source) = [] :=
      List.drop_length
    rw [hnil]
    exact nofun
  have hsim : Sim (commentRanges u language source) (.start source) (.start source') :=
    ⟨rfl, rfl, h⟩
  exact (lex_lexes u language hu source).alike language u hu hs hway hsim
    (lex_lexes u language hu source')

end

/-- Kind, byte range and lines. -/
def Token.place (token : Token) : TokenKind × Nat × Nat × Nat × Nat :=
  (token.kind, token.start, token.stop, token.line, token.endLine)

/-- A token is not empty, and it lies between two characters. -/
theorem Placed.bounds {source front back : Str} {token : Token}
    (h : Placed source token front back) :
    token.start < token.stop ∧ isBoundary source token.start = true ∧
      isBoundary source token.stop = true := by
  have hpos := byteLen_pos h.ne_nil
  refine ⟨by rw [h.start, h.stop]; omega, ?_, ?_⟩
  · exact isBoundary_iff.mpr ⟨front, token.text ++ back, h.source, h.start⟩
  · refine isBoundary_iff.mpr ⟨front ++ token.text, back, ?_, ?_⟩
    · rw [h.source, List.append_assoc]
    · rw [h.stop, byteLen_append]

/-- **Comments do not influence tokens.**  The comments of every text can be blanked; the tokens of
the text that is left are the same, and they lie behind one another between its characters. -/
theorem tokens_of_blanked (u : Unicode) (hu : u.Ascii) (hs : u.Spaced) (language : SourceLanguage)
    (source : Str) :
    (∃ source', Blanked 0 (commentRanges u language source) source source') ∧
      (∀ source', Blanked 0 (commentRanges u language source) source source' →
        (tokenize u language source').map Token.place =
          (tokenize u language source).map Token.place) ∧
      ((tokenize u language source).Pairwise fun token next => token.stop ≤ next.start) ∧
      ∀ token ∈ tokenize u language source, token.start < token.stop ∧
        isBoundary source token.start = true ∧ isBoundary source token.stop = true := by
  have hrun := lex_lexes u language hu source
  refine ⟨?_, fun source' h => ?_, (hrun.ordered u language hu).2, fun token htoken => ?_⟩
  · obtain ⟨⟨consumed, hmoves⟩, hend⟩ := hrun.forward u language hu
    obtain ⟨found, hfound, -, hmarks⟩ := hmoves.comments
    have hall : found = commentRanges u language source := hfound.symm
    have hwhole : consumed = source := by
      have hrest := hmoves.rest
      rw [hend, List.append_nil] at hrest
      exact hrest.symm
    rw [hall, hwhole] at hmarks
    exact hmarks.blanked
  · have hsame := tokenize_blanked language u hu hs h
    generalize tokenize u language source = tokens at hsame ⊢
    generalize tokenize u language source' = tokens' at hsame ⊢
    induction hsame with
    | nil => rfl
    | cons hhead _ ih =>
      rw [List.map_cons, List.map_cons, ih, Token.place, Token.place, hhead.kind, hhead.start,
        hhead.stop, hhead.line, hhead.endLine]
  · obtain ⟨front, back, hplaced⟩ := tokenize_placed u language hu source htoken
    exact hplaced.bounds

/-- A nested comment, with a quote in it, inside of a template. -/
theorem tokens_of_nested_comment :
    let source := "a \"$\x7b /* ' /* */ */ b \x7d\" c".toList
    let source' := "a \"$\x7b               b \x7d\" c".toList
    commentRanges .asciiOnly .kotlin source = [(6, 19)] ∧
      (tokenize .asciiOnly .kotlin source').map Token.place =
        (tokenize .asciiOnly .kotlin source).map Token.place := by
  have hranges : commentRanges .asciiOnly .kotlin
      "a \"$\x7b /* ' /* */ */ b \x7d\" c".toList = [(6, 19)] := by decide +kernel
  refine ⟨hranges, (tokens_of_blanked .asciiOnly Unicode.asciiOnly_ascii Unicode.asciiOnly_spaced
    .kotlin _).2.1 _ ?_⟩
  rw [hranges]
  have hblank : Blank "/* ' /* */ */".toList "             ".toList :=
    ⟨by decide, by decide, by decide⟩
  have hne : "/* ' /* */ */".toList ≠ [] := by decide
  have hrest : Blanked 19 [] " b \x7d\" c".toList " b \x7d\" c".toList :=
    .code (.code (.code (.code (.code (.code (.code .nil))))))
  have hcomment : Blanked 6 [(6, 19)] _ _ := Blanked.comment hne hblank hrest
  exact .code (.code (.code (.code (.code (.code hcomment)))))

end MavenMcp.DeclarationSource
