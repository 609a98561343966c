/-
# Line numbers of tokens

The lexer counts lines while it moves.  `Moves c c'` says that between two positions of the lexer
some text was passed, and that byte position and line number have grown by just that text; every
function of the lexer moves in this sense, so at every token both are right (`tokenize_placed`).
The one thing that is not: `end_line` is the line of the lexer AFTER the token, and a literal that
is cut off may end with the newline itself (`Placed.endLine_eq_iff`).

A round of a loop that goes on takes at least one character (`Goes`), so the rounds that are allowed
never run out (`loop_eq`).
-/
import MavenMcp.DeclarationSource.Lexer

namespace MavenMcp.DeclarationSource

open Text

/-! ## 1. Moves -/

/-- A comment begins here. -/
def StartsComment (text : Str) : Prop :=
  startsWith "//".toList text = true ∨ startsWith "/*".toList text = true

/-- These ranges begin with comments of the text that is left. -/
def CommentsIn (c : Cursor) (ranges : List (Nat × Nat)) : Prop :=
  ∀ range ∈ ranges, ∃ front back, c.rest = front ++ back ∧
    range.1 = c.position + byteLen front ∧ StartsComment back

/-- From the byte position `p` on, these ranges of the text are comments. -/
inductive Marks : Nat → List (Nat × Nat) → Str → Prop
  | nil {p : Nat} : Marks p [] []
  | code {p : Nat} {ranges : List (Nat × Nat)} {character : Char} {text : Str} :
      Marks (p + character.utf8Size) ranges text → Marks p ranges (character :: text)
  | comment {p : Nat} {ranges : List (Nat × Nat)} {comment text : Str} : comment ≠ [] →
      Marks (p + byteLen comment) ranges text →
      Marks p ((p, p + byteLen comment) :: ranges) (comment ++ text)

theorem Marks.plain (p : Nat) (text : Str) : Marks p [] text := by
  induction text generalizing p with
  | nil => exact .nil
  | cons character text ih => exact .code (ih _)

theorem Marks.append {p : Nat} {ranges later : List (Nat × Nat)} {a b : Str}
    (h : Marks p ranges a) (h' : Marks (p + byteLen a) later b) :
    Marks p (ranges ++ later) (a ++ b) := by
  induction h with
  | nil => exact h'
  | code _ ih => exact .code (ih (by rwa [byteLen_cons, ← Nat.add_assoc] at h'))
  | comment hne _ ih =>
    rw [List.append_assoc]
    exact .comment hne (ih (by rwa [byteLen_append, ← Nat.add_assoc] at h'))

/-- From one position to another: the text in between, its bytes and its newlines, and the
comments in it. -/
structure Moves (c c' : Cursor) (consumed : Str) : Prop where
  rest : c.rest = consumed ++ c'.rest
  position : c'.position = c.position + byteLen consumed
  line : c'.line = c.line + consumed.count '\n'
  comments : ∃ found, c'.comments = c.comments ++ found ∧ CommentsIn c found ∧
    Marks c.position found consumed

/-- Forward by some text. -/
def Forward (c c' : Cursor) : Prop := ∃ consumed, Moves c c' consumed

/-- Nothing is skipped. -/
theorem Moves.plain {c c' : Cursor} {consumed : Str} (hrest : c.rest = consumed ++ c'.rest)
    (hposition : c'.position = c.position + byteLen consumed)
    (hline : c'.line = c.line + consumed.count '\n') (hcomments : c'.comments = c.comments) :
    Moves c c' consumed :=
  ⟨hrest, hposition, hline, [], by rw [hcomments, List.append_nil], nofun, .plain _ _⟩

theorem Forward.refl (c : Cursor) : Forward c c := ⟨[], .plain rfl rfl rfl rfl⟩

/-- The comments behind a position are comments behind an earlier one. -/
theorem Moves.commentsIn {c c' : Cursor} {a : Str} (h : Moves c c' a) {ranges : List (Nat × Nat)}
    (hranges : CommentsIn c' ranges) : CommentsIn c ranges := by
  intro range hrange
  obtain ⟨front, back, hrest, hstart, hcomment⟩ := hranges range hrange
  refine ⟨a ++ front, back, ?_, ?_, hcomment⟩
  · rw [h.rest, hrest, List.append_assoc]
  · rw [hstart, h.position, byteLen_append, Nat.add_assoc]

theorem CommentsIn.append {c : Cursor} {a b : List (Nat × Nat)} (ha : CommentsIn c a)
    (hb : CommentsIn c b) : CommentsIn c (a ++ b) :=
  fun range hrange => (List.mem_append.mp hrange).elim (ha range) (hb range)

theorem Moves.trans {c c' c'' : Cursor} {a b : Str} (h : Moves c c' a) (h' : Moves c' c'' b) :
    Moves c c'' (a ++ b) where
  rest := by rw [h.rest, h'.rest, List.append_assoc]
  position := by rw [h'.position, h.position, byteLen_append, Nat.add_assoc]
  line := by rw [h'.line, h.line, List.count_append, Nat.add_assoc]
  comments := by
    obtain ⟨found, hfound, hin, hmarks⟩ := h.comments
    obtain ⟨found', hfound', hin', hmarks'⟩ := h'.comments
    rw [h.position] at hmarks'
    exact ⟨found ++ found', by rw [hfound', hfound, List.append_assoc],
      hin.append (h.commentsIn hin'), hmarks.append hmarks'⟩

theorem Forward.trans {c c' c'' : Cursor} : Forward c c' → Forward c' c'' → Forward c c''
  | ⟨_, h⟩, ⟨_, h'⟩ => ⟨_, h.trans h'⟩

theorem Forward.bump (c : Cursor) : Forward c c.bump := by
  cases hrest : c.rest with
  | nil =>
    have hbump : c.bump = c := by rw [Cursor.bump, hrest]
    rw [hbump]
    exact .refl c
  | cons character rest =>
    refine ⟨[character], .plain ?_ ?_ ?_ ?_⟩
    · rw [Cursor.bump, hrest]
      rfl
    · rw [Cursor.bump, hrest]
      rfl
    · rw [Cursor.bump, hrest, List.count_singleton]
      by_cases hc : character = '\n'
      · simp [hc]
      · simp [hc]
    · rw [Cursor.bump, hrest]

/-- Single bytes without a newline. -/
def Plain (text : Str) : Prop := ∀ x ∈ text, x.utf8Size = 1 ∧ x ≠ '\n'

instance (text : Str) : Decidable (Plain text) :=
  inferInstanceAs (Decidable (∀ x ∈ text, x.utf8Size = 1 ∧ x ≠ '\n'))

theorem Plain.byteLen_eq {text : Str} (h : Plain text) : byteLen text = text.length := by
  induction text with
  | nil => rfl
  | cons x text ih =>
    rw [byteLen_cons, (h x List.mem_cons_self).1, ih fun y hy => h y (List.mem_cons_of_mem _ hy),
      List.length_cons, Nat.add_comm]

theorem Forward.bumpAscii {c : Cursor} {text : Str} (h : c.startsWith text = true)
    (hplain : Plain text) : Forward c (c.bumpAscii text.length) := by
  obtain ⟨rest, hrest⟩ := startsWith_iff.mp h
  refine ⟨text, .plain ?_ ?_ ?_ rfl⟩
  · rw [Cursor.bumpAscii, ← hrest]
    simp only [List.drop_left]
  · rw [Cursor.bumpAscii, hplain.byteLen_eq]
  · have hcount : text.count '\n' = 0 :=
      List.count_eq_zero.mpr fun hmem => (hplain _ hmem).2 rfl
    rw [Cursor.bumpAscii, hcount]
    rfl

theorem current_eq_some {c : Cursor} {character : Char} :
    c.current = some character ↔ ∃ rest, c.rest = character :: rest := by
  rw [Cursor.current, List.head?_eq_some_iff]

theorem current_of_startsWith {c : Cursor} {character : Char} {text : Str}
    (h : c.startsWith (character :: text) = true) : c.current = some character := by
  obtain ⟨rest, hrest⟩ := startsWith_iff.mp h
  exact current_eq_some.mpr ⟨text ++ rest, hrest.symm⟩

theorem startsWith_current {c : Cursor} {character : Char} (h : c.current = some character) :
    c.startsWith [character] = true := by
  obtain ⟨rest, hrest⟩ := current_eq_some.mp h
  exact startsWith_iff.mpr ⟨rest, hrest.symm⟩

/-- Forward by at least one character. -/
def Advances (c c' : Cursor) : Prop := ∃ consumed, consumed ≠ [] ∧ Moves c c' consumed

theorem Advances.forward {c c' : Cursor} : Advances c c' → Forward c c'
  | ⟨consumed, _, h⟩ => ⟨consumed, h⟩

theorem Advances.trans {c c' c'' : Cursor} (h : Advances c c') (h' : Forward c' c'') :
    Advances c c'' := by
  obtain ⟨a, ha, h⟩ := h
  obtain ⟨b, h'⟩ := h'
  exact ⟨a ++ b, List.append_ne_nil_of_left_ne_nil ha b, h.trans h'⟩

theorem Advances.length_lt {c c' : Cursor} (h : Advances c c') :
    c'.rest.length < c.rest.length := by
  obtain ⟨consumed, hne, h⟩ := h
  have hpos := List.length_pos_iff.mpr hne
  rw [h.rest, List.length_append]
  omega

theorem Forward.advances {c c' : Cursor} (h : Forward c c') (hne : c'.rest.length ≠ c.rest.length) :
    Advances c c' := by
  obtain ⟨consumed, h⟩ := h
  refine ⟨consumed, ?_, h⟩
  rintro rfl
  exact hne (by rw [h.rest, List.nil_append])

theorem Advances.bump {c : Cursor} {character : Char} (hc : c.current = some character) :
    Advances c c.bump := by
  obtain ⟨rest, hrest⟩ := current_eq_some.mp hc
  refine (Forward.bump c).advances ?_
  rw [Cursor.bump, hrest]
  exact Nat.ne_of_lt (Nat.lt_succ_self _)

theorem Advances.bumpAscii {c : Cursor} {text : Str} (h : c.startsWith text = true)
    (hplain : Plain text) (hne : text ≠ []) : Advances c (c.bumpAscii text.length) := by
  refine (Forward.bumpAscii h hplain).advances ?_
  obtain ⟨rest, hrest⟩ := startsWith_iff.mp h
  have hpos := List.length_pos_iff.mpr hne
  simp only [Cursor.bumpAscii, ← hrest, List.drop_left, List.length_append]
  omega

/-- A comment is passed. -/
theorem Advances.afterComment {start c : Cursor} (h : Advances start c)
    (hcomments : c.comments = start.comments) (hcomment : StartsComment start.rest) :
    Advances start (start.afterComment c) := by
  obtain ⟨consumed, hne, h⟩ := h
  refine ⟨consumed, hne, h.rest, h.position, h.line, [(start.position, c.position)], ?_, ?_, ?_⟩
  · rw [Cursor.afterComment, hcomments]
  · intro range hrange
    cases List.mem_singleton.mp hrange
    exact ⟨[], start.rest, rfl, rfl, hcomment⟩
  · have hmark : Marks start.position [(start.position, start.position + byteLen consumed)]
        (consumed ++ []) := .comment hne .nil
    rw [List.append_nil] at hmark
    rw [h.position]
    exact hmark

theorem bump_comments (c : Cursor) : c.bump.comments = c.comments := by
  rw [Cursor.bump]
  split
  · rfl
  · rfl

/-! ## 2. Loops -/

/-- A round of a loop: one that goes on takes at least one character. -/
def Goes (c : Cursor) : ForInStep Cursor → Prop
  | .yield c' => Advances c c'
  | .done c' => Forward c c'

theorem Goes.forward {c : Cursor} : ∀ {step : ForInStep Cursor}, Goes c step → Forward c step.value
  | .yield _, h => Advances.forward h
  | .done _, h => h

/-- A round of a loop with a counter. -/
def GoesWith (s : Cursor × Nat) : ForInStep (Cursor × Nat) → Prop
  | .yield s' => Advances s.1 s'.1
  | .done s' => Forward s.1 s'.1

theorem GoesWith.forward {s : Cursor × Nat} :
    ∀ {step : ForInStep (Cursor × Nat)}, GoesWith s step → Forward s.1 step.value.1
  | .yield _, h => Advances.forward h
  | .done _, h => h

/-- **The allowed rounds never run out.** -/
theorem loop_eq {body : Cursor → ForInStep Cursor} (hbody : ∀ c, Goes c (body c)) (c : Cursor) :
    c.loop body =
      match body c with
      | .yield c' => c'.loop body
      | .done c' => c' := by
  have hshorter : ∀ c c', body c = .yield c' → c'.rest.length < c.rest.length := by
    intro c c' h
    have hgoes := hbody c
    rw [h] at hgoes
    exact hgoes.length_lt
  rw [Cursor.loop, Loop.flow_eq (fun c => c.rest.length) hshorter c]
  cases body c with
  | yield c' => rfl
  | done c' => rfl

theorem Forward.loop {body : Cursor → ForInStep Cursor} (hbody : ∀ c, Goes c (body c))
    (c : Cursor) : Forward c (c.loop body) :=
  Loop.flow_rel Forward.refl (fun _ _ _ => Forward.trans) (fun c => (hbody c).forward) _ c

theorem Forward.loopWith {body : Cursor × Nat → ForInStep (Cursor × Nat)}
    (hbody : ∀ s, GoesWith s (body s)) (c : Cursor) (depth : Nat) :
    Forward c (c.loopWith body depth) :=
  Loop.flow_rel (R := fun s s' => Forward s.1 s'.1) (fun s => .refl s.1)
    (fun _ _ _ => Forward.trans) (fun s => (hbody s).forward) _ (c, depth)

/-- A loop whose first round goes on. -/
theorem Advances.loop {body : Cursor → ForInStep Cursor} (hbody : ∀ c, Goes c (body c))
    {c c' : Cursor} (h : body c = .yield c') : Advances c (c.loop body) := by
  have hgoes := hbody c
  rw [h] at hgoes
  rw [loop_eq hbody, h]
  exact hgoes.trans (.loop hbody c')

theorem Advances.loopWith {body : Cursor × Nat → ForInStep (Cursor × Nat)}
    (hbody : ∀ s, GoesWith s (body s)) {c : Cursor} {depth : Nat} {s : Cursor × Nat}
    (h : body (c, depth) = .yield s) : Advances c (c.loopWith body depth) := by
  have hgoes := hbody (c, depth)
  rw [h] at hgoes
  have hloop : c.loopWith body depth = (Loop.flow body c.rest.length s).1 := by
    rw [Cursor.loopWith, Loop.flow, h]
  rw [hloop]
  exact hgoes.trans (Loop.flow_rel (R := fun s s' => Forward s.1 s'.1) (fun s => .refl s.1)
    (fun _ _ _ => Forward.trans) (fun s => (hbody s).forward) _ s)

/-! ## 3. Every function of the lexer moves forward -/

section

variable (u : Unicode) (language : SourceLanguage)

theorem goes_lineCommentRound (c : Cursor) : Goes c (lineCommentRound c) := by
  rw [lineCommentRound]
  cases hc : c.current with
  | none => exact .refl c
  | some character =>
    split
    · exact .bump hc
    · exact .refl c

theorem goes_blockCommentRound (s : Cursor × Nat) : GoesWith s (blockCommentRound language s) := by
  obtain ⟨c, depth⟩ := s
  simp only [blockCommentRound]
  cases hc : c.current with
  | none => exact .refl c
  | some character =>
    split
    · exact .refl c
    · split
      · rename_i hopen
        exact Advances.bumpAscii hopen.1 (by decide) (by decide)
      · split
        · rename_i hclose
          split
          · exact Forward.bumpAscii hclose (by decide)
          · exact Advances.bumpAscii hclose (by decide) (by decide)
        · exact .bump hc

theorem advances_skipLineComment {c : Cursor} (h : c.startsWith "//".toList = true) :
    Advances c (skipLineComment c) := by
  have hc : c.current = some '/' := current_of_startsWith h
  have hround : lineCommentRound c = .yield c.bump := by
    rw [lineCommentRound, hc]
    rfl
  exact .loop goes_lineCommentRound hround

theorem advances_skipBlockComment {c : Cursor} (h : c.startsWith "/*".toList = true) :
    Advances c (skipBlockComment language c) := by
  have hc : c.current = some '/' := current_of_startsWith h
  have hround : blockCommentRound language (c, 0) = .yield (c.bumpAscii 2, 0 + 1) := by
    simp only [blockCommentRound, hc, h, Option.isNone_some, Bool.false_eq_true, if_false, true_or,
      and_self, if_true]
  exact .loopWith (goes_blockCommentRound language) hround

theorem comments_skipLineComment (c : Cursor) : (skipLineComment c).comments = c.comments := by
  refine Loop.flow_rel (R := fun c d : Cursor => d.comments = c.comments) (fun _ => rfl)
    (fun _ _ _ h h' => Eq.trans h' h) (fun c => ?_) _ c
  rw [lineCommentRound]
  split
  · exact bump_comments c
  · rfl

theorem comments_skipBlockComment (c : Cursor) :
    (skipBlockComment language c).comments = c.comments := by
  refine Loop.flow_rel (R := fun s t : Cursor × Nat => t.1.comments = s.1.comments) (fun _ => rfl)
    (fun _ _ _ h h' => h'.trans h) (fun s => ?_) _ (c, 0)
  obtain ⟨c, depth⟩ := s
  simp only [blockCommentRound]
  split
  · rfl
  · split
    · rfl
    · split
      · split
        · rfl
        · rfl
      · exact bump_comments c

theorem goes_triviaRound (c : Cursor) : Goes c (triviaRound language c) := by
  rw [triviaRound]
  split
  · rename_i hspace
    obtain ⟨character, hc, -⟩ := (Option.any_eq_true _ _).mp hspace
    exact Advances.bump hc
  · split
    · rename_i hline
      exact (advances_skipLineComment hline).afterComment (comments_skipLineComment c)
        (.inl hline)
    · split
      · rename_i hblock
        exact (advances_skipBlockComment language hblock).afterComment
          (comments_skipBlockComment language c) (.inr hblock)
      · exact Forward.refl c

theorem forward_skipTrivia (c : Cursor) : Forward c (skipTrivia language c) :=
  .loop (goes_triviaRound language) c

theorem goes_textBlockRound (c : Cursor) : Goes c (textBlockRound c) := by
  rw [textBlockRound]
  cases hc : c.current with
  | none => exact Forward.refl c
  | some character =>
    simp only
    split
    · exact (Advances.bump hc).trans (.bump c.bump)
    · split
      · rename_i hclose
        exact Forward.bumpAscii hclose (by decide)
      · exact Advances.bump hc

theorem goes_quotesRound (c : Cursor) : Goes c (quotesRound c) := by
  rw [quotesRound]
  split
  · rename_i hc
    exact Advances.bump hc
  · exact Forward.refl c

variable {skipTemplate : Cursor → Cursor}

theorem goes_rawStringRound
    (h : ∀ c, isTemplateStart language c = true → Advances c (skipTemplate c)) (c : Cursor) :
    Goes c (rawStringRound language skipTemplate c) := by
  rw [rawStringRound]
  cases hc : c.current with
  | none => exact Forward.refl c
  | some character =>
    split
    · exact Forward.refl c
    · split
      · exact Forward.loop goes_quotesRound c
      · split
        · rename_i hstart
          exact h c hstart
        · exact Advances.bump hc

theorem goes_stringRound
    (h : ∀ c, isTemplateStart language c = true → Advances c (skipTemplate c)) (c : Cursor) :
    Goes c (stringRound language skipTemplate c) := by
  rw [stringRound]
  split
  · exact Forward.refl c
  · exact Forward.refl c
  · rename_i hc
    exact (Advances.bump hc).trans (.bump c.bump)
  · exact Forward.bump c
  · rename_i hc
    split
    · rename_i htemplate
      exact h c htemplate
    · exact Advances.bump hc
  · rename_i hc
    exact Advances.bump hc

theorem advances_skipString
    (h : ∀ c, isTemplateStart language c = true → Advances c (skipTemplate c)) {c : Cursor}
    (hquote : c.current = some '"') : Advances c (skipString language skipTemplate c) := by
  unfold skipString
  split
  · rename_i htriple
    have hopen : Advances c (c.bumpAscii 3) := .bumpAscii htriple (by decide) (by decide)
    cases language with
    | java => exact hopen.trans (.loop goes_textBlockRound _)
    | kotlin => exact hopen.trans (.loop (goes_rawStringRound .kotlin h) _)
  · have hopen : Advances c (c.bumpAscii 1) :=
      .bumpAscii (startsWith_current hquote) (by decide) (by decide)
    exact hopen.trans (.loop (goes_stringRound language h) _)

theorem goes_quotedRound (quote : Char) (c : Cursor) : Goes c (quotedRound quote c) := by
  rw [quotedRound]
  cases hc : c.current with
  | none => exact Forward.refl c
  | some character =>
    simp only
    split
    · exact Forward.refl c
    · split
      · exact (Advances.bump hc).trans (.bump c.bump)
      · split
        · exact Forward.bump c
        · exact Advances.bump hc

theorem advances_skipQuoted (quote : Char) {c : Cursor} {character : Char}
    (hc : c.current = some character) : Advances c (skipQuoted quote c) :=
  (Advances.bump hc).trans (.loop (goes_quotedRound quote) _)

theorem goes_identifierRound (c : Cursor) : Goes c (identifierRound u c) := by
  rw [identifierRound]
  split
  · rename_i hid
    obtain ⟨character, hc, -⟩ := (Option.any_eq_true _ _).mp hid
    exact Advances.bump hc
  · exact Forward.refl c

theorem advances_skipIdentifier {c : Cursor} {character : Char} (hc : c.current = some character)
    (hid : isIdentifierChar u character = true) : Advances c (skipIdentifier u c) := by
  have hround : identifierRound u c = .yield c.bump := by
    rw [identifierRound, hc, Option.any_some, hid, if_pos rfl]
  exact .loop (goes_identifierRound u) hround

theorem goes_numberRound (c : Cursor) : Goes c (numberRound u c) := by
  rw [numberRound]
  split
  · rename_i character rest hrest
    have hc : c.current = some character := current_eq_some.mpr ⟨rest, hrest⟩
    split
    · exact Advances.bump hc
    · split
      · exact Advances.bump hc
      · exact Forward.refl c
  · exact Forward.refl c

theorem advances_skipNumber {c : Cursor} {character : Char} (hc : c.current = some character)
    (hid : isIdentifierChar u character = true) : Advances c (skipNumber u c) := by
  obtain ⟨rest, hrest⟩ := current_eq_some.mp hc
  have hround : numberRound u c = .yield c.bump := by
    simp only [numberRound, hrest, hid, if_true]
  exact .loop (goes_numberRound u) hround

/-- A digit is a letter of an identifier. -/
theorem isIdentifierChar_of_isDigit (hu : u.Ascii) {character : Char}
    (h : character.isDigit = true) : isIdentifierChar u character = true := by
  have hlt : character.toNat < 128 := by
    simp only [Char.isDigit, Bool.and_eq_true, decide_eq_true_eq] at h
    have hle : character.val.toNat ≤ 57 := UInt32.le_iff_toNat_le.mp h.2
    exact Nat.lt_of_le_of_lt hle (by decide)
  rw [isIdentifierChar, hu.alphanumeric character hlt, Char.isAlphanum, h, Bool.or_true,
    Bool.true_or, Bool.true_or]

/-- **A token takes at least one character.** -/
theorem advances_scanToken (hu : u.Ascii)
    (h : ∀ c, isTemplateStart language c = true → Advances c (skipTemplate c)) {c : Cursor}
    {character : Char} (hc : c.current = some character) :
    Advances c (scanToken u language skipTemplate character c).2 := by
  rw [scanToken]
  split
  · rename_i hquote
    exact advances_skipString language h (hquote ▸ hc)
  · split
    · exact advances_skipQuoted _ hc
    · split
      · exact advances_skipQuoted _ hc
      · split
        · rename_i hdigit
          exact advances_skipNumber u hc (isIdentifierChar_of_isDigit u hu hdigit)
        · split
          · rename_i hid
            exact advances_skipIdentifier u hc hid
          · simp only
            split
            · rename_i harrow
              exact .bumpAscii harrow (by decide) (by decide)
            · exact .bump hc

/-! ## 4. Tokens -/

/-- What `nextToken` answers when it finds a token: trivia, and then the token. -/
structure Lexed (c : Cursor) (token : Token) (c' : Cursor) : Prop where
  ne_nil : token.text ≠ []
  trivia : ∃ start, Forward c start ∧ Moves start c' token.text ∧
    token.start = start.position ∧ token.line = start.line
  stop : token.stop = c'.position
  endLine : token.endLine = c'.line

theorem Moves.textTo {c c' : Cursor} {consumed : Str} (h : Moves c c' consumed) :
    c.textTo c' = consumed := by
  rw [Cursor.textTo, h.rest, List.length_append, Nat.add_sub_cancel, List.take_left]

theorem Lexed.advances {c c' : Cursor} {token : Token} (h : Lexed c token c') : Advances c c' := by
  obtain ⟨start, ⟨trivia, hstart⟩, htext, -⟩ := h.trivia
  exact ⟨trivia ++ token.text, List.append_ne_nil_of_right_ne_nil _ h.ne_nil, hstart.trans htext⟩

theorem nextTokenWith_spec (hu : u.Ascii)
    (h : ∀ c, isTemplateStart language c = true → Advances c (skipTemplate c)) (c : Cursor) :
    match nextTokenWith u language skipTemplate c with
    | (none, c') => Forward c c' ∧ c'.rest = []
    | (some token, c') => Lexed c token c' := by
  rw [nextTokenWith]
  have htrivia := forward_skipTrivia language c
  generalize skipTrivia language c = start at htrivia
  cases hcurrent : start.current with
  | none => exact ⟨htrivia, List.head?_eq_none_iff.mp hcurrent⟩
  | some character =>
    obtain ⟨text, hne, htext⟩ := advances_scanToken u language hu h hcurrent
    have heq := htext.textTo
    exact {
      ne_nil := fun hnil => hne (heq.symm.trans hnil)
      trivia := ⟨start, htrivia, heq.symm ▸ htext, rfl, rfl⟩
      stop := rfl
      endLine := rfl }

theorem goes_templateRound {next : Cursor → Option Token × Cursor}
    (h : ∀ c, match next c with
      | (none, c') => Forward c c' ∧ c'.rest = []
      | (some token, c') => Lexed c token c') (s : Cursor × Nat) :
    GoesWith s (templateRound next s) := by
  obtain ⟨c, depth⟩ := s
  have hnext := h c
  simp only [templateRound]
  split
  · rename_i heq
    rw [heq] at hnext
    exact hnext.1
  · rename_i heq
    rw [heq] at hnext
    have hadvances := hnext.advances
    split
    · exact hadvances
    · split
      · exact hadvances
      · split
        · split
          · exact hadvances.forward
          · exact hadvances
        · exact hadvances

theorem advances_skipTemplateWith {next : Option (Cursor → Option Token × Cursor)}
    (h : ∀ f ∈ next, ∀ c, match f c with
      | (none, c') => Forward c c' ∧ c'.rest = []
      | (some token, c') => Lexed c token c') {c : Cursor}
    (hc : isTemplateStart language c = true) : Advances c (skipTemplateWith next c) := by
  have hopen : Advances c (c.bumpAscii 2) := by
    rw [isTemplateStart, Bool.and_eq_true] at hc
    exact Advances.bumpAscii hc.2 (by decide) (by decide)
  cases next with
  | none => exact hopen
  | some f => exact hopen.trans (.loopWith (goes_templateRound (h f rfl)) _ 1)

/-- **What `next_token` answers**, at every level of templates. -/
theorem nextToken_spec (hu : u.Ascii) (levels : Nat) (c : Cursor) :
    match nextToken u language levels c with
    | (none, c') => Forward c c' ∧ c'.rest = []
    | (some token, c') => Lexed c token c' := by
  induction levels generalizing c with
  | zero =>
    refine nextTokenWith_spec u language hu (fun c hc => ?_) c
    exact advances_skipTemplateWith language (fun f hf => absurd hf (Option.not_mem_none f)) hc
  | succ levels ih =>
    refine nextTokenWith_spec u language hu (fun c hc => ?_) c
    refine advances_skipTemplateWith language (fun f hf => ?_) hc
    cases hf
    exact ih

/-! ## 5. Runs -/

/-- From one position to the end of the text: the tokens on the way. -/
inductive Lexes (u : Unicode) (language : SourceLanguage) : Cursor → List Token → Cursor → Prop
  | stop {c d : Cursor} : nextToken u language maxTemplateDepth c = (none, d) →
      Lexes u language c [] d
  | token {c c' d : Cursor} {token : Token} {tokens : List Token} :
      nextToken u language maxTemplateDepth c = (some token, c') →
      Lexes u language c' tokens d → Lexes u language c (token :: tokens) d

/-- **The loop of `tokenize` runs to the end of the text.** -/
theorem lex_lexes (hu : u.Ascii) (source : Str) :
    Lexes u language (.start source) (tokenize u language source) (lex u language source).1 := by
  have hflow : ∀ (n : Nat) (c : Cursor) (before : List Token), c.rest.length < n →
      ∃ tokens d, Loop.flow (lexRound u language) n (c, before) = (d, before ++ tokens) ∧
        Lexes u language c tokens d := by
    intro n
    induction n with
    | zero => intro c before hlt; omega
    | succ n ih =>
      intro c before hlt
      have hspec := nextToken_spec u language hu maxTemplateDepth c
      rcases hnext : nextToken u language maxTemplateDepth c with ⟨_ | token, c'⟩
      · have hround : lexRound u language (c, before) = .done (c', before) := by
          simp only [lexRound, hnext]
        refine ⟨[], c', ?_, .stop hnext⟩
        rw [Loop.flow, hround, List.append_nil]
      · have hround : lexRound u language (c, before) = .yield (c', before ++ [token]) := by
          simp only [lexRound, hnext]
        rw [hnext] at hspec
        have hshorter := hspec.advances.length_lt
        obtain ⟨tokens, d, hrun, htokens⟩ := ih c' (before ++ [token]) (by omega)
        refine ⟨token :: tokens, d, ?_, .token hnext htokens⟩
        rw [Loop.flow, hround]
        simp only [hrun, List.append_assoc, List.singleton_append]
  obtain ⟨tokens, d, hrun, htokens⟩ := hflow (source.length + 1) (.start source) []
    (Nat.lt_succ_self _)
  rw [tokenize, lex, hrun]
  exact htokens

theorem forward_nextToken (hu : u.Ascii) (levels : Nat) (c : Cursor) :
    Forward c (nextToken u language levels c).2 := by
  have hspec := nextToken_spec u language hu levels c
  rcases hnext : nextToken u language levels c with ⟨_ | token, d⟩
  · rw [hnext] at hspec
    exact hspec.1
  · rw [hnext] at hspec
    exact hspec.advances.forward

/-- A run ends at the end of the text. -/
theorem Lexes.forward (hu : u.Ascii) {c d : Cursor} {tokens : List Token}
    (h : Lexes u language c tokens d) : Forward c d ∧ d.rest = [] := by
  induction h with
  | @stop c d hnext =>
    have hspec := nextToken_spec u language hu maxTemplateDepth c
    rw [hnext] at hspec
    exact hspec
  | @token c c' d token tokens hnext _ ih =>
    have hforward := forward_nextToken u language hu maxTemplateDepth c
    rw [hnext] at hforward
    exact ⟨hforward.trans ih.1, ih.2⟩

/-- The tokens of a run are not empty, and each begins behind the one before. -/
theorem Lexes.ordered (hu : u.Ascii) {c d : Cursor} {tokens : List Token}
    (h : Lexes u language c tokens d) :
    (∀ token ∈ tokens, c.position ≤ token.start) ∧
      tokens.Pairwise fun token next => token.stop ≤ next.start := by
  induction h with
  | stop _ => exact ⟨nofun, .nil⟩
  | @token c c' d token tokens hnext _ ih =>
    have hspec := nextToken_spec u language hu maxTemplateDepth c
    rw [hnext] at hspec
    obtain ⟨start, ⟨trivia, hstart⟩, htext, hposition, -⟩ := hspec.trivia
    have hbefore := hstart.position
    have hafter := htext.position
    refine ⟨fun x hx => ?_, .cons (fun x hx => ?_) ih.2⟩
    · cases hx with
      | head => omega
      | tail _ hx =>
        have hlater := ih.1 x hx
        omega
    · rw [hspec.stop]
      exact ih.1 x hx

/-- Where a token lies in the text: behind some text, which holds the tokens before it. -/
structure Placed (source : Str) (token : Token) (front back : Str) : Prop where
  source : source = front ++ (token.text ++ back)
  ne_nil : token.text ≠ []
  start : token.start = byteLen front
  stop : token.stop = byteLen front + byteLen token.text
  line : token.line = front.count '\n'
  endLine : token.endLine = (front ++ token.text).count '\n'

/-- The tokens of a run lie behind one another. -/
theorem Lexes.placed (hu : u.Ascii) {c d : Cursor} {tokens : List Token}
    (h : Lexes u language c tokens d) {before : Str}
    (hc : Moves (.start (before ++ c.rest)) c before) :
    ∀ token ∈ tokens, ∃ front back, Placed (before ++ c.rest) token (before ++ front) back := by
  induction h generalizing before with
  | stop _ => exact nofun
  | @token c c' _ token _ hnext _ ih =>
    have hspec := nextToken_spec u language hu maxTemplateDepth c
    rw [hnext] at hspec
    obtain ⟨start, ⟨trivia, hstart⟩, htext, hposition, hline⟩ := hspec.trivia
    have hsource : c.rest = trivia ++ (token.text ++ c'.rest) := by rw [hstart.rest, htext.rest]
    have hfront := hc.trans hstart
    have hall := hfront.trans htext
    intro x hx
    cases hx with
    | head =>
      refine ⟨trivia, c'.rest, ?_, hspec.ne_nil, ?_, ?_, ?_, ?_⟩
      · rw [hsource, List.append_assoc]
      · rw [hposition, hfront.position]
        exact Nat.zero_add _
      · rw [hspec.stop, hall.position, byteLen_append]
        exact Nat.zero_add _
      · rw [hline, hfront.line]
        exact Nat.zero_add _
      · rw [hspec.endLine, hall.line]
        exact Nat.zero_add _
    | tail _ hx =>
      have hwhole : before ++ c.rest = (before ++ trivia ++ token.text) ++ c'.rest := by
        simp only [hsource, List.append_assoc]
      rw [hwhole] at hall ⊢
      obtain ⟨front, back, hplaced⟩ := ih hall x hx
      refine ⟨trivia ++ (token.text ++ front), back, ?_⟩
      simp only [← List.append_assoc] at hplaced ⊢
      exact hplaced

/-- **Every token lies in the text where it says.** -/
theorem tokenize_placed (hu : u.Ascii) (source : Str) {token : Token}
    (h : token ∈ tokenize u language source) :
    ∃ front back, Placed source token front back := by
  have hrun := lex_lexes u language hu source
  have hstart : Moves (.start ([] ++ (Cursor.start source).rest)) (.start source) [] :=
    .plain rfl rfl rfl rfl
  obtain ⟨front, back, hplaced⟩ := hrun.placed u language hu hstart token h
  exact ⟨front, back, hplaced⟩

end

/-! ## 6. Lines -/

/-- The line of the byte at `offset`: how many newlines end before it. -/
def lineAt : Str → Nat → Nat
  | [], _ => 0
  | character :: text, offset =>
    if offset < character.utf8Size then 0
    else (if character = '\n' then 1 else 0) + lineAt text (offset - character.utf8Size)

/-- The line of a byte inside of a character. -/
theorem lineAt_append (front back : Str) (character : Char) {offset : Nat}
    (h : offset < character.utf8Size) :
    lineAt (front ++ character :: back) (byteLen front + offset) = front.count '\n' := by
  induction front with
  | nil =>
    rw [List.nil_append, byteLen_nil, Nat.zero_add, lineAt, if_pos h]
    rfl
  | cons x front ih =>
    have hge : ¬ byteLen (x :: front) + offset < x.utf8Size := by
      rw [byteLen_cons]
      omega
    have hsub : byteLen (x :: front) + offset - x.utf8Size = byteLen front + offset := by
      rw [byteLen_cons]
      omega
    rw [List.cons_append, lineAt, if_neg hge, hsub, ih, List.count_cons, Nat.add_comm]
    simp only [beq_iff_eq]

/-- The line of a token is the line of its first byte. -/
theorem Placed.line_eq {source front back : Str} {token : Token}
    (h : Placed source token front back) : token.line = lineAt source token.start := by
  obtain ⟨character, text, htext⟩ := List.exists_cons_of_ne_nil h.ne_nil
  have hline := lineAt_append front (text ++ back) character (character.utf8Size_pos)
  rw [h.line, h.start, h.source, htext]
  exact hline.symm

/-- **The end line of a token is the line of its last byte, unless it ends with a newline.** -/
theorem Placed.endLine_eq_iff {source front back : Str} {token : Token}
    (h : Placed source token front back) :
    token.endLine = lineAt source (token.stop - 1) ↔ token.text.getLast? ≠ some '\n' := by
  obtain ⟨text, character, htext⟩ := (List.eq_nil_or_concat' token.text).resolve_left h.ne_nil
  have hpos := character.utf8Size_pos
  have hlast : character.utf8Size - 1 < character.utf8Size := by omega
  have hline := lineAt_append (front ++ text) back character hlast
  have hsource : source = (front ++ text) ++ character :: back := by
    simp only [h.source, htext, List.append_assoc, List.cons_append, List.nil_append]
  have hstop : token.stop - 1 = byteLen (front ++ text) + (character.utf8Size - 1) := by
    rw [h.stop, htext, byteLen_append, byteLen_append, byteLen_cons, byteLen_nil]
    omega
  rw [h.endLine, hstop, hsource, hline, htext, List.getLast?_append, ← List.append_assoc,
    List.count_append, List.count_singleton]
  by_cases hnewline : character = '\n'
  · simp [hnewline]
  · simp [hnewline]

end MavenMcp.DeclarationSource
