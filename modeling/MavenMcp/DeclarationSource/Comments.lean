/-
# Comments do not influence tokens

Two runs of the lexer side by side: over a text, and over the text whose comments are blanked out
(`Blanked`).  `Sim` relates where they stand; the comments that are still ahead are part of it.
Outside of trivia both read the same characters, because no comment begins there; they may only
differ in the one character at which a token ends, `/` in one run and white space in the other
(`Sim.peek`), and that is not part of any token.  In trivia the first run passes a comment at once
and the second one its white space character by character.
-/
import MavenMcp.DeclarationSource.Lines

namespace MavenMcp.DeclarationSource

open Text

/-! ## 1. Blanked texts -/

/-- The byte offsets of the newlines. -/
def newlines (offset : Nat) : Str → List Nat
  | [] => []
  | character :: text =>
    (if character = '\n' then [offset] else []) ++ newlines (offset + character.utf8Size) text

theorem length_newlines (offset : Nat) (text : Str) :
    (newlines offset text).length = text.count '\n' := by
  induction text generalizing offset with
  | nil => rfl
  | cons character text ih =>
    rw [newlines, List.length_append, ih, List.count_cons]
    by_cases hc : character = '\n'
    · simp [hc, Nat.add_comm]
    · simp [hc]

/-- White space of the same byte length, with the newlines at the same places. -/
structure Blank (comment blank : Str) : Prop where
  length : byteLen blank = byteLen comment
  whitespace : ∀ character ∈ blank, isWhitespace character = true
  newlines : newlines 0 blank = newlines 0 comment

theorem Blank.ne_nil {comment blank : Str} (h : Blank comment blank) (hne : comment ≠ []) :
    blank ≠ [] := by
  rintro rfl
  have hpos := byteLen_pos hne
  rw [← h.length] at hpos
  exact absurd hpos (Nat.lt_irrefl 0)

/-- From the byte position `p` on, the second text is the first one with these ranges blanked. -/
inductive Blanked : Nat → List (Nat × Nat) → Str → Str → Prop
  | nil {p : Nat} : Blanked p [] [] []
  | code {p : Nat} {ranges : List (Nat × Nat)} {character : Char} {s s' : Str} :
      Blanked (p + character.utf8Size) ranges s s' →
      Blanked p ranges (character :: s) (character :: s')
  | comment {p : Nat} {ranges : List (Nat × Nat)} {comment blank s s' : Str} : comment ≠ [] →
      Blank comment blank → Blanked (p + byteLen comment) ranges s s' →
      Blanked p ((p, p + byteLen comment) :: ranges) (comment ++ s) (blank ++ s')

theorem Blanked.le {p : Nat} {ranges : List (Nat × Nat)} {s s' : Str}
    (h : Blanked p ranges s s') : ∀ range ∈ ranges, p ≤ range.1 := by
  induction h with
  | nil => exact nofun
  | code _ ih => exact fun range hrange => Nat.le_trans (Nat.le_add_right _ _) (ih range hrange)
  | comment _ _ _ ih =>
    intro range hrange
    cases hrange with
    | head => exact Nat.le_refl _
    | tail _ hrange => exact Nat.le_trans (Nat.le_add_right _ _) (ih range hrange)

/-- What is no white space was there before. -/
theorem Blanked.prefix_of {p : Nat} {ranges : List (Nat × Nat)} {s s' text : Str}
    (h : Blanked p ranges s s') (htext : ∀ x ∈ text, isWhitespace x = false)
    (hbegins : text <+: s') : text <+: s := by
  induction text generalizing p ranges s s' with
  | nil => exact List.nil_prefix
  | cons x text ih =>
    have htail : ∀ y ∈ text, isWhitespace y = false :=
      fun y hy => htext y (List.mem_cons_of_mem x hy)
    cases h with
    | nil => exact absurd (List.prefix_nil.mp hbegins) (List.cons_ne_nil x text)
    | code hrest =>
      rw [List.cons_prefix_cons] at hbegins ⊢
      exact ⟨hbegins.1, ih hrest htail hbegins.2⟩
    | @comment _ ranges comment blank s s' hne hblank _ =>
      obtain ⟨w, blank', rfl⟩ := List.exists_cons_of_ne_nil (hblank.ne_nil hne)
      rw [List.cons_append, List.cons_prefix_cons] at hbegins
      have hw := hblank.whitespace w List.mem_cons_self
      rw [← hbegins.1, htext x List.mem_cons_self] at hw
      cases hw

/-- One character of a comment. -/
def blankOf (character : Char) : Str :=
  if character = '\n' then ['\n'] else List.replicate character.utf8Size ' '

theorem newlines_append (offset : Nat) (a b : Str) :
    newlines offset (a ++ b) = newlines offset a ++ newlines (offset + byteLen a) b := by
  induction a generalizing offset with
  | nil => rfl
  | cons character a ih =>
    rw [List.cons_append, newlines, newlines, ih, byteLen_cons, List.append_assoc, Nat.add_assoc]

theorem byteLen_blankOf (character : Char) : byteLen (blankOf character) = character.utf8Size := by
  rw [blankOf]
  split
  · rename_i hnewline
    rw [hnewline]
    rfl
  · rw [byteLen, List.map_replicate, List.sum_replicate]
    exact Nat.mul_one _

theorem newlines_replicate (offset count : Nat) :
    newlines offset (List.replicate count ' ') = [] := by
  induction count generalizing offset with
  | zero => rfl
  | succ count ih =>
    rw [List.replicate_succ, newlines, ih, if_neg (by decide), List.append_nil]

theorem newlines_blankOf (offset : Nat) (character : Char) :
    newlines offset (blankOf character) = if character = '\n' then [offset] else [] := by
  rw [blankOf]
  split
  · rfl
  · exact newlines_replicate offset _

/-- Every comment has a blank. -/
theorem blank_flatMap (comment : Str) : Blank comment (comment.flatMap blankOf) := by
  have hlength : ∀ text : Str, byteLen (text.flatMap blankOf) = byteLen text := by
    intro text
    induction text with
    | nil => rfl
    | cons character text ih =>
      rw [List.flatMap_cons, byteLen_append, byteLen_blankOf, ih, byteLen_cons]
  refine ⟨hlength comment, fun w hw => ?_, ?_⟩
  · obtain ⟨character, -, hw⟩ := List.mem_flatMap.mp hw
    rw [blankOf] at hw
    split at hw
    · rw [List.mem_singleton.mp hw]
      decide
    · rw [List.eq_of_mem_replicate hw]
      decide
  · generalize 0 = offset
    induction comment generalizing offset with
    | nil => rfl
    | cons character comment ih =>
      rw [List.flatMap_cons, newlines_append, newlines_blankOf, byteLen_blankOf, ih, newlines]

/-- Every text can be blanked. -/
theorem Marks.blanked {p : Nat} {ranges : List (Nat × Nat)} {s : Str} (h : Marks p ranges s) :
    ∃ s', Blanked p ranges s s' := by
  induction h with
  | nil => exact ⟨[], .nil⟩
  | @code _ _ character _ _ ih =>
    obtain ⟨s', hs'⟩ := ih
    exact ⟨character :: s', .code hs'⟩
  | @comment _ _ comment _ hne _ ih =>
    obtain ⟨s', hs'⟩ := ih
    exact ⟨comment.flatMap blankOf ++ s', .comment hne (blank_flatMap comment) hs'⟩

/-! ## 2. Two runs -/

/-- The comments that the run with all these comments has ahead of it. -/
def Cursor.ahead (all : List (Nat × Nat)) (c : Cursor) : List (Nat × Nat) :=
  all.drop c.comments.length

/-- The run with these comments comes past here. -/
structure OnTheWay (all : List (Nat × Nat)) (c : Cursor) : Prop where
  behind : c.comments <+: all
  ahead : CommentsIn c (c.ahead all)

theorem Forward.onTheWay {all : List (Nat × Nat)} {c d : Cursor} (h : Forward c d)
    (hd : OnTheWay all d) : OnTheWay all c := by
  obtain ⟨consumed, h⟩ := h
  obtain ⟨found, hfound, hin, -⟩ := h.comments
  obtain ⟨later, hlater⟩ := hd.behind
  have hall : all = c.comments ++ (found ++ later) := by
    rw [← hlater, hfound, List.append_assoc]
  have hahead : d.ahead all = later := by
    rw [Cursor.ahead, ← hlater, List.drop_left]
  refine ⟨⟨found ++ later, hall.symm⟩, ?_⟩
  rw [Cursor.ahead, hall, List.drop_left]
  have hlater' := hd.ahead
  rw [hahead] at hlater'
  exact hin.append (h.commentsIn hlater')

/-- Two runs stand at the same place; the second text is the first one without the comments. -/
structure Sim (all : List (Nat × Nat)) (c c' : Cursor) : Prop where
  position : c'.position = c.position
  line : c'.line = c.line
  rest : Blanked c.position (c.ahead all) c.rest c'.rest

section

variable {all : List (Nat × Nat)} {c c' : Cursor}

theorem bump_of_rest {character : Char} {rest : Str} (h : c.rest = character :: rest) :
    c.bump = { c with
      rest
      position := c.position + character.utf8Size
      line := if character = '\n' then c.line + 1 else c.line } := by
  rw [Cursor.bump, h]

/-- Where the first run takes a character that is no comment, the second one takes it, too. -/
theorem Sim.bump (h : Sim all c c') (hway : OnTheWay all c.bump) :
    c'.current = c.current ∧ Sim all c.bump c'.bump := by
  have hin := hway.ahead
  have hrest := h.rest
  rw [Cursor.ahead, bump_comments] at hin
  change CommentsIn c.bump (c.ahead all) at hin
  have hbumped : c.bump.ahead all = c.ahead all := by rw [Cursor.ahead, bump_comments]; rfl
  generalize hs : c.rest = s at hrest
  generalize hs' : c'.rest = s' at hrest
  generalize hp : c.position = p at hrest
  generalize hranges : c.ahead all = ranges at hrest hin
  cases hrest with
  | nil =>
    have hbump : c.bump = c := by rw [Cursor.bump, hs]
    have hbump' : c'.bump = c' := by rw [Cursor.bump, hs']
    rw [hbump, hbump', Cursor.current, Cursor.current, hs, hs']
    exact ⟨rfl, h⟩
  | code hrest =>
    refine ⟨by rw [Cursor.current, Cursor.current, hs, hs']; rfl, ?_⟩
    rw [bump_of_rest hs, bump_of_rest hs']
    refine ⟨by simp only [h.position], by simp only [h.line], ?_⟩
    rw [← bump_of_rest hs, hbumped, hranges, bump_of_rest hs, hp]
    exact hrest
  | @comment _ ranges comment blank s s' hne _ _ =>
    -- a comment that begins here is not behind the next character
    obtain ⟨x, comment, rfl⟩ := List.exists_cons_of_ne_nil hne
    obtain ⟨front, back, -, hstart, -⟩ := hin _ List.mem_cons_self
    rw [bump_of_rest hs] at hstart
    have hpos := x.utf8Size_pos
    simp only at hstart
    omega

/-- Where no comment begins, both runs read the same character. -/
theorem Sim.peek (h : Sim all c c') (hway : OnTheWay all c) :
    (c'.current = c.current ∧ OnTheWay all c.bump) ∨
      (StartsComment c.rest ∧ ∃ w, c'.current = some w ∧ isWhitespace w = true) := by
  have hin := hway.ahead
  have hrest := h.rest
  have hbumped : c.bump.ahead all = c.ahead all := by rw [Cursor.ahead, bump_comments]; rfl
  have hbehind : c.bump.comments <+: all := by rw [bump_comments]; exact hway.behind
  generalize hs : c.rest = s at hrest
  generalize hs' : c'.rest = s' at hrest
  generalize hp : c.position = p at hrest
  generalize hranges : c.ahead all = ranges at hrest hin hbumped
  cases hrest with
  | nil =>
    refine .inl ⟨by rw [Cursor.current, Cursor.current, hs, hs'], hbehind, ?_⟩
    rw [hbumped]
    exact List.forall_mem_nil _
  | @code _ ranges character s s' hrest =>
    refine .inl ⟨by rw [Cursor.current, Cursor.current, hs, hs']; rfl, hbehind, ?_⟩
    rw [hbumped]
    intro range hrange
    obtain ⟨front, back, hfront, hstart, hcomment⟩ := hin range hrange
    have hle := hrest.le range hrange
    have hpos := character.utf8Size_pos
    cases front with
    | nil =>
      rw [byteLen_nil] at hstart
      omega
    | cons x front =>
      rw [hs, List.cons_append] at hfront
      cases hfront
      refine ⟨front, back, by rw [bump_of_rest hs], ?_, hcomment⟩
      rw [bump_of_rest hs, hstart, byteLen_cons, Nat.add_assoc]
  | @comment _ ranges comment blank s s' hne hblank _ =>
    refine .inr ⟨?_, ?_⟩
    · obtain ⟨front, back, hfront, hstart, hcomment⟩ := hin _ List.mem_cons_self
      have hnil : front = [] := by
        by_contra hfrontne
        have hpos := byteLen_pos hfrontne
        simp only at hstart
        omega
      rw [hnil, List.nil_append, hs] at hfront
      rw [hfront]
      exact hcomment
    · obtain ⟨w, blank, rfl⟩ := List.exists_cons_of_ne_nil (hblank.ne_nil hne)
      exact ⟨w, by rw [Cursor.current, hs']; rfl, hblank.whitespace w List.mem_cons_self⟩

theorem StartsComment.current {text : Str} (h : StartsComment text) : text.head? = some '/' := by
  rcases h with h | h
  · obtain ⟨rest, rfl⟩ := startsWith_iff.mp h
    rfl
  · obtain ⟨rest, rfl⟩ := startsWith_iff.mp h
    rfl

/-- Only at a slash the runs may read different characters. -/
theorem Sim.current_of_ne (h : Sim all c c') (hway : OnTheWay all c)
    (hne : c.current ≠ some '/') : c'.current = c.current ∧ OnTheWay all c.bump :=
  (h.peek hway).resolve_right fun hcomment => hne hcomment.1.current

/-- The end of the text. -/
theorem Sim.none (h : Sim all c c') (hway : OnTheWay all c) (hc : c.current = none) :
    c'.current = none := by
  rw [(h.current_of_ne hway (by rw [hc]; exact nofun)).1, hc]

/-- Text that is no white space and has no slash. -/
def Solid (text : Str) : Prop := ∀ x ∈ text, x ≠ '/' ∧ isWhitespace x = false

instance (text : Str) : Decidable (Solid text) :=
  inferInstanceAs (Decidable (∀ x ∈ text, x ≠ '/' ∧ isWhitespace x = false))

theorem bumpAscii_succ {x : Char} {rest : Str} (hrest : c.rest = x :: rest)
    (hx : x.utf8Size = 1 ∧ x ≠ '\n') (count : Nat) :
    c.bumpAscii (count + 1) = c.bump.bumpAscii count := by
  rw [bump_of_rest hrest, Cursor.bumpAscii, Cursor.bumpAscii, hrest, if_neg hx.2, hx.1,
    List.drop_succ_cons, Nat.add_assoc, Nat.add_comm 1 count]

/-- The second run skips text that the first one skips. -/
theorem Sim.bumpAscii {text : Str} (h : Sim all c c') (hway : OnTheWay all c)
    (hstarts : c.startsWith text = true) (hsolid : Solid text) (hplain : Plain text) :
    c'.startsWith text = true ∧ Sim all (c.bumpAscii text.length) (c'.bumpAscii text.length) := by
  induction text generalizing c c' with
  | nil => exact ⟨rfl, h⟩
  | cons x text ih =>
    obtain ⟨rest, hrest⟩ := startsWith_iff.mp hstarts
    have hx : c.current = some x := current_of_startsWith hstarts
    obtain ⟨hcurrent, hnext⟩ := h.current_of_ne hway (by
      rw [hx]
      exact fun heq => (hsolid x List.mem_cons_self).1 (Option.some.inj heq))
    rw [hx] at hcurrent
    obtain ⟨rest', hrest'⟩ := current_eq_some.mp hcurrent
    have hbump : c.bump.startsWith text = true := by
      rw [bump_of_rest hrest.symm]
      exact startsWith_iff.mpr ⟨rest, rfl⟩
    obtain ⟨hstarts', hsim⟩ := ih (h.bump hnext).2 hnext hbump
      (fun y hy => hsolid y (List.mem_cons_of_mem x hy))
      (fun y hy => hplain y (List.mem_cons_of_mem x hy))
    have hplainx := hplain x List.mem_cons_self
    rw [List.length_cons, bumpAscii_succ hrest.symm hplainx, bumpAscii_succ hrest' hplainx]
    refine ⟨?_, hsim⟩
    obtain ⟨rest'', hrest''⟩ := startsWith_iff.mp hstarts'
    rw [bump_of_rest hrest'] at hrest''
    change text ++ rest'' = rest' at hrest''
    exact startsWith_iff.mpr ⟨rest'', by rw [hrest', ← hrest'', List.cons_append]⟩

/-- Both runs see the same delimiters. -/
theorem Sim.startsWith (text : Str) (h : Sim all c c') (hway : OnTheWay all c)
    (hsolid : Solid text) (hplain : Plain text) : c'.startsWith text = c.startsWith text := by
  rw [Bool.eq_iff_iff]
  constructor
  · intro hstarts
    exact startsWith_iff.mpr (h.rest.prefix_of (fun x hx => (hsolid x hx).2)
      (startsWith_iff.mp hstarts))
  · exact fun hstarts => (h.bumpAscii hway hstarts hsolid hplain).1

end

end MavenMcp.DeclarationSource
