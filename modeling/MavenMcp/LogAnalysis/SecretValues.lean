/-
# What is left of a secret

The scan for secrets writes the same for a definition `-Dkey=value` whatever its value is, unless a
match that begins in the value takes the space in front of an option of the user: then the
expression no longer finds the option, and its value stays in the text.
-/
import MavenMcp.LogAnalysis.Privacy
import MavenMcp.Redaction.Names

namespace MavenMcp.LogAnalysis

open Text
open Redaction (caseless exact oneOf joint keyChar isLetter)
open Regex (opt plus seqs alts)

/-! ## 1. The scan, from a position on -/

/-- What is written for a text behind a position: `s` is the state there, and `skip` characters are
in a value that has been masked. -/
def maskMatches : Scan → Nat → Str → List (Str × Regex.State) → Str
  | _, skip, text, [] => text.drop skip
  | s, skip, text, (start, m) :: l =>
    let front := text.take (text.length - start.length)
    let found := start.take (start.length - m.ahead.length)
    let inside := scanFrom s (front ++ found)
    front.drop skip ++
      if front.length < skip then
        found.drop (skip - front.length)
          ++ maskMatches inside (skip - front.length - found.length) m.ahead l
      else
        found ++ redacted ++ inside.quote.toList
          ++ maskMatches inside (secretValueEnd m.ahead inside.quote) m.ahead l

def mask (u : Unicode) (prev : Option Char) (s : Scan) (skip : Nat) (text : Str) : Str :=
  maskMatches s skip text ((secretPrefix u).matchesAfter prev text)

section

variable {u : Unicode} {prev : Option Char} {s : Scan} {skip : Nat} {c : Char} {rest text : Str}
  {m : Regex.State}

theorem scanFrom_append (s : Scan) (a b : Str) :
    scanFrom s (a ++ b) = scanFrom (scanFrom s a) b := List.foldl_append

theorem mask_nil : mask u prev s skip [] = [] := by
  rw [mask, Regex.matchesAfter_nil, maskMatches, List.drop_nil]

/-- A character in front of all matches. -/
theorem maskMatches_cons {l : List (Str × Regex.State)}
    (h : ∀ found ∈ l, found.1.length ≤ rest.length) :
    maskMatches s skip (c :: rest) l
      = [c].drop skip ++ maskMatches (s.next c) (skip - 1) rest l := by
  cases l with
  | nil =>
    rw [maskMatches, maskMatches]
    cases skip with
    | zero => rfl
    | succ skip => simp
  | cons found l =>
    obtain ⟨start, m⟩ := found
    have hle : start.length ≤ rest.length := h _ List.mem_cons_self
    have htake : (c :: rest).take ((c :: rest).length - start.length)
        = c :: rest.take (rest.length - start.length) := by
      rw [List.length_cons, Nat.succ_sub hle, List.take_succ_cons]
    rw [maskMatches, maskMatches, htake]
    simp only [List.cons_append, scanFrom, List.foldl_cons, List.length_cons]
    cases skip with
    | zero =>
      rw [if_neg (Nat.not_lt_zero _), if_neg (Nat.not_lt_zero _)]
      simp
    | succ skip =>
      simp only [Nat.add_lt_add_iff_right, Nat.add_sub_add_right, Nat.add_sub_cancel,
        List.drop_succ_cons, List.drop_nil, List.nil_append]

/-- A character at which no prefix begins. -/
theorem mask_cons (h : (secretPrefix u).matchAt prev (c :: rest) = none) :
    mask u prev s skip (c :: rest)
      = [c].drop skip ++ mask u (some c) (s.next c) (skip - 1) rest := by
  rw [mask, Regex.matchesAfter_skip h]
  exact maskMatches_cons fun found hfound => Regex.length_le_of_mem_matches hfound

/-- A prefix in a masked value takes its text. -/
theorem mask_skipped {found : Str} (htext : text = found ++ m.ahead) (hskip : 0 < skip)
    (h : (secretPrefix u).matchAt prev text = some m) :
    mask u prev s skip text
      = found.drop skip ++ mask u m.prev (scanFrom s found) (skip - found.length) m.ahead := by
  have htake : text.take (text.length - m.ahead.length) = found := by
    rw [htext, List.length_append, Nat.add_sub_cancel, List.take_left]
  rw [mask, Regex.matchesAfter_match h, maskMatches]
  simp only [Nat.sub_self, List.take_zero, List.drop_nil, List.nil_append, List.length_nil,
    if_pos hskip, Nat.sub_zero, htake]
  rfl

/-- The value behind any other prefix is masked. -/
theorem mask_found {found : Str} (htext : text = found ++ m.ahead)
    (h : (secretPrefix u).matchAt prev text = some m) :
    mask u prev s 0 text
      = found ++ redacted ++ (scanFrom s found).quote.toList
        ++ mask u m.prev (scanFrom s found)
          (secretValueEnd m.ahead (scanFrom s found).quote) m.ahead := by
  have htake : text.take (text.length - m.ahead.length) = found := by
    rw [htext, List.length_append, Nat.add_sub_cancel, List.take_left]
  rw [mask, Regex.matchesAfter_match h, maskMatches]
  simp only [Nat.sub_self, List.take_zero, List.drop_nil, List.nil_append, List.length_nil,
    Nat.lt_irrefl, if_false, htake]
  rfl

end

/-- The loop over the matches, from a position on. -/
theorem foldl_secretStep (u : Unicode) (prev : Option Char) (front rest output : Str)
    (copied : Nat) :
    let acc := ((secretPrefix u).matchesAfter prev rest).foldl (secretStep (front ++ rest))
      (output, copied)
    acc.1 ++ (front ++ rest).drop acc.2
      = output ++ front.drop copied
        ++ mask u prev (scanFrom .start front) (copied - front.length) rest := by
  simp only
  refine Regex.matchesAfter_induction (r := secretPrefix u)
    (P := fun prev rest l => ∀ front output copied,
      (l.foldl (secretStep (front ++ rest)) (output, copied)).1 ++
          (front ++ rest).drop (l.foldl (secretStep (front ++ rest)) (output, copied)).2
        = output ++ front.drop copied
          ++ mask u prev (scanFrom .start front) (copied - front.length) rest)
    ?_ ?_ ?_ prev rest front output copied
  · intro prev front output copied
    rw [mask_nil, List.foldl_nil, List.append_nil, List.append_nil]
  · intro prev c rest hnone ih front output copied
    have h := ih (front ++ [c]) output copied
    rw [List.append_assoc, List.singleton_append] at h
    rw [h, mask_cons hnone, scanFrom_append, List.length_append, List.length_singleton,
      List.drop_append, Nat.sub_add_eq]
    simp only [List.append_assoc]
    rfl
  · intro prev rest m hm ih front output copied
    obtain ⟨found, hrest, -, -, -⟩ := Regex.ends_of_matchAt hm
    have hstart : (front ++ rest).length - rest.length = front.length := by
      rw [List.length_append, Nat.add_sub_cancel]
    have hstop : (front ++ rest).length - m.ahead.length = (front ++ found).length := by
      rw [hrest]
      simp only [List.length_append]
      omega
    have hfront : front ++ rest = (front ++ found) ++ m.ahead := by
      rw [hrest, List.append_assoc]
    rw [List.foldl_cons, secretStep]
    simp only [hstart, hstop]
    by_cases hlt : front.length < copied
    · have h := ih (front ++ found) output copied
      rw [if_pos hlt, hfront, h, mask_skipped hrest (Nat.sub_pos_of_lt hlt) hm, scanFrom_append,
        List.drop_append, List.length_append, Nat.sub_add_eq]
      simp only [List.append_assoc]
    · have htake : (front ++ rest).take (front ++ found).length = front ++ found := by
        rw [hfront, List.take_left]
      have hdrop : (front ++ rest).drop (front ++ found).length = m.ahead := by
        rw [hfront, List.drop_left]
      have hle := Nat.le_of_not_lt hlt
      rw [if_neg hlt, htake, hdrop, hfront, ih (front ++ found), Nat.sub_eq_zero_of_le hle,
        mask_found hrest hm, scanFrom_append, Nat.add_sub_cancel_left, quoteBefore, scanFrom_append,
        List.drop_append_of_le_length hle]
      have hpast : (front ++ found).drop ((front ++ found).length + secretValueEnd m.ahead
          (scanFrom (scanFrom .start front) found).quote) = [] :=
        List.drop_eq_nil_of_le (Nat.le_add_right _ _)
      rw [hpast]
      simp only [List.append_assoc, List.append_nil]

/-- **The scan** is a mask from the start. -/
theorem redactSecretValues_eq (u : Unicode) (text : Str) :
    redactSecretValues u text = mask u none .start 0 text := by
  have h := foldl_secretStep u none [] text [] 0
  simp only [List.nil_append] at h
  exact h

/-! ## 2. The shape of a prefix -/

/-- `\w` is what it says within ASCII, and no white space is in it. -/
structure Words (u : Unicode) : Prop where
  ascii : u.Ascii
  spaced : ∀ c, isWhitespace c = true → u.word c = false

theorem words_asciiOnly : Words Unicode.asciiOnly where
  ascii := Unicode.asciiOnly_ascii
  spaced := fun c hc => by
    have hspaced : c.isAlphanum = false := Unicode.asciiOnly_spaced c hc
    have hne : (c == '_') = false := by
      rw [beq_eq_false_iff_ne]
      rintro rfl
      exact absurd hc (by decide)
    change (c.isAlphanum || c == '_') = false
    rw [hspaced, hne]
    rfl

/-- A character of keys and options. -/
def isKeyChar (u : Unicode) (c : Char) : Bool :=
  u.word c || isLetter c || c == '_' || c == '.' || c == '-'

/-- A character of what may stand between a name and its value. -/
def isGapChar (c : Char) : Bool :=
  isWhitespace c || c == '=' || c == ':' || "bearsic".toList.any fun l => Redaction.sameLetter l c

theorem isLetter_of_sameLetter {c x : Char} (hc : c.isLower = true)
    (h : Redaction.sameLetter c x = true) : isLetter x = true := by
  simp only [Redaction.sameLetter, Bool.or_eq_true, Bool.and_eq_true, beq_iff_eq] at h
  rcases h with (h | ⟨-, rfl⟩) | ⟨-, rfl⟩
  · have halpha : x.isAlpha = true := by
      unfold Char.toLower at h
      split at h
      · rename_i hupper
        have hx : x.isUpper = true := decide_eq_true hupper
        rw [Text.isAlpha_eq, hx, Bool.true_or]
      · rw [Text.isAlpha_eq, h, hc, Bool.or_true]
    rw [isLetter, halpha]
    rfl
  · rfl
  · rfl

theorem avoids_caseless {x : Char} (hx : isLetter x = false) {text : Str}
    (htext : text.all Char.isLower = true) : (caseless text).Avoids x := by
  refine Regex.avoids_literal fun l hl => ?_
  rw [← Bool.not_eq_true]
  intro h
  rw [isLetter_of_sameLetter (List.all_eq_true.mp htext l hl) h] at hx
  cases hx

section

variable {u : Unicode} {x : Char}

theorem not_letter_of_not_name (hx : isKeyChar u x = false) : isLetter x = false := by
  simp only [isKeyChar, Bool.or_eq_false_iff] at hx
  exact hx.1.1.1.2

theorem avoids_dash (hx : isKeyChar u x = false) : (exact ['-']).Avoids x := by
  simp only [isKeyChar, Bool.or_eq_false_iff] at hx
  exact ⟨hx.2, trivial⟩

theorem avoids_joint (hx : isKeyChar u x = false) : joint.Avoids x := by
  simp only [isKeyChar, Bool.or_eq_false_iff, beq_eq_false_iff_ne] at hx
  simp [joint, opt, oneOf, Regex.Avoids, hx]

theorem avoids_keyChar (hx : isKeyChar u x = false) : (keyChar u).Avoids x := by
  simp only [isKeyChar, Bool.or_eq_false_iff] at hx
  simp [keyChar, Regex.Avoids, hx]

/-- Two words with a joint between them. -/
theorem avoids_jointed (hx : isKeyChar u x = false) {a b : Str} (ha : a.all Char.isLower = true)
    (hb : b.all Char.isLower = true) : (seqs [caseless a, joint, caseless b]).Avoids x :=
  have hletter := not_letter_of_not_name hx
  ⟨avoids_caseless hletter ha, avoids_joint hx, avoids_caseless hletter hb, trivial⟩

theorem avoids_secretWord (hx : isKeyChar u x = false) : secretWord.Avoids x := by
  have hword {text : Str} (h : text.all Char.isLower = true) : (caseless text).Avoids x :=
    avoids_caseless (not_letter_of_not_name hx) h
  exact ⟨hword (by decide), hword (by decide), hword (by decide), hword (by decide),
    hword (by decide), avoids_jointed hx (by decide) (by decide),
    avoids_jointed hx (by decide) (by decide), avoids_jointed hx (by decide) (by decide)⟩

theorem avoids_secretKey (hx : isKeyChar u x = false) : (secretKey u).Avoids x :=
  ⟨avoids_keyChar hx, avoids_secretWord hx, avoids_keyChar hx, trivial⟩

theorem avoids_secretOption (hx : isKeyChar u x = false) : secretOption.Avoids x := by
  have hword {text : Str} (h : text.all Char.isLower = true) : (caseless text).Avoids x :=
    avoids_caseless (not_letter_of_not_name hx) h
  exact ⟨hword (by decide), hword (by decide), hword (by decide), hword (by decide),
    avoids_jointed hx (by decide) (by decide), avoids_jointed hx (by decide) (by decide)⟩

end

/-- A character that a gap ends with. -/
def isStopChar (c : Char) : Bool := isWhitespace c || c == '=' || c == ':'

/-- What stands between a name and its value. -/
structure Gap (g : Str) : Prop where
  chars : ∀ c ∈ g, isGapChar c = true
  stop : ∀ c ∈ g.getLast?, isStopChar c = true

theorem isGapChar_of_stop {c : Char} (h : isStopChar c = true) : isGapChar c = true := by
  simp only [isStopChar, isGapChar, Bool.or_eq_true] at h ⊢
  exact .inl h

theorem isStopChar_of_space {c : Char} (h : isWhitespace c = true) : isStopChar c = true := by
  rw [isStopChar, h]
  rfl

theorem gap_nil : Gap [] := ⟨fun _ h => absurd h List.not_mem_nil, fun _ h => by cases h⟩

/-- A gap ends with its last part. -/
theorem gap_append {a b : Str} (ha : ∀ c ∈ a, isGapChar c = true) (hne : b ≠ [])
    (hb : ∀ c ∈ b, isStopChar c = true) : Gap (a ++ b) where
  chars := fun c hc => (List.mem_append.mp hc).elim (ha c) fun hc => isGapChar_of_stop (hb c hc)
  stop := fun c hc => by
    rw [List.getLast?_append, List.getLast?_eq_some_getLast hne] at hc
    cases hc
    exact hb _ (List.getLast_mem hne)

theorem consumes_spaces {prev : Option Char} {w rest : Str} :
    Regex.Consumes spaces prev w rest ↔ ∀ c ∈ w, isWhitespace c = true :=
  Regex.consumes_star_char

/-- A letter that is in every secret word, but neither in a gap nor in an option of the user. -/
def isMark (c : Char) : Bool := "wtk".toList.any fun l => Redaction.sameLetter l c

theorem isMark_of_sameLetter {c l : Char} (hl : l ∈ "wtk".toList)
    (h : Redaction.sameLetter l c = true) : isMark c = true :=
  List.any_eq_true.mpr ⟨l, hl, h⟩

theorem has_caseless {text : Str} {l : Char} (hl : l ∈ "wtk".toList) (h : l ∈ text) :
    (caseless text).Has isMark := Regex.has_literal (fun _ hc => isMark_of_sameLetter hl hc) h

theorem has_jointed {a b : Str} (h : 'k' ∈ b) : (seqs [caseless a, joint, caseless b]).Has isMark :=
  .inr (.inr (.inl (has_caseless (by decide) h)))

theorem has_secretWord : secretWord.Has isMark := by
  have hw {text : Str} (h : 'w' ∈ text) : (caseless text).Has isMark := has_caseless (by decide) h
  have ht {text : Str} (h : 't' ∈ text) : (caseless text).Has isMark := has_caseless (by decide) h
  have hkey : 'k' ∈ "key".toList := by decide
  exact ⟨hw (by decide), hw (by decide), ht (by decide), ht (by decide), ht (by decide),
    has_jointed hkey, has_jointed hkey, has_jointed hkey⟩

theorem has_secretKey {u : Unicode} : (secretKey u).Has isMark := .inr (.inl has_secretWord)

theorem has_secretOption : secretOption.Has isMark := by
  have hw {text : Str} (h : 'w' ∈ text) : (caseless text).Has isMark := has_caseless (by decide) h
  have ht {text : Str} (h : 't' ∈ text) : (caseless text).Has isMark := has_caseless (by decide) h
  have hkey : 'k' ∈ "key".toList := by decide
  exact ⟨hw (by decide), hw (by decide), ht (by decide), ht (by decide), has_jointed hkey,
    has_jointed hkey⟩

/-- An option of the user: its name, and what separates it from its value. -/
structure UserOption (u : Unicode) (f g : Str) : Prop where
  head : f.head? = some '-'
  name : ∀ c ∈ f, isKeyChar u c = true
  unmarked : ∀ c ∈ f, isMark c = false
  gap : ∀ c ∈ g, isStopChar c = true

/-- What a prefix consists of: a name, and a gap; `h` is what an option of the user follows. -/
structure Shape (u : Unicode) (prev : Option Char) (w h f g : Str) : Prop where
  eq : w = h ++ (f ++ g)
  front : h = [] ∨
    ∃ c, h = [c] ∧ (isWhitespace c || [';', '|', '&'].contains c) = true ∧ UserOption u f g
  name_ne : f ≠ []
  name : ∀ c ∈ f, isKeyChar u c = true
  gap : Gap g
  mark : prev ≠ none → h = [] → ∃ c ∈ f, isMark c = true

section

variable {u : Unicode} {prev : Option Char} {w rest : Str}

theorem shape_keyPrefix (h : Regex.Consumes (keyPrefix u) prev w rest) :
    ∃ f g, Shape u prev w [] f g := by
  simp only [keyPrefix, Regex.consumes_seqs_cons, Regex.consumes_seqs_nil, consumes_spaces,
    Redaction.consumes_oneOf] at h
  obtain ⟨f, _, rfl, hf, a, _, rfl, ha, _, _, rfl, ⟨e, he, rfl⟩, b, _, rfl, hb, rfl⟩ := h
  have hstop : ∀ c ∈ e :: b, isStopChar c = true := by
    intro c hc
    rcases List.mem_cons.mp hc with rfl | hc
    · simp only [List.mem_cons, List.not_mem_nil, or_false] at he
      rcases he with rfl | rfl <;> rfl
    · exact isStopChar_of_space (hb c hc)
  refine ⟨f, a ++ e :: b, ⟨by simp, .inl rfl, hf.ne_nil rfl, hf.all fun x hx => avoids_secretKey hx,
    gap_append (fun c hc => isGapChar_of_stop (isStopChar_of_space (ha c hc)))
      (List.cons_ne_nil e b) hstop, fun _ _ => hf.has has_secretKey⟩⟩

theorem consumes_space {prev : Option Char} {w rest : Str} :
    Regex.Consumes (plus space) prev w rest ↔ w ≠ [] ∧ ∀ c ∈ w, isWhitespace c = true :=
  Regex.consumes_plus_char

theorem shape_optionPrefix (h : Regex.Consumes optionPrefix prev w rest) :
    ∃ f g, Shape u prev w [] f g := by
  simp only [optionPrefix, Regex.consumes_seqs_cons, Regex.consumes_seqs_nil, consumes_space,
    Regex.consumes_opt, Redaction.consumes_exact] at h
  obtain ⟨_, _, rfl, rfl, d, _, rfl, hd, f, _, rfl, hf, g, _, rfl, ⟨hne, hg⟩, rfl⟩ := h
  have hdash : isKeyChar u '-' = true := by simp [isKeyChar]
  refine ⟨'-' :: (d ++ f), g, ⟨by simp, .inl rfl, List.cons_ne_nil _ _, ?_, ?_, fun _ _ => ?_⟩⟩
  · intro c hc
    rcases List.mem_cons.mp hc with rfl | hc
    · exact hdash
    rcases List.mem_append.mp hc with hc | hc
    · rcases hd with rfl | rfl
      · rw [List.mem_singleton.mp hc]
        exact hdash
      · cases hc
    · exact hf.all (fun x hx => avoids_secretOption (u := u) hx) c hc
  · exact gap_append (a := []) (fun _ h => absurd h List.not_mem_nil) hne
      fun c hc => isStopChar_of_space (hg c hc)
  · obtain ⟨c, hc, hmark⟩ := hf.has has_secretOption
    exact ⟨c, List.mem_cons_of_mem _ (List.mem_append_right _ hc), hmark⟩

/-- The words of a header may stand in a gap. -/
theorem gapChar_of_caseless {text : Str} (htext : ∀ l ∈ text, l ∈ "bearsic".toList)
    (h : Regex.Consumes (caseless text) prev w rest) : ∀ c ∈ w, isGapChar c = true := by
  rw [caseless, Regex.consumes_literal] at h
  induction h with
  | nil => exact fun _ h => absurd h List.not_mem_nil
  | @cons l x text w hx _ ih =>
    intro c hc
    rcases List.mem_cons.mp hc with rfl | hc
    · have hany : ("bearsic".toList.any fun l => Redaction.sameLetter l c) = true :=
        List.any_eq_true.mpr ⟨l, htext l List.mem_cons_self, hx⟩
      rw [isGapChar, hany, Bool.or_true]
    · exact ih (fun l hl => htext l (List.mem_cons_of_mem _ hl)) c hc

theorem shape_headerPrefix (h : Regex.Consumes headerPrefix prev w rest) :
    ∃ f g, Shape u prev w [] f g := by
  simp only [headerPrefix, Regex.consumes_seqs_cons, Regex.consumes_seqs_nil, consumes_spaces,
    Redaction.consumes_oneOf, Regex.consumes_opt] at h
  obtain ⟨f, _, rfl, hf, a, _, rfl, ha, _, _, rfl, ⟨e, he, rfl⟩, b, _, rfl, hb, v, _, rfl, hv,
    rfl⟩ := h
  have hname : ∀ c ∈ f, isKeyChar u c = true :=
    hf.all fun x hx => avoids_caseless (not_letter_of_not_name hx) (by decide)
  have hstop : ∀ c ∈ e :: b, isStopChar c = true := by
    intro c hc
    rcases List.mem_cons.mp hc with rfl | hc
    · simp only [List.mem_cons, List.not_mem_nil, or_false] at he
      rcases he with rfl | rfl <;> rfl
    · exact isStopChar_of_space (hb c hc)
  have hgap : ∀ c ∈ a ++ e :: b, isGapChar c = true := by
    intro c hc
    rcases List.mem_append.mp hc with hc | hc
    · exact isGapChar_of_stop (isStopChar_of_space (ha c hc))
    · exact isGapChar_of_stop (hstop c hc)
  have hne : f ≠ [] := hf.ne_nil rfl
  have hmark : ∃ c ∈ f, isMark c = true := hf.has (has_caseless (l := 't') (by decide) (by decide))
  rcases hv with hv | rfl
  · -- `Bearer` or `Basic`, with white space behind
    obtain ⟨scheme, blanks, rfl, hscheme, hblanks, hspaces⟩ : ∃ scheme blanks,
        v = scheme ++ blanks ∧ (∀ c ∈ scheme, isGapChar c = true) ∧ blanks ≠ [] ∧
          ∀ c ∈ blanks, isWhitespace c = true := by
      simp only [Regex.consumes_alt, Regex.consumes_seqs_cons, Regex.consumes_seqs_nil,
        consumes_space] at hv
      rcases hv with ⟨scheme, _, rfl, hscheme, blanks, _, rfl, ⟨hblanks, hspaces⟩, rfl⟩ |
        ⟨scheme, _, rfl, hscheme, blanks, _, rfl, ⟨hblanks, hspaces⟩, rfl⟩
      · exact ⟨scheme, blanks, by simp, gapChar_of_caseless (by decide) hscheme, hblanks, hspaces⟩
      · exact ⟨scheme, blanks, by simp, gapChar_of_caseless (by decide) hscheme, hblanks, hspaces⟩
    refine ⟨f, (a ++ e :: b) ++ scheme ++ blanks, ⟨by simp, .inl rfl, hne, hname, ?_,
      fun _ _ => hmark⟩⟩
    refine gap_append (fun c hc => ?_) hblanks fun c hc => isStopChar_of_space (hspaces c hc)
    exact (List.mem_append.mp hc).elim (hgap c) (hscheme c)
  · refine ⟨f, a ++ e :: b, ⟨by simp, .inl rfl, hne, hname, ?_, fun _ _ => hmark⟩⟩
    exact gap_append (fun c hc => isGapChar_of_stop (isStopChar_of_space (ha c hc)))
      (List.cons_ne_nil e b) hstop

theorem isKeyChar_of_sameLetter {c l : Char} (hl : l.isLower = true)
    (h : Redaction.sameLetter l c = true) : isKeyChar u c = true := by
  simp [isKeyChar, isLetter_of_sameLetter hl h]

theorem avoids_proxy {x : Char} (hx : isKeyChar u x = false) :
    (caseless "proxy-".toList).Avoids x := by
  refine Regex.avoids_literal fun l hl => ?_
  rw [← Bool.not_eq_true]
  intro h
  have hcases : ∀ l ∈ "proxy-".toList, l.isLower = true ∨ l = '-' := by decide
  rcases hcases l hl with hlower | rfl
  · rw [isKeyChar_of_sameLetter hlower h] at hx
    cases hx
  · simp only [Redaction.sameLetter, Bool.or_eq_true, Bool.and_eq_true, beq_iff_eq,
      Char.reduceEq, false_and, or_false] at h
    rw [Redaction.eq_dash_of_toLower h] at hx
    simp [isKeyChar] at hx

/-- A character is no more than one letter of a word. -/
theorem sameLetter_unique {l l' x : Char} (hl : l.toNat < 128) (hl' : l'.toNat < 128)
    (h : Redaction.sameLetter l x = true) (h' : Redaction.sameLetter l' x = true) : l = l' := by
  have hlong : 128 ≤ ('\u017f').toLower.toNat ∧ 128 ≤ ('\u212a').toLower.toNat := by decide
  simp only [Redaction.sameLetter, Bool.or_eq_true, Bool.and_eq_true, beq_iff_eq] at h h'
  rcases h with (h | ⟨rfl, rfl⟩) | ⟨rfl, rfl⟩
  · rcases h' with (h' | ⟨rfl, rfl⟩) | ⟨rfl, rfl⟩
    · exact h.symm.trans h'
    · rw [← h] at hl
      exact absurd hl (Nat.not_lt_of_le hlong.1)
    · rw [← h] at hl
      exact absurd hl (Nat.not_lt_of_le hlong.2)
  · rcases h' with (h' | ⟨h', -⟩) | ⟨-, h'⟩
    · rw [← h'] at hl'
      exact absurd hl' (Nat.not_lt_of_le hlong.1)
    · exact h'.symm
    · exact absurd h' (by decide)
  · rcases h' with (h' | ⟨-, h'⟩) | ⟨h', -⟩
    · rw [← h'] at hl'
      exact absurd hl' (Nat.not_lt_of_le hlong.2)
    · exact absurd h' (by decide)
    · exact h'.symm

/-- The words of an option have other letters. -/
theorem unmarked_of_caseless {text : Str}
    (htext : ∀ l ∈ text, l.toNat < 128 ∧ l ∉ "wtk".toList)
    (h : Regex.Consumes (caseless text) prev w rest) : ∀ c ∈ w, isMark c = false := by
  intro c hc
  rw [← Bool.not_eq_true]
  intro hmark
  obtain ⟨l', hl', hsame'⟩ := List.any_eq_true.mp hmark
  have hascii : ∀ l ∈ "wtk".toList, l.toNat < 128 := by decide
  refine h.not_mem (Regex.avoids_literal fun l hl => ?_) hc
  rw [← Bool.not_eq_true]
  intro hsame
  obtain rfl := sameLetter_unique (htext l hl).1 (hascii l' hl') hsame hsame'
  exact (htext l hl).2 hl'

theorem userOption_shape (h : Regex.Consumes userOption prev w rest) :
    ∃ f g, w = f ++ g ∧ UserOption u f g := by
  have hdash : isKeyChar u '-' = true := by simp [isKeyChar]
  simp only [userOption, Regex.consumes_alt, Regex.consumes_seqs_cons, Regex.consumes_seqs_nil,
    Redaction.consumes_exact, Regex.consumes_opt, Redaction.consumes_oneOf, consumes_space,
    consumes_spaces] at h
  rcases h with ⟨_, _, rfl, rfl, p, _, rfl, hp, f, _, rfl, hf, g, _, rfl, hg, rfl⟩ |
    ⟨_, _, rfl, rfl, _, _, rfl, ⟨l, hl, rfl⟩, g, _, rfl, hg, rfl⟩
  · have hproxy : ∀ c ∈ p, isKeyChar u c = true ∧ isMark c = false := by
      rcases hp with hp | rfl
      · exact fun c hc => ⟨hp.all (fun x hx => avoids_proxy (u := u) hx) c hc,
          unmarked_of_caseless (by decide) hp c hc⟩
      · exact fun c hc => absurd hc List.not_mem_nil
    have huser : ∀ c ∈ f, isKeyChar u c = true ∧ isMark c = false := fun c hc =>
      ⟨hf.all (fun x hx => avoids_caseless (not_letter_of_not_name (u := u) hx) (by decide)) c hc,
        unmarked_of_caseless (by decide) hf c hc⟩
    have hchars : ∀ c ∈ '-' :: '-' :: (p ++ f), isKeyChar u c = true ∧ isMark c = false := by
      intro c hc
      rcases List.mem_cons.mp hc with rfl | hc
      · exact ⟨hdash, rfl⟩
      rcases List.mem_cons.mp hc with rfl | hc
      · exact ⟨hdash, rfl⟩
      exact (List.mem_append.mp hc).elim (hproxy c) (huser c)
    refine ⟨'-' :: '-' :: (p ++ f), g, by simp,
      ⟨rfl, fun c hc => (hchars c hc).1, fun c hc => (hchars c hc).2, ?_⟩⟩
    rcases hg with rfl | ⟨-, hg⟩
    · exact fun c hc => by rw [List.mem_singleton.mp hc]; rfl
    · exact fun c hc => isStopChar_of_space (hg c hc)
  · have hchars : ∀ c ∈ ['-', l], isKeyChar u c = true ∧ isMark c = false := by
      intro c hc
      rcases List.mem_cons.mp hc with rfl | hc
      · exact ⟨hdash, rfl⟩
      rw [List.mem_singleton.mp hc]
      simp only [List.mem_cons, List.not_mem_nil, or_false] at hl
      rcases hl with rfl | rfl
      · exact ⟨by simp [isKeyChar, isLetter], rfl⟩
      · exact ⟨by simp [isKeyChar, isLetter], rfl⟩
    exact ⟨['-', l], g, by simp, ⟨rfl, fun c hc => (hchars c hc).1,
      fun c hc => (hchars c hc).2, fun c hc => isStopChar_of_space (hg c hc)⟩⟩

theorem consumes_userPrefix :
    Regex.Consumes userPrefix prev w rest ↔
      ∃ h w', w = h ++ w' ∧
        ((h = [] ∧ Regex.isBoundary (fun _ => true) prev (w' ++ rest) = true) ∨
          ∃ c, h = [c] ∧ (isWhitespace c || [';', '|', '&'].contains c) = true) ∧
        Regex.Consumes userOption (Regex.after prev h) w' rest := by
  simp only [userPrefix, textStart, Regex.consumes_seq, Regex.consumes_alt,
    Regex.consumes_boundary, Regex.consumes_char]

theorem shape_userPrefix (h : Regex.Consumes userPrefix prev w rest) :
    ∃ h f g, Shape u prev w h f g := by
  obtain ⟨front, w', rfl, hfront, hw⟩ := consumes_userPrefix.mp h
  obtain ⟨f, g, rfl, hshape⟩ := userOption_shape (u := u) hw
  have hne : f ≠ [] := by
    rintro rfl
    cases hshape.head
  refine ⟨front, f, g, ⟨rfl, ?_, hne, hshape.name, ?_, fun hprev hnil => ?_⟩⟩
  · exact hfront.imp And.left fun ⟨c, hc, hbefore⟩ => ⟨c, hc, hbefore, hshape⟩
  · refine ⟨fun c hc => isGapChar_of_stop (hshape.gap c hc), fun c hc => ?_⟩
    exact hshape.gap c (List.mem_of_getLast? hc)
  · -- there is no start of the text behind a character
    rcases hfront with ⟨-, hstart⟩ | ⟨c, hc, -⟩
    · obtain ⟨x, hx⟩ := Option.ne_none_iff_exists'.mp hprev
      obtain ⟨y, f, rfl⟩ := List.exists_cons_of_ne_nil hne
      rw [hx] at hstart
      cases hstart
    · rw [hc] at hnil
      cases hnil

theorem consumes_secretPrefix :
    Regex.Consumes (secretPrefix u) prev w rest ↔
      Regex.Consumes (keyPrefix u) prev w rest ∨ Regex.Consumes optionPrefix prev w rest ∨
        Regex.Consumes headerPrefix prev w rest ∨ Regex.Consumes userPrefix prev w rest := by
  simp only [secretPrefix, alts, Regex.consumes_alt]

/-- **The shape of a prefix.** -/
theorem shape_secretPrefix (h : Regex.Consumes (secretPrefix u) prev w rest) :
    ∃ h f g, Shape u prev w h f g := by
  rcases consumes_secretPrefix.mp h with h | h | h | h
  · exact ⟨[], shape_keyPrefix h⟩
  · exact ⟨[], shape_optionPrefix h⟩
  · exact ⟨[], shape_headerPrefix h⟩
  · exact shape_userPrefix h

end

/-! ## 3. Where prefixes stand -/

/-- A character that a shell takes as it is. -/
def Inert (c : Char) : Prop := c ≠ '\\' ∧ c ≠ '\'' ∧ c ≠ '"'

section

variable {u : Unicode} {prev : Option Char} {w rest : Str} {c : Char}

theorem inert_of_keyChar (hu : Words u) (h : isKeyChar u c = true) : Inert c := by
  refine ⟨?_, ?_, ?_⟩
  all_goals
    rintro rfl
    rw [isKeyChar, hu.ascii.word _ (by decide)] at h
    exact absurd h (by decide)

theorem inert_of_gapChar (h : isGapChar c = true) : Inert c := by
  refine ⟨?_, ?_, ?_⟩
  all_goals
    rintro rfl
    exact absurd h (by decide)

/-- What holds of the characters of the parts holds of the characters of a prefix. -/
theorem chars_of_prefix {P : Char → Prop} (hname : ∀ c, isKeyChar u c = true → P c)
    (hgap : ∀ c, isGapChar c = true → P c)
    (hfront : ∀ c, (isWhitespace c || [';', '|', '&'].contains c) = true → P c)
    (h : Regex.Consumes (secretPrefix u) prev w rest) : ∀ c ∈ w, P c := by
  obtain ⟨front, f, g, hshape⟩ := shape_secretPrefix h
  intro c hc
  rw [hshape.eq] at hc
  rcases List.mem_append.mp hc with hc | hc
  · rcases hshape.front with rfl | ⟨x, rfl, hx, -⟩
    · cases hc
    · rw [List.mem_singleton.mp hc]
      exact hfront x hx
  · rcases List.mem_append.mp hc with hc | hc
    · exact hname c (hshape.name c hc)
    · exact hgap c (hshape.gap.chars c hc)

/-- Nothing in a prefix quotes or escapes. -/
theorem inert_of_prefix (hu : Words u) (h : Regex.Consumes (secretPrefix u) prev w rest) :
    ∀ c ∈ w, Inert c := by
  refine chars_of_prefix (fun c => inert_of_keyChar hu) (fun c => inert_of_gapChar) ?_ h
  refine fun c hc => ⟨?_, ?_, ?_⟩
  all_goals
    rintro rfl
    exact absurd hc (by decide)

/-- Nor does anything redirect. -/
theorem ne_less_of_prefix (hu : Words u) (h : Regex.Consumes (secretPrefix u) prev w rest) :
    ∀ c ∈ w, c ≠ '<' := by
  refine chars_of_prefix ?_ ?_ ?_ h
  · rintro c hc rfl
    rw [isKeyChar, hu.ascii.word _ (by decide)] at hc
    exact absurd hc (by decide)
  · rintro c hc rfl
    exact absurd hc (by decide)
  · rintro c hc rfl
    exact absurd hc (by decide)

theorem next_start (h : Inert c) : Scan.start.next c = .start := by
  have hquote : ¬(Scan.start.quote = none ∧ (c = '\'' ∨ c = '"')) := fun hc =>
    hc.2.elim h.2.1 h.2.2
  have hescaped : ¬Scan.start.escaped = true := Bool.false_ne_true
  have hopen : ¬some c = Scan.start.quote := Option.some_ne_none c
  unfold Scan.next
  rw [if_neg hescaped, if_neg fun hc => h.1 hc.1, if_neg hopen, if_neg hquote]

theorem scanFrom_start {text : Str} (h : ∀ c ∈ text, Inert c) : scanFrom .start text = .start := by
  induction text with
  | nil => rfl
  | cons c text ih =>
    rw [scanFrom, List.foldl_cons, next_start (h c List.mem_cons_self)]
    exact ih fun x hx => h x (List.mem_cons_of_mem _ hx)

theorem escaped_next (s : Scan) (h : Inert c) : (s.next c).escaped = false := by
  unfold Scan.next
  split
  · rfl
  · rename_i hescaped
    rw [if_neg fun hc => h.1 hc.1]
    split
    · exact Bool.eq_false_iff.mpr hescaped
    · split
      · exact Bool.eq_false_iff.mpr hescaped
      · exact Bool.eq_false_iff.mpr hescaped

/-- Nothing is escaped behind a prefix. -/
theorem escaped_scanFrom (s : Scan) {text : Str} (hne : text ≠ []) (h : ∀ c ∈ text, Inert c) :
    (scanFrom s text).escaped = false := by
  rw [← List.dropLast_append_getLast hne, scanFrom_append]
  exact escaped_next _ (h _ (List.getLast_mem hne))

/-- The option of the user is not `-D`. -/
theorem userOption_define {text : Str} (h : Regex.Consumes userOption prev w rest)
    (htext : w ++ rest = '-' :: 'D' :: text) : False := by
  simp only [userOption, Regex.consumes_alt, Regex.consumes_seqs_cons, Regex.consumes_seqs_nil,
    Redaction.consumes_exact, Redaction.consumes_oneOf] at h
  rcases h with ⟨_, _, rfl, rfl, -⟩ | ⟨_, _, rfl, rfl, _, _, rfl, ⟨l, hl, rfl⟩, -⟩
  · simp at htext
  · simp only [List.cons_append, List.nil_append, List.cons.injEq, true_and] at htext
    rw [htext.1] at hl
    exact absurd hl (by decide)

/-- What a run of `SECRET_PREFIX` finds in a text that ends with a space does not depend on what
the definition behind the space says. -/
theorem alike_secretPrefix (hu : Words u) (front text : Str) (prev : Option Char) :
    List.Forall₂ (Regex.Alike [fun _ => true] ('-' :: 'D' :: text))
      ((secretPrefix u).run { prev, ahead := front ++ [' '], groups := [] })
      ((secretPrefix u).run
        { prev, ahead := front ++ [' '] ++ '-' :: 'D' :: text, groups := [] }) := by
  have hspace : isKeyChar u ' ' = false := by
    rw [isKeyChar, hu.spaced ' ' (by decide)]
    decide
  have halike : Regex.Alike [fun _ => true] ('-' :: 'D' :: text)
      { prev, ahead := front ++ [' '], groups := [] }
      { prev, ahead := front ++ [' '] ++ '-' :: 'D' :: text, groups := [] } :=
    ⟨rfl, fun _ _ => rfl⟩
  have hcuts {r : Regex} (hwords : r.words = []) (hr : r.Cuts ' ' '-') {s t : Regex.State}
      (hlast : ∃ front, s.ahead = front ++ [' '])
      (h : Regex.Alike [fun _ => true] ('-' :: 'D' :: text) s t) :
      List.Forall₂ (Regex.Alike [fun _ => true] ('-' :: 'D' :: text)) (r.run s) (r.run t) :=
    Regex.alike_run_of_cuts rfl (fun word hword => by rw [hwords] at hword; cases hword) hr hlast h
  have hletter : isLetter ' ' = false := rfl
  have hdash : spaces.Avoids '-' := rfl
  have hoption : userOption.Cuts ' ' '-' := by
    have hproxy : (opt (caseless "proxy-".toList)).Avoids ' ' := ⟨avoids_proxy hspace, trivial⟩
    have huser : (caseless "user".toList).Avoids ' ' := avoids_caseless hletter (by decide)
    have hdashes : (exact ['-', '-']).Avoids ' ' := ⟨rfl, rfl, trivial⟩
    have hgap : (seqs [.alt (exact ['=']) (plus space)]).Avoids '-' :=
      ⟨⟨⟨rfl, trivial⟩, rfl, rfl⟩, trivial⟩
    exact ⟨.inr ⟨hdashes, .inr ⟨hproxy, .inr ⟨huser, .inl hgap⟩⟩⟩,
      .inr ⟨⟨rfl, trivial⟩, .inr ⟨rfl, .inl ⟨hdash, trivial⟩⟩⟩⟩
  have hlast : ∃ front', front ++ [' '] = front' ++ [' '] := ⟨front, rfl⟩
  refine List.rel_append (hcuts rfl ?_ hlast halike)
    (List.rel_append (hcuts rfl ?_ hlast halike)
      (List.rel_append (hcuts rfl ?_ hlast halike) ?_))
  · exact .inr ⟨avoids_secretKey hspace, .inl ⟨hdash, rfl, hdash, trivial⟩⟩
  · exact .inr ⟨avoids_dash hspace, .inr ⟨⟨avoids_dash hspace, trivial⟩,
      .inr ⟨avoids_secretOption hspace, .inl ⟨⟨rfl, rfl⟩, trivial⟩⟩⟩⟩
  · have hscheme {text : Str} (h : text.all Char.isLower = true) :
        (seqs [caseless text, plus space]).Avoids '-' :=
      ⟨avoids_caseless rfl h, ⟨rfl, rfl⟩, trivial⟩
    exact .inr ⟨avoids_caseless hletter (by decide), .inl ⟨hdash, rfl, hdash,
      ⟨⟨hscheme (by decide), hscheme (by decide)⟩, trivial⟩, trivial⟩⟩
  · -- an option of the user, behind the start of the text or behind a character
    refine Regex.forall₂_flatMap (R := fun s t =>
      Regex.Alike [fun _ => true] ('-' :: 'D' :: text) s t ∧
        ((∃ front, s.ahead = front ++ [' ']) ∨ s.ahead = [])) (List.rel_append ?_ ?_) ?_
    · have hstart : Regex.isBoundary (fun _ => true) prev (front ++ [' '])
          = Regex.isBoundary (fun _ => true) prev (front ++ [' '] ++ '-' :: 'D' :: text) := by
        cases front <;> rfl
      rw [textStart, Regex.run, Regex.run]
      simp only [← hstart]
      split
      · exact .cons ⟨halike, .inl hlast⟩ .nil
      · exact .nil
    · cases front with
      | nil => exact .cons ⟨⟨rfl, fun _ _ => rfl⟩, .inr rfl⟩ .nil
      | cons c front =>
        simp only [Regex.run, List.cons_append]
        split
        · exact .cons ⟨⟨by simp, fun _ _ => rfl⟩, .inl ⟨front, rfl⟩⟩ .nil
        · exact .nil
    · rintro s t ⟨h, hlast | hnil⟩
      · exact hcuts rfl hoption hlast h
      · have hs : userOption.run s = [] := by
          refine List.eq_nil_iff_forall_not_mem.mpr fun v hv => ?_
          obtain ⟨w, hw, -, hcons⟩ := Regex.mem_run hv
          rw [hnil] at hw
          exact hcons.ne_nil rfl (List.append_eq_nil_iff.mp hw.symm).1
        have ht : userOption.run t = [] := by
          refine List.eq_nil_iff_forall_not_mem.mpr fun v hv => ?_
          obtain ⟨w, hw, -, hcons⟩ := Regex.mem_run hv
          rw [h.ahead, hnil, List.nil_append] at hw
          exact userOption_define hcons hw.symm
        rw [hs, ht]
        exact .nil

/-- What a search does not find in front of a definition. -/
theorem matchAt_define_none (hu : Words u) {front : Str} {prev : Option Char}
    (h : (secretPrefix u).matchAt prev (front ++ [' ']) = none) (text : Str) :
    (secretPrefix u).matchAt prev (front ++ [' '] ++ '-' :: 'D' :: text) = none := by
  rcases Regex.matchAt_of_runs (alike_secretPrefix hu front text prev) with hnone | ⟨m', m, hm', -⟩
  · exact hnone.2
  · rw [h] at hm'
    cases hm'

/-- What it finds there. -/
theorem matchAt_define_some (hu : Words u) {front : Str} {prev : Option Char} {m' : Regex.State}
    (h : (secretPrefix u).matchAt prev (front ++ [' ']) = some m') :
    ∃ found, front ++ [' '] = found ++ m'.ahead ∧ found ≠ [] ∧ (∀ c ∈ found, Inert c) ∧
      ∀ text, ∃ m, (secretPrefix u).matchAt prev (front ++ [' '] ++ '-' :: 'D' :: text) = some m ∧
        m.prev = Regex.after prev found ∧ m.ahead = m'.ahead ++ '-' :: 'D' :: text := by
  obtain ⟨found, hfound, hne, -, hcons⟩ := Regex.ends_of_matchAt h
  refine ⟨found, hfound, hne, inert_of_prefix hu hcons, fun text => ?_⟩
  rcases Regex.matchAt_of_runs (alike_secretPrefix hu front text prev) with
    hnone | ⟨m'', m, hm'', hm, halike⟩
  · rw [h] at hnone
    cases hnone.1
  · obtain rfl : m' = m'' := Option.some.inj (h.symm.trans hm'')
    obtain ⟨found', htext', -, hprev, -⟩ := Regex.ends_of_matchAt hm
    rw [hfound, halike.ahead, List.append_assoc] at htext'
    exact ⟨m, hm, by rw [hprev, List.append_cancel_right htext'], halike.ahead⟩

/-- The expression accepts the name. -/
def acceptsKey (u : Unicode) (k : Str) : Bool :=
  ((secretKey u).run { prev := none, ahead := k, groups := [] }).any (·.ahead.isEmpty)

theorem consumes_of_acceptsKey {k : Str} (h : acceptsKey u k = true) :
    Regex.Consumes (secretKey u) none k [] := by
  obtain ⟨t, ht, hnil⟩ := List.any_eq_true.mp h
  obtain ⟨w, hw, -, hcons⟩ := Regex.mem_run ht
  rw [List.isEmpty_iff.mp hnil] at hw hcons
  obtain rfl : k = w := hw.trans (List.append_nil w)
  exact hcons

theorem isKeyChar_of_secretKey {k : Str} (h : Regex.Consumes (secretKey u) prev k rest) :
    ∀ c ∈ k, isKeyChar u c = true := h.all fun _ hx => avoids_secretKey hx

/-- More characters of keys in front of a key. -/
theorem secretKey_define (hu : Words u) {k : Str} (h : Regex.Consumes (secretKey u) prev k rest) :
    Regex.Consumes (secretKey u) prev ('-' :: 'D' :: k) rest := by
  have hwords : (secretKey u).words = [] := rfl
  rw [secretKey, Regex.consumes_seqs_cons] at h ⊢
  obtain ⟨x, k', rfl, hx, hk'⟩ := h
  rw [keyChar, Regex.consumes_star_char] at hx
  refine ⟨'-' :: 'D' :: x, k', rfl, ?_, hk'.anywhere rfl _ _⟩
  rw [keyChar, Regex.consumes_star_char]
  have hD : u.word 'D' = true := (hu.ascii.word 'D' (by decide)).trans (by decide)
  intro c hc
  rcases List.mem_cons.mp hc with rfl | hc
  · simp
  rcases List.mem_cons.mp hc with rfl | hc
  · simp [hD]
  · exact hx c hc

theorem ne_of_keyChar (hu : Words u) (h : isKeyChar u c = true) : c ≠ '=' ∧ c ≠ ':' := by
  refine ⟨?_, ?_⟩
  all_goals
    rintro rfl
    rw [isKeyChar, hu.ascii.word _ (by decide)] at h
    exact absurd h (by decide)

theorem ne_of_space (h : isWhitespace c = true) : c ≠ '=' ∧ c ≠ ':' := by
  refine ⟨?_, ?_⟩
  all_goals
    rintro rfl
    exact absurd h (by decide)

/-- **The match at a definition** ends behind its `=`. -/
theorem matchAt_key (hu : Words u) {k value : Str} (hk : acceptsKey u k = true)
    (hvalue : ∀ c ∈ value.head?, isWhitespace c = false) (prev : Option Char) :
    ∃ m, (secretPrefix u).matchAt prev ('-' :: 'D' :: k ++ '=' :: value) = some m ∧
      m.prev = some '=' ∧ m.ahead = value := by
  have hkey : Regex.Consumes (secretKey u) prev ('-' :: 'D' :: k) ('=' :: value) :=
    secretKey_define hu ((consumes_of_acceptsKey hk).anywhere rfl _ _)
  have hname := isKeyChar_of_secretKey hkey
  have hprefix : Regex.Consumes (keyPrefix u) prev ('-' :: 'D' :: k ++ ['=']) value := by
    simp only [keyPrefix, Regex.consumes_seqs_cons, Regex.consumes_seqs_nil, consumes_spaces,
      Redaction.consumes_oneOf]
    exact ⟨_, ['='], rfl, by simpa using hkey, [], ['='], rfl, fun _ h => absurd h List.not_mem_nil,
      ['='], [], rfl, ⟨'=', by simp, rfl⟩, [], [], rfl, fun _ h => absurd h List.not_mem_nil, rfl⟩
  have htext : '-' :: 'D' :: k ++ '=' :: value = ('-' :: 'D' :: k ++ ['=']) ++ value := by simp
  obtain ⟨m, hm⟩ := Regex.matchAt_isSome (r := secretPrefix u) rfl (.left hprefix)
  rw [← htext] at hm
  have hhead := (Option.filter_eq_some_iff.mp hm).1
  have hrun : (keyPrefix u).run
      { prev, ahead := '-' :: 'D' :: k ++ '=' :: value, groups := [] } ≠ [] := by
    obtain ⟨gs, hmem⟩ := Regex.run_complete [] hprefix
    rw [← htext] at hmem
    exact List.ne_nil_of_mem hmem
  rw [secretPrefix, alts, Regex.head_alt_left hrun, keyPrefix] at hhead
  -- every match of the key ends at the first `=`, and the white space behind it is none
  obtain ⟨s₁, hs₁, hhead⟩ := Regex.head_seqs hhead
  obtain ⟨s₂, hs₂, hhead⟩ := Regex.head_seqs hhead
  obtain ⟨s₃, hs₃, hhead⟩ := Regex.head_seqs hhead
  rw [Regex.run_seqs_singleton] at hhead
  have hahead := (Regex.head_star_char hhead).1
  obtain ⟨w₁, hw₁, -, hkey₁⟩ := Regex.mem_run hs₁
  obtain ⟨w₂, hw₂, -, hspaces⟩ := Regex.mem_run hs₂
  obtain ⟨w₃, hw₃, -, hsep⟩ := Regex.mem_run hs₃
  obtain ⟨e, he, rfl⟩ := Redaction.consumes_oneOf.mp hsep
  have hcut : '-' :: 'D' :: k ++ '=' :: value = (w₁ ++ w₂) ++ e :: s₃.ahead := by
    rw [List.append_assoc, ← List.singleton_append (x := e), ← hw₃, ← hw₂]
    exact hw₁
  obtain ⟨-, -, hvalue₃⟩ := cut_unique (P := fun c => c ≠ '=' ∧ c ≠ ':') hcut
    (fun c hc => ne_of_keyChar hu (hname c hc))
    (fun c hc => by
      rcases List.mem_append.mp hc with hc | hc
      · exact ne_of_keyChar hu (isKeyChar_of_secretKey hkey₁ c hc)
      · exact ne_of_space (consumes_spaces.mp hspaces c hc))
    (fun h => h.1 rfl)
    (fun h => by
      simp only [List.mem_cons, List.not_mem_nil, or_false] at he
      exact he.elim h.1 h.2)
  have hvalue' : m.ahead = value := by
    rw [hahead, ← hvalue₃]
    cases value with
    | nil => rfl
    | cons c value =>
      refine List.dropWhile_cons_of_neg ?_
      rw [hvalue c rfl]
      exact Bool.false_ne_true
  obtain ⟨found, hfound, -, hprev, -⟩ := Regex.ends_of_matchAt hm
  refine ⟨m, hm, ?_, hvalue'⟩
  rw [hvalue', htext] at hfound
  rw [hprev, ← List.append_cancel_right hfound, Regex.after_append, Regex.after_singleton]

end

/-! ## 4. Values -/

theorem valueLength_le (text : Str) (s : Scan) : valueLength text s ≤ text.length := by
  induction text generalizing s with
  | nil => exact Nat.le_refl 0
  | cons c text ih =>
    rw [valueLength]
    split
    · exact Nat.zero_le _
    · exact Nat.succ_le_succ (ih _)

/-- A value ends in the front part of a text, or goes on behind it. -/
theorem valueLength_append (a b : Str) (s : Scan) :
    valueLength (a ++ b) s =
      if valueLength a s < a.length then valueLength a s
      else a.length + valueLength b (scanFrom s a) := by
  induction a generalizing s with
  | nil => exact (Nat.zero_add _).symm
  | cons c a ih =>
    rw [List.cons_append, valueLength, valueLength, ih, List.length_cons]
    split
    · rw [if_pos (Nat.succ_pos _)]
    · split
      · rename_i hlt
        rw [if_pos (Nat.succ_lt_succ hlt)]
      · rename_i hlt
        rw [if_neg fun h => hlt (Nat.lt_of_succ_lt_succ h)]
        change _ = _ + valueLength b (scanFrom (s.next c) a)
        omega

/-- A word of a shell: its quotations are closed, nothing is escaped at its end, and no character
ends it before. -/
def IsShellWord (w : Str) : Prop :=
  w ≠ [] ∧ valueLength w .start = w.length ∧ scanFrom .start w = .start

instance (w : Str) : Decidable (IsShellWord w) := inferInstanceAs (Decidable (_ ∧ _ ∧ _))

/-- The end of the text, or white space. -/
def EndsWord (s : Str) : Prop := ∀ c ∈ s.head?, isWhitespace c = true

instance (s : Str) : Decidable (EndsWord s) := by
  unfold EndsWord
  infer_instance

theorem valueLength_end {s : Str} (h : EndsWord s) : valueLength s .start = 0 := by
  cases s with
  | nil => rfl
  | cons c s =>
    have hends : Scan.start.ends c = true := by
      rw [Scan.ends, h c rfl]
      rfl
    rw [valueLength, if_pos hends]

theorem valueLength_word {w s : Str} (hw : IsShellWord w) (hs : EndsWord s) :
    valueLength (w ++ s) .start = w.length := by
  rw [valueLength_append, hw.2.1, if_neg (Nat.lt_irrefl _), hw.2.2, valueLength_end hs,
    Nat.add_zero]

section

variable {u : Unicode} {k : Str}

theorem not_letter_of_space {c : Char} (h : isWhitespace c = true) : isLetter c = false := by
  rw [← Bool.not_eq_true]
  intro hletter
  simp only [isLetter, Bool.or_eq_true, beq_iff_eq] at hletter
  rcases hletter with (halpha | rfl) | rfl
  · simp only [isWhitespace, Bool.or_eq_true, Bool.and_eq_true, decide_eq_true_eq,
      beq_iff_eq] at h
    simp only [Text.isAlpha_eq, Text.isUpper_eq, Text.isLower_eq, Bool.or_eq_true, Bool.and_eq_true,
      decide_eq_true_eq, ge_iff_le, UInt32.le_iff_toNat_le] at halpha
    have hval : c.val.toNat = c.toNat := rfl
    have hbounds : 'A'.val.toNat = 65 ∧ 'Z'.val.toNat = 90 ∧ 'a'.val.toNat = 97 ∧
        'z'.val.toNat = 122 := by decide
    rw [hval] at halpha
    omega
  · exact absurd h (by decide)
  · exact absurd h (by decide)

theorem not_space_of_keyChar (hu : Words u) {c : Char} (h : isKeyChar u c = true) :
    isWhitespace c = false := by
  rw [← Bool.not_eq_true]
  intro hc
  simp only [isKeyChar, hu.spaced c hc, not_letter_of_space hc, Bool.false_or, Bool.or_eq_true,
    beq_iff_eq] at h
  rcases h with (rfl | rfl) | rfl
  all_goals exact absurd hc (by decide)

/-- A key does not end a value. -/
theorem ends_keyChar (hu : Words u) {c : Char} (h : isKeyChar u c = true) :
    Scan.start.ends c = false := by
  have hmark : [';', '&', '|', '<', '>'].contains c = false := by
    rw [← Bool.not_eq_true, List.contains_iff_mem]
    intro hc
    have hne : ∀ x ∈ [';', '&', '|', '<', '>'], isKeyChar u x = false := by
      intro x hx
      simp only [List.mem_cons, List.not_mem_nil, or_false] at hx
      rcases hx with rfl | rfl | rfl | rfl | rfl
      all_goals
        rw [isKeyChar, hu.ascii.word _ (by decide)]
        decide
    rw [hne c hc] at h
    cases h
  rw [Scan.ends, not_space_of_keyChar hu h, hmark]
  rfl

/-- The definition of a key, in front of its value. -/
def definition (k : Str) : Str := '-' :: 'D' :: k ++ ['=']

theorem definition_append (k value : Str) :
    definition k ++ value = '-' :: 'D' :: (k ++ '=' :: value) := by
  simp [definition]

theorem keyChar_define (hk : ∀ c ∈ k, isKeyChar u c = true) (hu : Words u) :
    ∀ c ∈ '-' :: 'D' :: k, isKeyChar u c = true := by
  have hD : u.word 'D' = true := (hu.ascii.word 'D' (by decide)).trans (by decide)
  intro c hc
  rcases List.mem_cons.mp hc with rfl | hc
  · simp [isKeyChar]
  rcases List.mem_cons.mp hc with rfl | hc
  · simp [isKeyChar, hD]
  · exact hk c hc

/-- Neither quotes nor white space. -/
theorem scan_definition (hu : Words u) (hk : acceptsKey u k = true) :
    scanFrom .start (definition k) = .start ∧
      valueLength (definition k) .start = (definition k).length := by
  have hname := keyChar_define (isKeyChar_of_secretKey (consumes_of_acceptsKey hk)) hu
  have hplain : ∀ c ∈ definition k, Inert c ∧ Scan.start.ends c = false := by
    intro c hc
    rcases List.mem_append.mp hc with hc | hc
    · exact ⟨inert_of_keyChar hu (hname c hc), ends_keyChar hu (hname c hc)⟩
    · rw [List.mem_singleton.mp hc]
      exact ⟨inert_of_gapChar rfl, rfl⟩
  refine ⟨scanFrom_start fun c hc => (hplain c hc).1, ?_⟩
  generalize definition k = text at hplain
  induction text with
  | nil => rfl
  | cons c text ih =>
    obtain ⟨hinert, hends⟩ := hplain c List.mem_cons_self
    rw [valueLength, hends, if_neg Bool.false_ne_true, next_start hinert, List.length_cons,
      ih fun x hx => hplain x (List.mem_cons_of_mem _ hx)]

/-- A value that has begun before a definition ends with the value of the definition. -/
theorem valueLength_definition (hu : Words u) (hk : acceptsKey u k = true) {w s : Str}
    (hw : IsShellWord w) (hs : EndsWord s) :
    valueLength (definition k ++ (w ++ s)) .start = (definition k).length + w.length := by
  obtain ⟨hscan, hlength⟩ := scan_definition hu hk
  rw [valueLength_append, hlength, if_neg (Nat.lt_irrefl _), hscan, valueLength_word hw hs]

end

/-! ## 5. The text in front -/

/-- The last character is a space, if there is one. -/
def EndsInSpace (p : Str) : Prop := ∀ c ∈ p.getLast?, c = ' '

instance (p : Str) : Decidable (EndsInSpace p) := by
  unfold EndsInSpace
  infer_instance

theorem endsInSpace_append {a b : Str} (h : EndsInSpace (a ++ b)) : EndsInSpace b := by
  intro c hc
  refine h c ?_
  rw [List.getLast?_append, hc]
  rfl

theorem EndsInSpace.eq {p : Str} (h : EndsInSpace p) (hne : p ≠ []) :
    ∃ front, p = front ++ [' '] :=
  ⟨p.dropLast, by
    rw [← h _ (List.getLast?_eq_some_getLast hne), List.dropLast_append_getLast hne]⟩

/-- **The text in front** is scanned without regard to the definition; whether it ends within a
value or not. -/
theorem mask_front {u : Unicode} (hu : Words u) {p : Str} (hp : EndsInSpace p) {st : Scan}
    (hscan : scanFrom st p = .start) (prev : Option Char) (pending : Option Nat)
    (hpending : ∀ n ∈ pending, n ≤ p.length) :
    ∃ (out : Str) (inValue : Bool) (prev' : Option Char), ∀ text,
      mask u prev st (pending.getD (p.length + valueLength ('-' :: 'D' :: text) .start))
          (p ++ '-' :: 'D' :: text)
        = out ++ mask u prev' .start
            (if inValue then valueLength ('-' :: 'D' :: text) .start else 0)
            ('-' :: 'D' :: text) := by
  induction hn : p.length using Nat.strongRecOn generalizing p st prev pending with
  | ind n ih =>
    subst hn
    by_cases hne : p = []
    · subst hne
      obtain rfl : st = .start := hscan
      refine ⟨[], pending.isNone, prev, fun text => ?_⟩
      cases pending with
      | none => simp
      | some n =>
        obtain rfl : n = 0 := Nat.le_zero.mp (hpending n rfl)
        rfl
    obtain ⟨front, hfront⟩ := hp.eq hne
    cases hmatch : (secretPrefix u).matchAt prev p with
    | none =>
      obtain ⟨c, r, rfl⟩ := List.exists_cons_of_ne_nil hne
      have hnone : ∀ text,
          (secretPrefix u).matchAt prev (c :: (r ++ '-' :: 'D' :: text)) = none := fun text => by
        rw [← List.cons_append, hfront]
        rw [hfront] at hmatch
        exact matchAt_define_none hu hmatch text
      obtain ⟨out, inValue, prev', h⟩ := ih r.length (Nat.lt_succ_self _)
        (endsInSpace_append (a := [c]) hp) hscan (some c) (pending.map (· - 1))
        (fun n hn => by
          obtain ⟨k, hk, rfl⟩ := Option.map_eq_some_iff.mp hn
          exact Nat.sub_le_of_le_add (hpending k hk)) rfl
      refine ⟨[c].drop (pending.getD 1) ++ out, inValue, prev', fun text => ?_⟩
      rw [List.append_assoc, ← h text, List.cons_append, mask_cons (hnone text)]
      cases pending with
      | none =>
        have hskip : (c :: r).length + valueLength ('-' :: 'D' :: text) .start
            = r.length + valueLength ('-' :: 'D' :: text) .start + 1 := by
          rw [List.length_cons]
          omega
        simp only [Option.getD_none, Option.map_none, hskip, List.drop_succ_cons, List.drop_nil,
          Nat.add_sub_cancel]
      | some n => rfl
    | some m' =>
      have hmatch' := hmatch
      rw [hfront] at hmatch'
      obtain ⟨found, hfound, hne', hinert, hm⟩ := matchAt_define_some hu hmatch'
      rw [← hfront] at hfound hm
      have hlength : m'.ahead.length < p.length := by
        have hpos := List.length_pos_of_ne_nil hne'
        rw [hfound, List.length_append]
        omega
      have hahead : EndsInSpace m'.ahead := endsInSpace_append (hfound ▸ hp)
      have hscan' : scanFrom (scanFrom st found) m'.ahead = .start := by
        rw [← scanFrom_append, ← hfound]
        exact hscan
      by_cases hzero : pending = some 0
      · -- the value begins here; it ends in front of the definition, or with it
        have hvalue : ∀ text,
            secretValueEnd (m'.ahead ++ '-' :: 'D' :: text) (scanFrom st found).quote
              = (if valueLength m'.ahead (scanFrom st found) < m'.ahead.length then
                some (valueLength m'.ahead (scanFrom st found)) else none).getD
              (m'.ahead.length + valueLength ('-' :: 'D' :: text) .start) := fun text => by
          have hstate : (⟨(scanFrom st found).quote, false⟩ : Scan) = scanFrom st found := by
            rw [← escaped_scanFrom st hne' hinert]
          rw [secretValueEnd, hstate, valueLength_append, hscan']
          split <;> rfl
        obtain ⟨out, inValue, prev', h⟩ := ih m'.ahead.length hlength hahead hscan'
          (Regex.after prev found)
          (if valueLength m'.ahead (scanFrom st found) < m'.ahead.length then
            some (valueLength m'.ahead (scanFrom st found)) else none)
          (fun n hn => by
            split at hn
            · cases hn
              exact valueLength_le _ _
            · cases hn) rfl
        refine ⟨found ++ redacted ++ (scanFrom st found).quote.toList ++ out, inValue, prev',
          fun text => ?_⟩
        obtain ⟨m, hm, hprev, hmahead⟩ := hm text
        have htext : p ++ '-' :: 'D' :: text = found ++ m.ahead := by
          rw [hmahead, ← List.append_assoc, ← hfound]
        rw [hzero, Option.getD_some, mask_found htext hm, hprev, hmahead, hvalue, h]
        simp only [List.append_assoc]
      · have hpos : 0 < pending.getD 1 := by
          cases pending with
          | none => exact Nat.one_pos
          | some n => exact Nat.pos_of_ne_zero fun hn => hzero (congrArg some hn)
        obtain ⟨out, inValue, prev', h⟩ := ih m'.ahead.length hlength hahead hscan'
          (Regex.after prev found) (pending.map (· - found.length))
          (fun n hn => by
            obtain ⟨k, hk, rfl⟩ := Option.map_eq_some_iff.mp hn
            have hle := hpending k hk
            rw [hfound, List.length_append] at hle
            omega) rfl
        refine ⟨found.drop (pending.getD found.length) ++ out, inValue, prev', fun text => ?_⟩
        obtain ⟨m, hm, hprev, hmahead⟩ := hm text
        have htext : p ++ '-' :: 'D' :: text = found ++ m.ahead := by
          rw [hmahead, ← List.append_assoc, ← hfound]
        have hskip : 0 < pending.getD (p.length + valueLength ('-' :: 'D' :: text) .start) := by
          cases pending with
          | none => exact Nat.add_pos_left (List.length_pos_of_ne_nil hne) _
          | some n => exact hpos
        rw [mask_skipped htext hskip hm, hprev, hmahead, List.append_assoc, ← h text]
        cases pending with
        | none =>
          have hlengths : p.length = found.length + m'.ahead.length := by
            rw [hfound, List.length_append]
          simp only [Option.getD_none, Option.map_none]
          rw [List.drop_eq_nil_of_le (by omega), List.drop_eq_nil_of_le (Nat.le_refl _)]
          congr 2
          omega
        | some n => rfl

/-! ## 6. The value -/

/-- How many characters behind a word are in a match of `SECRET_PREFIX` that begins in the word. -/
def overrunFrom (u : Unicode) : Nat → Option Char → Str → Str → Nat
  | 0, _, _, _ => 0
  | _ + 1, _, [], _ => 0
  | n + 1, prev, c :: w, s =>
    match (secretPrefix u).matchAt prev (c :: w ++ s) with
    | none => overrunFrom u n (some c) w s
    | some m =>
      if m.ahead.length ≤ s.length then s.length - m.ahead.length
      else overrunFrom u n m.prev (m.ahead.take (m.ahead.length - s.length)) s

def overrun (u : Unicode) (w s : Str) : Nat := overrunFrom u w.length (some '=') w s

/-- A match that begins in the word takes the beginning of a later prefix. -/
def hidesPrefix (u : Unicode) (w s : Str) : Bool :=
  (List.range (overrun u w s)).any fun i =>
    ((secretPrefix u).matchAt (some ' ') (s.drop i)).isSome

section

variable {u : Unicode}

/-- Which character is before a position does not matter. -/
theorem matchAt_prev (a b : Char) (text : Str) :
    (secretPrefix u).matchAt (some a) text = none ∧
        (secretPrefix u).matchAt (some b) text = none ∨
      ∃ m m', (secretPrefix u).matchAt (some a) text = some m ∧
        (secretPrefix u).matchAt (some b) text = some m' ∧ m'.ahead = m.ahead ∧
          m'.prev = m.prev := by
  have hprev : ∀ word ∈ (secretPrefix u).words, (some a).any word = (some b).any word := by
    intro word hword
    have hwords : (secretPrefix u).words = [fun _ => true] := rfl
    rw [hwords] at hword
    rw [List.mem_singleton.mp hword]
    rfl
  rcases Regex.matchAt_alike (r := secretPrefix u) text [] hprev (fun c hc => by cases hc) with
    hnone | ⟨m, m', hm, hm', halike⟩
  · rw [List.append_nil] at hnone
    exact .inl hnone
  · rw [List.append_nil] at hm'
    have hahead : m'.ahead = m.ahead := by rw [halike.ahead, List.append_nil]
    obtain ⟨found, hfound, hne, hmprev, -⟩ := Regex.ends_of_matchAt hm
    obtain ⟨found', hfound', -, hmprev', -⟩ := Regex.ends_of_matchAt hm'
    have hsame : found = found' := by
      rw [hahead, hfound] at hfound'
      exact List.append_cancel_right hfound'
    refine .inr ⟨m, m', hm, hm', hahead, ?_⟩
    rw [hmprev, hmprev', ← hsame, Regex.after, Regex.after, List.getLast?_eq_some_getLast hne]
    rfl

theorem mask_prev (a b : Char) (s : Scan) (skip : Nat) (text : Str) :
    mask u (some a) s skip text = mask u (some b) s skip text := by
  cases text with
  | nil => rw [mask_nil, mask_nil]
  | cons c rest =>
    rcases matchAt_prev a b (c :: rest) with ⟨hnone, hnone'⟩ | ⟨m, m', hm, hm', hahead, hprev⟩
    · rw [mask_cons hnone, mask_cons hnone']
    · obtain ⟨found, hfound, -, -, -⟩ := Regex.ends_of_matchAt hm
      have hfound' : c :: rest = found ++ m'.ahead := by rw [hahead, hfound]
      cases skip with
      | zero => rw [mask_found hfound hm, mask_found hfound' hm', hahead, hprev]
      | succ skip =>
        rw [mask_skipped hfound (Nat.succ_pos _) hm, mask_skipped hfound' (Nat.succ_pos _) hm',
          hahead, hprev]

/-- The character before what is behind a match. -/
theorem exists_after {prev : Option Char} {found : Str} (hne : found ≠ []) :
    ∃ b, Regex.after prev found = some b := by
  rw [Regex.after, List.getLast?_eq_some_getLast hne]
  exact ⟨_, rfl⟩

/-- A match that begins in a word ends behind it, or in it. -/
theorem behind_word {w s found ahead : Str} (h : w ++ s = found ++ ahead) :
    (ahead.length ≤ s.length ∧ ∃ z, found = w ++ z ∧ s = z ++ ahead) ∨
      s.length < ahead.length ∧ ∃ w', w = found ++ w' ∧ ahead = w' ++ s := by
  rcases List.append_eq_append_iff.mp h with ⟨z, rfl, rfl⟩ | ⟨w', rfl, rfl⟩
  · exact .inl ⟨by rw [List.length_append]; exact Nat.le_add_left _ _, z, rfl, rfl⟩
  · cases w' with
    | nil => exact .inl ⟨Nat.le_refl _, [], by simp, rfl⟩
    | cons c w' =>
      refine .inr ⟨?_, c :: w', rfl, rfl⟩
      rw [List.length_append, List.length_cons]
      omega

/-- Prefixes that begin in a value are passed over, and take what they match. -/
theorem mask_word (hu : Words u) {n : Nat} {w s : Str} (hn : w.length ≤ n) {a : Char} {st : Scan}
    (hst : scanFrom st w = .start) :
    (∀ c ∈ s.take (overrunFrom u n (some a) w s), Inert c) ∧
      mask u (some a) st w.length (w ++ s)
        = s.take (overrunFrom u n (some a) w s)
          ++ mask u (some ' ') .start 0 (s.drop (overrunFrom u n (some a) w s)) := by
  induction n generalizing w a st with
  | zero =>
    obtain rfl := List.eq_nil_of_length_eq_zero (Nat.le_zero.mp hn)
    obtain rfl : st = .start := hst
    exact ⟨fun c hc => absurd hc List.not_mem_nil, mask_prev a ' ' _ _ _⟩
  | succ n ih =>
    cases w with
    | nil =>
      obtain rfl : st = .start := hst
      exact ⟨fun c hc => absurd hc List.not_mem_nil, mask_prev a ' ' _ _ _⟩
    | cons c w =>
      have hw : w.length ≤ n := Nat.le_of_succ_le_succ hn
      unfold overrunFrom
      cases hm : (secretPrefix u).matchAt (some a) (c :: w ++ s) with
      | none =>
        simp only
        obtain ⟨hinert, h⟩ := ih hw (a := c)
          (show scanFrom (st.next c) w = .start from hst)
        refine ⟨hinert, ?_⟩
        rw [List.cons_append] at hm ⊢
        rw [mask_cons hm, List.length_cons, Nat.add_sub_cancel, h, List.drop_succ_cons,
          List.drop_nil, List.nil_append]
      | some m =>
        simp only
        obtain ⟨found, hfound, hne, hprev, hcons⟩ := Regex.ends_of_matchAt hm
        obtain ⟨b, hb⟩ : ∃ b, Regex.after (some a) found = some b := exists_after hne
        have hplain := inert_of_prefix hu hcons
        have hskipped : mask u (some a) st (c :: w).length (c :: w ++ s)
            = found.drop (c :: w).length ++ mask u m.prev (scanFrom st found)
              ((c :: w).length - found.length) m.ahead :=
          mask_skipped hfound (Nat.succ_pos _) hm
        rcases behind_word hfound with ⟨hle, z, rfl, rfl⟩ | ⟨hlt, w', hfront, hahead⟩
        · -- the match ends behind the word
          have hz : ∀ x ∈ z, Inert x := fun x hx => hplain x (List.mem_append_right _ hx)
          have hover : (z ++ m.ahead).length - m.ahead.length = z.length := by
            rw [List.length_append, Nat.add_sub_cancel]
          have hscan : scanFrom st (c :: w ++ z) = .start := by
            rw [scanFrom_append, hst, scanFrom_start hz]
          have hskip : (c :: w).length - (c :: w ++ z).length = 0 :=
            Nat.sub_eq_zero_of_le (by rw [List.length_append]; exact Nat.le_add_right _ _)
          rw [if_pos hle, hover, List.take_left, List.drop_left]
          refine ⟨hz, ?_⟩
          rw [hskipped, hprev, hb, hscan, hskip, List.drop_left, mask_prev b ' ']
        · -- the match ends in the word
          have hscan : scanFrom (scanFrom st found) w' = .start := by
            rw [← scanFrom_append, ← hfront]
            exact hst
          have htake : m.ahead.take (m.ahead.length - s.length) = w' := by
            rw [hahead, List.length_append, Nat.add_sub_cancel, List.take_left]
          have hlength : (c :: w).length = found.length + w'.length := by
            rw [hfront, List.length_append]
          have hshort : w'.length ≤ n := by
            have hpos := List.length_pos_of_ne_nil hne
            omega
          obtain ⟨hinert, h⟩ := ih hshort (a := b) hscan
          rw [if_neg (Nat.not_le_of_lt hlt), htake, hprev, hb]
          refine ⟨hinert, ?_⟩
          rw [hskipped, hprev, hb, hahead, hlength, Nat.add_sub_cancel_left, h,
            List.drop_eq_nil_of_le (Nat.le_add_right _ _), List.nil_append]

/-- No prefix begins in a text. -/
theorem mask_skip {n : Nat} {s : Str} (hinert : ∀ c ∈ s.take n, Inert c)
    (hnone : ∀ i < n, (secretPrefix u).matchAt (some ' ') (s.drop i) = none) :
    mask u (some ' ') .start 0 s = s.take n ++ mask u (some ' ') .start 0 (s.drop n) := by
  induction n generalizing s with
  | zero => rfl
  | succ n ih =>
    cases s with
    | nil => rfl
    | cons c s =>
      have hc : Inert c := hinert c (by rw [List.take_succ_cons]; exact List.mem_cons_self)
      have htail := ih (s := s)
        (fun x hx => hinert x (by rw [List.take_succ_cons]; exact List.mem_cons_of_mem _ hx))
        (fun i hi => hnone (i + 1) (Nat.succ_lt_succ hi))
      rw [mask_cons (hnone 0 (Nat.succ_pos n)), next_start hc, mask_prev c ' ', htail,
        List.take_succ_cons, List.drop_succ_cons]
      rfl

/-- A word does not begin with white space. -/
theorem head_shellWord {w s : Str} (hw : IsShellWord w) :
    ∀ c ∈ (w ++ s).head?, isWhitespace c = false := by
  intro c hc
  obtain ⟨x, w, rfl⟩ := List.exists_cons_of_ne_nil hw.1
  obtain rfl : x = c := Option.some.inj hc
  have hlength := hw.2.1
  rw [valueLength] at hlength
  split at hlength
  · cases hlength
  · rename_i hends
    rw [← Bool.not_eq_true]
    intro hspace
    rw [Scan.ends, hspace] at hends
    exact hends rfl

/-- **A definition**: what is written for it and the text in front, and for the text behind. -/
theorem redactSecretValues_definition (hu : Words u) {p k : Str} (hp : EndsInSpace p)
    (hscan : scanFrom .start p = .start) (hk : acceptsKey u k = true) :
    ∃ out : Str, ∀ w s, IsShellWord w → EndsWord s →
      redactSecretValues u (p ++ definition k ++ w ++ s)
        = out ++ (s.take (overrun u w s)
          ++ mask u (some ' ') .start 0 (s.drop (overrun u w s))) := by
  obtain ⟨out, inValue, prev, hfront⟩ := mask_front hu hp hscan none (some 0)
    (fun n hn => by cases hn; exact Nat.zero_le _)
  refine ⟨out ++ if inValue then [] else definition k ++ redacted, fun w s hw hs => ?_⟩
  have hvalue := valueLength_definition hu hk hw hs
  have hscanned := (scan_definition hu hk).1
  obtain ⟨m, hm, hprev, hahead⟩ := matchAt_key hu hk (head_shellWord (s := s) hw) prev
  have htext := definition_append k (w ++ s)
  replace hm : (secretPrefix u).matchAt prev (definition k ++ (w ++ s)) = some m := by
    rw [htext]
    exact hm
  have hfound : definition k ++ (w ++ s) = definition k ++ m.ahead := by rw [hahead]
  have hword := (mask_word hu (s := s) (Nat.le_refl w.length) (a := '=') hw.2.2).2
  have hbehind := hfront (k ++ '=' :: (w ++ s))
  rw [← htext] at hbehind
  rw [redactSecretValues_eq, List.append_assoc, List.append_assoc]
  refine hbehind.trans ?_
  cases inValue with
  | true =>
    have hpos : 0 < valueLength (definition k ++ (w ++ s)) .start := by
      rw [hvalue]
      exact Nat.add_pos_left (Nat.succ_pos _) _
    rw [if_pos rfl, if_pos rfl, List.append_nil, mask_skipped hfound hpos hm, hvalue,
      List.drop_eq_nil_of_le (Nat.le_add_right _ _), Nat.add_sub_cancel_left, hscanned, hprev,
      hahead, List.nil_append, overrun, ← hword]
  | false =>
    have hend : secretValueEnd (w ++ s) Scan.start.quote = w.length := valueLength_word hw hs
    rw [if_neg Bool.false_ne_true, if_neg Bool.false_ne_true, mask_found hfound hm, hscanned, hprev,
      hahead, hend, hword, overrun]
    simp only [List.append_assoc]
    rfl

end

/-! ## 7. Hidden prefixes -/

section

variable {u : Unicode}

theorem Gap.behind {a z : Str} (h : Gap (a ++ z)) : Gap z where
  chars := fun c hc => h.chars c (List.mem_append_right _ hc)
  stop := fun c hc => h.stop c (by rw [List.getLast?_append, Option.mem_def.mp hc]; rfl)

/-- White space that a prefix has taken is in its gap. -/
theorem gap_of_shape (hu : Words u) {prev : Option Char} {c : Char} {w z h f g : Str}
    (hshape : Shape u prev (c :: w ++ z) h f g) (hz : EndsWord z) : Gap z := by
  obtain ⟨a, ha⟩ : ∃ a, f ++ g = a ++ z := by
    have heq := hshape.eq
    rcases hshape.front with rfl | ⟨x, rfl, -⟩
    · exact ⟨c :: w, heq.symm⟩
    · exact ⟨w, (List.cons.inj heq).2.symm⟩
  rcases List.append_eq_append_iff.mp ha with ⟨b, rfl, rfl⟩ | ⟨f', rfl, rfl⟩
  · exact hshape.gap.behind
  · cases f' with
    | nil => exact hshape.gap
    | cons x f' =>
      have hspace := hz x rfl
      have hname := hshape.name x (List.mem_append_right _ List.mem_cons_self)
      rw [not_space_of_keyChar hu hname] at hspace
      cases hspace

/-- What is taken of the text behind a word. -/
theorem gap_overrun (hu : Words u) {n : Nat} {prev : Option Char} {w s : Str} (hs : EndsWord s) :
    Gap (s.take (overrunFrom u n prev w s)) := by
  induction n generalizing prev w with
  | zero => exact gap_nil
  | succ n ih =>
    cases w with
    | nil => exact gap_nil
    | cons c w =>
      unfold overrunFrom
      cases hm : (secretPrefix u).matchAt prev (c :: w ++ s) with
      | none => exact ih
      | some m =>
        simp only
        obtain ⟨found, hfound, -, -, hcons⟩ := Regex.ends_of_matchAt hm
        rcases behind_word hfound with ⟨hle, z, rfl, hz⟩ | ⟨hlt, -⟩
        · obtain ⟨h, f, g, hshape⟩ := shape_secretPrefix hcons
          have htake : s.take (s.length - m.ahead.length) = z := by
            rw [hz, List.length_append, Nat.add_sub_cancel, List.take_left]
          rw [if_pos hle, htake]
          refine gap_of_shape hu hshape fun x hx => hs x ?_
          rw [hz, List.head?_append, Option.mem_def.mp hx]
          rfl
        · rw [if_neg (Nat.not_le_of_lt hlt)]
          exact ih

theorem not_mark_of_gapChar {c : Char} (h : isGapChar c = true) : isMark c = false := by
  rw [← Bool.not_eq_true]
  intro hmark
  obtain ⟨l, hl, hsame⟩ := List.any_eq_true.mp hmark
  have hlow : ∀ l ∈ "wtk".toList, l.isLower = true ∧ l.toNat < 128 := by decide
  simp only [isGapChar, Bool.or_eq_true, beq_iff_eq] at h
  rcases h with ((hspace | rfl) | rfl) | hword
  · have hletter := isLetter_of_sameLetter (hlow l hl).1 hsame
    rw [not_letter_of_space hspace] at hletter
    cases hletter
  · exact absurd hmark (by decide)
  · exact absurd hmark (by decide)
  · obtain ⟨l', hl', hsame'⟩ := List.any_eq_true.mp hword
    have hlow' : ∀ l ∈ "bearsic".toList, l.toNat < 128 ∧ l ∉ "wtk".toList := by decide
    obtain rfl := sameLetter_unique (hlow l hl).2 (hlow' l' hl').1 hsame hsame'
    exact (hlow' l hl').2 hl

theorem not_stop_of_keyChar (hu : Words u) {c : Char} (h : isKeyChar u c = true) :
    isStopChar c = false := by
  obtain ⟨heq, hcolon⟩ := ne_of_keyChar hu h
  simp [isStopChar, not_space_of_keyChar hu h, heq, hcolon]

theorem UserOption.eq_cons {f g : Str} (h : UserOption u f g) : ∃ f', f = '-' :: f' := by
  cases f with
  | nil => cases h.head
  | cons c f => exact ⟨f, by rw [Option.some.inj h.head]⟩

/-- A prefix that begins in a gap is an option of the user, and takes the last character of the
gap. -/
theorem match_in_gap (hu : Words u) {a : Char} {z r : Str} (hz : Gap z) (hne : z ≠ [])
    {m : Regex.State} (hm : (secretPrefix u).matchAt (some a) (z ++ r) = some m) :
    ∃ c f g, z = [c] ∧ r = f ++ g ++ m.ahead ∧ UserOption u f g ∧
      Regex.Consumes (secretPrefix u) (some a) (c :: (f ++ g)) m.ahead := by
  obtain ⟨found, hfound, -, -, hcons⟩ := Regex.ends_of_matchAt hm
  obtain ⟨h, f, g, hshape⟩ := shape_secretPrefix hcons
  rw [hshape.eq, List.append_assoc] at hfound
  rcases hshape.front with rfl | ⟨c, rfl, -, hoption⟩
  · -- a name with a mark does not fit into a gap, and does not run over its end
    exfalso
    obtain ⟨c, hc, hmark⟩ := hshape.mark (Option.some_ne_none a) rfl
    rw [List.nil_append, List.append_assoc] at hfound
    rcases List.append_eq_append_iff.mp hfound with ⟨b, hf, -⟩ | ⟨b, hf, -⟩
    · have hlast := List.getLast?_eq_some_getLast hne
      have hstop := hz.stop _ hlast
      have hname := hshape.name _ (hf ▸ List.mem_append_left _ (List.getLast_mem hne))
      rw [not_stop_of_keyChar hu hname] at hstop
      cases hstop
    · have hgap := hz.chars c (hf ▸ List.mem_append_left _ hc)
      rw [not_mark_of_gapChar hgap] at hmark
      cases hmark
  · obtain ⟨x, z, rfl⟩ := List.exists_cons_of_ne_nil hne
    obtain ⟨rfl, hrest⟩ := List.cons.inj hfound
    cases z with
    | nil => exact ⟨x, f, g, rfl, hrest, hoption, by rwa [hshape.eq] at hcons⟩
    | cons y z =>
      exfalso
      obtain ⟨f, rfl⟩ := hoption.eq_cons
      obtain ⟨rfl, -⟩ := List.cons.inj hrest
      have hgap := hz.chars '-' (List.mem_cons_of_mem _ List.mem_cons_self)
      exact absurd hgap (by decide)

/-- A prefix that begins in what is taken behind a word begins at its last character. -/
theorem match_in_overrun (hu : Words u) {w s : Str} (hs : EndsWord s) {i : Nat}
    (hi : i < overrun u w s) {m : Regex.State}
    (hm : (secretPrefix u).matchAt (some ' ') (s.drop i) = some m) :
    overrun u w s = i + 1 ∧ ∃ c f g, s.drop i = c :: (f ++ g ++ m.ahead) ∧
      UserOption u f g ∧
      (secretPrefix u).matchAt (some ' ') (c :: (f ++ g ++ m.ahead)) = some m ∧
      Regex.Consumes (secretPrefix u) (some ' ') (c :: (f ++ g)) m.ahead := by
  have hgap : Gap (s.take (overrun u w s)) := gap_overrun hu hs
  generalize overrun u w s = t at hi hgap ⊢
  have hlt : i < s.length := by
    by_contra hle
    rw [List.drop_eq_nil_of_le (Nat.le_of_not_lt hle), Regex.matchAt_nil] at hm
    cases hm
  have htake : i < (s.take t).length := by
    rw [List.length_take]
    exact lt_min hi hlt
  have hdrop : s.drop i = (s.take t).drop i ++ s.drop t := by
    conv_lhs => rw [← List.take_append_drop t s]
    exact List.drop_append_of_le_length (Nat.le_of_lt htake)
  have hz : Gap ((s.take t).drop i) := Gap.behind (a := (s.take t).take i) (by
    rw [List.take_append_drop]
    exact hgap)
  rw [hdrop] at hm
  have hne : (s.take t).drop i ≠ [] := by
    rw [Ne, List.drop_eq_nil_iff]
    exact Nat.not_le_of_lt htake
  obtain ⟨c, f, g, hc, hr, hoption, hcons⟩ := match_in_gap hu hz hne hm
  obtain ⟨f', hf⟩ := hoption.eq_cons
  have hlong : t < s.length := by
    by_contra hle
    rw [List.drop_eq_nil_of_le (Nat.le_of_not_lt hle), hf] at hr
    cases hr
  have hlength := congrArg List.length hc
  rw [List.length_drop, List.length_take, List.length_singleton] at hlength
  rw [hc, hr] at hm hdrop
  exact ⟨by omega, c, f, g, hdrop, hoption, hm, hcons⟩

/-- No match in an option ends in it. -/
theorem runs_over_option (hu : Words u) {f g front y b : Str} (hoption : UserOption u f g)
    (heq : f ++ g = front ++ y) {a : Char} {m : Regex.State}
    (hm : (secretPrefix u).matchAt (some a) (y ++ b) = some m) : m.ahead.length < b.length := by
  obtain ⟨found, hfound, -, -, hcons⟩ := Regex.ends_of_matchAt hm
  by_contra hle
  obtain ⟨rest, rfl⟩ : ∃ rest, y = found ++ rest := by
    rcases List.append_eq_append_iff.mp hfound with ⟨z, rfl, rfl⟩ | ⟨rest, rfl, -⟩
    · obtain rfl : z = [] := by
        rw [List.length_append] at hle
        exact List.eq_nil_of_length_eq_zero (by omega)
      exact ⟨[], by simp⟩
    · exact ⟨rest, rfl⟩
  obtain ⟨h, f', g', hshape⟩ := shape_secretPrefix hcons
  rcases hshape.front with rfl | ⟨x, rfl, hx, hoption'⟩
  · obtain ⟨c, hc, hmark⟩ := hshape.mark (Option.some_ne_none a) rfl
    have hmem : c ∈ f ++ g := by
      rw [heq, hshape.eq]
      simp [hc]
    rcases List.mem_append.mp hmem with hc | hc
    · rw [hoption.unmarked c hc] at hmark
      cases hmark
    · rw [not_mark_of_gapChar (isGapChar_of_stop (hoption.gap c hc))] at hmark
      cases hmark
  · obtain ⟨f', rfl⟩ := hoption'.eq_cons
    have hdash : '-' ∉ g := fun hmem => absurd (hoption.gap '-' hmem) (by decide)
    rw [hshape.eq] at heq
    rcases List.append_eq_append_iff.mp heq with ⟨b, -, rfl⟩ | ⟨b, rfl, hb⟩
    · exact hdash (by simp)
    · cases b with
      | nil => exact hdash (by rw [← List.nil_append g, ← hb]; simp)
      | cons y b =>
        obtain ⟨rfl, -⟩ := List.cons.inj hb
        have hends := ends_keyChar hu (hoption.name x (by simp))
        simp only [Scan.ends, Scan.start, Bool.not_false, Option.isNone_none, Bool.true_and,
          Bool.or_eq_false_iff, List.contains_eq_mem, decide_eq_false_iff_not, List.mem_cons,
          List.not_mem_nil, or_false, not_or] at hends
        simp [hends] at hx

/-- A prefix is written as it is. -/
theorem exists_mask_found {prev : Option Char} {s : Scan} {text found : Str} {m : Regex.State}
    (htext : text = found ++ m.ahead) (h : (secretPrefix u).matchAt prev text = some m) :
    ∃ x, mask u prev s 0 text = found ++ x := by
  refine ⟨redacted ++ ((scanFrom s found).quote.toList
    ++ mask u m.prev (scanFrom s found) (secretValueEnd m.ahead (scanFrom s found).quote)
      m.ahead), ?_⟩
  rw [mask_found htext h]
  simp only [List.append_assoc]

/-- An option is written as it is; if a match begins in it, so is the beginning of what is behind
it. -/
theorem mask_option (hu : Words u) {y b : Str} (hplain : ∀ c ∈ y, Inert c)
    (hruns : ∀ front y' a m, y = front ++ y' →
      (secretPrefix u).matchAt (some a) (y' ++ b) = some m → y' ≠ [] →
        m.ahead.length < b.length) (a : Char) :
    mask u (some a) .start 0 (y ++ b) = y ++ mask u (some ' ') .start 0 b ∨
      ∃ z x, z ≠ [] ∧ (∀ c ∈ z, c ≠ '<') ∧
        mask u (some a) .start 0 (y ++ b) = y ++ (z ++ x) := by
  induction y generalizing a with
  | nil => exact .inl (mask_prev a ' ' _ _ _)
  | cons c y ih =>
    cases hm : (secretPrefix u).matchAt (some a) (c :: y ++ b) with
    | none =>
      rw [List.cons_append] at hm ⊢
      rw [mask_cons hm, next_start (hplain c List.mem_cons_self)]
      have htail := ih (fun x hx => hplain x (List.mem_cons_of_mem _ hx))
        (fun front y' a m heq => hruns (c :: front) y' a m (congrArg _ heq)) c
      rcases htail with h | ⟨z, x, hne, hz, h⟩
      · exact .inl (congrArg _ h)
      · exact .inr ⟨z, x, hne, hz, congrArg _ h⟩
    | some m =>
      obtain ⟨found, hfound, -, -, hcons⟩ := Regex.ends_of_matchAt hm
      have hlt := hruns [] _ a m rfl hm (List.cons_ne_nil _ _)
      have hless := ne_less_of_prefix hu hcons
      obtain ⟨x, hx⟩ := exists_mask_found (s := .start) hfound hm
      right
      rcases List.append_eq_append_iff.mp hfound with ⟨z, rfl, rfl⟩ | ⟨w, -, hahead⟩
      · refine ⟨z, x, ?_, fun x hx => hless x (List.mem_append_right _ hx), ?_⟩
        · rintro rfl
          exact Nat.lt_irrefl _ hlt
        · rw [hx, List.append_assoc]
      · rw [hahead, List.length_append] at hlt
        omega

theorem mask_head {prev : Option Char} {s : Scan} {c : Char} {text : Str} :
    ∃ out, mask u prev s 0 (c :: text) = c :: out := by
  cases hm : (secretPrefix u).matchAt prev (c :: text) with
  | none => exact ⟨_, mask_cons hm⟩
  | some m =>
    obtain ⟨found, hfound, hne, -, -⟩ := Regex.ends_of_matchAt hm
    obtain ⟨out, hout⟩ := exists_mask_found (s := s) hfound hm
    obtain ⟨x, found, rfl⟩ := List.exists_cons_of_ne_nil hne
    obtain ⟨rfl, -⟩ := List.cons.inj hfound
    exact ⟨found ++ out, hout⟩

/-- The option of a user is lost if its match does not begin with the character in front of it. -/
theorem mask_hidden (hu : Words u) {c : Char} {f g : Str} {m : Regex.State}
    (hoption : UserOption u f g)
    (hm : (secretPrefix u).matchAt (some ' ') (c :: (f ++ g ++ m.ahead)) = some m)
    (hcons : Regex.Consumes (secretPrefix u) (some ' ') (c :: (f ++ g)) m.ahead) :
    c :: mask u (some ' ') .start 0 (f ++ g ++ m.ahead)
      ≠ mask u (some ' ') .start 0 (c :: (f ++ g ++ m.ahead)) := by
  have hplain := inert_of_prefix hu hcons
  have hfound : c :: (f ++ g ++ m.ahead) = c :: (f ++ g) ++ m.ahead := rfl
  obtain ⟨b, hb⟩ : ∃ b, m.prev = some b := by
    obtain ⟨found, -, hne, hprev, -⟩ := Regex.ends_of_matchAt hm
    rw [hprev]
    exact exists_after hne
  rw [mask_found hfound hm, scanFrom_start hplain, hb]
  intro heq
  have hrest : mask u (some ' ') .start 0 (f ++ g ++ m.ahead)
      = f ++ g ++ (redacted
        ++ mask u (some b) .start (secretValueEnd m.ahead Scan.start.quote) m.ahead) := by
    rw [← List.append_assoc]
    exact (List.cons.inj heq).2.trans (by simp [Scan.start])
  have hwritten := mask_option hu (b := m.ahead)
    (fun x hx => hplain x (List.mem_cons_of_mem _ hx))
    (fun front y a m' hsplit hm' _ => runs_over_option hu hoption hsplit hm') ' '
  rcases hwritten with h | ⟨z, x, hne, hz, h⟩
  · -- what is behind the option begins with `<`, and is its own value
    have htail := List.append_cancel_left (h.symm.trans hrest)
    cases hahead : m.ahead with
    | nil =>
      rw [hahead, mask_nil] at htail
      cases htail
    | cons d rest =>
      rw [hahead] at htail
      obtain ⟨out, hout⟩ : ∃ out, mask u (some ' ') .start 0 (d :: rest) = d :: out := mask_head
      obtain rfl : d = '<' := (List.cons.inj (hout.symm.trans htail)).1
      have hend : secretValueEnd ('<' :: rest) Scan.start.quote = 0 := rfl
      rw [hend, mask_prev b ' '] at htail
      have hlength := congrArg List.length htail
      have hpos : 0 < redacted.length := by decide
      rw [List.length_append] at hlength
      omega
  · -- the option is followed by a prefix
    have htail := List.append_cancel_left (h.symm.trans hrest)
    obtain ⟨d, z, rfl⟩ := List.exists_cons_of_ne_nil hne
    exact hz d List.mem_cons_self (List.cons.inj htail).1

/-- What is taken behind two words whose prefixes hide an option is the same. -/
theorem overrun_le_of_hides (hu : Words u) {w₁ w₂ s : Str} (hs : EndsWord s)
    (h : hidesPrefix u w₁ s = true) : overrun u w₂ s ≤ overrun u w₁ s := by
  obtain ⟨i, hi, hsome⟩ := List.any_eq_true.mp h
  obtain ⟨m, hm⟩ := Option.isSome_iff_exists.mp hsome
  obtain ⟨hover, c, f, g, hsplit, hoption, -, -⟩ :=
    match_in_overrun hu hs (List.mem_range.mp hi) hm
  obtain ⟨f, rfl⟩ := hoption.eq_cons
  by_contra hlt
  have hdash : '-' ∈ s.take (overrun u w₂ s) := by
    have hpre : s.take i ++ [c, '-'] <+: s.take (overrun u w₂ s) := by
      rw [List.prefix_take_iff]
      constructor
      · refine ⟨f ++ g ++ m.ahead, ?_⟩
        conv_rhs => rw [← List.take_append_drop i s, hsplit]
        simp
      · rw [List.length_append, List.length_take, List.length_cons, List.length_singleton]
        omega
    exact hpre.subset (List.mem_append_right _ (by simp))
  exact absurd ((gap_overrun hu hs).chars '-' hdash) (by decide)

/-- The text behind a word, if no prefix is hidden. -/
theorem mask_overrun (hu : Words u) {w s : Str} (hs : EndsWord s)
    (h : hidesPrefix u w s = false) :
    s.take (overrun u w s) ++ mask u (some ' ') .start 0 (s.drop (overrun u w s))
      = mask u (some ' ') .start 0 s := by
  refine (mask_skip (fun c hc => inert_of_gapChar ((gap_overrun hu hs).chars c hc)) ?_).symm
  intro i hi
  have hnone := List.any_eq_false.mp h i (List.mem_range.mpr hi)
  rwa [Bool.not_eq_true, Option.isSome_eq_false_iff, Option.isNone_iff_eq_none] at hnone

/-- If one is hidden, its value is not masked. -/
theorem mask_overrun_ne (hu : Words u) {w s : Str} (hs : EndsWord s)
    (h : hidesPrefix u w s = true) :
    s.take (overrun u w s) ++ mask u (some ' ') .start 0 (s.drop (overrun u w s))
      ≠ mask u (some ' ') .start 0 s := by
  obtain ⟨i, hi, hsome⟩ := List.any_eq_true.mp h
  obtain ⟨m, hm⟩ := Option.isSome_iff_exists.mp hsome
  have hlt := List.mem_range.mp hi
  obtain ⟨hover, c, f, g, hdrop, hoption, hm', hcons⟩ := match_in_overrun hu hs hlt hm
  have hgap : Gap (s.take (overrun u w s)) := gap_overrun hu hs
  have hfront := mask_skip (u := u) (n := i) (s := s)
    (fun x hx => inert_of_gapChar
      (hgap.chars x (List.take_subset_take_left s (Nat.le_of_lt hlt) hx)))
    (fun j hj => by
      cases hj' : (secretPrefix u).matchAt (some ' ') (s.drop j) with
      | none => rfl
      | some m' =>
        have hover' := (match_in_overrun hu hs (Nat.lt_trans hj hlt) hj').1
        omega)
  have htake : s.take (i + 1) = s.take i ++ [c] := by
    rw [List.take_add, hdrop]
    rfl
  have hrest : s.drop (i + 1) = f ++ g ++ m.ahead := by
    rw [← List.drop_drop, List.drop_one, hdrop, List.tail_cons]
  rw [hfront, hover, hdrop, htake, hrest, List.append_assoc, List.singleton_append, Ne,
    List.append_cancel_left_eq]
  exact mask_hidden hu hoption hm' hcons

end

end MavenMcp.LogAnalysis
