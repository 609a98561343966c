/-
# What the redaction rules match

One lemma for each rule says how a match is put together: its key or header, the separator and the
value, where the recorded group lies, and how far the match goes.  The rest of the development
knows the expressions only through these lemmas, and through `marks_*`: a replacement keeps the
first character of its match and leaves a mark.
-/
import MavenMcp.Redaction.Rules

namespace MavenMcp
namespace Redaction

open Regex

/-! ## 1. Small parts -/

theorem consumes_exact {text : Str} {prev : Option Char} {w rest : Str} :
    Consumes (exact text) prev w rest ↔ w = text := by
  rw [exact, consumes_literal]
  constructor
  · intro h
    induction h with
    | nil => rfl
    | cons hab _ ih => rw [ih, eq_of_beq hab]
  · rintro rfl
    induction w with
    | nil => exact .nil
    | cons c w ih => exact .cons (beq_self_eq_true c) ih

theorem consumes_oneOf {cs : Str} {prev : Option Char} {w rest : Str} :
    Consumes (oneOf cs) prev w rest ↔ ∃ c ∈ cs, w = [c] := by
  rw [oneOf, consumes_char]
  constructor
  · rintro ⟨c, rfl, hc⟩
    exact ⟨c, by simpa using hc, rfl⟩
  · rintro ⟨c, hc, rfl⟩
    exact ⟨c, rfl, by simpa using hc⟩

/-- Blanks, and an optional quotation mark. -/
def Blank (w : Str) : Prop := ∀ c ∈ w, c = ' ' ∨ c = '\t'

def Quotation (w : Str) : Prop := w = [] ∨ w = ['"'] ∨ w = ['\'']

theorem blank_nil : Blank [] := fun _ h => absurd h List.not_mem_nil

theorem consumes_blanks {prev : Option Char} {w rest : Str} :
    Consumes blanks prev w rest ↔ Blank w := by
  rw [blanks, oneOf, consumes_star_char]
  simp [Blank]

theorem consumes_quotation {prev : Option Char} {w rest : Str} :
    Consumes quotation prev w rest ↔ Quotation w := by
  rw [quotation, consumes_opt, consumes_oneOf]
  simp only [Quotation, List.mem_cons, List.not_mem_nil, or_false, exists_eq_or_imp,
    exists_eq_left]
  tauto

/-- No part of a key and a separator. -/
def Joins (c : Char) : Prop := c = '"' ∨ c = '\'' ∨ c = ' ' ∨ c = '\t' ∨ c = '=' ∨ c = ':'

/-- What comes between a key and its separator starts with one of them. -/
theorem joins_head {q b : Str} {s : Char} (hq : Quotation q) (hb : Blank b)
    (hs : s = ':' ∨ s = '=') (rest : Str) :
    ∃ x t, q ++ (b ++ s :: rest) = x :: t ∧ Joins x ∧
      (x = '=' → q = [] ∧ b = [] ∧ s = '=' ∧ t = rest) := by
  rcases hq with rfl | rfl | rfl
  · cases b with
    | nil =>
      refine ⟨s, rest, rfl, ?_, fun h => ⟨rfl, rfl, h, rfl⟩⟩
      rcases hs with rfl | rfl <;> simp [Joins]
    | cons x b =>
      refine ⟨x, b ++ s :: rest, rfl, ?_, fun h => ?_⟩
      · rcases hb x List.mem_cons_self with rfl | rfl <;> simp [Joins]
      · rcases hb x List.mem_cons_self with rfl | rfl <;> cases h
  · exact ⟨'"', _, rfl, by simp [Joins], fun h => by cases h⟩
  · exact ⟨'\'', _, rfl, by simp [Joins], fun h => by cases h⟩

/-! ## 2. Headers -/

/-- `(?:proxy-)?authorization` -/
def HeaderName (w : Str) : Prop :=
  ∃ p a, w = p ++ a ∧
    (p = [] ∨ List.Forall₂ (fun c x => sameLetter c x = true) "proxy-".toList p) ∧
    List.Forall₂ (fun c x => sameLetter c x = true) "authorization".toList a

/-- The parts of the first group of `AUTHORIZATION`. -/
structure Header (h name q b : Str) (s : Char) (b' q' : Str) : Prop where
  eq : h = name ++ (q ++ (b ++ s :: (b' ++ q')))
  name : HeaderName name
  quotation : Quotation q
  blank : Blank b
  separator : s = ':' ∨ s = '='
  blank' : Blank b'
  quotation' : Quotation q'

theorem consumes_header {prev : Option Char} {h rest : Str} :
    Consumes authorizationHeader prev h rest ↔ ∃ name q b s b' q', Header h name q b s b' q' := by
  simp only [authorizationHeader, consumes_seqs_cons, consumes_seqs_nil, consumes_opt, caseless,
    consumes_literal, consumes_quotation, consumes_blanks, consumes_oneOf]
  constructor
  · rintro ⟨p, _, rfl, hp, a, _, rfl, ha, q, _, rfl, hq, b, _, rfl, hb, _, _, rfl, ⟨s, hs, rfl⟩,
      b', _, rfl, hb', q', _, rfl, hq', rfl⟩
    refine ⟨p ++ a, q, b, s, b', q', ?_, ⟨p, a, rfl, hp.symm, ha⟩, hq, hb, ?_, hb', hq'⟩
    · simp
    · simpa using hs
  · rintro ⟨_, q, b, s, b', q', rfl, ⟨p, a, rfl, hp, ha⟩, hq, hb, hs, hb', hq'⟩
    exact ⟨p, _, List.append_assoc p a _, hp.symm, a, _, rfl, ha, q, _, rfl, hq, b, _, rfl, hb,
      [s], _, rfl, ⟨s, by simpa using hs, rfl⟩, b', _, rfl, hb', q', [], by simp, hq', rfl⟩

theorem head_of_matchAt {r : Regex} {prev : Option Char} {text : Str} {m : Regex.State}
    (h : r.matchAt prev text = some m) :
    (r.run { prev, ahead := text, groups := [] }).head? = some m :=
  (Option.filter_eq_some_iff.mp h).1

/-- **A match of `AUTHORIZATION`**: a header, and everything from the first character of its value
to the end of the line. -/
theorem authorization_match {u : Unicode} {prev : Option Char} {text : Str} {m : Regex.State}
    (h : (authorization u).matchAt prev text = some m) :
    ∃ header c v, text = header ++ c :: (v ++ m.ahead) ∧ m.group 1 = some (text, header) ∧
      isBoundary u.word prev text = true ∧ Consumes authorizationHeader none header [] ∧
      Text.isWhitespace c = false ∧ c ≠ '<' ∧ (∀ x ∈ v, x ≠ '\r' ∧ x ≠ '\n') ∧
      ∀ x ∈ m.ahead.head?, x = '\r' ∨ x = '\n' := by
  have hhead := head_of_matchAt h
  have hline : ∀ x ∈ m.ahead.head?, (!(['\r', '\n'].contains x)) = false :=
    head_seqs_star [.boundary u.word, .group 1 authorizationHeader,
      .char fun c => !Text.isWhitespace c && c != '<'] hhead
  obtain ⟨s, hs, hhead⟩ := head_seqs hhead
  obtain ⟨w, htext, hprev, hw⟩ := mem_run hs
  obtain ⟨rfl, hboundary⟩ := consumes_boundary.mp hw
  simp only [List.nil_append, after_nil] at htext hprev
  obtain ⟨header, v, hs', hgroup, hheader, hv⟩ :=
    group_of_mem_seqs (by simp [GroupFree, seqs, noneOf]) (List.mem_of_head? hhead)
  rw [← htext] at hs' hgroup hboundary
  simp only [consumes_seqs_cons, consumes_seqs_nil, consumes_char, noneOf,
    consumes_star_char] at hv
  obtain ⟨_, _, rfl, ⟨c, rfl, hc⟩, v, _, rfl, hv, rfl⟩ := hv
  simp only [Bool.and_eq_true, Bool.not_eq_true', bne_iff_ne] at hc
  refine ⟨header, c, v, by rw [hs']; simp, hgroup, hboundary, hheader.anywhere rfl _ _, hc.1, hc.2,
    fun x hx => by simpa using hv x hx, fun x hx => ?_⟩
  have := hline x hx
  simp only [Bool.not_eq_false', List.contains_iff_mem, List.mem_cons, List.not_mem_nil,
    or_false] at this
  exact this

/-! ## 3. Keys -/

/-- A character of names within ASCII. -/
def isNamePart (c : Char) : Bool := c.isAlphanum || c == '_' || c == '.' || c == '-'

theorem isAlphanum_of_sameLetter {c x : Char} (hx : x.toNat < 128) (hc : c.isLower = true)
    (h : sameLetter c x = true) : x.isAlphanum = true := by
  have hlow : x.toLower = c := by
    simp only [sameLetter, Bool.or_eq_true, Bool.and_eq_true, beq_iff_eq] at h
    rcases h with (h | ⟨-, rfl⟩) | ⟨-, rfl⟩
    · exact h
    · exact absurd hx (by decide)
    · exact absurd hx (by decide)
  unfold Char.toLower at hlow
  split at hlow
  · rename_i hupper
    have hx : x.isUpper = true := decide_eq_true hupper
    simp [Char.isAlphanum, Text.isAlpha_eq, hx]
  · subst hlow
    simp [Char.isAlphanum, Text.isAlpha_eq, hc]

theorem avoids_caseless {x : Char} (hx : x.toNat < 128) (hpart : isNamePart x = false) {text : Str}
    (htext : ∀ c ∈ text, c.isLower = true) : (caseless text).Avoids x := by
  unfold caseless literal
  induction text with
  | nil => trivial
  | cons c text ih =>
    refine ⟨?_, ih fun y hy => htext y (List.mem_cons_of_mem _ hy)⟩
    rw [Avoids, ← Bool.not_eq_true]
    intro h
    have := isAlphanum_of_sameLetter hx (htext c List.mem_cons_self) h
    simp [isNamePart, this] at hpart

theorem avoids_joint {x : Char} (hpart : isNamePart x = false) : joint.Avoids x := by
  simp only [isNamePart, Bool.or_eq_false_iff, beq_eq_false_iff_ne] at hpart
  simp [joint, opt, oneOf, Avoids, hpart]

/-- A key has nothing but word characters, dots and dashes. -/
theorem avoids_sensitiveKey {u : Unicode} (hu : u.Ascii) {x : Char} (hx : x.toNat < 128)
    (hpart : isNamePart x = false) : (sensitiveKey u).Avoids x := by
  have hkey : (keyChar u).Avoids x := by
    rw [keyChar, Avoids, hu.word x hx]
    simp only [isNamePart, Bool.or_eq_false_iff] at hpart
    simp [hpart]
  have hword : ∀ {text : Str}, (text.all Char.isLower) = true → (caseless text).Avoids x :=
    fun h => avoids_caseless hx hpart (List.all_eq_true.mp h)
  have hjoint := avoids_joint hpart
  refine ⟨hkey, ⟨hword (by decide), hword (by decide), hword (by decide), hword (by decide),
    hword (by decide), ⟨hword (by decide), hword (by decide), trivial⟩, ?_, ?_, ?_⟩, hkey, trivial⟩
  all_goals exact ⟨hword (by decide), hjoint, hword (by decide), trivial⟩

/-- The parts of what comes before a value. -/
structure Key (u : Unicode) (k name q sep : Str) : Prop where
  eq : k = name ++ (q ++ sep)
  name : Consumes (sensitiveKey u) none name []
  quotation : Quotation q
  separator : ∃ b s b', sep = b ++ s :: b' ∧ Blank b ∧ Blank b' ∧
    (s = '=' ∨ s = ':' ∧ b' ≠ [])

/-- The parts of what comes before a quoted value behind a colon. -/
structure ColonKey (u : Unicode) (k name q b : Str) : Prop where
  eq : k = name ++ (q ++ (b ++ [':']))
  name : Consumes (sensitiveKey u) none name []
  quotation : Quotation q
  blank : Blank b

theorem consumes_separator {prev : Option Char} {w rest : Str} :
    Consumes separator prev w rest ↔
      ∃ b s b', w = b ++ s :: b' ∧ Blank b ∧ Blank b' ∧ (s = '=' ∨ s = ':' ∧ b' ≠ []) := by
  simp only [separator, consumes_alt, consumes_seqs_cons, consumes_seqs_nil, consumes_blanks,
    consumes_oneOf]
  rw [oneOf]
  simp only [consumes_plus_char]
  constructor
  · rintro (⟨b, _, rfl, hb, _, _, rfl, ⟨s, hs, rfl⟩, b', _, rfl, hb', rfl⟩ |
      ⟨b, _, rfl, hb, _, _, rfl, ⟨s, hs, rfl⟩, b', _, rfl, ⟨hne, hb'⟩, rfl⟩)
    · exact ⟨b, s, b', by simp, hb, hb', .inl (List.mem_singleton.mp hs)⟩
    · exact ⟨b, s, b', by simp, hb, fun c hc => by simpa using hb' c hc,
        .inr ⟨List.mem_singleton.mp hs, hne⟩⟩
  · rintro ⟨b, s, b', rfl, hb, hb', rfl | ⟨rfl, hne⟩⟩
    · exact .inl ⟨b, _, rfl, hb, ['='], b', rfl, ⟨'=', by simp, rfl⟩, b', [], by simp, hb', rfl⟩
    · exact .inr ⟨b, _, rfl, hb, [':'], b', rfl, ⟨':', by simp, rfl⟩, b', [], by simp,
        ⟨hne, fun c hc => by simpa using hb' c hc⟩, rfl⟩

theorem consumes_key {u : Unicode} {prev : Option Char} {k rest : Str} :
    Consumes (seqs [sensitiveKey u, quotation, separator]) prev k rest ↔
      ∃ name q sep, Key u k name q sep := by
  simp only [consumes_seqs_cons, consumes_seqs_nil, consumes_quotation, consumes_separator]
  constructor
  · rintro ⟨name, _, rfl, hname, q, _, rfl, hq, sep, _, rfl, hsep, rfl⟩
    exact ⟨name, q, sep, by simp, hname.anywhere rfl _ _, hq, hsep⟩
  · rintro ⟨name, q, sep, rfl, hname, hq, hsep⟩
    exact ⟨name, _, rfl, hname.anywhere rfl _ _, q, _, rfl, hq, sep, [], by simp, hsep, rfl⟩

theorem consumes_colonKey {u : Unicode} {prev : Option Char} {k rest : Str} :
    Consumes (seqs [sensitiveKey u, quotation, blanks, oneOf [':']]) prev k rest ↔
      ∃ name q b, ColonKey u k name q b := by
  simp only [consumes_seqs_cons, consumes_seqs_nil, consumes_quotation, consumes_blanks,
    consumes_oneOf, List.mem_singleton, exists_eq_left]
  constructor
  · rintro ⟨name, _, rfl, hname, q, _, rfl, hq, b, _, rfl, hb, _, _, rfl, rfl, rfl⟩
    exact ⟨name, q, b, by simp, hname.anywhere rfl _ _, hq, hb⟩
  · rintro ⟨name, q, b, rfl, hname, hq, hb⟩
    exact ⟨name, _, rfl, hname.anywhere rfl _ _, q, _, rfl, hq, b, _, rfl, hb, [':'], [], rfl, rfl,
      rfl⟩

/-! ## 4. Elements, assignments and addresses -/

theorem xmlElement_match {u : Unicode} {prev : Option Char} {text : Str} {m : Regex.State}
    (h : (xmlElement u).matchAt prev text = some m) :
    ∃ key v, text = '<' :: (key ++ '>' :: (v ++ '<' :: '/' :: m.ahead)) ∧ captured m 1 = key ∧
      Consumes (sensitiveKey u) none key [] ∧ v ≠ [] ∧ '<' ∉ v := by
  obtain ⟨s, hs, hhead⟩ := head_seqs (head_of_matchAt h)
  obtain ⟨w, htext, hprev, hw⟩ := mem_run hs
  obtain rfl := consumes_exact.mp hw
  obtain ⟨key, v, hs', hgroup, hkey, hv⟩ :=
    group_of_mem_seqs (by simp [GroupFree, seqs, noneOf, exact, plus, literal])
      (List.mem_of_head? hhead)
  rw [noneOf] at hv
  simp only [consumes_seqs_cons, consumes_seqs_nil, consumes_exact, consumes_plus_char] at hv
  obtain ⟨_, _, rfl, rfl, v, _, rfl, ⟨hne, hv⟩, _, _, rfl, rfl, rfl⟩ := hv
  simp only at htext
  rw [hs'] at htext
  refine ⟨key, v, by rw [htext]; simp, by simp [captured, hgroup], hkey.anywhere rfl _ _, hne, ?_⟩
  intro hmem
  simpa using hv '<' hmem

/-- **A match of `KEY_VALUE`**: a key with its separator, and a value. -/
theorem keyValue_match {u : Unicode} {prev : Option Char} {text : Str} {m : Regex.State}
    (h : (keyValue u).matchAt prev text = some m) :
    (∃ k v, text = k ++ (v ++ m.ahead) ∧ m.group 1 = some (text, k) ∧
        m.group 2 = some (v ++ m.ahead, v) ∧ (∃ name q sep, Key u k name q sep) ∧
        Consumes (.alt quoted unquoted) (after prev k) v m.ahead) ∨
      ∃ k v, text = k ++ (v ++ m.ahead) ∧ m.group 1 = none ∧ m.group 3 = some (text, k) ∧
        m.group 4 = some (v ++ m.ahead, v) ∧ (∃ name q b, ColonKey u k name q b) ∧
        Consumes quoted (after prev k) v m.ahead := by
  have hkeyFree : (seqs [sensitiveKey u, quotation, separator]).GroupFree := by
    simp [GroupFree, seqs, sensitiveKey, sensitiveWord, alts, caseless, literal, keyChar, joint,
      opt, oneOf, quotation, separator, blanks, plus]
  have hcolonFree : (seqs [sensitiveKey u, quotation, blanks, oneOf [':']]).GroupFree := by
    simp [GroupFree, seqs, sensitiveKey, sensitiveWord, alts, caseless, literal, keyChar, joint,
      opt, oneOf, quotation, blanks]
  have hquotedFree : quoted.GroupFree := by
    simp [GroupFree, quoted, quotedBy, seqs, exact, literal, noneOf, opt]
  have hvalueFree : (Regex.alt quoted unquoted).GroupFree := by
    refine ⟨hquotedFree, ?_⟩
    simp [GroupFree, unquoted, seqs, exact, literal, noneOf, opt, plus, nonSpace]
  rcases head_alt (head_of_matchAt h) with hhead | hhead
  · obtain ⟨k, v, htext, hgroups, hkey, hvalue⟩ :=
      groups_of_mem_seq hkeyFree hvalueFree (List.mem_of_head? hhead)
    simp only at htext
    refine .inl ⟨k, v, htext, ?_, ?_, consumes_key.mp hkey, hvalue⟩
    · simp [Regex.State.group, hgroups, htext, List.lookup_cons]
    · simp [Regex.State.group, hgroups]
  · obtain ⟨k, v, htext, hgroups, hkey, hvalue⟩ :=
      groups_of_mem_seq hcolonFree hquotedFree (List.mem_of_head? hhead)
    simp only at htext
    refine .inr ⟨k, v, htext, ?_, ?_, ?_, consumes_colonKey.mp hkey, hvalue⟩
    · simp [Regex.State.group, hgroups, List.lookup_cons]
    · simp [Regex.State.group, hgroups, htext, List.lookup_cons]
    · simp [Regex.State.group, hgroups]

/-- A character of the scheme of an address. -/
def isSchemeChar (c : Char) : Bool :=
  isLetter c || c.isDigit || c == '+' || c == '.' || c == '-'

/-- A character of the user information. -/
def isUserChar (c : Char) : Bool :=
  !Text.isWhitespace c && !(['/', '?', '#', '\'', '"', '<', '>'].contains c)

/-- `[a-z][a-z0-9+.-]*://` -/
def Scheme (scheme : Str) : Prop :=
  ∃ c w, scheme = c :: (w ++ [':', '/', '/']) ∧ isLetter c = true ∧ ∀ x ∈ w, isSchemeChar x = true

theorem consumes_urlScheme {prev : Option Char} {w rest : Str} :
    Consumes urlScheme prev w rest ↔ Scheme w := by
  simp only [urlScheme, consumes_seqs_cons, consumes_seqs_nil, consumes_char, consumes_star_char,
    consumes_exact]
  constructor
  · rintro ⟨_, _, rfl, ⟨c, rfl, hc⟩, w, _, rfl, hw, _, _, rfl, rfl, rfl⟩
    exact ⟨c, w, by simp, hc, hw⟩
  · rintro ⟨c, w, rfl, hc, hw⟩
    exact ⟨[c], _, rfl, ⟨c, rfl, hc⟩, w, _, rfl, hw, [':', '/', '/'], [], by simp, rfl, rfl⟩

theorem urlCredentials_match {u : Unicode} {prev : Option Char} {text : Str} {m : Regex.State}
    (h : (urlCredentials u).matchAt prev text = some m) :
    ∃ scheme v, text = scheme ++ (v ++ '@' :: m.ahead) ∧ m.group 1 = some (text, scheme) ∧
      isBoundary u.word prev text = true ∧ Scheme scheme ∧ v ≠ [] ∧
      ∀ x ∈ v, isUserChar x = true := by
  obtain ⟨s, hs, hhead⟩ := head_seqs (head_of_matchAt h)
  obtain ⟨w, htext, hprev, hw⟩ := mem_run hs
  obtain ⟨rfl, hboundary⟩ := consumes_boundary.mp hw
  simp only [List.nil_append] at htext
  obtain ⟨scheme, v, hs', hgroup, hscheme, hv⟩ :=
    group_of_mem_seqs (by simp [GroupFree, seqs, plus, exact, literal])
      (List.mem_of_head? hhead)
  rw [← htext] at hs' hgroup hboundary
  simp only [consumes_seqs_cons, consumes_seqs_nil, consumes_plus_char, consumes_exact] at hv
  obtain ⟨v, _, rfl, ⟨hne, hv⟩, _, _, rfl, rfl, rfl⟩ := hv
  exact ⟨scheme, v, by rw [hs']; simp, hgroup, hboundary, consumes_urlScheme.mp hscheme, hne, hv⟩

/-! ## 5. Marks -/

theorem captured_of_group {m : Regex.State} {i : Nat} {start k : Str}
    (h : m.group i = some (start, k)) : captured m i = k := by
  rw [captured, h]
  rfl

theorem HeaderName.ne_nil {w : Str} (h : HeaderName w) : w ≠ [] := by
  obtain ⟨p, a, rfl, -, ha⟩ := h
  rintro hnil
  rw [(List.append_eq_nil_iff.mp hnil).2] at ha
  have := ha.length_eq
  simp at this

theorem mark_mem_redacted : '<' ∈ redacted := by decide

theorem mark_mem_credentials : '<' ∈ credentials := by decide

theorem marks_authorization (u : Unicode) :
    Marks '<' (authorization u) fun _ m => (captured m 1 ++ redacted, 1) := by
  intro prev text m hm
  obtain ⟨header, c, v, htext, hgroup, -, hheader, -⟩ := authorization_match hm
  obtain ⟨name, q, b, s, b', q', heq, hname, -⟩ := consumes_header.mp hheader
  have hne : header ≠ [] := by
    rw [heq]
    exact List.append_ne_nil_of_left_ne_nil hname.ne_nil _
  simp only [captured_of_group hgroup]
  refine ⟨List.append_ne_nil_of_left_ne_nil hne _, ?_,
    .inl (List.mem_append_right _ mark_mem_redacted)⟩
  rw [List.head?_append_of_ne_nil _ hne, htext, List.head?_append_of_ne_nil _ hne]

theorem marks_xmlElement (u : Unicode) :
    Marks '<' (xmlElement u)
      fun _ m => ('<' :: captured m 1 ++ '>' :: redacted ++ ['<', '/'], 1) := by
  intro prev text m hm
  obtain ⟨key, v, htext, -⟩ := xmlElement_match hm
  exact ⟨by simp, by simp [htext], .inl (by simp)⟩

theorem consumes_sensitiveKey {u : Unicode} {prev : Option Char} {w rest : Str} :
    Consumes (sensitiveKey u) prev w rest ↔
      ∃ a v b, w = a ++ (v ++ b) ∧ Consumes sensitiveWord none v [] ∧
        (∀ c ∈ a, (u.word c || c == '.' || c == '-') = true) ∧
        ∀ c ∈ b, (u.word c || c == '.' || c == '-') = true := by
  simp only [sensitiveKey, keyChar, consumes_seqs_cons, consumes_seqs_nil, consumes_star_char]
  constructor
  · rintro ⟨a, _, rfl, ha, v, _, rfl, hv, b, _, rfl, hb, rfl⟩
    exact ⟨a, v, b, by simp, hv.anywhere rfl _ _, ha, hb⟩
  · rintro ⟨a, v, b, rfl, hv, ha, hb⟩
    exact ⟨a, _, rfl, ha, v, _, rfl, hv.anywhere rfl _ _, b, [], by simp, hb, rfl⟩

theorem sensitiveWord_ne_nil {prev : Option Char} {v rest : Str}
    (h : Consumes sensitiveWord prev v rest) : v ≠ [] :=
  h.ne_nil (by decide)

theorem sensitiveKey_ne_nil {u : Unicode} {prev : Option Char} {w rest : Str}
    (h : Consumes (sensitiveKey u) prev w rest) : w ≠ [] := by
  obtain ⟨a, v, b, rfl, hv, -⟩ := consumes_sensitiveKey.mp h
  have := sensitiveWord_ne_nil hv
  simp [this]

/-- A key with its separator, and the value behind it, as the source sees them. -/
theorem keyValueReplacement_eq {text ahead : Str} {m : Regex.State} {k v : Str}
    (h : (m.group 1 = some (ahead, k) ∧ m.group 2 = some (v ++ m.ahead, v)) ∨
      (m.group 1 = none ∧ m.group 3 = some (ahead, k) ∧ m.group 4 = some (v ++ m.ahead, v))) :
    keyValueReplacement text ahead m =
      redactValue (text.take (text.length - ahead.length)) k v
        (ahead.take (ahead.length - m.ahead.length)) := by
  rcases h with ⟨h₁, h₂⟩ | ⟨h₁, h₃, h₄⟩
  · simp only [keyValueReplacement, h₁, h₂]
  · simp only [keyValueReplacement, h₁, h₃, captured, h₄, Option.getD_some]

theorem marks_keyValue (u : Unicode) (whole : Str) :
    Marks '<' (keyValue u) (keyValueReplacement whole) := by
  intro prev text m hm
  have hshape : ∃ k v, text = k ++ (v ++ m.ahead) ∧ k ≠ [] ∧ keyValueReplacement whole text m =
      redactValue (whole.take (whole.length - text.length)) k v
        (text.take (text.length - m.ahead.length)) := by
    rcases keyValue_match hm with ⟨k, v, htext, h₁, h₂, ⟨name, q, sep, hk⟩, -⟩ |
      ⟨k, v, htext, h₁, h₃, h₄, ⟨name, q, b, hk⟩, -⟩
    · refine ⟨k, v, htext, ?_, keyValueReplacement_eq (.inl ⟨h₁, h₂⟩)⟩
      rw [hk.eq]
      exact List.append_ne_nil_of_left_ne_nil (sensitiveKey_ne_nil hk.name) _
    · refine ⟨k, v, htext, ?_, keyValueReplacement_eq (.inr ⟨h₁, h₃, h₄⟩)⟩
      rw [hk.eq]
      exact List.append_ne_nil_of_left_ne_nil (sensitiveKey_ne_nil hk.name) _
  obtain ⟨k, v, htext, hne, heq⟩ := hshape
  have hwhole : text.take (text.length - m.ahead.length) = k ++ v := by
    rw [htext, ← List.append_assoc, List.length_append, Nat.add_sub_cancel,
      List.take_left']
    rfl
  rw [heq, hwhole]
  unfold redactValue
  simp only
  split
  · refine ⟨List.append_ne_nil_of_left_ne_nil hne _, ?_, .inr (by rw [htext, List.append_assoc])⟩
    rw [htext, List.head?_append_of_ne_nil _ hne, List.head?_append_of_ne_nil _ hne]
  · refine ⟨by simp [hne], ?_, .inl (by simp [mark_mem_redacted])⟩
    rw [htext, List.append_assoc, List.head?_append_of_ne_nil _ hne,
      List.head?_append_of_ne_nil _ hne]

theorem marks_urlCredentials (u : Unicode) :
    Marks '<' (urlCredentials u) fun _ m => (captured m 1 ++ credentials ++ ['@'], 1) := by
  intro prev text m hm
  obtain ⟨scheme, v, htext, hgroup, -, ⟨c, w, rfl, -⟩, -⟩ := urlCredentials_match hm
  simp only [captured_of_group hgroup]
  refine ⟨by simp, ?_, .inl (by simp [mark_mem_credentials])⟩
  rw [htext, List.append_assoc]
  rfl

end Redaction
end MavenMcp
