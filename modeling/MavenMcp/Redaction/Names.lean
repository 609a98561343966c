/-
# Which names are sensitive

`redact_properties` decides by the normalised name whether a value is secret, and the rule for
assignments by its expression.  They do not agree: `api.key` and `my_authorization` are sensitive
names that no expression knows.

`masks_iff` says exactly when the text `name=value` comes out as `name=<redacted>`, for a value
without blanks, quotation marks and brackets: the name has one of the words of the expression, or
names an authorization header, or the value is itself a known token; and no known token stands in
the name.
-/
import MavenMcp.Redaction.Shapes

namespace MavenMcp
namespace Redaction

open Regex

/-! ## 1. The two conditions -/

/-- A character of a value that ends with the text. -/
def isPlain (c : Char) : Bool :=
  !Text.isWhitespace c && !(['"', '\'', '(', ')', '[', ']', '{', '}', '<'].contains c)

/-- The name ends in `authorization`, after a dot or a dash or nothing. -/
def NamesHeader (name : Str) : Prop :=
  ∃ front header, name = front ++ header ∧
    header.map Char.toLower = "authorization".toList ∧
    (front.getLast? = none ∨ front.getLast? = some '.' ∨ front.getLast? = some '-')

/-- The whole value is one known token. -/
def IsToken (u : Unicode) (value : Str) : Prop :=
  ∃ m, (knownToken u).matchAt none value = some m ∧ m.ahead = []

/-- The text rule masks what is assigned to the name. -/
def MaskedAssignment (u : Unicode) (name value : Str) : Prop :=
  (knownToken u).isMatch name = false ∧
    ((sensitiveKey u).isMatch name = true ∨ NamesHeader name ∨ IsToken u value)

/-! ## 2. Names and values -/

theorem not_joins_of_part {c : Char} (h : isNamePart c = true) : ¬ Joins c := by
  rintro (rfl | rfl | rfl | rfl | rfl | rfl) <;> exact absurd h (by decide)

theorem part_ne {c x : Char} (h : isNamePart c = true) (hx : isNamePart x = false) : c ≠ x := by
  rintro rfl
  rw [hx] at h
  cases h

/-- The value of an assignment: not empty, and no blank, quotation mark or bracket in it. -/
structure Value (v : Str) : Prop where
  ne_nil : v ≠ []
  space : ∀ c ∈ v, Text.isWhitespace c = false
  quote : ∀ c ∈ v.head?, c ≠ '"' ∧ c ≠ '\''

/-- Blanks and a quotation mark in front of a value are none. -/
theorem value_front {b q v t : Str} (hv : Value v) (hb : Blank b) (hq : Quotation q) {c : Char}
    (h : b ++ (q ++ c :: t) = v) : b = [] ∧ q = [] := by
  have hfirst : ∀ {x : Char} {w : Str}, v = x :: w → x ≠ ' ' ∧ x ≠ '\t' ∧ x ≠ '"' ∧ x ≠ '\'' := by
    rintro x w rfl
    obtain ⟨hdouble, hsingle⟩ := hv.quote x rfl
    have hspace := hv.space x List.mem_cons_self
    refine ⟨?_, ?_, hdouble, hsingle⟩
    · rintro rfl
      exact absurd hspace (by decide)
    · rintro rfl
      exact absurd hspace (by decide)
  cases b with
  | cons x b =>
    have := hfirst h.symm
    rcases hb x List.mem_cons_self with rfl | rfl
    · exact absurd rfl this.1
    · exact absurd rfl this.2.1
  | nil =>
    refine ⟨rfl, ?_⟩
    rcases hq with rfl | rfl | rfl
    · rfl
    · exact absurd rfl (hfirst h.symm).2.2.1
    · exact absurd rfl (hfirst h.symm).2.2.2

/-- A position of `name=` is its end or lies in the name. -/
theorem assign_cases {name a b : Str} {c : Char} (h : name ++ ['='] = a ++ c :: b) :
    (a = name ∧ c = '=' ∧ b = []) ∨ ∃ n, b = n ++ ['='] ∧ name = a ++ c :: n := by
  rcases List.eq_nil_or_concat b with rfl | ⟨n, x, rfl⟩
  · obtain ⟨rfl, hc⟩ := List.append_inj' h rfl
    cases hc
    exact .inl ⟨rfl, rfl, rfl⟩
  · rw [List.concat_eq_append, ← List.cons_append, ← List.append_assoc] at h
    obtain ⟨rfl, hx⟩ := List.append_inj' h rfl
    cases hx
    exact .inr ⟨n, by rw [List.concat_eq_append], rfl⟩

/-! ## 3. Headers in a name -/

theorem part_of_toLower {x : Char} (h : isNamePart x.toLower = true) : isNamePart x = true := by
  unfold Char.toLower at h
  split at h
  · rename_i hupper
    have hx : x.isUpper = true := decide_eq_true hupper
    simp [isNamePart, Char.isAlphanum, Text.isAlpha_eq, hx]
  · exact h

theorem toLower_of_sameLetter {c x : Char} (hs : c ≠ 's') (hk : c ≠ 'k')
    (h : sameLetter c x = true) : x.toLower = c := by
  simpa [sameLetter, hs, hk] using h

theorem eq_dash_of_toLower {x : Char} (h : x.toLower = '-') : x = '-' := by
  unfold Char.toLower at h
  split at h
  · rename_i hupper
    have hval := congrArg (fun c : Char => c.val.toNat) h
    have hge := UInt32.le_iff_toNat_le.mp hupper.1
    have hle := UInt32.le_iff_toNat_le.mp hupper.2
    simp at hval hge hle
    omega
  · exact h

/-- The letters of a word without s and k stand for themselves. -/
theorem toLower_of_forall₂ {text w : Str} (htext : ∀ c ∈ text, c ≠ 's' ∧ c ≠ 'k')
    (h : List.Forall₂ (fun c x => sameLetter c x = true) text w) :
    w.map Char.toLower = text := by
  induction h with
  | nil => rfl
  | @cons c x text w hcx _ ih =>
    obtain ⟨hs, hk⟩ := htext c List.mem_cons_self
    rw [List.map_cons, toLower_of_sameLetter hs hk hcx,
      ih fun y hy => htext y (List.mem_cons_of_mem _ hy)]

theorem forall₂_of_toLower {text w : Str} (h : w.map Char.toLower = text) :
    List.Forall₂ (fun c x => sameLetter c x = true) text w := by
  induction w generalizing text with
  | nil =>
    subst h
    exact .nil
  | cons x w ih =>
    subst h
    exact .cons (by simp [sameLetter]) (ih rfl)

theorem parts_of_toLower {text w : Str} (h : w.map Char.toLower = text)
    (htext : ∀ c ∈ text, isNamePart c = true) : ∀ x ∈ w, isNamePart x = true := by
  intro x hx
  refine part_of_toLower (htext _ ?_)
  rw [← h]
  exact List.mem_map_of_mem hx

theorem headerName_cases {w : Str} (h : HeaderName w) :
    ∃ p a, w = p ++ a ∧ (p = [] ∨ p.map Char.toLower = "proxy-".toList) ∧
      a.map Char.toLower = "authorization".toList := by
  obtain ⟨p, a, rfl, hp, ha⟩ := h
  exact ⟨p, a, rfl, hp.imp_right (toLower_of_forall₂ (by decide)),
    toLower_of_forall₂ (by decide) ha⟩

theorem headerName_part {w : Str} (h : HeaderName w) : ∀ x ∈ w, isNamePart x = true := by
  obtain ⟨p, a, rfl, hp, ha⟩ := headerName_cases h
  intro x hx
  rcases List.mem_append.mp hx with hx | hx
  · rcases hp with rfl | hp
    · cases hx
    · exact parts_of_toLower hp (by decide) x hx
  · exact parts_of_toLower ha (by decide) x hx

/-- A header that starts in the name of an assignment is all the rest of the name. -/
theorem header_of_assign {header n v t : Str} {c : Char} (hv : Value v)
    (hn : ∀ x ∈ n, isNamePart x = true) (h : Consumes authorizationHeader none header [])
    (htext : header ++ c :: t = n ++ '=' :: v) :
    HeaderName n ∧ header = n ++ ['='] ∧ c :: t = v := by
  obtain ⟨name, q, b, s, b', q', hh⟩ := consumes_header.mp h
  have hrest : name ++ (q ++ (b ++ s :: (b' ++ (q' ++ c :: t)))) = n ++ '=' :: v := by
    rw [← htext, hh.eq]
    simp
  obtain ⟨x, t', hx, hjoins, heq⟩ :=
    joins_head hh.quotation hh.blank hh.separator (b' ++ (q' ++ c :: t))
  rw [hx] at hrest
  obtain ⟨rfl, rfl, rfl⟩ := Text.cut_unique (P := fun c => isNamePart c = true) hrest
    (headerName_part hh.name) hn (fun hpart => not_joins_of_part hpart hjoins) (by decide)
  obtain ⟨rfl, rfl, rfl, hvalue⟩ := heq rfl
  obtain ⟨rfl, rfl⟩ := value_front hv hh.blank' hh.quotation' hvalue.symm
  exact ⟨hh.name, hh.eq, by simpa using hvalue.symm⟩

theorem word_of_part {u : Unicode} (hu : u.Ascii) {c : Char} (hc : isNamePart c = true)
    (hdot : c ≠ '.') (hdash : c ≠ '-') : u.word c = true := by
  have hascii : c.toNat < 128 := by
    simp only [isNamePart, Bool.or_eq_true, beq_iff_eq] at hc
    rcases hc with ((hc | rfl) | rfl) | rfl
    · simp only [Char.isAlphanum, Text.isAlpha_eq, Text.isUpper_eq, Text.isLower_eq, Char.isDigit,
        Bool.or_eq_true, Bool.and_eq_true, decide_eq_true_eq, ge_iff_le] at hc
      rcases hc with (⟨-, hc⟩ | ⟨-, hc⟩) | ⟨-, hc⟩
      all_goals
        have := UInt32.le_iff_toNat_le.mp hc
        exact Nat.lt_of_le_of_lt this (by decide)
    · decide
    · exact absurd rfl hdot
    · exact absurd rfl hdash
  rw [hu.word c hascii]
  simpa [isNamePart, hdot, hdash] using hc

/-- A boundary in front of a header in a name. -/
theorem namesHeader_of_match {u : Unicode} (hu : u.Ascii) {a n : Str} {t : Str}
    (ha : ∀ x ∈ a, isNamePart x = true) (hn : HeaderName n)
    (hb : isBoundary u.word (after none a) (n ++ t) = true) : NamesHeader (a ++ n) := by
  obtain ⟨p, w, rfl, hp, hw⟩ := headerName_cases hn
  rcases hp with rfl | hp
  · refine ⟨a, w, by simp, hw, ?_⟩
    cases hlast : a.getLast? with
    | none => exact .inl rfl
    | some x =>
      have hpart := ha x (List.mem_of_getLast? hlast)
      by_contra hother
      simp only [reduceCtorEq, Option.some.injEq, false_or, not_or] at hother
      have hx : u.word x = true := word_of_part hu hpart hother.1 hother.2
      cases w with
      | nil => cases hw
      | cons y w =>
        have hy : y.toLower = 'a' := by
          rw [List.map_cons] at hw
          exact (List.cons.inj hw).1
        have hword : u.word y = true := by
          refine word_of_part hu (part_of_toLower (by rw [hy]; decide)) ?_ ?_
          · rintro rfl
            exact absurd hy (by decide)
          · rintro rfl
            exact absurd hy (by decide)
        simp [isBoundary, after, hlast, hx, hword] at hb
  · refine ⟨a ++ p, w, by simp, hw, .inr (.inr ?_)⟩
    rcases List.eq_nil_or_concat p with rfl | ⟨p, x, rfl⟩
    · cases hp
    · rw [List.concat_eq_append] at hp ⊢
      have hproxy : "proxy-".toList = "proxy".toList ++ ['-'] := by decide
      rw [List.map_append, hproxy] at hp
      obtain ⟨-, hx⟩ := List.append_inj' hp rfl
      have hdash : x = '-' := eq_dash_of_toLower (List.cons.inj hx).1
      simp [hdash]

/-- Where `AUTHORIZATION` matches in `name=`, it takes the rest of the name and the whole value. -/
theorem authorization_in_assign {u : Unicode} (hu : u.Ascii) {name v a b : Str} {c : Char}
    {m : Regex.State} (hname : ∀ x ∈ name, isNamePart x = true) (hv : Value v)
    (htext : name ++ ['='] = a ++ c :: b)
    (hm : (authorization u).matchAt (after none a) (c :: b ++ v) = some m) :
    NamesHeader name ∧ captured m 1 = c :: b ∧ m.ahead = [] := by
  obtain ⟨header, x, t, heq, hgroup, hboundary, hheader, -, -, -, hend⟩ := authorization_match hm
  have hpos : ∃ n, c :: b = n ++ ['='] ∧ name = a ++ n := by
    rcases assign_cases htext with ⟨rfl, rfl, rfl⟩ | ⟨n, rfl, rfl⟩
    · exact ⟨[], rfl, by simp⟩
    · exact ⟨c :: n, rfl, rfl⟩
  obtain ⟨n, hcb, rfl⟩ := hpos
  have hn : ∀ x ∈ n, isNamePart x = true := fun x hx => hname x (List.mem_append_right _ hx)
  rw [hcb, List.append_assoc] at heq hboundary
  obtain ⟨hheaderName, rfl, hrest⟩ := header_of_assign hv hn hheader heq.symm
  refine ⟨?_, by rw [captured_of_group hgroup, hcb], ?_⟩
  · exact namesHeader_of_match hu (fun x hx => hname x (List.mem_append_left _ hx)) hheaderName
      hboundary
  · cases hahead : m.ahead with
    | nil => rfl
    | cons y rest =>
      have hspace : Text.isWhitespace y = false := by
        refine hv.space y ?_
        rw [← hrest, hahead]
        simp
      rw [hahead] at hend
      rcases hend y rfl with rfl | rfl
      · exact absurd hspace (by decide)
      · exact absurd hspace (by decide)

/-- A header in the name is found. -/
theorem authorization_found {u : Unicode} (hu : u.Ascii) {front header v : Str}
    (hheader : header.map Char.toLower = "authorization".toList)
    (hfront : front.getLast? = none ∨ front.getLast? = some '.' ∨ front.getLast? = some '-')
    (hv : Value v) (hlt : '<' ∉ v) :
    ∃ m, (authorization u).matchAt (after none front) (header ++ ['='] ++ v) = some m := by
  have hparts : ∀ x ∈ header, isNamePart x = true := parts_of_toLower hheader (by decide)
  have hboundary : isBoundary u.word (after none front) (header ++ ['='] ++ v) = true := by
    have hbefore : (after none front).any u.word = false := by
      have hdot : u.word '.' = false := by rw [hu.word '.' (by decide)]; decide
      have hdash : u.word '-' = false := by rw [hu.word '-' (by decide)]; decide
      rcases hfront with h | h | h <;> simp [after, h, hdot, hdash]
    cases header with
    | nil => cases hheader
    | cons x header =>
      have hx : x.toLower = 'a' := by
        rw [List.map_cons] at hheader
        exact (List.cons.inj hheader).1
      have hword : u.word x = true := by
        refine word_of_part hu (hparts x List.mem_cons_self) ?_ ?_
        · rintro rfl
          exact absurd hx (by decide)
        · rintro rfl
          exact absurd hx (by decide)
      simp [isBoundary, hbefore, hword]
  obtain ⟨c, t, rfl⟩ := List.exists_cons_of_ne_nil hv.ne_nil
  have hline : ∀ x ∈ t, (!(['\r', '\n'].contains x)) = true := by
    intro x hx
    have := hv.space x (List.mem_cons_of_mem _ hx)
    have hcr : x ≠ '\r' := by
      rintro rfl
      exact absurd this (by decide)
    have hlf : x ≠ '\n' := by
      rintro rfl
      exact absurd this (by decide)
    simp [hcr, hlf]
  have hcons : Consumes (authorization u) (after none front) (header ++ ['='] ++ c :: t) [] := by
    rw [authorization, noneOf]
    simp only [consumes_seqs_cons, consumes_seqs_nil, consumes_boundary, consumes_group,
      consumes_char, consumes_star_char]
    refine ⟨[], _, rfl, ⟨rfl, by simpa using hboundary⟩, header ++ ['='], c :: t, rfl, ?_, [c], t,
      rfl, ⟨c, rfl, ?_⟩, t, [], by simp, hline, rfl⟩
    · rw [consumes_header]
      exact ⟨header, [], [], '=', [], [],
        { eq := by simp
          name := ⟨[], header, rfl, .inl rfl, forall₂_of_toLower hheader⟩
          quotation := .inl rfl
          blank := blank_nil
          separator := .inr rfl
          blank' := blank_nil
          quotation' := .inl rfl }⟩
    · have hne : c ≠ '<' := by
        rintro rfl
        exact hlt List.mem_cons_self
      simp [hv.space c List.mem_cons_self, hne]
  obtain ⟨m, hm⟩ := matchAt_isSome rfl hcons
  rw [List.append_nil] at hm
  exact ⟨m, hm⟩

/-- **A header in the name**: its value is redacted. -/
theorem redactAuthorization_header {u : Unicode} (hu : u.Ascii) {name v : Str}
    (hname : ∀ x ∈ name, isNamePart x = true) (hv : Value v) (hlt : '<' ∉ v)
    (hheader : NamesHeader name) :
    (redactAuthorization u (name ++ '=' :: v)).1 = name ++ '=' :: redacted := by
  have htext : name ++ '=' :: v = (name ++ ['=']) ++ v := by simp
  rw [redactAuthorization, replaceAll, htext]
  rcases silent_or_match (authorization u) none (name ++ ['=']) v with
    hsilent | ⟨a, c, b, m, hab, hsilent, hm⟩
  · obtain ⟨front, header, rfl, hheader, hfront⟩ := hheader
    obtain ⟨m, hm⟩ := authorization_found hu hheader hfront hv hlt
    obtain ⟨c, t, rfl⟩ : ∃ c t, header = c :: t := by
      cases header with
      | nil => cases hheader
      | cons c t => exact ⟨c, t, rfl⟩
    have hnone := hsilent front c (t ++ ['=']) (by simp)
    rw [← List.cons_append, hm] at hnone
    cases hnone
  · obtain ⟨-, hcaptured, hend⟩ := authorization_in_assign hu hname hv hab hm
    rw [hab, List.append_assoc, replaceAfter_silent hsilent, replaceAfter_match hm]
    simp only
    rw [hcaptured, hend, replaceAfter_nil, List.append_nil, ← List.append_assoc, ← hab]
    simp

/-! ## 4. Words in a name -/

/-- A key that starts in the name of an assignment is all the rest of the name. -/
theorem key_of_assign {u : Unicode} (hu : u.Ascii) {name q b n v R : Str} {s : Char}
    (hn : ∀ x ∈ n, isNamePart x = true) (hname : Consumes (sensitiveKey u) none name [])
    (hq : Quotation q) (hb : Blank b) (hs : s = ':' ∨ s = '=')
    (htext : name ++ (q ++ (b ++ s :: R)) = n ++ '=' :: v) :
    name = n ∧ q = [] ∧ b = [] ∧ s = '=' ∧ R = v := by
  obtain ⟨x, t, hx, hjoins, heq⟩ := joins_head hq hb hs R
  rw [hx] at htext
  have hkey : ∀ c ∈ name, ¬ Joins c := by
    rintro c hc (rfl | rfl | rfl | rfl | rfl | rfl)
    all_goals exact hname.not_mem (avoids_sensitiveKey hu (by decide) (by decide)) hc
  obtain ⟨rfl, rfl, rfl⟩ := Text.cut_unique (P := fun c => ¬ Joins c) htext hkey
    (fun c hc => not_joins_of_part (hn c hc)) (not_not_intro hjoins)
    (not_not_intro (.inr (.inr (.inr (.inr (.inl rfl))))))
  obtain ⟨rfl, rfl, rfl, rfl⟩ := heq rfl
  exact ⟨rfl, rfl, rfl, rfl, rfl⟩

theorem isMatch_sensitiveKey {u : Unicode} {a w b : Str}
    (h : Consumes (sensitiveKey u) none w []) :
    (sensitiveKey u).isMatch (a ++ (w ++ b)) = true := by
  obtain ⟨m, hm⟩ := matchAt_isSome (r := sensitiveKey u) rfl
    (h.anywhere (r := sensitiveKey u) rfl (after none a) b)
  exact isMatch_of_match hm

/-- What comes before the value of a match of `KEY_VALUE`. -/
theorem keyValue_front {u : Unicode} {prev : Option Char} {text : Str} {m : Regex.State}
    (h : (keyValue u).matchAt prev text = some m) :
    ∃ name q b s R, text = name ++ (q ++ (b ++ s :: R)) ∧
      Consumes (sensitiveKey u) none name [] ∧ Quotation q ∧ Blank b ∧ (s = ':' ∨ s = '=') := by
  rcases keyValue_match h with ⟨k, v, htext, -, -, ⟨name, q, sep, hk⟩, -⟩ |
    ⟨k, v, htext, -, -, -, ⟨name, q, b, hk⟩, -⟩
  · obtain ⟨b, s, b', rfl, hb, -, hs⟩ := hk.separator
    exact ⟨name, q, b, s, b' ++ (v ++ m.ahead), by rw [htext, hk.eq]; simp, hk.name, hk.quotation,
      hb, hs.symm.imp_left And.left⟩
  · exact ⟨name, q, b, ':', v ++ m.ahead, by rw [htext, hk.eq]; simp, hk.name, hk.quotation,
      hk.blank, .inl rfl⟩

/-- A name without a word of the expression is no key. -/
theorem keyValue_silent {u : Unicode} (hu : u.Ascii) {name v : Str}
    (hname : ∀ x ∈ name, isNamePart x = true) (hkey : (sensitiveKey u).isMatch name = false) :
    (keyValue u).Silent none (name ++ ['=']) v := by
  intro a c b hab
  cases hm : (keyValue u).matchAt (after none a) (c :: b ++ v) with
  | none => rfl
  | some m =>
    obtain ⟨key, q, b', s, R, htext, hkeyName, hq, hb, hs⟩ := keyValue_front hm
    have hpos : ∃ n, c :: b = n ++ ['='] ∧ name = a ++ n := by
      rcases assign_cases hab with ⟨rfl, rfl, rfl⟩ | ⟨n, rfl, rfl⟩
      · exact ⟨[], rfl, by simp⟩
      · exact ⟨c :: n, rfl, rfl⟩
    obtain ⟨n, hcb, rfl⟩ := hpos
    rw [hcb, List.append_assoc] at htext
    obtain ⟨rfl, -⟩ := key_of_assign hu (fun x hx => hname x (List.mem_append_right _ hx)) hkeyName
      hq hb hs htext.symm
    have := isMatch_sensitiveKey (a := a) (b := []) hkeyName
    rw [List.append_nil, hkey] at this
    cases this

/-- An unquoted value takes all of a text without blanks. -/
theorem value_end {v : Str} (hv : Value v) {s t : Regex.State} (hs : s.ahead = v)
    (h : ((Regex.group 2 (Regex.alt quoted unquoted)).run s).head? = some t) : t.ahead = [] := by
  obtain ⟨t', hhead, ht'⟩ := head_group h
  rw [ht']
  have hnoSpace : ∀ {t : Regex.State} {w : Str}, v = w ++ t.ahead →
      (∀ c ∈ t.ahead.head?, (!Text.isWhitespace c) = false) → t.ahead = [] := by
    intro t w hw hend
    cases hahead : t.ahead with
    | nil => rfl
    | cons c rest =>
      have hspace := hv.space c (by rw [hw, hahead]; simp)
      have := hend c (by rw [hahead]; rfl)
      simp [hspace] at this
  obtain ⟨w, hw, -, hcons⟩ := mem_run (List.mem_of_head? hhead)
  rw [hs] at hw
  rcases head_alt hhead with hhead | hhead
  · obtain ⟨w', hw', -, hquoted⟩ := mem_run (List.mem_of_head? hhead)
    rw [hs] at hw'
    have hfirst : ∃ x t, w' = x :: t ∧ (x = '"' ∨ x = '\'') := by
      simp only [quoted, quotedBy, consumes_alt, consumes_seqs_cons, consumes_exact] at hquoted
      rcases hquoted with ⟨_, t, rfl, rfl, -⟩ | ⟨_, t, rfl, rfl, -⟩
      · exact ⟨'"', t, rfl, .inl rfl⟩
      · exact ⟨'\'', t, rfl, .inr rfl⟩
    obtain ⟨x, t, rfl, hx⟩ := hfirst
    have := hv.quote x (by rw [hw']; rfl)
    rcases hx with rfl | rfl
    · exact absurd rfl this.1
    · exact absurd rfl this.2
  · rcases head_alt hhead with hhead | hhead
    · exact hnoSpace hw (head_seqs_star [exact ['<'], .star (noneOf ['>', '\r', '\n']),
        opt (exact ['>'])] hhead)
    · obtain ⟨u, -, hhead⟩ := head_seq hhead
      obtain ⟨hahead, -⟩ := head_star_char hhead
      refine hnoSpace hw fun c hc => ?_
      have hdrop := List.head?_dropWhile_not (fun c => !Text.isWhitespace c) u.ahead
      rw [← hahead, hc] at hdrop
      exact hdrop

theorem blank_front {b t v : Str} (hv : Value v) (hb : Blank b) (h : b ++ t = v) : b = [] := by
  cases b with
  | nil => rfl
  | cons x b =>
    have hspace := hv.space x (by rw [← h]; simp)
    rcases hb x List.mem_cons_self with rfl | rfl
    · exact absurd hspace (by decide)
    · exact absurd hspace (by decide)

/-- No bracket is open at the start of a text. -/
theorem closingBrackets_nil (value : Str) : closingBrackets [] value = [] := by
  have hkept : ∀ value : Str, keptFrom (openBrackets []) value [] = [] := by
    intro value
    cases value with
    | nil => rfl
    | cons last value => simp [keptFrom, openBrackets, closeOne]
  unfold closingBrackets
  split
  · rfl
  · rfl
  · exact hkept _

theorem part_keyChar {u : Unicode} (hu : u.Ascii) {c : Char} (hc : isNamePart c = true) :
    (u.word c || c == '.' || c == '-') = true := by
  by_cases hdot : c = '.'
  · simp [hdot]
  · by_cases hdash : c = '-'
    · simp [hdash]
    · simp [word_of_part hu hc hdot hdash]

/-- A name with a word of the expression is a key as a whole. -/
theorem key_of_isMatch {u : Unicode} (hu : u.Ascii) {name : Str}
    (hname : ∀ x ∈ name, isNamePart x = true) (hkey : (sensitiveKey u).isMatch name = true) :
    Consumes (sensitiveKey u) none name [] := by
  obtain ⟨a, b, m, rfl, hm⟩ := match_of_isMatch hkey
  obtain ⟨w, rfl, -, -, hw⟩ := ends_of_matchAt hm
  obtain ⟨a', v, b', rfl, hword, -, -⟩ := consumes_sensitiveKey.mp hw
  refine consumes_sensitiveKey.mpr ⟨a ++ a', v, b' ++ m.ahead, by simp, hword, ?_, ?_⟩
  · intro c hc
    exact part_keyChar hu (hname c (by
      rcases List.mem_append.mp hc with hc | hc <;> simp [hc]))
  · intro c hc
    exact part_keyChar hu (hname c (by
      rcases List.mem_append.mp hc with hc | hc <;> simp [hc]))

/-- A match of `KEY_VALUE` at the start of an assignment takes all of it. -/
theorem keyValue_of_assign {u : Unicode} (hu : u.Ascii) {name v : Str} {m : Regex.State}
    (hname : ∀ x ∈ name, isNamePart x = true) (hv : Value v)
    (hm : (keyValue u).matchAt none (name ++ '=' :: v) = some m) :
    m.group 1 = some (name ++ '=' :: v, name ++ ['=']) ∧ m.group 2 = some (v ++ m.ahead, v) ∧
      m.ahead = [] := by
  have hkey : ∀ {k rest : Str}, (∃ name q sep, Key u k name q sep) →
      name ++ '=' :: v = k ++ rest → k = name ++ ['='] ∧ rest = v := by
    rintro k rest ⟨name', q, sep, hk⟩ heq
    obtain ⟨b, s, b', rfl, hb, hb', hs⟩ := hk.separator
    obtain ⟨rfl, rfl, rfl, rfl, hrest⟩ := key_of_assign (R := b' ++ rest) hu hname hk.name
      hk.quotation hb (hs.symm.imp_left And.left) (by rw [heq, hk.eq]; simp)
    obtain rfl := blank_front hv hb' hrest
    exact ⟨hk.eq, hrest⟩
  have hcolon : ∀ {k rest : Str}, (∃ name q b, ColonKey u k name q b) →
      name ++ '=' :: v ≠ k ++ rest := by
    rintro k rest ⟨name', q, b, hk⟩ heq
    obtain ⟨-, -, -, hs, -⟩ := key_of_assign (R := rest) hu hname hk.name hk.quotation hk.blank
      (.inl rfl) (by rw [heq, hk.eq]; simp)
    cases hs
  have hend : m.ahead = [] := by
    rcases head_alt (head_of_matchAt hm) with hhead | hhead
    · obtain ⟨s, hs, hhead⟩ := head_seq hhead
      obtain ⟨k, htext, -, hk⟩ := mem_run hs
      obtain ⟨-, hrest⟩ := hkey (consumes_key.mp (consumes_group.mp hk)) htext
      exact value_end hv hrest hhead
    · obtain ⟨s, hs, -⟩ := head_seq hhead
      obtain ⟨k, htext, -, hk⟩ := mem_run hs
      exact absurd htext (hcolon (consumes_colonKey.mp (consumes_group.mp hk)))
  rcases keyValue_match hm with ⟨k, v', htext, h₁, h₂, hk, -⟩ | ⟨k, v', htext, -, -, -, hk, -⟩
  · obtain ⟨rfl, hrest⟩ := hkey hk htext
    rw [hend, List.append_nil] at hrest
    subst hrest
    exact ⟨h₁, h₂, hend⟩
  · exact absurd htext (hcolon hk)

/-- **A word of the expression in the name**: the value is redacted. -/
theorem redactKeyValues_key {u : Unicode} (hu : u.Ascii) {name v : Str}
    (hname : ∀ x ∈ name, isNamePart x = true) (hv : Value v)
    (hkey : (sensitiveKey u).isMatch name = true) :
    (redactKeyValues u (name ++ '=' :: v)).1 = name ++ '=' :: redacted := by
  have hcons : Consumes (keyValue u) none (name ++ '=' :: v) [] := by
    have hvalue : Consumes unquoted (after none (name ++ ['='])) v [] := by
      refine .right ?_
      rw [nonSpace, consumes_plus_char]
      exact ⟨hv.ne_nil, fun c hc => by simp [hv.space c hc]⟩
    have hfront : Consumes (seqs [sensitiveKey u, quotation, separator]) none (name ++ ['='])
        (v ++ []) :=
      consumes_key.mpr ⟨name, [], ['='], by simp, key_of_isMatch hu hname hkey, .inl rfl,
        [], '=', [], rfl, blank_nil, blank_nil, .inl rfl⟩
    have hmatch : Consumes (keyValue u) none ((name ++ ['=']) ++ v) [] :=
      .left (.seq (.group hfront) (.group (.right hvalue)))
    rwa [List.append_assoc] at hmatch
  obtain ⟨m, hm⟩ := matchAt_isSome (r := keyValue u) rfl hcons
  rw [List.append_nil] at hm
  obtain ⟨h₁, h₂, hend⟩ := keyValue_of_assign hu hname hv hm
  rw [redactKeyValues, replaceAll, replaceAfter_match hm, hend, replaceAfter_nil, List.append_nil,
    keyValueReplacement_eq (.inl ⟨h₁, h₂⟩), Nat.sub_self, List.take_zero, hend, List.length_nil,
    Nat.sub_zero, List.take_length]
  unfold redactValue
  rw [closingBrackets_nil]
  simp only [List.length_nil, Nat.sub_zero, List.take_length, List.append_nil]
  split
  · rename_i h
    rcases h with h | h
    · exact absurd h hv.ne_nil
    · rw [h]
  · simp

/-! ## 5. The rest of the rules -/

/-- Nothing in front of the value is an element. -/
theorem xmlElement_silent {u : Unicode} {text rest : Str} {prev : Option Char} (h : '<' ∉ text) :
    (xmlElement u).Silent prev text rest := by
  intro a c b hab
  cases hm : (xmlElement u).matchAt (after prev a) (c :: b ++ rest) with
  | none => rfl
  | some m =>
    obtain ⟨key, v, htext, -⟩ := xmlElement_match hm
    rw [List.cons_append, List.cons.injEq] at htext
    exact absurd (by rw [hab, htext.1]; simp) h

/-- The characters that no scheme has. -/
theorem scheme_ne {scheme : Str} (h : Scheme scheme) :
    ∃ w, scheme = w ++ [':', '/', '/'] ∧ ∀ x ∈ w, x ≠ ':' ∧ x ≠ '=' := by
  obtain ⟨c, w, rfl, hc, hw⟩ := h
  have hne : ∀ x, isSchemeChar x = true → x ≠ ':' ∧ x ≠ '=' := by
    intro x hx
    constructor
    · rintro rfl
      exact absurd hx (by decide)
    · rintro rfl
      exact absurd hx (by decide)
  refine ⟨c :: w, rfl, fun x hx => ?_⟩
  rcases List.mem_cons.mp hx with rfl | hx
  · exact hne x (by simp [isSchemeChar, hc])
  · exact hne x (hw x hx)

/-- Nothing in front of the value is an address. -/
theorem urlCredentials_silent {u : Unicode} {name v : Str}
    (hname : ∀ x ∈ name, isNamePart x = true) :
    (urlCredentials u).Silent none (name ++ ['=']) v := by
  intro a c b hab
  cases hm : (urlCredentials u).matchAt (after none a) (c :: b ++ v) with
  | none => rfl
  | some m =>
    obtain ⟨scheme, v', htext, -, -, hscheme, -⟩ := urlCredentials_match hm
    obtain ⟨w, rfl, hw⟩ := scheme_ne hscheme
    have hpos : ∃ n, c :: b = n ++ ['='] ∧ name = a ++ n := by
      rcases assign_cases hab with ⟨rfl, rfl, rfl⟩ | ⟨n, rfl, rfl⟩
      · exact ⟨[], rfl, by simp⟩
      · exact ⟨c :: n, rfl, rfl⟩
    obtain ⟨n, hcb, rfl⟩ := hpos
    rw [hcb] at htext
    have hcut : n ++ '=' :: v = w ++ ':' :: (['/', '/'] ++ (v' ++ '@' :: m.ahead)) := by
      simpa using htext
    obtain ⟨-, hx, -⟩ := Text.cut_unique (P := fun x => x ≠ ':' ∧ x ≠ '=') hcut (fun x hx =>
      ⟨part_ne (hname x (List.mem_append_right _ hx)) (by decide),
        part_ne (hname x (List.mem_append_right _ hx)) (by decide)⟩) hw (by simp) (by simp)
    cases hx

/-- A text without separators has no header, no assignment and no address. -/
theorem silent_of_plain (u : Unicode) (prev : Option Char) {text : Str} (hcolon : ':' ∉ text)
    (hequal : '=' ∉ text) :
    (authorization u).Silent prev text [] ∧ (keyValue u).Silent prev text [] ∧
      (urlCredentials u).Silent prev text [] := by
  refine ⟨?_, ?_, ?_⟩
  · intro a c b hab
    cases hm : (authorization u).matchAt (after prev a) (c :: b ++ []) with
    | none => rfl
    | some m =>
      obtain ⟨header, x, t, htext, -, -, hheader, -⟩ := authorization_match hm
      obtain ⟨name, q, b', s, b'', q', hh⟩ := consumes_header.mp hheader
      have hs : s ∈ text := by
        rw [List.append_nil] at htext
        rw [hab, htext, hh.eq]
        simp
      rcases hh.separator with rfl | rfl
      · exact absurd hs hcolon
      · exact absurd hs hequal
  · intro a c b hab
    cases hm : (keyValue u).matchAt (after prev a) (c :: b ++ []) with
    | none => rfl
    | some m =>
      obtain ⟨name, q, b', s, R, htext, -, -, -, hs⟩ := keyValue_front hm
      have hmem : s ∈ text := by
        rw [List.append_nil] at htext
        rw [hab, htext]
        simp
      rcases hs with rfl | rfl
      · exact absurd hmem hcolon
      · exact absurd hmem hequal
  · intro a c b hab
    cases hm : (urlCredentials u).matchAt (after prev a) (c :: b ++ []) with
    | none => rfl
    | some m =>
      obtain ⟨scheme, v, htext, -, -, ⟨x, w, rfl, -⟩, -⟩ := urlCredentials_match hm
      have hmem : ':' ∈ text := by
        rw [List.append_nil] at htext
        rw [hab, htext]
        simp
      exact absurd hmem hcolon

/-- An element needs two brackets that open. -/
theorem xmlElement_silent_of_count (u : Unicode) (prev : Option Char) {text : Str}
    (h : text.count '<' ≤ 1) : (xmlElement u).Silent prev text [] := by
  intro a c b hab
  cases hm : (xmlElement u).matchAt (after prev a) (c :: b ++ []) with
  | none => rfl
  | some m =>
    obtain ⟨key, v, htext, -⟩ := xmlElement_match hm
    rw [List.append_nil] at htext
    rw [hab, htext] at h
    simp only [List.count_append, List.count_cons, beq_self_eq_true, if_true] at h
    omega

/-- The first two characters of a token. -/
theorem knownToken_start {u : Unicode} {prev : Option Char} {w rest : Str}
    (h : Consumes (knownToken u) prev w rest) :
    ∃ x y t, w = x :: y :: t ∧
      (x, y) ∈ [('g', 'h'), ('g', 'i'), ('s', 'k'), ('A', 'K'), ('e', 'y')] := by
  have hpat : "github_pat_".toList = 'g' :: 'i' :: "thub_pat_".toList := rfl
  have hakia : "AKIA".toList = 'A' :: 'K' :: "IA".toList := rfl
  have heyJ : "eyJ".toList = 'e' :: 'y' :: "J".toList := rfl
  simp only [knownToken, consumes_seqs_cons, consumes_seqs_nil, consumes_boundary, alts,
    consumes_alt, consumes_seq, consumes_exact, hpat, hakia, heyJ] at h
  obtain ⟨_, _, rfl, ⟨rfl, -⟩, v, _, rfl, hv, -⟩ := h
  rcases hv with ⟨_, t, rfl, rfl, -⟩ | ⟨_, t, rfl, rfl, -⟩ | ⟨_, t, rfl, rfl, -⟩ |
    ⟨_, t, rfl, rfl, -⟩ | ⟨_, t, rfl, rfl, -⟩
  all_goals exact ⟨_, _, _, rfl, by simp⟩

/-- No token starts in the mark. -/
theorem knownToken_silent_redacted (u : Unicode) (prev : Option Char) :
    (knownToken u).Silent prev redacted [] := by
  intro a c b hab
  cases hm : (knownToken u).matchAt (after prev a) (c :: b ++ []) with
  | none => rfl
  | some m =>
    obtain ⟨w, htext, -, -, hw⟩ := ends_of_matchAt hm
    obtain ⟨x, y, t, rfl, hxy⟩ := knownToken_start hw
    rw [List.append_nil] at htext
    have hx : x ∈ redacted := by
      rw [hab, htext]
      simp
    have hy : y ∈ redacted := by
      rw [hab, htext]
      simp
    simp only [List.mem_cons, Prod.mk.injEq, List.not_mem_nil, or_false] at hxy
    rcases hxy with ⟨rfl, rfl⟩ | ⟨rfl, rfl⟩ | ⟨rfl, rfl⟩ | ⟨rfl, rfl⟩ | ⟨rfl, rfl⟩
    · exact absurd hx (by decide)
    · exact absurd hx (by decide)
    · exact absurd hx (by decide)
    · exact absurd hx (by decide)
    · exact absurd hy (by decide)

/-! ## 6. Tokens -/

theorem token_ne {u : Unicode} (hu : u.Ascii) {c : Char} (hc : c.toNat < 128)
    (hpart : isNamePart c = false) : (knownToken u).Avoids c := by
  have hword : u.word c = false := by
    rw [hu.word c hc]
    simp only [isNamePart, Bool.or_eq_false_iff] at hpart
    simp [hpart]
  have hexact : ∀ {text : Str}, (text.all isNamePart) = true → (exact text).Avoids c := by
    intro text htext
    unfold exact literal
    induction text with
    | nil => trivial
    | cons x text ih =>
      rw [List.all_cons, Bool.and_eq_true] at htext
      refine ⟨beq_eq_false_iff_ne.mpr ?_, ih htext.2⟩
      exact (part_ne htext.1 hpart).symm
  simp only [isNamePart, Bool.or_eq_false_iff, beq_eq_false_iff_ne] at hpart
  obtain ⟨⟨⟨halnum, hunder⟩, hdot⟩, hdash⟩ := hpart
  have hchar : ∀ dash, (tokenChar dash).Avoids c := by
    intro dash
    simp [tokenChar, Avoids, halnum, hunder, hdash]
  have hrepeat : ∀ (n : Nat) (r : Regex), r.Avoids c → (exactly n r).Avoids c := by
    intro n r hr
    unfold exactly
    induction n with
    | zero => trivial
    | succ n ih => exact ⟨hr, ih⟩
  have hupper : (Regex.char fun c => c.isUpper || c.isDigit).Avoids c := by
    simp only [Char.isAlphanum, Text.isAlpha_eq, Bool.or_eq_false_iff] at halnum
    simp [Avoids, halnum]
  have hletter : (oneOf "pousr".toList).Avoids c := by
    rw [oneOf, Avoids, List.contains_eq_mem, decide_eq_false_iff_not]
    intro hmem
    have hall : ∀ x ∈ "pousr".toList, x.isAlphanum = true := by decide
    rw [hall c hmem] at halnum
    cases halnum
  refine ⟨hword, ⟨⟨hexact (by decide), hletter, hexact (by decide), ⟨hchar _, hchar _⟩, trivial⟩,
    ⟨hexact (by decide), hchar _, hchar _⟩, ⟨hexact (by decide), ?_⟩,
    ⟨hexact (by decide), hrepeat 16 _ hupper⟩, hexact (by decide), ⟨hchar _, hchar _⟩,
    hexact (by decide), ⟨hchar _, hchar _⟩, hexact (by decide), ⟨hchar _, hchar _⟩, trivial⟩,
    hword, trivial⟩
  exact ⟨hchar _, hchar _, hchar _, hchar _, hchar _, hchar _, hchar _, hchar _, hchar _, trivial⟩

/-- The rule for tokens, behind a character. -/
def tokensAfter (u : Unicode) (prev : Option Char) (text : Str) : Str :=
  ((knownToken u).replaceAfter (fun _ _ => (redacted, 1)) prev text).1

theorem redactTokens_assign {u : Unicode} (hu : u.Ascii) (name v : Str) :
    (redactTokens u (name ++ '=' :: v)).1
      = tokensAfter u none name ++ '=' :: tokensAfter u (some '=') v := by
  rw [redactTokens, replaceAll, replaceAfter_cut (token_ne hu (by decide) (by decide))]
  rfl

/-- A text keeps its characters exactly when it has no token. -/
theorem tokensAfter_eq {u : Unicode} {name : Str} (hlt : '<' ∉ name) :
    tokensAfter u none name = name ↔ (knownToken u).isMatch name = false := by
  constructor
  · intro h
    rw [← Bool.not_eq_true]
    intro hmatch
    have hmark : '<' ∈ tokensAfter u none name := by
      unfold tokensAfter
      rcases silent_or_match (knownToken u) none name [] with
        hsilent | ⟨a, c, b, m, rfl, hsilent, hm⟩
      · obtain ⟨a, b, m, rfl, hm⟩ := match_of_isMatch hmatch
        cases b with
        | nil =>
          rw [matchAt_nil] at hm
          cases hm
        | cons c b =>
          have hnone := hsilent a c b rfl
          rw [List.append_nil, hm] at hnone
          cases hnone
      · rw [List.append_nil] at hsilent hm
        rw [replaceAfter_silent hsilent, replaceAfter_match hm]
        simp [mark_mem_redacted]
    rw [h] at hmark
    exact hlt hmark
  · intro h
    have := replaceAll_silent (f := fun _ _ => (redacted, 1)) (isMatch_eq_false h)
    exact congrArg Prod.fst this

/-- A token behind a separator is a token by itself. -/
theorem isToken_iff {u : Unicode} (hu : u.Ascii) {v : Str} :
    IsToken u v ↔ ∃ m, (knownToken u).matchAt (some '=') v = some m ∧ m.ahead = [] := by
  have hword : u.word '=' = false := by
    rw [hu.word '=' (by decide)]
    decide
  have hprev : ∀ word ∈ (knownToken u).words, (none : Option Char).any word =
    (some '=').any word := by
    intro word hmem
    have hwords : (knownToken u).words = [u.word, u.word] := rfl
    have hall : word = u.word := by simpa [hwords] using hmem
    simp [hall, hword]
  have halike := matchAt_alike (r := knownToken u) v [] hprev
    (fun x hx => by cases hx)
  rw [List.append_nil] at halike
  rcases halike with ⟨hnone, hnone'⟩ | ⟨m, m', hm, hm', ha⟩
  · simp [IsToken, hnone, hnone']
  · have hahead := ha.ahead
    rw [List.append_nil] at hahead
    simp [IsToken, hm, hm', hahead]

/-- What comes out as the mark alone is a token, unless it was the mark. -/
theorem tokensAfter_eq_redacted {u : Unicode} (hu : u.Ascii) {v : Str} (hne : v ≠ [])
    (hhead : v.head? ≠ some '<') : tokensAfter u (some '=') v = redacted ↔ IsToken u v := by
  rw [isToken_iff hu]
  unfold tokensAfter
  constructor
  · intro h
    obtain ⟨c, t, rfl⟩ := List.exists_cons_of_ne_nil hne
    cases hm : (knownToken u).matchAt (some '=') (c :: t) with
    | none =>
      rw [replaceAfter_skip hm] at h
      have hc : c = '<' := (List.cons.inj h).1
      rw [hc] at hhead
      exact absurd rfl hhead
    | some m =>
      rw [replaceAfter_match hm] at h
      have hrest : ((knownToken u).replaceAfter (fun _ _ => (redacted, 1)) m.prev m.ahead).1 = [] :=
        List.append_cancel_left (h.trans (List.append_nil _).symm)
      refine ⟨m, rfl, ?_⟩
      cases hahead : m.ahead with
      | nil => rfl
      | cons x rest =>
        rw [hahead] at hrest
        cases hm' : (knownToken u).matchAt m.prev (x :: rest) with
        | none =>
          rw [replaceAfter_skip hm'] at hrest
          cases hrest
        | some m' =>
          rw [replaceAfter_match hm'] at hrest
          cases hrest
  · rintro ⟨m, hm, hend⟩
    rw [replaceAfter_match hm, hend, replaceAfter_nil, List.append_nil]

/-! ## 7. What becomes of an assignment -/

/-- A rule that finds nothing in `name=` goes on behind it. -/
theorem replaceAll_assign {r : Regex} {f : Str → Regex.State → Str × Nat} {name v : Str}
    (h : r.Silent none (name ++ ['=']) v) :
    (r.replaceAll f (name ++ '=' :: v)).1 = name ++ '=' :: (r.replaceAfter f (some '=') v).1 := by
  have htext : name ++ '=' :: v = (name ++ ['=']) ++ v := by simp
  rw [replaceAll, htext, replaceAfter_silent h]
  simp

/-- A value keeps its first character, and all of it unless it gets a mark. -/
def Keeps (v v' : Str) : Prop := v'.head? = v.head? ∧ ('<' ∈ v' ∨ v' = v)

theorem Keeps.trans {v v' v'' : Str} (h : Keeps v v') (h' : Keeps v' v'') : Keeps v v'' := by
  refine ⟨h'.1.trans h.1, ?_⟩
  rcases h'.2 with hmark | rfl
  · exact .inl hmark
  · exact h.2

theorem authorization_silent {u : Unicode} (hu : u.Ascii) {name v : Str}
    (hname : ∀ x ∈ name, isNamePart x = true) (hv : Value v) (hheader : ¬ NamesHeader name) :
    (authorization u).Silent none (name ++ ['=']) v := by
  intro a c b hab
  cases hm : (authorization u).matchAt (after none a) (c :: b ++ v) with
  | none => rfl
  | some m => exact absurd (authorization_in_assign hu hname hv hab hm).1 hheader

theorem mark_not_mem_assign {name : Str} (hname : ∀ x ∈ name, isNamePart x = true) :
    '<' ∉ name ++ ['='] := by
  intro h
  rcases List.mem_append.mp h with h | h
  · exact absurd (hname _ h) (by decide)
  · exact absurd (List.mem_singleton.mp h) (by decide)

/-- The first two rules leave a value in place of a value. -/
theorem value_of_elements {u : Unicode} (hu : u.Ascii) {name v : Str}
    (hname : ∀ x ∈ name, isNamePart x = true) (hv : Value v) (hheader : ¬ NamesHeader name) :
    ∃ v', (redactElements u (redactAuthorization u (name ++ '=' :: v)).1).1 = name ++ '=' :: v' ∧
      Keeps v v' ∧ Value v' := by
  have hauth := (marks_authorization u).replaceAfter (some '=') v
  have hauthChars := mem_replaceAfter (r := authorization u)
    (f := fun _ m => (captured m 1 ++ redacted, 1)) (P := fun c => c ∈ redacted) (by
      intro prev text m hm c hc
      obtain ⟨header, x, t, htext, hgroup, -⟩ := authorization_match hm
      simp only [captured_of_group hgroup] at hc
      rcases List.mem_append.mp hc with hc | hc
      · exact .inl (by rw [htext]; simp [hc])
      · exact .inr hc) (some '=') v
  generalize hv₁ : ((authorization u).replaceAfter (fun _ m => (captured m 1 ++ redacted, 1))
    (some '=') v).1 = v₁ at hauth hauthChars
  have helem := (marks_xmlElement u).replaceAfter (some '=') v₁
  have helemChars := mem_replaceAfter (r := xmlElement u)
    (f := fun _ m => ('<' :: captured m 1 ++ '>' :: redacted ++ ['<', '/'], 1))
    (P := fun c => c ∈ redacted ∨ c = '/') (by
      intro prev text m hm c hc
      obtain ⟨key, t, htext, hkey, -⟩ := xmlElement_match hm
      have hmarks : '<' ∈ redacted ∧ '>' ∈ redacted := by decide
      simp only [hkey, List.cons_append, List.mem_cons, List.mem_append, List.not_mem_nil,
        or_false] at hc
      rcases hc with rfl | ((hc | rfl | hc) | rfl | rfl)
      · exact .inr (.inl hmarks.1)
      · exact .inl (by rw [htext]; simp [hc])
      · exact .inr (.inl hmarks.2)
      · exact .inr (.inl hc)
      · exact .inr (.inl hmarks.1)
      · exact .inr (.inr rfl)) (some '=') v₁
  refine ⟨_, ?_, Keeps.trans hauth helem, ?_⟩
  · rw [redactAuthorization, replaceAll_assign (authorization_silent hu hname hv hheader), hv₁,
      redactElements, replaceAll_assign (xmlElement_silent (mark_not_mem_assign hname))]
  · have hhead := helem.1.trans hauth.1
    refine ⟨?_, ?_, ?_⟩
    · intro hnil
      rw [hnil, List.head?_nil] at hhead
      exact hv.ne_nil (List.head?_eq_none_iff.mp hhead.symm)
    · have hmarks : ∀ c ∈ redacted, Text.isWhitespace c = false := by decide
      intro c hc
      rcases helemChars c hc with hc | hc | rfl
      · rcases hauthChars c hc with hc | hc
        · exact hv.space c hc
        · exact hmarks c hc
      · exact hmarks c hc
      · decide
    · rw [hhead]
      exact hv.quote

/-- A value without separators holds no address and no element. -/
theorem redactUrls_plain {u : Unicode} {name v : Str} (hname : ∀ x ∈ name, isNamePart x = true)
    (hcolon : ':' ∉ v) (hequal : '=' ∉ v) :
    (redactUrls u (name ++ '=' :: v)).1 = name ++ '=' :: v := by
  have hsilent := (silent_of_plain u (some '=') hcolon hequal).2.2
  have htail := replaceAfter_silent (f := fun _ m => (captured m 1 ++ credentials ++ ['@'], 1))
    hsilent
  rw [List.append_nil, replaceAfter_nil, List.append_nil] at htail
  rw [redactUrls, replaceAll_assign (urlCredentials_silent hname), htail]

theorem redactElements_plain {u : Unicode} {name v : Str}
    (hname : ∀ x ∈ name, isNamePart x = true) (hcount : v.count '<' ≤ 1) :
    (redactElements u (name ++ '=' :: v)).1 = name ++ '=' :: v := by
  have hsilent := xmlElement_silent_of_count u (some '=') hcount
  have htail := replaceAfter_silent
    (f := fun _ m => ('<' :: captured m 1 ++ '>' :: redacted ++ ['<', '/'], 1)) hsilent
  rw [List.append_nil, replaceAfter_nil, List.append_nil] at htail
  rw [redactElements, replaceAll_assign (xmlElement_silent (mark_not_mem_assign hname)), htail]

/-- Neither does it hold an assignment, when the name is no key. -/
theorem redactKeyValues_plain {u : Unicode} (hu : u.Ascii) {name v : Str}
    (hname : ∀ x ∈ name, isNamePart x = true) (hkey : (sensitiveKey u).isMatch name = false)
    (hcolon : ':' ∉ v) (hequal : '=' ∉ v) :
    (redactKeyValues u (name ++ '=' :: v)).1 = name ++ '=' :: v := by
  have hsilent := (silent_of_plain u (some '=') hcolon hequal).2.1
  have htail := replaceAfter_silent (f := keyValueReplacement (name ++ '=' :: v)) hsilent
  rw [List.append_nil, replaceAfter_nil, List.append_nil] at htail
  rw [redactKeyValues, replaceAll_assign (keyValue_silent hu hname hkey), htail]

/-- Nor a header, when the name names none. -/
theorem redactAuthorization_plain {u : Unicode} (hu : u.Ascii) {name v : Str}
    (hname : ∀ x ∈ name, isNamePart x = true) (hv : Value v) (hheader : ¬ NamesHeader name)
    (hcolon : ':' ∉ v) (hequal : '=' ∉ v) :
    (redactAuthorization u (name ++ '=' :: v)).1 = name ++ '=' :: v := by
  have hsilent := (silent_of_plain u (some '=') hcolon hequal).1
  have htail := replaceAfter_silent (f := fun _ m => (captured m 1 ++ redacted, 1)) hsilent
  rw [List.append_nil, replaceAfter_nil, List.append_nil] at htail
  rw [redactAuthorization, replaceAll_assign (authorization_silent hu hname hv hheader), htail]

theorem value_redacted : Value redacted :=
  ⟨by decide, by decide, by decide⟩

/-- A masked assignment stays as it is, whatever its name. -/
theorem redactKeyValues_masked {u : Unicode} (hu : u.Ascii) {name : Str}
    (hname : ∀ x ∈ name, isNamePart x = true) :
    (redactKeyValues u (name ++ '=' :: redacted)).1 = name ++ '=' :: redacted := by
  cases hkey : (sensitiveKey u).isMatch name with
  | true => exact redactKeyValues_key hu hname value_redacted hkey
  | false => exact redactKeyValues_plain hu hname hkey (by decide) (by decide)

/-- **A key or a header**: all rules but the one for tokens mask the value. -/
theorem urls_of_name {u : Unicode} (hu : u.Ascii) {name v : Str}
    (hname : ∀ x ∈ name, isNamePart x = true) (hv : Value v) (hlt : '<' ∉ v)
    (h : (sensitiveKey u).isMatch name = true ∨ NamesHeader name) :
    (redactUrls u (redactKeyValues u (redactElements u
      (redactAuthorization u (name ++ '=' :: v)).1).1).1).1 = name ++ '=' :: redacted := by
  by_cases hheader : NamesHeader name
  · rw [redactAuthorization_header hu hname hv hlt hheader,
      redactElements_plain hname (by decide), redactKeyValues_masked hu hname,
      redactUrls_plain hname (by decide) (by decide)]
  · obtain ⟨v', hv', -, hvalue⟩ := value_of_elements hu hname hv hheader
    have hkey := h.resolve_right hheader
    rw [hv', redactKeyValues_key hu hname hvalue hkey,
      redactUrls_plain hname (by decide) (by decide)]

/-- **Neither**: they keep the first character of the value, and all of it unless they mark it. -/
theorem urls_of_other {u : Unicode} (hu : u.Ascii) {name v : Str}
    (hname : ∀ x ∈ name, isNamePart x = true) (hv : Value v)
    (hkey : (sensitiveKey u).isMatch name = false) (hheader : ¬ NamesHeader name) :
    ∃ v', (redactUrls u (redactKeyValues u (redactElements u
      (redactAuthorization u (name ++ '=' :: v)).1).1).1).1 = name ++ '=' :: v' ∧ Keeps v v' := by
  obtain ⟨v₂, hv₂, hkeeps, -⟩ := value_of_elements hu hname hv hheader
  refine ⟨_, ?_, hkeeps.trans (Keeps.trans
    ((marks_keyValue u (name ++ '=' :: v₂)).replaceAfter (some '=') v₂)
    ((marks_urlCredentials u).replaceAfter (some '=') _))⟩
  rw [hv₂, redactKeyValues, replaceAll_assign (keyValue_silent hu hname hkey), redactUrls,
    replaceAll_assign (urlCredentials_silent hname)]

theorem redactSensitiveValues_eq (u : Unicode) (text : Str) :
    (redactSensitiveValues u text).1 =
      (redactTokens u (redactUrls u (redactKeyValues u (redactElements u
        (redactAuthorization u text).1).1).1).1).1 := rfl

/-- **When the text rules mask the value of a sensitive name.** -/
theorem masks_iff (u : Unicode) (hu : u.Ascii) (name value : Str)
    (hname : ∀ c ∈ name, isNamePart c = true) (_ : isSensitiveName u name = true)
    (hne : value ≠ []) (hplain : ∀ c ∈ value, isPlain c = true) :
    (redactSensitiveValues u (name ++ '=' :: value)).1 = name ++ '=' :: redacted ↔
      MaskedAssignment u name value := by
  have hlt : '<' ∉ value := by
    intro h
    exact absurd (hplain _ h) (by decide)
  have hv : Value value := by
    refine ⟨hne, fun c hc => ?_, fun c hc => ⟨?_, ?_⟩⟩
    · have := hplain c hc
      simp only [isPlain, Bool.and_eq_true, Bool.not_eq_true'] at this
      exact this.1
    · rintro rfl
      exact absurd (hplain _ (List.mem_of_head? hc)) (by decide)
    · rintro rfl
      exact absurd (hplain _ (List.mem_of_head? hc)) (by decide)
  have hnameLt : '<' ∉ name := fun h => absurd (hname _ h) (by decide)
  -- the tokens of the name and those behind it
  have htokens : ∀ v : Str, tokensAfter u none name ++ '=' :: tokensAfter u (some '=') v
      = name ++ '=' :: redacted ↔
        (knownToken u).isMatch name = false ∧ tokensAfter u (some '=') v = redacted := by
    intro v
    rw [← tokensAfter_eq hnameLt]
    constructor
    · intro h
      have hchars : ∀ c ∈ tokensAfter u none name, c ≠ '=' := by
        intro c hc
        have hmem := mem_replaceAfter (r := knownToken u) (f := fun _ _ => (redacted, 1))
          (P := fun c => c ∈ redacted) (fun _ _ _ _ c hc => .inr hc) none name c hc
        rcases hmem with hmem | hmem
        · exact part_ne (hname c hmem) (by decide)
        · rintro rfl
          exact absurd hmem (by decide)
      obtain ⟨hfront, -, htail⟩ := Text.cut_unique (P := fun c => c ≠ '=') h hchars
        (fun c hc => part_ne (hname c hc) (by decide)) (by simp) (by simp)
      exact ⟨hfront, htail⟩
    · rintro ⟨hfront, htail⟩
      rw [hfront, htail]
  have hmark : tokensAfter u (some '=') redacted = redacted := by
    have htail := replaceAfter_silent (f := fun _ _ => (redacted, 1))
      (knownToken_silent_redacted u (some '='))
    rw [List.append_nil, replaceAfter_nil, List.append_nil] at htail
    exact congrArg Prod.fst htail
  rw [redactSensitiveValues_eq]
  by_cases hcond : (sensitiveKey u).isMatch name = true ∨ NamesHeader name
  · rw [urls_of_name hu hname hv hlt hcond, redactTokens_assign hu, htokens]
    exact ⟨fun h => ⟨h.1, hcond.imp_right .inl⟩, fun h => ⟨h.1, hmark⟩⟩
  · obtain ⟨hkey, hheader⟩ := not_or.mp hcond
    rw [Bool.not_eq_true] at hkey
    have hchars : ∀ {v : Str}, IsToken u v → ∀ c : Char, c.toNat < 128 → isNamePart c = false →
        c ∉ v := by
      rintro v ⟨m, hm, hend⟩ c hc hpart
      obtain ⟨w, htext, -, -, hw⟩ := ends_of_matchAt hm
      rw [htext, hend, List.append_nil]
      exact hw.not_mem (token_ne hu hc hpart)
    constructor
    · obtain ⟨v', hv', hhead, hkeeps⟩ := urls_of_other hu hname hv hkey hheader
      rw [hv', redactTokens_assign hu, htokens]
      rintro ⟨hnone, htail⟩
      have hplainHead : v'.head? ≠ some '<' := by
        rw [hhead]
        exact fun h => hlt (List.mem_of_head? h)
      have hne' : v' ≠ [] := by
        rintro rfl
        exact hne (List.head?_eq_none_iff.mp hhead.symm)
      have htoken := (tokensAfter_eq_redacted hu hne' hplainHead).mp htail
      rw [hkeeps.resolve_left (hchars htoken '<' (by decide) (by decide))] at htoken
      exact ⟨hnone, .inr (.inr htoken)⟩
    · rintro ⟨hnone, hsome⟩
      have htoken := (hsome.resolve_left (by simp [hkey])).resolve_left hheader
      have hcolon := hchars htoken ':' (by decide) (by decide)
      have hequal := hchars htoken '=' (by decide) (by decide)
      rw [redactAuthorization_plain hu hname hv hheader hcolon hequal,
        redactElements_plain hname (by rw [List.count_eq_zero_of_not_mem hlt]; decide),
        redactKeyValues_plain hu hname hkey hcolon hequal, redactUrls_plain hname hcolon hequal,
        redactTokens_assign hu, htokens]
      exact ⟨hnone, (tokensAfter_eq_redacted hu hne fun h => hlt (List.mem_of_head? h)).mpr htoken⟩

/-- `api.password` has a word of the expression. -/
theorem masks_iff_password :
    (redactSensitiveValues Unicode.asciiOnly "api.password=x1".toList).1
        = "api.password=<redacted>".toList ↔
      MaskedAssignment Unicode.asciiOnly "api.password".toList "x1".toList :=
  masks_iff Unicode.asciiOnly Unicode.asciiOnly_ascii "api.password".toList "x1".toList
    (by decide) (by decide +kernel) (by decide) (by decide)

/-! ## 8. Where the two disagree -/

/-- **A sensitive name whose value is not masked.** -/
theorem api_key_is_kept :
    isSensitiveName Unicode.asciiOnly "api.key".toList = true ∧
      (∀ c ∈ "api.key".toList, isNamePart c = true) ∧ (∀ c ∈ "s3cr3t".toList, isPlain c = true) ∧
      redactProperty Unicode.asciiOnly "api.key".toList "s3cr3t".toList = redacted ∧
      (redactSensitiveValues Unicode.asciiOnly "api.key=s3cr3t".toList).1
        = "api.key=s3cr3t".toList := by
  refine ⟨?_, by decide, by decide, ?_, ?_⟩ <;> decide +kernel

end Redaction
end MavenMcp
