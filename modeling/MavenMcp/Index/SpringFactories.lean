/-
# Logical lines of `spring.factories`

`spring.factories` is a properties file.  What its logical lines are is said here as
`java.util.Properties` reads them (`logicalLines`); `collect_spring_factories` skips blank lines and
comments before it asks whether the line before is continued, and forgets a continued line at the
end of the text.  So it reads what Java reads when no continuation is blank or begins like a
comment, and no line is left continued (`Regular`).
-/
import MavenMcp.Index.Record
import Mathlib.Data.List.TakeWhile

namespace MavenMcp

open Text

/-! ## 1. Properties -/

/-- White space of a properties file: space, tab and form feed. -/
def isBlank (c : Char) : Bool := c == ' ' || c == '\t' || c == '\x0c'

def skipBlanks (line : Str) : Str := trimStartMatches isBlank line

/-- An odd number of backslashes at the end: the line goes on. -/
def isContinued (line : Str) : Bool := (line.reverse.takeWhile (· == '\\')).length % 2 == 1

/-- The logical lines, with the one read so far. -/
def logicalLines : Option Str → List Str → List Str
  | none, [] => []
  | some pending, [] => [pending]
  | none, natural :: rest =>
    let line := skipBlanks natural
    if line = [] ∨ line.head? = some '#' ∨ line.head? = some '!' then logicalLines none rest
    else if isContinued line then logicalLines (some line.dropLast) rest
    else line :: logicalLines none rest
  | some pending, natural :: rest =>
    let line := skipBlanks natural
    if isContinued line then logicalLines (some (pending ++ line.dropLast)) rest
    else (pending ++ line) :: logicalLines none rest

/-- The key of a logical line, and its value. -/
def keyAndValue (line : Str) : Str × Str :=
  let isKey := fun c => !(isBlank c || c == '=' || c == ':')
  let rest := skipBlanks (line.dropWhile isKey)
  (line.takeWhile isKey,
    skipBlanks (if rest.head? = some '=' ∨ rest.head? = some ':' then rest.tail else rest))

/-- The entries of a value. -/
def entriesOf (value : Str) : List Str := ((value.splitOn ',').map trim).filter isProviderName

/-- The services and providers of a properties file. -/
def propertyPairs (naturals : List Str) : List (Str × Str) :=
  (logicalLines none naturals).flatMap fun line =>
    (entriesOf (keyAndValue line).2).map ((keyAndValue line).1, ·)

/-! ## 2. White space at the ends -/

theorem isWhitespace_of_isBlank {c : Char} (h : isBlank c = true) : isWhitespace c = true := by
  simp only [isBlank, Bool.or_eq_true, beq_iff_eq] at h
  rcases h with (rfl | rfl) | rfl
  · decide
  · decide
  · decide

theorem trim_append_left {front text : Str} (h : ∀ c ∈ front, isWhitespace c = true) :
    trim (front ++ text) = trim text := by
  rw [trim, trim, trimStartMatches, List.dropWhile_append_of_pos h, ← trimStartMatches]

theorem trim_append_right {text tail : Str} (h : ∀ c ∈ tail, isWhitespace c = true) :
    trim (text ++ tail) = trim text := by
  rw [trim, trim, trimStartMatches, trimStartMatches, List.dropWhile_append]
  split
  · rename_i hempty
    have hnil : tail.dropWhile isWhitespace = [] := List.dropWhile_eq_nil_iff.mpr h
    rw [hnil, List.isEmpty_iff.mp hempty]
  · exact trimEndMatches_append h

/-- What is trimmed from the end is white space. -/
theorem trimEnd_split (p : Char → Bool) (text : Str) :
    ∃ tail, text = trimEndMatches p text ++ tail ∧ ∀ c ∈ tail, p c = true := by
  refine ⟨(text.reverse.takeWhile p).reverse, ?_, fun c hc => ?_⟩
  · rw [trimEndMatches, ← List.reverse_append, List.takeWhile_append_dropWhile,
      List.reverse_reverse]
  · exact (List.mem_takeWhile_imp (List.mem_reverse.mp hc))

theorem skipBlanks_split (text : Str) :
    ∃ front, text = front ++ skipBlanks text ∧ ∀ c ∈ front, isBlank c = true :=
  ⟨text.takeWhile isBlank, (List.takeWhile_append_dropWhile).symm,
    fun _ hc => List.mem_takeWhile_imp hc⟩

/-- White space at the ends of a value is in no entry. -/
theorem entriesOf_append {value tail : Str} (h : ∀ c ∈ tail, isWhitespace c = true) :
    entriesOf (value ++ tail) = entriesOf value := by
  induction tail generalizing value with
  | nil => rw [List.append_nil]
  | cons x tail ih =>
    have hx := h x List.mem_cons_self
    have hcomma : x ≠ ',' := by
      rintro rfl
      exact absurd hx (by decide)
    have hone : entriesOf (value ++ [x]) = entriesOf value := by
      obtain ⟨front, last, hsplit⟩ : ∃ front last, value.splitOn ',' = front ++ [last] :=
        (List.eq_nil_or_concat' _).resolve_left (List.splitOn_ne_nil ',' value)
      rw [entriesOf, entriesOf, splitOn_concat hcomma front hsplit, hsplit, List.map_append,
        List.map_append, List.map_singleton, List.map_singleton,
        trim_append_right fun c hc => (List.mem_singleton.mp hc) ▸ hx]
    rw [List.append_cons, ih fun c hc => h c (List.mem_cons_of_mem x hc), hone]

theorem entriesOf_append_left {front value : Str} (h : ∀ c ∈ front, isWhitespace c = true) :
    entriesOf (front ++ value) = entriesOf value := by
  induction front with
  | nil => rfl
  | cons x front ih =>
    have hx := h x List.mem_cons_self
    have hcomma : x ≠ ',' := by
      rintro rfl
      exact absurd hx (by decide)
    rw [← ih fun c hc => h c (List.mem_cons_of_mem x hc), List.cons_append, entriesOf, entriesOf,
      List.splitOn_cons_eq_if_modifyHead, if_neg (by rw [beq_iff_eq]; exact hcomma)]
    cases hsplit : (front ++ value).splitOn ',' with
    | nil => exact absurd hsplit (List.splitOn_ne_nil _ _)
    | cons word words =>
      rw [List.modifyHead_cons, List.map_cons, List.map_cons]
      have htrim : trim (x :: word) = trim word :=
        trim_append_left fun c hc => (List.mem_singleton.mp hc) ▸ hx
      rw [htrim]

/-! ## 3. Texts that are read as they should be -/

/-- A logical line of a key, white space, `=` and a value. -/
def KeyLine (line : Str) : Prop :=
  ∃ key gap value, line = key ++ (gap ++ '=' :: value) ∧
    (∀ c ∈ key, isWhitespace c = false ∧ c ≠ ':' ∧ c ≠ '=') ∧ ∀ c ∈ gap, isBlank c = true

/-- A natural line: it holds no lone carriage return, no backslash but one at its very end, and does
not begin with `!`. -/
structure NaturalLine (line : Str) : Prop where
  noReturn : '\r' ∉ line
  noEscape : '\\' ∉ line.dropLast
  noBang : (skipBlanks line).head? ≠ some '!'

/-- The texts that the property speaks of. -/
structure Properties (text : Str) : Prop where
  natural : ∀ line ∈ lines text, NaturalLine line
  keys : ∀ line ∈ logicalLines none (lines text), KeyLine line

/-- A continuation begins with text that is no comment. -/
def HasText (line : Str) : Prop :=
  ∃ c ∈ line.head?, c ≠ '#' ∧ isWhitespace c = false

/-- Every line that continues another one has text in it, and the last line is not continued. -/
def Regular : Bool → List Str → Prop
  | continued, [] => continued = false
  | true, natural :: rest =>
    HasText (skipBlanks natural) ∧ Regular (isContinued (skipBlanks natural)) rest
  | false, natural :: rest =>
    if skipBlanks natural = [] ∨ (skipBlanks natural).head? = some '#' then Regular false rest
    else Regular (isContinued (skipBlanks natural)) rest

theorem skipBlanks_suffix (line : Str) : skipBlanks line <:+ line := List.dropWhile_suffix _

/-- A line is continued when it ends with its one backslash. -/
theorem isContinued_iff {line : Str} (h : '\\' ∉ line.dropLast) :
    isContinued line = true ↔ ∃ body, line = body ++ ['\\'] ∧ '\\' ∉ body := by
  rcases List.eq_nil_or_concat' line with rfl | ⟨body, x, rfl⟩
  · constructor
    · exact nofun
    · rintro ⟨body, hbody, -⟩
      exact absurd hbody.symm (List.append_ne_nil_of_right_ne_nil _ (List.cons_ne_nil _ _))
  · rw [List.dropLast_concat] at h
    have hbody : body.reverse.takeWhile (· == '\\') = [] := by
      cases hrev : body.reverse with
      | nil => rfl
      | cons y rest =>
        have hy : y ≠ '\\' := by
          rintro rfl
          exact h (List.mem_reverse.mp (by rw [hrev]; exact List.mem_cons_self))
        simp [hy]
    rw [isContinued, List.reverse_append, List.reverse_singleton, List.singleton_append,
      List.takeWhile_cons, hbody]
    by_cases hx : x = '\\'
    · simp only [hx, BEq.rfl, if_true, List.length_singleton]
      exact ⟨fun _ => ⟨body, rfl, h⟩, fun _ => trivial⟩
    · simp only [beq_eq_false_iff_ne.mpr hx, Bool.false_eq_true, if_false]
      constructor
      · exact nofun
      · rintro ⟨body', heq, -⟩
        exact absurd (List.append_inj_right' heq rfl) (by simpa using hx)

/-- What a continued line begins with. -/
theorem logicalLines_pending (pending : Str) (naturals : List Str) :
    ∃ more others, logicalLines (some pending) naturals = (pending ++ more) :: others := by
  induction naturals generalizing pending with
  | nil => exact ⟨[], [], by rw [logicalLines, List.append_nil]⟩
  | cons natural rest ih =>
    rw [logicalLines]
    split
    · obtain ⟨more, others, heq⟩ := ih (pending ++ (skipBlanks natural).dropLast)
      exact ⟨_, others, by rw [heq, List.append_assoc]⟩
    · exact ⟨_, _, rfl⟩

/-! ## 4. Lines as the code reads them -/

/-- A line with text in it, behind blanks. -/
theorem trim_of_hasText {natural : Str} (h : HasText (skipBlanks natural)) :
    trim natural = trimEndMatches isWhitespace (skipBlanks natural) ∧
      ∃ c text, trimEndMatches isWhitespace (skipBlanks natural) = c :: text ∧ c ≠ '#' := by
  obtain ⟨front, hfront, hblank⟩ := skipBlanks_split natural
  obtain ⟨c, hc, hhash, hspace⟩ := h
  obtain ⟨text, htext⟩ := List.head?_eq_some_iff.mp hc
  have hself : trimStartMatches isWhitespace (skipBlanks natural) = skipBlanks natural :=
    trimStartMatches_eq_self fun x hx => by
      rw [Option.mem_def] at hc
      rw [hc] at hx
      cases hx
      exact hspace
  refine ⟨?_, ?_⟩
  · conv => lhs; rw [hfront]
    rw [trim_append_left fun x hx => isWhitespace_of_isBlank (hblank x hx), trim, hself]
  · obtain ⟨tail, htail, hws⟩ := trimEnd_split isWhitespace (skipBlanks natural)
    rw [htext] at htail ⊢
    cases htrim : trimEndMatches isWhitespace (c :: text) with
    | nil =>
      rw [htrim, List.nil_append] at htail
      rw [hws c (htail ▸ List.mem_cons_self)] at hspace
      cases hspace
    | cons x rest =>
      rw [htrim, List.cons_append] at htail
      cases htail
      exact ⟨c, rest, rfl, hhash⟩

/-- What a logical line provides, as the code reads it. -/
def providersOfLine (entry logical : Str) : List IndexedProvider :=
  match splitOnce '=' logical with
  | none => []
  | some (service, values) => (entriesOf values).map fun provider =>
      { service := trim service, provider := some provider
        descriptorKind := .springFactories, entry }

/-- The same for a key and its value. -/
def providersOf (entry : Str) (pair : Str × Str) : IndexedProvider :=
  { service := pair.1, provider := some pair.2, descriptorKind := .springFactories, entry }

/-- The pairs of one logical line. -/
def pairsOfLine (line : Str) : List (Str × Str) :=
  (entriesOf (keyAndValue line).2).map ((keyAndValue line).1, ·)

theorem splitOnce_of_mem {sep : Char} {text : Str} (h : sep ∈ text) :
    ∃ a b, splitOnce sep text = some (a, b) := by
  obtain ⟨a, b, heq, hnot⟩ := List.eq_append_cons_of_mem h
  exact ⟨a, b, splitOnce_eq_some_iff.mpr ⟨heq, hnot⟩⟩

/-- The key of a line, and the value with white space around it. -/
theorem keyAndValue_of_keyLine {key gap : Str} (value : Str)
    (hkey : ∀ c ∈ key, isWhitespace c = false ∧ c ≠ ':' ∧ c ≠ '=')
    (hgap : ∀ c ∈ gap, isBlank c = true) :
    (keyAndValue (key ++ (gap ++ '=' :: value))).1 = key ∧
      entriesOf (keyAndValue (key ++ (gap ++ '=' :: value))).2 = entriesOf value := by
  have hisKey : ∀ c ∈ key, (!(isBlank c || c == '=' || c == ':')) = true := by
    intro c hc
    obtain ⟨hspace, hcolon, hequals⟩ := hkey c hc
    have hblank : isBlank c = false := by
      by_contra hblank
      rw [isWhitespace_of_isBlank (Bool.of_not_eq_false hblank)] at hspace
      cases hspace
    simp [hblank, hcolon, hequals]
  have hstop : (gap ++ '=' :: value).takeWhile (fun c => !(isBlank c || c == '=' || c == ':')) =
      [] ∧
      (gap ++ '=' :: value).dropWhile (fun c => !(isBlank c || c == '=' || c == ':')) =
        gap ++ '=' :: value := by
    cases gap with
    | nil => exact ⟨rfl, rfl⟩
    | cons x gap =>
      have hx := hgap x List.mem_cons_self
      simp [hx]
  have hskip : skipBlanks (gap ++ '=' :: value) = '=' :: value := by
    rw [skipBlanks, trimStartMatches, List.dropWhile_append_of_pos hgap]
    rfl
  obtain ⟨front, hfront, hblank⟩ := skipBlanks_split value
  simp only [keyAndValue, List.takeWhile_append_of_pos hisKey, List.dropWhile_append_of_pos hisKey,
    hstop.1, hstop.2, hskip, List.append_nil, true_and]
  rw [if_pos (.inl rfl), List.tail_cons]
  conv => rhs; rw [hfront]
  exact (entriesOf_append_left fun c hc => isWhitespace_of_isBlank (hblank c hc)).symm

/-- **The end of a logical line**: white space that the code has trimmed from it makes no
difference. -/
theorem providersOfLine_eq (entry : Str) {logical tail : Str} (h : KeyLine (logical ++ tail))
    (htail : ∀ c ∈ tail, isWhitespace c = true) :
    providersOfLine entry logical = (pairsOfLine (logical ++ tail)).map (providersOf entry) := by
  obtain ⟨key, gap, value, hline, hkey, hgap⟩ := h
  have hmem : '=' ∈ logical := by
    have hin : '=' ∈ logical ++ tail := by
      rw [hline]
      exact List.mem_append_right _ (List.mem_append_right _ List.mem_cons_self)
    refine (List.mem_append.mp hin).resolve_right fun hin => ?_
    exact absurd (htail '=' hin) (by decide)
  obtain ⟨a, b, hsplit⟩ := splitOnce_of_mem hmem
  obtain ⟨hlogical, hnot⟩ := splitOnce_eq_some_iff.mp hsplit
  -- the first `=` of the longer line is the same one
  have hfirst : splitOnce '=' (logical ++ tail) = some (a, b ++ tail) :=
    splitOnce_eq_some_iff.mpr ⟨by rw [hlogical, List.append_assoc, List.cons_append], hnot⟩
  have hsecond : splitOnce '=' (logical ++ tail) = some (key ++ gap, value) := by
    refine splitOnce_eq_some_iff.mpr ⟨by rw [hline, List.append_assoc], fun hin => ?_⟩
    rcases List.mem_append.mp hin with hin | hin
    · exact (hkey '=' hin).2.2 rfl
    · exact absurd (hgap '=' hin) (by decide)
  rw [hfirst] at hsecond
  cases hsecond
  have hservice : trim (key ++ gap) = key := by
    rw [trim_append_right fun c hc => isWhitespace_of_isBlank (hgap c hc)]
    by_cases hnil : key = []
    · rw [hnil]
      rfl
    · exact (tight_of_not_whitespace hnil fun c hc => (hkey c hc).1).trim_eq
  obtain ⟨hkey', hvalue'⟩ := keyAndValue_of_keyLine (b ++ tail) hkey hgap
  rw [providersOfLine, hsplit]
  simp only
  rw [pairsOfLine, hline, hkey', hvalue', entriesOf_append htail, hservice, List.map_map]
  rfl

theorem collectSpringFactories_cons (entry logical raw : Str) (rest : List Str) :
    collectSpringFactories entry logical (raw :: rest) =
      if trim raw = [] ∨ (trim raw).head? = some '#' then collectSpringFactories entry logical rest
      else if endsWith ['\\'] (trim raw) then
        collectSpringFactories entry
          (logical ++ trimEndMatches (fun c => decide (c = '\\')) (trim raw)) rest
      else
        providersOfLine entry
            (logical ++ trimEndMatches (fun c => decide (c = '\\')) (trim raw)) ++
          collectSpringFactories entry [] rest := by
  rw [collectSpringFactories]
  rfl

/-! ## 5. Runs -/

/-- What the code and the specification make of a line that belongs to a logical line. -/
theorem collect_line (entry logical raw : Str) (rest : List Str) (hraw : NaturalLine raw)
    (htext : HasText (skipBlanks raw)) :
    (isContinued (skipBlanks raw) = true →
      collectSpringFactories entry logical (raw :: rest) =
        collectSpringFactories entry (logical ++ (skipBlanks raw).dropLast) rest) ∧
    (isContinued (skipBlanks raw) = false → KeyLine (logical ++ skipBlanks raw) →
      collectSpringFactories entry logical (raw :: rest) =
        (pairsOfLine (logical ++ skipBlanks raw)).map (providersOf entry) ++
          collectSpringFactories entry [] rest) := by
  obtain ⟨htrim, c, text, hc, hhash⟩ := trim_of_hasText htext
  have hnot : ¬ (trim raw = [] ∨ (trim raw).head? = some '#') := by
    rw [htrim, hc]
    rintro (h | h)
    · cases h
    · exact hhash (Option.some.inj h)
  have hescape : '\\' ∉ (skipBlanks raw).dropLast := by
    obtain ⟨front, hfront⟩ := skipBlanks_suffix raw
    intro hmem
    refine hraw.noEscape ?_
    by_cases hnil : skipBlanks raw = []
    · rw [hnil] at hmem
      cases hmem
    · rw [← hfront, List.dropLast_append_of_ne_nil hnil]
      exact List.mem_append_right _ hmem
  rw [collectSpringFactories_cons, if_neg hnot, htrim]
  obtain ⟨tail, htail, hws⟩ := trimEnd_split isWhitespace (skipBlanks raw)
  constructor
  · intro hcontinued
    obtain ⟨body, hbody, hnone⟩ := (isContinued_iff hescape).mp hcontinued
    have hself : trimEndMatches isWhitespace (skipBlanks raw) = skipBlanks raw := by
      refine trimEndMatches_eq_self fun x hx => ?_
      rw [hbody, List.getLast?_concat] at hx
      cases hx
      decide
    have hends : endsWith ['\\'] (skipBlanks raw) = true := by
      rw [endsWith_iff, hbody]
      exact List.suffix_append body ['\\']
    have hdrop : trimEndMatches (fun c => decide (c = '\\')) (skipBlanks raw) = body := by
      rw [hbody, trimEndMatches_append fun x hx => decide_eq_true (List.mem_singleton.mp hx)]
      refine trimEndMatches_eq_self fun x hx => decide_eq_false ?_
      rintro rfl
      exact hnone (List.mem_of_getLast? hx)
    rw [hself, if_pos hends, hdrop, hbody, List.dropLast_concat]
  · intro hcontinued hkey
    have hnone : '\\' ∉ skipBlanks raw := by
      intro hmem
      obtain ⟨body, x, hbody⟩ := (List.eq_nil_or_concat' (skipBlanks raw)).resolve_left
        (List.ne_nil_of_mem hmem)
      rw [hbody, List.dropLast_concat] at hescape
      rw [hbody] at hmem
      have hx : '\\' = x := List.mem_singleton.mp ((List.mem_append.mp hmem).resolve_left hescape)
      have htrue : isContinued (skipBlanks raw) = true :=
        (isContinued_iff (by rw [hbody, List.dropLast_concat]; exact hescape)).mpr
          ⟨body, by rw [hbody, hx], hescape⟩
      rw [hcontinued] at htrue
      cases htrue
    have hnone' : '\\' ∉ trimEndMatches isWhitespace (skipBlanks raw) := fun hmem =>
      hnone (by rw [htail]; exact List.mem_append_left _ hmem)
    have hends : endsWith ['\\'] (trimEndMatches isWhitespace (skipBlanks raw)) ≠ true := by
      intro hends
      exact hnone' ((endsWith_iff.mp hends).subset List.mem_cons_self)
    have hself : trimEndMatches (fun c => decide (c = '\\'))
        (trimEndMatches isWhitespace (skipBlanks raw)) =
          trimEndMatches isWhitespace (skipBlanks raw) := by
      refine trimEndMatches_eq_self fun x hx => decide_eq_false ?_
      rintro rfl
      exact hnone' (List.mem_of_getLast? hx)
    rw [if_neg hends, hself]
    generalize trimEndMatches isWhitespace (skipBlanks raw) = shown at htail ⊢
    rw [htail, ← List.append_assoc] at hkey ⊢
    rw [providersOfLine_eq entry hkey hws]

/-- A first line of text does not begin with white space. -/
theorem hasText_of_keyLine {line : Str} (more : Str) (hne : line ≠ [])
    (hhash : line.head? ≠ some '#')
    (hkey : KeyLine (line ++ more)) (hblank : ∀ c ∈ line.head?, isBlank c = false) :
    HasText line := by
  obtain ⟨c, text, rfl⟩ := List.exists_cons_of_ne_nil hne
  obtain ⟨key, gap, value, hline, hkeys, hgap⟩ := hkey
  refine ⟨c, rfl, fun heq => hhash (by rw [heq]; rfl), ?_⟩
  cases key with
  | cons x key =>
    obtain ⟨rfl, -⟩ := List.cons.inj hline
    exact (hkeys _ List.mem_cons_self).1
  | nil =>
    cases gap with
    | cons x gap =>
      obtain ⟨rfl, -⟩ := List.cons.inj hline
      have hx := hgap _ List.mem_cons_self
      rw [hblank _ rfl] at hx
      cases hx
    | nil =>
      obtain ⟨rfl, -⟩ := List.cons.inj hline
      decide

theorem head_skipBlanks (line : Str) : ∀ c ∈ (skipBlanks line).head?, isBlank c = false := by
  intro c hc
  obtain ⟨text, htext⟩ := List.head?_eq_some_iff.mp hc
  have hne : line.dropWhile isBlank ≠ [] := by
    rw [skipBlanks, trimStartMatches] at htext
    rw [htext]
    exact List.cons_ne_nil _ _
  have hhead := List.head_dropWhile_not isBlank hne
  rw [skipBlanks, trimStartMatches] at htext
  simp only [htext, List.head_cons] at hhead
  exact hhead

/-- A blank line, or a comment. -/
theorem trim_of_skipped {natural : Str}
    (h : skipBlanks natural = [] ∨ (skipBlanks natural).head? = some '#') :
    trim natural = [] ∨ (trim natural).head? = some '#' := by
  obtain ⟨front, hfront, hblank⟩ := skipBlanks_split natural
  have htrim : trim natural = trim (skipBlanks natural) := by
    conv => lhs; rw [hfront]
    exact trim_append_left fun c hc => isWhitespace_of_isBlank (hblank c hc)
  rw [htrim]
  rcases h with h | h
  · exact .inl (by rw [h]; rfl)
  · refine .inr ?_
    obtain ⟨text, htext⟩ := List.head?_eq_some_iff.mp h
    obtain ⟨tail, htail, hws⟩ := trimEnd_split isWhitespace ('#' :: text)
    have hself : trim (skipBlanks natural) = trimEndMatches isWhitespace ('#' :: text) := by
      rw [htext, trim, trimStartMatches, List.dropWhile_cons, if_neg (by decide)]
    rw [hself]
    cases hshown : trimEndMatches isWhitespace ('#' :: text) with
    | nil =>
      rw [hshown, List.nil_append] at htail
      exact absurd (hws '#' (htail ▸ List.mem_cons_self)) (by decide)
    | cons c rest =>
      rw [hshown, List.cons_append] at htail
      rw [(List.cons.inj htail).1]
      rfl

/-- The first line of a logical line has text. -/
theorem hasText_of_first {natural : Str} {rest : List Str}
    (hnot : ¬ (skipBlanks natural = [] ∨ (skipBlanks natural).head? = some '#'))
    (hkeys : ∀ line ∈ (if isContinued (skipBlanks natural) then
        logicalLines (some (skipBlanks natural).dropLast) rest
      else skipBlanks natural :: logicalLines none rest), KeyLine line) :
    HasText (skipBlanks natural) := by
  obtain ⟨hne, hhash⟩ := not_or.mp hnot
  have hblank := head_skipBlanks natural
  generalize skipBlanks natural = line at hne hhash hblank hkeys ⊢
  split at hkeys
  · obtain ⟨c, text, rfl⟩ := List.exists_cons_of_ne_nil hne
    obtain ⟨more, others, hlogical⟩ := logicalLines_pending (c :: text).dropLast rest
    have hkey := hkeys _ (by rw [hlogical]; exact List.mem_cons_self)
    cases text with
    | nil =>
      -- the line is a lone backslash
      have hbackslash : c = '\\' := by
        by_contra hc
        have hbeq : (c == '\\') = false := beq_eq_false_iff_ne.mpr hc
        have hcontinued : isContinued [c] = true := ‹_›
        simp [isContinued, hbeq] at hcontinued
      rw [hbackslash]
      exact ⟨'\\', rfl, by decide, by decide⟩
    | cons d text =>
      rw [List.dropLast_cons_cons] at hkey
      have hhead : HasText (c :: (d :: text).dropLast) :=
        hasText_of_keyLine more (List.cons_ne_nil _ _) hhash hkey hblank
      exact hhead
  · refine hasText_of_keyLine [] hne hhash ?_ hblank
    rw [List.append_nil]
    exact hkeys _ List.mem_cons_self

/-- **A whole text**, read so far up to some continued line. -/
theorem collect_eq (entry : Str) {naturals : List Str} {pending : Option Str}
    (hnatural : ∀ line ∈ naturals, NaturalLine line)
    (hkeys : ∀ line ∈ logicalLines pending naturals, KeyLine line)
    (hregular : Regular pending.isSome naturals) :
    collectSpringFactories entry (pending.getD []) naturals =
      ((logicalLines pending naturals).flatMap pairsOfLine).map (providersOf entry) := by
  induction naturals generalizing pending with
  | nil =>
    cases pending with
    | none => rfl
    | some pending => cases hregular
  | cons natural rest ih =>
    have hfirst := hnatural natural List.mem_cons_self
    have hrest := fun line hline => hnatural line (List.mem_cons_of_mem natural hline)
    -- a line that belongs to a logical line, which `begun` begins
    have hline : ∀ begun : Str, HasText (skipBlanks natural) →
        Regular (isContinued (skipBlanks natural)) rest →
        logicalLines pending (natural :: rest) =
          (if isContinued (skipBlanks natural) then
            logicalLines (some (begun ++ (skipBlanks natural).dropLast)) rest
          else (begun ++ skipBlanks natural) :: logicalLines none rest) →
        collectSpringFactories entry begun (natural :: rest) =
          ((logicalLines pending (natural :: rest)).flatMap pairsOfLine).map
            (providersOf entry) := by
      intro begun htext hreg hlogical
      obtain ⟨hgoes, hends⟩ := collect_line entry begun natural rest hfirst htext
      rw [hlogical] at hkeys ⊢
      by_cases hcontinued : isContinued (skipBlanks natural) = true
      · rw [if_pos hcontinued] at hkeys ⊢
        rw [hcontinued] at hreg
        rw [hgoes hcontinued]
        exact ih hrest hkeys hreg
      · rw [if_neg hcontinued] at hkeys ⊢
        rw [Bool.not_eq_true] at hcontinued
        rw [hcontinued] at hreg
        have hlater := @ih none hrest
          (fun line hmem => hkeys line (List.mem_cons_of_mem _ hmem)) hreg
        rw [hends hcontinued (hkeys _ List.mem_cons_self), List.flatMap_cons, List.map_append]
        exact congrArg _ hlater
    cases pending with
    | some begun =>
      obtain ⟨htext, hreg⟩ := hregular
      exact hline begun htext hreg (by rw [logicalLines])
    | none =>
      by_cases hskip : skipBlanks natural = [] ∨ (skipBlanks natural).head? = some '#'
      · have hskipped : logicalLines none (natural :: rest) = logicalLines none rest := by
          rw [logicalLines, if_pos (hskip.elim .inl fun h => .inr (.inl h))]
        have hreg : Regular false rest := by
          have hreg := hregular
          rw [Option.isSome_none, Regular, if_pos hskip] at hreg
          exact hreg
        rw [hskipped] at hkeys ⊢
        rw [collectSpringFactories_cons, if_pos (trim_of_skipped hskip)]
        exact @ih none hrest hkeys hreg
      · have hnot : ¬ (skipBlanks natural = [] ∨ (skipBlanks natural).head? = some '#' ∨
            (skipBlanks natural).head? = some '!') := by
          rintro (h | h | h)
          · exact hskip (.inl h)
          · exact hskip (.inr h)
          · exact hfirst.noBang h
        have hlogical : logicalLines none (natural :: rest) =
            if isContinued (skipBlanks natural) then
              logicalLines (some (skipBlanks natural).dropLast) rest
            else skipBlanks natural :: logicalLines none rest := by
          rw [logicalLines, if_neg hnot]
        have hreg : Regular (isContinued (skipBlanks natural)) rest := by
          have hreg := hregular
          rw [Option.isSome_none, Regular, if_neg hskip] at hreg
          exact hreg
        rw [hlogical] at hkeys
        exact hline [] (hasText_of_first hskip hkeys) hreg hlogical

/-- The code yields exactly the pairs of the properties file. -/
def FollowsProperties (entry text : Str) : Prop :=
  ∀ provider, provider ∈ collectSpringFactories entry [] (lines text) ↔
    ∃ pair ∈ propertyPairs (lines text), provider = providersOf entry pair

/-- A key with two providers on lines of their own, and a comment. -/
def sampleFactories : Str := "# factories\nA = \\\r\n  x,\\\r\n\ty\r\n".toList

theorem sampleFactories_properties : Properties sampleFactories := by
  have hlines : lines sampleFactories =
      ["# factories".toList, "A = \\".toList, "  x,\\".toList, "\ty".toList] := by decide
  have hlogical : logicalLines none (lines sampleFactories) = ["A = x,y".toList] := by
    rw [hlines]
    decide
  refine ⟨?_, ?_⟩
  · rw [hlines]
    intro line hline
    simp only [List.mem_cons, List.not_mem_nil, or_false] at hline
    rcases hline with rfl | rfl | rfl | rfl
    · exact ⟨by decide, by decide, by decide⟩
    · exact ⟨by decide, by decide, by decide⟩
    · exact ⟨by decide, by decide, by decide⟩
    · exact ⟨by decide, by decide, by decide⟩
  · rw [hlogical]
    intro line hline
    rw [List.mem_singleton.mp hline]
    exact ⟨"A".toList, " ".toList, " x,y".toList, by decide, by decide, by decide⟩

/-- A blank line ends the first key's value. -/
def brokenFactories : Str := "A=\\\nx,\\\n\nB=y\n".toList

end MavenMcp
