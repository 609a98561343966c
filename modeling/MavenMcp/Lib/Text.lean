/-
# Texts

A text is a list of characters (`Str`).  Two views of it:

* by its bytes: programs address a text by byte offsets of its UTF-8 form.  `splitBytes` cuts at
  an offset and answers `none` inside a character, where slicing a string panics;
  `splitBytes_eq_some_iff` says the cut is where the bytes say, so an offset that was reached by
  walking over whole characters is a boundary.
* by its parts: prefixes and suffixes, separators, white space and lines, as Rust's `str` has them.
-/
import Mathlib.Data.List.Basic
import Mathlib.Algebra.BigOperators.Group.List.Basic
import Mathlib.Algebra.GroupWithZero.Nat

/-- A text. -/
abbrev Str := List Char

namespace Text

instance lawfulBEqStr : LawfulBEq Str := inferInstanceAs (LawfulBEq (List Char))

/-- A quantifier over a text is decided on the text, not on every character there is. -/
instance (priority := 1100) decidableForallMem (p : Char → Prop) [DecidablePred p] (text : Str) :
    Decidable (∀ c ∈ text, p c) := List.decidableBAll p text

instance (priority := 1100) decidableForallNext (p : Char → Prop) [DecidablePred p]
    (next : Option Char) : Decidable (∀ c ∈ next, p c) := Option.decidableForallMem next

theorem isAlpha_eq (c : Char) : c.isAlpha = (c.isUpper || c.isLower) := rfl

theorem isUpper_eq (c : Char) : c.isUpper = decide (c.val ≥ 'A'.val ∧ c.val ≤ 'Z'.val) := rfl

theorem isLower_eq (c : Char) :
    c.isLower = (decide (c.val ≥ 'a'.val) && decide (c.val ≤ 'z'.val)) := rfl

/-- A valid code is the code of its character. -/
theorem toNat_ofNat_of_valid {n : Nat} (h : n < 0xD800 ∨ 0xDFFF < n ∧ n < 0x110000) :
    (Char.ofNat n).toNat = n := by
  have hvalid : n.isValidChar := h
  rw [Char.ofNat, dif_pos hvalid]
  rfl

/-! ## 1. Bytes -/

/-- The length in bytes of the UTF-8 form. -/
def byteLen (text : List Char) : Nat := (text.map Char.utf8Size).sum

@[simp] theorem byteLen_nil : byteLen [] = 0 := rfl

@[simp] theorem byteLen_cons (c : Char) (text : List Char) :
    byteLen (c :: text) = c.utf8Size + byteLen text := rfl

@[simp] theorem byteLen_append (a b : List Char) : byteLen (a ++ b) = byteLen a + byteLen b := by
  simp [byteLen]

theorem byteLen_pos {text : List Char} (h : text ≠ []) : 0 < byteLen text := by
  cases text with
  | nil => exact absurd rfl h
  | cons c text =>
    have := c.utf8Size_pos
    rw [byteLen_cons]
    omega

theorem utf8ByteSize_ofList (text : List Char) :
    (String.ofList text).utf8ByteSize = byteLen text := by
  induction text with
  | nil => rfl
  | cons c text ih =>
    rw [String.ofList_cons, String.utf8ByteSize_append, String.utf8ByteSize_singleton, ih,
      byteLen_cons]

theorem byteLen_toList (s : String) : byteLen s.toList = s.utf8ByteSize := by
  rw [← utf8ByteSize_ofList, String.ofList_toList]

/-- Cut a text at a byte offset; `none` when the offset lies inside a character or past the end. -/
def splitBytes : List Char → Nat → Option (List Char × List Char)
  | text, 0 => some ([], text)
  | [], _ + 1 => none
  | c :: text, offset =>
    if offset < c.utf8Size then none
    else (splitBytes text (offset - c.utf8Size)).map fun (front, rest) => (c :: front, rest)

theorem splitBytes_cons (c : Char) (text : List Char) {offset : Nat} (h : 0 < offset) :
    splitBytes (c :: text) offset
      = if offset < c.utf8Size then none
        else (splitBytes text (offset - c.utf8Size)).map fun (front, rest) =>
          (c :: front, rest) := by
  cases offset with
  | zero => exact absurd h (Nat.lt_irrefl 0)
  | succ n => rfl

theorem splitBytes_append : ∀ a b : List Char, splitBytes (a ++ b) (byteLen a) = some (a, b)
  | [], b => by
    cases b <;> rfl
  | c :: a, b => by
    have hc := c.utf8Size_pos
    have hlt : ¬ c.utf8Size + byteLen a < c.utf8Size := by omega
    rw [List.cons_append, byteLen_cons, splitBytes_cons c (a ++ b) (by omega), if_neg hlt,
      Nat.add_sub_cancel_left, splitBytes_append a b]
    rfl

theorem splitBytes_eq_some_iff : ∀ {text : List Char} {offset : Nat} {a b : List Char},
    splitBytes text offset = some (a, b) ↔ text = a ++ b ∧ offset = byteLen a := by
  intro text offset a b
  constructor
  · induction text generalizing offset a b with
    | nil =>
      intro h
      cases offset with
      | zero => cases h; exact ⟨rfl, rfl⟩
      | succ n => cases h
    | cons c text ih =>
      intro h
      rcases Nat.eq_zero_or_pos offset with rfl | hpos
      · cases h
        exact ⟨rfl, rfl⟩
      · rw [splitBytes_cons c text hpos] at h
        split at h
        · cases h
        · rename_i hle
          obtain ⟨⟨front, rest⟩, hsplit, heq⟩ := Option.map_eq_some_iff.mp h
          cases heq
          obtain ⟨htext, hoff⟩ := ih hsplit
          refine ⟨by rw [htext]; rfl, ?_⟩
          rw [byteLen_cons]
          omega
  · rintro ⟨rfl, rfl⟩
    exact splitBytes_append a b

/-- `str::is_char_boundary`. -/
def isBoundary (text : List Char) (offset : Nat) : Bool := (splitBytes text offset).isSome

theorem isBoundary_iff {text : List Char} {offset : Nat} :
    isBoundary text offset = true ↔ ∃ a b, text = a ++ b ∧ offset = byteLen a := by
  unfold isBoundary
  rw [Option.isSome_iff_exists]
  constructor
  · rintro ⟨⟨a, b⟩, h⟩
    exact ⟨a, b, splitBytes_eq_some_iff.mp h⟩
  · rintro ⟨a, b, h⟩
    exact ⟨(a, b), splitBytes_eq_some_iff.mpr h⟩

/-- `&text[start..stop]`; `none` where it panics. -/
def slice (text : List Char) (start stop : Nat) : Option (List Char) :=
  if stop < start then none
  else (splitBytes text start).bind fun (_, rest) => (splitBytes rest (stop - start)).map Prod.fst

theorem slice_append (a b c : List Char) :
    slice (a ++ (b ++ c)) (byteLen a) (byteLen a + byteLen b) = some b := by
  have hlt : ¬ byteLen a + byteLen b < byteLen a := by omega
  simp only [slice, if_neg hlt, splitBytes_append, Option.bind_some, Nat.add_sub_cancel_left,
    Option.map_some]

/-! ## 2. Parts -/

/-- `str::strip_prefix`. -/
def stripPrefix : List Char → List Char → Option (List Char)
  | [], text => some text
  | _ :: _, [] => none
  | p :: pat, c :: text => if p = c then stripPrefix pat text else none

@[simp] theorem stripPrefix_append (pat text : List Char) :
    stripPrefix pat (pat ++ text) = some text := by
  induction pat with
  | nil => rfl
  | cons p pat ih => rw [List.cons_append, stripPrefix, if_pos rfl, ih]

/-- `str::starts_with`. -/
def startsWith (pat text : Str) : Bool := (stripPrefix pat text).isSome

/-- `str::strip_suffix`. -/
def stripSuffix (pat text : Str) : Option Str :=
  (stripPrefix pat.reverse text.reverse).map List.reverse

/-- `str::ends_with`. -/
def endsWith (pat text : Str) : Bool := (stripSuffix pat text).isSome

/-- `str::replace` of one character. -/
def replaceChar (a b : Char) (text : Str) : Str := text.map fun c => if c = a then b else c

/-- `str::split_once` at a character. -/
def splitOnce (sep : Char) : Str → Option (Str × Str)
  | [] => none
  | c :: text =>
    if c = sep then some ([], text) else (splitOnce sep text).map fun (a, b) => (c :: a, b)

/-- `char::is_whitespace`: the Unicode property `White_Space`. -/
def isWhitespace (c : Char) : Bool :=
  let n := c.toNat
  (9 ≤ n && n ≤ 13) || n == 32 || n == 0x85 || n == 0xA0 || n == 0x1680 ||
    (0x2000 ≤ n && n ≤ 0x200A) || n == 0x2028 || n == 0x2029 || n == 0x202F || n == 0x205F ||
    n == 0x3000

/-- `str::trim_start_matches`. -/
def trimStartMatches (p : Char → Bool) (text : Str) : Str := text.dropWhile p

/-- `str::trim_end_matches`. -/
def trimEndMatches (p : Char → Bool) (text : Str) : Str := (text.reverse.dropWhile p).reverse

/-- `str::trim`. -/
def trim (text : Str) : Str := trimEndMatches isWhitespace (trimStartMatches isWhitespace text)

/-- A line without its ending: a final LF, and the CR before it. -/
def dropLineEnding (line : Str) : Str :=
  match stripSuffix ['\n'] line with
  | none => line
  | some line => (stripSuffix ['\r'] line).getD line

/-- `str::split_inclusive` at a character. -/
def splitInclusive (sep : Char) : Str → List Str
  | [] => []
  | c :: text =>
    if c = sep then [c] :: splitInclusive sep text
    else
      match splitInclusive sep text with
      | [] => [[c]]
      | part :: parts => (c :: part) :: parts

/-- `str::lines`. -/
def lines (text : Str) : List Str := (splitInclusive '\n' text).map dropLineEnding

/-- `str::contains`. -/
def contains (pat : Str) : Str → Bool
  | [] => startsWith pat []
  | c :: text => startsWith pat (c :: text) || contains pat text

/-- `str::find`: the text in front of the first occurrence, and the rest with it. -/
def find (pat : Str) : Str → Option (Str × Str)
  | [] => if startsWith pat [] then some ([], []) else none
  | c :: text =>
    if startsWith pat (c :: text) then some ([], c :: text)
    else (find pat text).map fun (front, rest) => (c :: front, rest)

/-- `str::split_once`. -/
def splitOnceStr (pat text : Str) : Option (Str × Str) :=
  (find pat text).map fun (front, rest) => (front, rest.drop pat.length)

/-- `str::rsplit_once`. -/
def rsplitOnceStr (pat text : Str) : Option (Str × Str) :=
  (splitOnceStr pat.reverse text.reverse).map fun (back, front) => (front.reverse, back.reverse)

/-- The first part of `str::split_whitespace`, if there is any. -/
def firstWord (text : Str) : Option Str :=
  match text.dropWhile isWhitespace with
  | [] => none
  | c :: rest => some ((c :: rest).takeWhile fun c => !isWhitespace c)

/-- `str::split_whitespace`. -/
def splitWhitespace (text : Str) : List Str :=
  (text.splitOnP isWhitespace).filter fun word => !word.isEmpty

/-- `str::trim_start_matches` of a text that is not empty. -/
def trimStartStr (pat : Str) (text : Str) : Str :=
  go text.length text
where
  go : Nat → Str → Str
    | 0, text => text
    | n + 1, text =>
      match stripPrefix pat text with
      | some rest => go n rest
      | none => text

/-- `str::to_ascii_lowercase`. -/
def toAsciiLowercase (text : Str) : Str :=
  text.map fun c => if 65 ≤ c.toNat ∧ c.toNat ≤ 90 then Char.ofNat (c.toNat + 32) else c

/-- `str::eq_ignore_ascii_case`. -/
def eqIgnoreAsciiCase (a b : Str) : Bool := decide (toAsciiLowercase a = toAsciiLowercase b)

/-! ## 3. Cuts -/

/-- Two cuts of a text at its first character that fails `P` are the same. -/
theorem cut_unique {P : Char → Prop} {a a' b b' : Str} {x y : Char}
    (h : a ++ x :: b = a' ++ y :: b') (ha : ∀ c ∈ a, P c) (ha' : ∀ c ∈ a', P c) (hx : ¬ P x)
    (hy : ¬ P y) : a = a' ∧ x = y ∧ b = b' := by
  induction a generalizing a' with
  | nil =>
    cases a' with
    | nil =>
      cases h
      exact ⟨rfl, rfl, rfl⟩
    | cons c a' =>
      cases h
      exact absurd (ha' x List.mem_cons_self) hx
  | cons c a ih =>
    cases a' with
    | nil =>
      cases h
      exact absurd (ha y List.mem_cons_self) hy
    | cons c' a' =>
      rw [List.cons_append, List.cons_append, List.cons.injEq] at h
      obtain ⟨rfl, h⟩ := h
      obtain ⟨rfl, hxy, hb⟩ := ih h (fun y hy => ha y (List.mem_cons_of_mem _ hy))
        fun y hy => ha' y (List.mem_cons_of_mem _ hy)
      exact ⟨rfl, hxy, hb⟩

/-! ## 4. Searching -/

theorem stripPrefix_eq_some_iff {pat text rest : Str} :
    stripPrefix pat text = some rest ↔ text = pat ++ rest := by
  constructor
  · induction pat generalizing text with
    | nil =>
      intro h
      cases h
      rfl
    | cons p pat ih =>
      intro h
      cases text with
      | nil => cases h
      | cons c text =>
        rw [stripPrefix] at h
        split at h
        · rename_i hpc
          rw [ih h, hpc]
          rfl
        · cases h
  · rintro rfl
    exact stripPrefix_append pat rest

theorem startsWith_iff {pat text : Str} : startsWith pat text = true ↔ pat <+: text := by
  rw [startsWith, Option.isSome_iff_exists]
  constructor
  · rintro ⟨rest, h⟩
    exact ⟨rest, (stripPrefix_eq_some_iff.mp h).symm⟩
  · rintro ⟨rest, h⟩
    exact ⟨rest, stripPrefix_eq_some_iff.mpr h.symm⟩

theorem find_of_startsWith {pat text : Str} (h : startsWith pat text = true) :
    find pat text = some ([], text) := by
  cases text with
  | nil => rw [find, if_pos h]
  | cons c text => rw [find, if_pos h]

theorem find_cons_of_not {pat : Str} {c : Char} {text : Str}
    (h : startsWith pat (c :: text) = false) :
    find pat (c :: text) = (find pat text).map fun (front, rest) => (c :: front, rest) := by
  rw [find, if_neg (by rw [h]; exact Bool.false_ne_true)]

/-- What cannot begin a match is passed over. -/
theorem find_append {pat front : Str} (text : Str)
    (h : ∀ c rest, c :: rest <:+ front → startsWith pat (c :: (rest ++ text)) = false) :
    find pat (front ++ text) = (find pat text).map fun (a, rest) => (front ++ a, rest) := by
  induction front with
  | nil => exact Option.map_id'.symm
  | cons c front ih =>
    rw [List.cons_append, find_cons_of_not (h c front (List.suffix_refl _)),
      ih fun d rest hsuf => h d rest (hsuf.trans (List.suffix_cons c front)), Option.map_map]
    rfl

theorem find_append_of_not_mem {p : Char} {pat front : Str} (text : Str) (h : p ∉ front) :
    find (p :: pat) (front ++ text)
      = (find (p :: pat) text).map fun (a, rest) => (front ++ a, rest) := by
  refine find_append text fun c rest hsuf => ?_
  have hne : p ≠ c := fun hpc => h (hpc ▸ hsuf.subset List.mem_cons_self)
  rw [startsWith, stripPrefix, if_neg hne]
  rfl

/-- The first match, when nothing in front of it has the pattern's first character. -/
theorem find_first {p : Char} {pat front text : Str} (h : p ∉ front)
    (htext : startsWith (p :: pat) text = true) :
    find (p :: pat) (front ++ text) = some (front, text) := by
  rw [find_append_of_not_mem text h, find_of_startsWith htext]
  simp only [Option.map_some, List.append_nil]

/-- A match that begins in a word without the character `x` of the pattern would have to reach
past the word. -/
theorem find_append_of_break {pat front text : Str} {x : Char} (hx : x ∈ pat) (hfront : x ∉ front)
    (htext : ∀ c ∈ text.head?, c ∉ pat) :
    find pat (front ++ text) = (find pat text).map fun (a, rest) => (front ++ a, rest) := by
  refine find_append text fun c rest hsuf => ?_
  rw [Bool.eq_false_iff]
  intro h
  have hpre : pat <+: (c :: rest) ++ text := startsWith_iff.mp h
  have hx' : x ∉ c :: rest := fun hmem => hfront (hsuf.subset hmem)
  rcases List.prefix_or_prefix_of_prefix hpre (List.prefix_append _ _) with hshort | ⟨more, hmore⟩
  · exact hx' (hshort.subset hx)
  · rw [← hmore, List.prefix_append_right_inj] at hpre
    cases more with
    | nil => exact hx' (by rwa [← hmore, List.append_nil] at hx)
    | cons d more =>
      obtain ⟨tail, rfl⟩ := hpre
      refine htext d rfl ?_
      rw [← hmore]
      exact List.mem_append_right _ List.mem_cons_self

/-- The first match of a pattern that does not overlap itself. -/
theorem find_first_pair {p q : Char} (hne : p ≠ q) {front : Str} (rest : Str)
    (h : ¬ [p, q] <:+: front) :
    find [p, q] (front ++ p :: q :: rest) = some (front, p :: q :: rest) := by
  have hfront : ∀ c more, c :: more <:+ front →
      startsWith [p, q] (c :: (more ++ p :: q :: rest)) = false := by
    intro c more hsuf
    rw [Bool.eq_false_iff]
    intro hstart
    obtain ⟨tail, htail⟩ := startsWith_iff.mp hstart
    cases more with
    | nil =>
      cases htail
      exact hne rfl
    | cons d more =>
      cases htail
      exact h ((List.prefix_append [p, q] more).isInfix.trans hsuf.isInfix)
  have hstart : startsWith [p, q] (p :: q :: rest) = true := startsWith_iff.mpr ⟨rest, rfl⟩
  rw [find_append _ hfront, find_of_startsWith hstart]
  simp only [Option.map_some, List.append_nil]

theorem contains_eq_isSome (pat text : Str) : contains pat text = (find pat text).isSome := by
  induction text with
  | nil =>
    rw [contains, find]
    split
    · assumption
    · rename_i h
      simpa using h
  | cons c text ih =>
    rw [contains, find]
    split
    · rename_i h
      rw [h]
      rfl
    · rename_i h
      rw [Option.isSome_map, ← ih, Bool.eq_false_iff.mpr h, Bool.false_or]

/-! ## 5. Trimming and lines -/

/-- The text has characters, and neither its first nor its last one is white space. -/
def Tight (text : Str) : Prop :=
  (∃ c, text.head? = some c ∧ isWhitespace c = false) ∧
    ∃ c, text.getLast? = some c ∧ isWhitespace c = false

theorem tight_of_not_whitespace {text : Str} (hne : text ≠ [])
    (h : ∀ c ∈ text, isWhitespace c = false) : Tight text :=
  ⟨⟨text.head hne, List.head?_eq_some_head hne, h _ (List.head_mem hne)⟩,
    ⟨text.getLast hne, List.getLast?_eq_some_getLast hne, h _ (List.getLast_mem hne)⟩⟩

theorem tight_singleton {c : Char} (h : isWhitespace c = false) : Tight [c] :=
  ⟨⟨c, rfl, h⟩, ⟨c, rfl, h⟩⟩

theorem Tight.ne_nil {text : Str} (h : Tight text) : text ≠ [] := by
  rintro rfl
  obtain ⟨⟨c, hc, -⟩, -⟩ := h
  cases hc

theorem Tight.append {a b : Str} (ha : Tight a) (hb : Tight b) (m : Str) :
    Tight (a ++ (m ++ b)) := by
  obtain ⟨⟨c, hc, hws⟩, -⟩ := ha
  obtain ⟨-, ⟨d, hd, hws'⟩⟩ := hb
  refine ⟨⟨c, ?_, hws⟩, ⟨d, ?_, hws'⟩⟩
  · rw [List.head?_append, hc]
    rfl
  · rw [← List.append_assoc, List.getLast?_append, hd]
    rfl

theorem trimStartMatches_eq_self {p : Char → Bool} {text : Str}
    (h : ∀ c, text.head? = some c → p c = false) : trimStartMatches p text = text := by
  cases text with
  | nil => rfl
  | cons c text => rw [trimStartMatches, List.dropWhile_cons, h c rfl, if_neg Bool.false_ne_true]

theorem trimEndMatches_eq_self {p : Char → Bool} {text : Str}
    (h : ∀ c, text.getLast? = some c → p c = false) : trimEndMatches p text = text := by
  have : trimStartMatches p text.reverse = text.reverse := trimStartMatches_eq_self fun c hc =>
    h c (by rwa [List.head?_reverse] at hc)
  rw [trimEndMatches, ← trimStartMatches, this, List.reverse_reverse]

theorem trimEndMatches_append {p : Char → Bool} {text tail : Str} (h : ∀ c ∈ tail, p c = true) :
    trimEndMatches p (text ++ tail) = trimEndMatches p text := by
  rw [trimEndMatches, List.reverse_append,
    List.dropWhile_append_of_pos fun c hc => h c (List.mem_reverse.mp hc), ← trimEndMatches]

theorem Tight.trim_eq {text : Str} (h : Tight text) : trim text = text := by
  obtain ⟨⟨c, hc, hws⟩, ⟨d, hd, hws'⟩⟩ := h
  rw [trim, trimStartMatches_eq_self fun x hx => by rwa [Option.some.inj (hx.symm.trans hc)],
    trimEndMatches_eq_self fun x hx => by rwa [Option.some.inj (hx.symm.trans hd)]]

theorem Tight.trimEnd_eq {text : Str} (h : Tight text) :
    trimEndMatches isWhitespace text = text := by
  obtain ⟨-, ⟨d, hd, hws⟩⟩ := h
  exact trimEndMatches_eq_self fun x hx => by rwa [Option.some.inj (hx.symm.trans hd)]

/-- White space in front of a tight text. -/
theorem Tight.trim_append {text : Str} (h : Tight text) {front : Str}
    (hfront : ∀ c ∈ front, isWhitespace c = true) : trim (front ++ text) = text := by
  have hdrop : trimStartMatches isWhitespace (front ++ text)
      = trimStartMatches isWhitespace text := by
    rw [trimStartMatches, List.dropWhile_append_of_pos hfront]
    rfl
  rw [trim, hdrop]
  exact h.trim_eq

theorem trimStartStr_append {pat text : Str} (hpat : pat ≠ []) (h : stripPrefix pat text = none) :
    trimStartStr pat (pat ++ text) = text := by
  have hgo : ∀ n, trimStartStr.go pat n text = text := by
    intro n
    cases n with
    | zero => rfl
    | succ n => rw [trimStartStr.go, h]
  cases pat with
  | nil => exact absurd rfl hpat
  | cons p pat =>
    rw [trimStartStr, List.cons_append, List.length_cons, trimStartStr.go, ← List.cons_append,
      stripPrefix_append]
    exact hgo _

theorem splitInclusive_append {sep : Char} {line : Str} (h : sep ∉ line) (text : Str) :
    splitInclusive sep (line ++ sep :: text) = (line ++ [sep]) :: splitInclusive sep text := by
  induction line with
  | nil => rw [List.nil_append, splitInclusive, if_pos rfl]; rfl
  | cons c line ih =>
    rw [List.mem_cons, not_or] at h
    rw [List.cons_append, splitInclusive, if_neg (Ne.symm h.1), ih h.2]
    rfl

theorem stripSuffix_append (text pat : Str) : stripSuffix pat (text ++ pat) = some text := by
  rw [stripSuffix, List.reverse_append, stripPrefix_append, Option.map_some, List.reverse_reverse]

/-- A text of whole lines, none of them with a line ending of its own. -/
theorem lines_flatMap {rows : List Str}
    (h : ∀ row ∈ rows, '\n' ∉ row ∧ row.getLast? ≠ some '\r') :
    lines (rows.flatMap fun row => row ++ ['\n']) = rows := by
  induction rows with
  | nil => rfl
  | cons row rows ih =>
    obtain ⟨hlf, hcr⟩ := h row List.mem_cons_self
    have hstrip : stripSuffix ['\r'] row = none := by
      rw [stripSuffix, Option.map_eq_none_iff]
      cases hrev : row.reverse with
      | nil => rfl
      | cons c text =>
        have hc : '\r' ≠ c := by
          rintro rfl
          exact hcr (by rw [← List.head?_reverse, hrev]; rfl)
        rw [List.reverse_singleton, stripPrefix, if_neg hc]
    have ih := ih fun row hrow => h row (List.mem_cons_of_mem _ hrow)
    rw [lines] at ih ⊢
    rw [List.flatMap_cons, List.append_assoc, List.singleton_append, splitInclusive_append hlf,
      List.map_cons, ih, dropLineEnding, stripSuffix_append]
    simp only [hstrip, Option.getD_none]

/-! ## 6. Words -/

theorem mem_intercalate {sep x : Char} {words : List Str} (h : x ∈ [sep].intercalate words) :
    x = sep ∨ ∃ word ∈ words, x ∈ word := by
  induction words with
  | nil => cases h
  | cons word words ih =>
    cases words with
    | nil => exact .inr ⟨word, List.mem_cons_self, by simpa using h⟩
    | cons next words =>
      rw [List.intercalate_cons_cons, List.mem_append, List.mem_append, List.mem_singleton] at h
      rcases h with (h | h) | h
      · exact .inr ⟨word, List.mem_cons_self, h⟩
      · exact .inl h
      · obtain rfl | ⟨other, hother, hx⟩ := ih h
        · exact .inl rfl
        · exact .inr ⟨other, List.mem_cons_of_mem _ hother, hx⟩

theorem tight_intercalate {sep : Char} {words : List Str} (hne : words ≠ [])
    (h : ∀ word ∈ words, Tight word) : Tight ([sep].intercalate words) := by
  induction words with
  | nil => exact absurd rfl hne
  | cons word words ih =>
    cases words with
    | nil => simpa using h word List.mem_cons_self
    | cons next words =>
      rw [List.intercalate_cons_cons, List.append_assoc]
      exact (h word List.mem_cons_self).append
        (ih (List.cons_ne_nil _ _) fun w hw => h w (List.mem_cons_of_mem _ hw)) [sep]

theorem find_eq_some {pat text front rest : Str} (h : find pat text = some (front, rest)) :
    text = front ++ rest ∧ pat <+: rest := by
  induction text generalizing front with
  | nil =>
    rw [find] at h
    split at h
    · rename_i hpat
      cases h
      exact ⟨rfl, startsWith_iff.mp hpat⟩
    · cases h
  | cons c text ih =>
    rw [find] at h
    split at h
    · rename_i hpat
      cases h
      exact ⟨rfl, startsWith_iff.mp hpat⟩
    · obtain ⟨⟨front', rest'⟩, hfound, heq⟩ := Option.map_eq_some_iff.mp h
      cases heq
      obtain ⟨htext, hpre⟩ := ih hfound
      exact ⟨congrArg (List.cons c) htext, hpre⟩

/-- Nothing in front of the first match is a match. -/
theorem not_infix_of_find {pat text front rest : Str} (hpat : pat ≠ [])
    (h : find pat text = some (front, rest)) : ¬ pat <:+: front := by
  induction text generalizing front with
  | nil =>
    rw [find] at h
    split at h
    · cases h
      exact fun hinfix => hpat (List.infix_nil.mp hinfix)
    · cases h
  | cons c text ih =>
    rw [find] at h
    split at h
    · cases h
      exact fun hinfix => hpat (List.infix_nil.mp hinfix)
    · rename_i hstart
      obtain ⟨⟨front', rest'⟩, hfound, heq⟩ := Option.map_eq_some_iff.mp h
      cases heq
      intro hinfix
      rcases List.infix_cons_iff.mp hinfix with hpre | hinfix
      · refine hstart (startsWith_iff.mpr (hpre.trans ?_))
        rw [(find_eq_some hfound).1]
        exact List.prefix_append (c :: front') _
      · exact ih hfound hinfix

theorem find_isSome_iff {pat text : Str} : (find pat text).isSome = true ↔ pat <:+: text := by
  constructor
  · intro h
    obtain ⟨⟨front, rest⟩, hfound⟩ := Option.isSome_iff_exists.mp h
    obtain ⟨rfl, hpre⟩ := find_eq_some hfound
    exact hpre.isInfix.trans (List.suffix_append front rest).isInfix
  · rintro ⟨front, rest, rfl⟩
    induction front with
    | nil =>
      rw [List.nil_append, find_of_startsWith (startsWith_iff.mpr (List.prefix_append pat rest))]
      rfl
    | cons c front ih =>
      rw [List.cons_append, List.cons_append, find]
      split
      · rfl
      · rw [Option.isSome_map]
        exact ih

theorem contains_iff {pat text : Str} : contains pat text = true ↔ pat <:+: text := by
  rw [contains_eq_isSome, find_isSome_iff]

theorem find_eq_none_iff {pat text : Str} : find pat text = none ↔ ¬ pat <:+: text := by
  rw [← find_isSome_iff, Bool.not_eq_true, Option.isSome_eq_false_iff, Option.isNone_iff_eq_none]

/-- One more character of the last word. -/
theorem splitOn_concat {sep x : Char} (hx : x ≠ sep) {text : Str} (front : List Str) {last : Str}
    (h : text.splitOn sep = front ++ [last]) :
    (text ++ [x]).splitOn sep = front ++ [last ++ [x]] := by
  induction text generalizing front last with
  | nil =>
    rw [List.splitOn_nil] at h
    have hnil : front = [] := by
      cases front with
      | nil => rfl
      | cons _ front => exact absurd (List.cons.inj h).2.symm (List.append_ne_nil_of_right_ne_nil _
          (List.cons_ne_nil _ _))
    subst hnil
    cases h
    rw [List.nil_append, List.splitOn_eq_singleton (by simpa using Ne.symm hx)]
    rfl
  | cons c text ih =>
    have hne := List.splitOn_ne_nil sep text
    rw [List.splitOn_cons_eq_if_modifyHead] at h
    rw [List.cons_append, List.splitOn_cons_eq_if_modifyHead]
    split at h
    · rename_i hc
      rw [if_pos hc]
      cases front with
      | nil => exact absurd (List.cons.inj h).2 hne
      | cons first front => rw [ih front (List.cons.inj h).2, (List.cons.inj h).1]; rfl
    · rename_i hc
      rw [if_neg hc]
      cases hsplit : text.splitOn sep with
      | nil => exact absurd hsplit hne
      | cons word words =>
        rw [hsplit, List.modifyHead_cons] at h
        cases front with
        | nil =>
          obtain ⟨rfl, rfl⟩ := List.cons.inj h
          rw [ih [] hsplit]
          rfl
        | cons first front =>
          obtain ⟨rfl, rfl⟩ := List.cons.inj h
          rw [ih (word :: front) hsplit]
          rfl

/-- What ends at a separator ends a word, and not the last one. -/
theorem word_of_infix_sep (sep : Char) {w text : Str} (hw : sep ∉ w) (h : w ++ [sep] <:+: text) :
    ∃ word ∈ (text.splitOn sep).dropLast, w <:+ word := by
  obtain ⟨a, b, rfl⟩ := h
  have hsplit : (a ++ (w ++ [sep]) ++ b).splitOn sep
      = (a ++ w).splitOn sep ++ b.splitOn sep := by
    rw [← List.splitOn_append_cons_self (a ++ w) b]
    simp only [List.append_assoc, List.cons_append, List.nil_append]
  have hlast : ∃ front word, (a ++ w).splitOn sep = front ++ [word] ∧ w <:+ word := by
    clear hsplit
    induction a with
    | nil => exact ⟨[], w, List.splitOn_eq_singleton hw, List.suffix_refl w⟩
    | cons c a ih =>
      obtain ⟨front, word, hfront, hsuf⟩ := ih
      rw [List.cons_append, List.splitOn_cons_eq_if_modifyHead, hfront]
      split
      · exact ⟨[] :: front, word, rfl, hsuf⟩
      · cases front with
        | nil => exact ⟨[], c :: word, rfl, hsuf.trans (List.suffix_cons c word)⟩
        | cons first front => exact ⟨(c :: first) :: front, word, rfl, hsuf⟩
  obtain ⟨front, word, hfront, hsuf⟩ := hlast
  refine ⟨word, ?_, hsuf⟩
  rw [hsplit, hfront, List.dropLast_append_of_ne_nil (List.splitOn_ne_nil _ _)]
  exact List.mem_append_left _ (List.mem_append_right _ (List.mem_singleton_self _))

/-- What stands between separators is a word, and not the last one. -/
theorem word_of_sep_infix_sep (sep : Char) {w text : Str} (hw : sep ∉ w)
    (h : sep :: (w ++ [sep]) <:+: text) : w ∈ (text.splitOn sep).dropLast := by
  obtain ⟨a, b, rfl⟩ := h
  have hsplit : (a ++ sep :: (w ++ [sep]) ++ b).splitOn sep
      = a.splitOn sep ++ w :: b.splitOn sep := by
    rw [← List.splitOn_append_cons_self_of_not_mem hw b, ← List.splitOn_append_cons_self a]
    simp only [List.append_assoc, List.cons_append, List.nil_append]
  rw [hsplit, List.dropLast_append_of_ne_nil (List.cons_ne_nil _ _),
    List.dropLast_cons_of_ne_nil (List.splitOn_ne_nil _ _)]
  exact List.mem_append_right _ List.mem_cons_self

/-- What holds no separator lies inside a word. -/
theorem word_of_infix {sep : Char} {w text : Str} (hw : sep ∉ w) (h : w <:+: text) :
    ∃ word ∈ text.splitOn sep, w <:+: word := by
  obtain ⟨a, b, rfl⟩ := h
  induction a with
  | nil =>
    rw [List.nil_append]
    obtain ⟨first, words, hfirst⟩ := List.exists_cons_of_ne_nil (List.splitOn_ne_nil sep b)
    have hsplit : (w ++ b).splitOn sep = (w ++ first) :: words := by
      induction w with
      | nil => exact hfirst
      | cons c w ih =>
        rw [List.mem_cons, not_or] at hw
        rw [List.cons_append, List.splitOn_cons_eq_if_modifyHead, ih hw.2,
          if_neg (by simpa using Ne.symm hw.1)]
        rfl
    exact ⟨_, hsplit ▸ List.mem_cons_self, (List.prefix_append w first).isInfix⟩
  | cons c a ih =>
    obtain ⟨word, hword, hin⟩ := ih
    rw [List.cons_append, List.cons_append, List.splitOn_cons_eq_if_modifyHead]
    split
    · exact ⟨word, List.mem_cons_of_mem _ hword, hin⟩
    · cases hsplit : (a ++ w ++ b).splitOn sep with
      | nil => exact absurd hsplit (List.splitOn_ne_nil _ _)
      | cons first words =>
        rw [hsplit] at hword
        rcases List.mem_cons.mp hword with rfl | hword
        · exact ⟨_, List.mem_cons_self, hin.trans (List.suffix_cons c word).isInfix⟩
        · exact ⟨word, List.mem_cons_of_mem _ hword, hin⟩

/-- A word stands inside the text of all words. -/
theorem infix_intercalate (sep : Char) {words : List Str} {word : Str} (h : word ∈ words) :
    word <:+: [sep].intercalate words := by
  induction words with
  | nil => cases h
  | cons first words ih =>
    cases words with
    | nil =>
      have hsame : [sep].intercalate [first] = word := by
        rw [List.intercalate_singleton, List.mem_singleton.mp h]
      exact hsame ▸ List.infix_refl word
    | cons next words =>
      rw [List.intercalate_cons_cons]
      rcases List.mem_cons.mp h with rfl | h
      · rw [List.append_assoc]
        exact (List.prefix_append word _).isInfix
      · exact (ih h).trans (List.suffix_append _ _).isInfix

theorem infix_of_mem_splitOn {sep : Char} {text word : Str} (h : word ∈ text.splitOn sep) :
    word <:+: text := by
  have := infix_intercalate sep h
  rwa [List.intercalate_splitOn] at this

theorem not_mem_of_mem_splitOn {sep : Char} {text word : Str} (h : word ∈ text.splitOn sep) :
    sep ∉ word := by
  induction text generalizing word with
  | nil =>
    rw [List.splitOn_nil, List.mem_singleton] at h
    exact h ▸ List.not_mem_nil
  | cons c text ih =>
    rw [List.splitOn, List.splitOnP_cons_eq_if_modifyHead] at h
    split at h
    · rcases List.mem_cons.mp h with rfl | h
      · exact List.not_mem_nil
      · exact ih h
    · rename_i hc
      obtain ⟨first, rest, hsplit⟩ :=
        List.exists_cons_of_ne_nil (List.splitOnP_ne_nil (· == sep) text)
      rw [List.splitOn, hsplit] at ih
      rw [hsplit, List.modifyHead_cons] at h
      rcases List.mem_cons.mp h with rfl | h
      · rw [List.mem_cons, not_or]
        exact ⟨fun heq => hc (beq_iff_eq.mpr heq.symm), ih List.mem_cons_self⟩
      · exact ih (List.mem_cons_of_mem _ h)
/-- What holds no separator is looked for word by word. -/
theorem contains_intercalate {sep : Char} {pat : Str} {words : List Str} (hpat : sep ∉ pat)
    (hne : words ≠ []) (h : ∀ word ∈ words, sep ∉ word) :
    contains pat ([sep].intercalate words) = words.any (contains pat) := by
  rw [Bool.eq_iff_iff, contains_iff, List.any_eq_true]
  constructor
  · intro hin
    obtain ⟨word, hword, hin⟩ := word_of_infix hpat hin
    rw [List.splitOn_intercalate sep h hne] at hword
    exact ⟨word, hword, contains_iff.mpr hin⟩
  · rintro ⟨word, hword, hin⟩
    exact (contains_iff.mp hin).trans (infix_intercalate sep hword)

theorem toAsciiLowercase_append (a b : Str) :
    toAsciiLowercase (a ++ b) = toAsciiLowercase a ++ toAsciiLowercase b :=
  List.map_append

theorem toAsciiLowercase_intercalate {sep : Char} (hsep : toAsciiLowercase [sep] = [sep])
    (words : List Str) : toAsciiLowercase ([sep].intercalate words)
      = [sep].intercalate (words.map toAsciiLowercase) := by
  induction words with
  | nil => rfl
  | cons word words ih =>
    cases words with
    | nil => rw [List.map_singleton, List.intercalate_singleton, List.intercalate_singleton]
    | cons next words =>
      rw [List.intercalate_cons_cons, toAsciiLowercase_append, toAsciiLowercase_append, hsep, ih]
      exact List.intercalate_cons_cons.symm

/-- Lowering yields no character but small letters. -/
theorem mem_of_mem_toAsciiLowercase {c : Char} {text : Str} (hc : c.toNat < 97)
    (h : c ∈ toAsciiLowercase text) : c ∈ text := by
  obtain ⟨d, hd, rfl⟩ := List.mem_map.mp h
  split at hc
  · rename_i hupper
    have hnat : (Char.ofNat (d.toNat + 32)).toNat = d.toNat + 32 :=
      toNat_ofNat_of_valid (by omega)
    omega
  · rename_i hupper
    rw [if_neg hupper]
    exact hd

theorem stripSuffix_eq_some_iff {pat text rest : Str} :
    stripSuffix pat text = some rest ↔ text = rest ++ pat := by
  rw [stripSuffix, Option.map_eq_some_iff]
  constructor
  · rintro ⟨front, hfront, rfl⟩
    rw [← List.reverse_reverse text, stripPrefix_eq_some_iff.mp hfront, List.reverse_append,
      List.reverse_reverse]
  · intro h
    exact ⟨rest.reverse, stripPrefix_eq_some_iff.mpr (by rw [h, List.reverse_append]),
      List.reverse_reverse rest⟩

theorem endsWith_iff {pat text : Str} : endsWith pat text = true ↔ pat <:+ text := by
  rw [endsWith, stripSuffix, Option.isSome_map, ← startsWith, startsWith_iff,
    List.reverse_prefix]

/-- The first separator. -/
theorem splitOnce_eq_some_iff {sep : Char} {text a b : Str} :
    splitOnce sep text = some (a, b) ↔ text = a ++ sep :: b ∧ sep ∉ a := by
  induction text generalizing a with
  | nil =>
    constructor
    · exact nofun
    · rintro ⟨h, -⟩
      exact absurd h.symm (List.append_ne_nil_of_right_ne_nil _ (List.cons_ne_nil _ _))
  | cons c text ih =>
    rw [splitOnce]
    by_cases hc : c = sep
    · rw [if_pos hc, hc]
      constructor
      · rintro ⟨⟩
        exact ⟨rfl, List.not_mem_nil⟩
      · rintro ⟨heq, hnot⟩
        cases a with
        | nil =>
          cases heq
          rfl
        | cons x a =>
          cases heq
          exact absurd List.mem_cons_self hnot
    · rw [if_neg hc, Option.map_eq_some_iff]
      constructor
      · rintro ⟨⟨x, y⟩, hsplit, heq⟩
        cases heq
        obtain ⟨rfl, hnot⟩ := ih.mp hsplit
        exact ⟨rfl, fun hmem => (List.mem_cons.mp hmem).elim (fun h => hc h.symm) hnot⟩
      · rintro ⟨heq, hnot⟩
        cases a with
        | nil =>
          cases heq
          exact absurd rfl hc
        | cons x a =>
          cases heq
          exact ⟨(a, b), ih.mpr ⟨rfl, fun hmem => hnot (List.mem_cons_of_mem _ hmem)⟩, rfl⟩

end Text
