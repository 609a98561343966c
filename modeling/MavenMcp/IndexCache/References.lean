/-
# References to the environment

A POM that names `${env.NAME}` makes the classpath of a project depend on a variable, so
`src/index_cache/maven_environment.rs` looks for such names in every file that Maven interpolates.
An XML parser hands Maven the characters that references such as `&#95;` stand for: the scan reads a
file both as it is and with its references decoded, and gives up where a named entity could stand
for anything.

`Writes bytes text` says that the bytes are some writing of a text, each character by itself or as a
decimal or hexadecimal reference that is not too long.  `envReferences_complete` says that no
writing of `${env.NAME}` is missed, whatever stands before it: a reference that fails to decode is
passed over byte by byte, and nothing in front of a writing swallows its first byte.
-/
import MavenMcp.Lib.Json
import MavenMcp.Lib.Utf8

namespace MavenMcp
namespace IndexCache

open Text
open Json (hexDigitValue)

/-! ## 1. The scan -/

/-- A character of ASCII. -/
def ascii (c : Char) : UInt8 := UInt8.ofNat c.toNat

/-- `ENV_PROPERTY_PREFIX`. -/
def envPropertyPrefix : List UInt8 := Utf8.encode "env.".toList

/-- `MAX_XML_REFERENCE_BYTES`. -/
def maxXmlReferenceBytes : Nat := 32

def isNameChar (c : Char) : Bool := c.isAlphanum || c = '_'

def isPropertyChar (c : Char) : Bool := isNameChar c || c = '.' || c = '-'

def isPropertyByte (b : UInt8) : Bool :=
  decide (b.toNat < 0x80) && isPropertyChar (Char.ofNat b.toNat)

/-- The property name at the start of a text, without trailing punctuation. -/
def propertyName (text : List UInt8) : Option Str := do
  let name ← Utf8.decode (text.takeWhile isPropertyByte)
  let name := trimEndMatches (fun c => c = '.' || c = '-') name
  if name = [] then none else some name

/-- The name of the reference that begins here, behind the byte `prev`. -/
def referenceAt (prev : Option UInt8) (text : List UInt8) : Option Str :=
  if envPropertyPrefix <+: text ∧ prev.all (!isPropertyByte ·) then
    propertyName (text.drop envPropertyPrefix.length)
  else none

/-- The references of a text behind the byte `prev`. -/
def referencesFrom (prev : Option UInt8) : List UInt8 → List Str
  | [] => []
  | b :: text => (referenceAt prev (b :: text)).toList ++ referencesFrom (some b) text

def literalEnvReferences (text : List UInt8) : List Str := referencesFrom none text

/-- The number that digits of a radix spell. -/
def readDigits (radix : Nat) (digits : Str) : Option Nat :=
  digits.foldlM (fun n c => ((hexDigitValue c).filter (· < radix)).map (radix * n + ·)) 0

/-- Numbers may have a plus sign. -/
def stripPlus (text : Str) : Str := if text.head? = some '+' then text.drop 1 else text

/-- `u32::from_str_radix`. -/
def parseU32 (radix : Nat) (text : Str) : Option Nat :=
  if stripPlus text = [] then none else (readDigits radix (stripPlus text)).filter (· < 2 ^ 32)

/-- `char::from_u32`. -/
def charFromU32 (n : Nat) : Option Char := if n.isValidChar then some (Char.ofNat n) else none

inductive XmlReference
  | character (c : Char)
  | unknownEntity
  | literal
deriving DecidableEq, Repr

def isEntityName (name : Str) : Bool :=
  name ≠ [] && name.all fun c => c.isAlphanum || c = '_' || c = '-' || c = '.' || c = ':'

/-- The predefined entities. -/
def predefinedEntities : List (Str × Char) :=
  [("lt".toList, '<'), ("gt".toList, '>'), ("amp".toList, '&'), ("quot".toList, '"'),
    ("apos".toList, '\'')]

/-- A code as `xml_reference` takes it. -/
def codeReference (code : Option Nat) : XmlReference :=
  match code.bind charFromU32 with
  | some c => .character c
  | none => .literal

/-- The meaning of what stands between `&` and `;`. -/
def xmlReference (body : List UInt8) : XmlReference :=
  match Utf8.decode body with
  | none => .literal
  | some body =>
    match stripPrefix "#x".toList body with
    | some hexadecimal => codeReference (parseU32 16 hexadecimal)
    | none =>
      match stripPrefix ['#'] body with
      | some decimal => codeReference (parseU32 10 decimal)
      | none =>
        match predefinedEntities.lookup body with
        | some c => .character c
        | none => if isEntityName body then .unknownEntity else .literal

/-- What stands between `&` and `;`, where the bytes are those after `&`. -/
def referenceBody (rest : List UInt8) : Option (List UInt8) :=
  if ascii ';' ∈ rest.take (maxXmlReferenceBytes - 1) then
    some (rest.takeWhile (· ≠ ascii ';'))
  else none

/-- The loop of `decode_xml_references`; `skip` bytes belong to the last reference. -/
def decodeFrom : Nat → List UInt8 → Option (List UInt8)
  | _, [] => some []
  | skip + 1, _ :: rest => decodeFrom skip rest
  | 0, b :: rest =>
    if b ≠ ascii '&' then (decodeFrom 0 rest).map (b :: ·)
    else
      match (referenceBody rest).map fun body => (body.length + 1, xmlReference body) with
      | some (stop, .character c) => (decodeFrom stop rest).map (Utf8.encodeChar c ++ ·)
      | some (_, .unknownEntity) => none
      | some (_, .literal) | none => (decodeFrom 0 rest).map (b :: ·)

def decodeXmlReferences (text : List UInt8) : Option (List UInt8) := decodeFrom 0 text

def envReferences (text : List UInt8) : Option (List Str) := do
  let decoded ← decodeXmlReferences text
  some (literalEnvReferences text ++ literalEnvReferences decoded)

example : envReferences (Utf8.encode "&x $&#123;env.A&#95;B\x7d".toList)
    = some ["A".toList, "A_B".toList] := by
  decide +kernel

/-! ## 2. Writings -/

/-- The bytes are a writing of the character. -/
inductive Spells : Char → List UInt8 → Prop
  | literal (c : Char) : Spells c (Utf8.encodeChar c)
  | decimal {c : Char} {digits : Str} (hvalue : readDigits 10 digits = some c.toNat)
      (hne : digits ≠ []) (hlength : digits.length + 3 ≤ maxXmlReferenceBytes) :
      Spells c (Utf8.encode ("&#".toList ++ digits ++ [';']))
  | hexadecimal {c : Char} {digits : Str} (hvalue : readDigits 16 digits = some c.toNat)
      (hne : digits ≠ []) (hlength : digits.length + 4 ≤ maxXmlReferenceBytes) :
      Spells c (Utf8.encode ("&#x".toList ++ digits ++ [';']))

/-- The bytes are a writing of the text. -/
inductive Writes : List UInt8 → Str → Prop
  | nil : Writes [] []
  | cons {c : Char} {text : Str} {bytes bytes' : List UInt8} (hc : Spells c bytes)
      (htext : Writes bytes' text) : Writes (bytes ++ bytes') (c :: text)

theorem writes_encode (text : Str) : Writes (Utf8.encode text) text := by
  induction text with
  | nil => exact .nil
  | cons c text ih => exact .cons (.literal c) ih

theorem Writes.append {bytes bytes' : List UInt8} {text text' : Str} (h : Writes bytes text)
    (h' : Writes bytes' text') : Writes (bytes ++ bytes') (text ++ text') := by
  induction h with
  | nil => exact h'
  | cons hc _ ih =>
    rw [List.append_assoc]
    exact .cons hc ih

/-- `${env.NAME}` -/
def marker (name : Str) : Str :=
  '$' :: Char.ofNat 123 :: ("env.".toList ++ name ++ [Char.ofNat 125])

/-! ## 3. Digits -/

section

variable {radix n : Nat} {digits : Str} {c : Char}

/-- Only digits are read. -/
theorem isSome_of_readDigits (h : readDigits radix digits = some n) (hc : c ∈ digits) :
    ((hexDigitValue c).filter (· < radix)).isSome = true := by
  have hall : ∀ (digits : Str) (m : Nat), (digits.foldlM (fun n c =>
      ((hexDigitValue c).filter (· < radix)).map (radix * n + ·)) m).isSome = true →
      ∀ c ∈ digits, ((hexDigitValue c).filter (· < radix)).isSome = true := by
    intro digits
    induction digits with
    | nil => exact fun _ _ _ => nofun
    | cons d digits ih =>
      intro m hsome
      rw [List.foldlM_cons] at hsome
      cases hd : (hexDigitValue d).filter (· < radix) with
      | none =>
        rw [hd] at hsome
        cases hsome
      | some k =>
        rw [hd] at hsome
        exact List.forall_mem_cons.mpr ⟨by rw [hd]; rfl, ih _ hsome⟩
  exact hall digits 0 (by rw [readDigits] at h; rw [h]; rfl) c hc

/-- A digit is one of ASCII, and none of these. -/
theorem hexDigitValue_ascii (h : (hexDigitValue c).isSome = true) :
    c.toNat < 0x80 ∧ c ≠ ';' ∧ c ≠ '+' ∧ c ≠ 'x' ∧ c ≠ '&' ∧ c ≠ '$' := by
  refine ⟨?_, ?_⟩
  · unfold hexDigitValue at h
    split at h
    · rename_i hdigit
      have := hdigit
      simp only [Char.isDigit, Bool.and_eq_true, decide_eq_true_eq] at this
      have hle : c.toNat ≤ 57 := UInt32.le_iff_toNat_le.mp this.2
      omega
    · split at h
      · rename_i hlower
        have hle : c.toNat ≤ 102 := UInt32.le_iff_toNat_le.mp hlower.2
        omega
      · split at h
        · rename_i hupper
          have hle : c.toNat ≤ 70 := UInt32.le_iff_toNat_le.mp hupper.2
          omega
        · cases h
  · refine ⟨?_, ?_, ?_, ?_, ?_⟩
    all_goals
      rintro rfl
      exact absurd h (by decide)

theorem digit_of_readDigits (h : readDigits radix digits = some n) (hc : c ∈ digits) :
    (hexDigitValue c).isSome = true := by
  have hsome := isSome_of_readDigits h hc
  cases hvalue : hexDigitValue c with
  | none =>
    rw [hvalue] at hsome
    cases hsome
  | some k => rfl

theorem parseU32_of_digits (h : readDigits radix digits = some n) (hne : digits ≠ [])
    (hn : n < 2 ^ 32) : parseU32 radix digits = some n := by
  have hplus : stripPlus digits = digits := by
    refine if_neg fun hhead => ?_
    exact (hexDigitValue_ascii (digit_of_readDigits h (List.mem_of_head? hhead))).2.2.1 rfl
  rw [parseU32, hplus, if_neg hne, h, Option.filter_some, if_pos (decide_eq_true hn)]

/-- What is read as a number has nothing but a sign and digits. -/
theorem parseU32_eq_none {text : Str} (hc : c ∈ text) (hplus : c ≠ '+')
    (hdigit : hexDigitValue c = none) : parseU32 radix text = none := by
  have hmem : c ∈ stripPlus text := by
    rw [stripPlus]
    split
    · rename_i hhead
      rw [List.eq_cons_of_mem_head? hhead] at hc
      rw [List.drop_one]
      exact (List.mem_cons.mp hc).resolve_left hplus
    · exact hc
  have hread : readDigits radix (stripPlus text) = none := by
    cases h : readDigits radix (stripPlus text) with
    | none => rfl
    | some n =>
      have hsome := digit_of_readDigits h hmem
      rw [hdigit] at hsome
      cases hsome
  rw [parseU32, hread, Option.filter_none, ite_self]

end

/-! ## 4. Decoding -/

theorem toNat_ascii {c : Char} (h : c.toNat < 0x80) : (ascii c).toNat = c.toNat :=
  Utf8.toNat_ofNat (by omega)

theorem encodeChar_ascii {c : Char} (h : c.toNat < 0x80) : Utf8.encodeChar c = [ascii c] := by
  unfold Utf8.encodeChar
  rw [if_pos h]
  rfl

/-- A byte of ASCII stands for its character. -/
theorem mem_of_ascii_mem_encode {c : Char} {text : Str} (hc : c.toNat < 0x80)
    (h : ascii c ∈ Utf8.encode text) : c ∈ text := by
  have hmem := Utf8.mem_encode_ascii (by rwa [toNat_ascii hc]) h
  rwa [toNat_ascii hc, Char.ofNat_toNat] at hmem

theorem length_encode_ascii {text : Str} (h : ∀ c ∈ text, c.toNat < 0x80) :
    (Utf8.encode text).length = text.length := by
  induction text with
  | nil => rfl
  | cons c text ih =>
    obtain ⟨hc, htext⟩ := List.forall_mem_cons.mp h
    rw [Utf8.encode_cons, encodeChar_ascii hc, List.length_append, ih htext, List.length_singleton,
      List.length_cons, Nat.add_comm]

section

variable {rest body : List UInt8} {c : Char}

theorem takeWhile_semicolon (more : List UInt8) (h : ascii ';' ∉ body) :
    (body ++ ascii ';' :: more).takeWhile (· ≠ ascii ';') = body := by
  rw [List.takeWhile_append_of_pos, List.takeWhile_cons_of_neg, List.append_nil]
  · simp
  · intro b hb
    exact decide_eq_true fun heq => h (heq ▸ hb)

theorem referenceBody_eq_some (h : referenceBody rest = some body) :
    ∃ more, rest = body ++ ascii ';' :: more ∧ ascii ';' ∉ body := by
  rw [referenceBody] at h
  split at h
  · rename_i hmem
    obtain ⟨front, more, rfl, hfront⟩ := List.eq_append_cons_of_mem (List.mem_of_mem_take hmem)
    rw [takeWhile_semicolon more hfront] at h
    cases h
    exact ⟨more, rfl, hfront⟩
  · cases h

theorem referenceBody_append (more : List UInt8) (h : ascii ';' ∉ body)
    (hlength : body.length + 2 ≤ maxXmlReferenceBytes) :
    referenceBody (body ++ ascii ';' :: more) = some body := by
  have hlimit : maxXmlReferenceBytes = 32 := rfl
  have hmem : ascii ';' ∈ (body ++ ascii ';' :: more).take (maxXmlReferenceBytes - 1) := by
    obtain ⟨k, hk⟩ : ∃ k, maxXmlReferenceBytes - 1 = body.length + (k + 1) :=
      ⟨maxXmlReferenceBytes - 1 - body.length - 1, by omega⟩
    rw [hk, List.take_length_add_append, List.take_succ_cons]
    exact List.mem_append_right _ List.mem_cons_self
  rw [referenceBody, if_pos hmem, takeWhile_semicolon more h]

/-- What has one of these characters is no reference. -/
theorem xmlReference_of_mem {x : Char} (hx : x = '&' ∨ x = '$') (h : ascii x ∈ body) :
    xmlReference body = .literal := by
  have hfacts : x.toNat < 0x80 ∧ x ≠ '+' ∧ x ≠ '#' ∧ x ≠ 'x' ∧ hexDigitValue x = none ∧
      isEntityName [x] = false ∧ ∀ entry ∈ predefinedEntities, x ∉ entry.1 := by
    rcases hx with rfl | rfl
    · decide
    · decide
  obtain ⟨hascii, hplus, hhash, hex, hdigit, hname, hentities⟩ := hfacts
  unfold xmlReference
  split
  · rfl
  · rename_i text hdecode
    rw [Utf8.decode_eq_some_iff] at hdecode
    have hmem : x ∈ text := mem_of_ascii_mem_encode hascii (hdecode ▸ h)
    split
    · rename_i hexadecimal hstrip
      rw [stripPrefix_eq_some_iff] at hstrip
      have hrest : x ∈ hexadecimal := by
        rw [hstrip] at hmem
        simpa [hhash, hex] using hmem
      rw [codeReference, parseU32_eq_none hrest hplus hdigit]
      rfl
    · split
      · rename_i decimal hstrip
        rw [stripPrefix_eq_some_iff] at hstrip
        have hrest : x ∈ decimal := by
          rw [hstrip] at hmem
          simpa [hhash] using hmem
        rw [codeReference, parseU32_eq_none hrest hplus hdigit]
        rfl
      · split
        · rename_i e hlookup
          obtain ⟨before, after, heq, -⟩ := List.lookup_eq_some_iff.mp hlookup
          exact absurd hmem (hentities _ (heq ▸ List.mem_append_right _ List.mem_cons_self))
        · have hfalse : isEntityName text = false := by
            simp only [isEntityName, Bool.and_eq_false_iff]
            refine .inr (List.all_eq_false.mpr ⟨x, hmem, ?_⟩)
            simpa [isEntityName] using hname
          rw [hfalse]
          rfl

theorem decodeFrom_skip (n : Nat) (rest : List UInt8) :
    decodeFrom n rest = decodeFrom 0 (rest.drop n) := by
  induction n generalizing rest with
  | zero => rfl
  | succ n ih =>
    cases rest with
    | nil => rfl
    | cons b rest => exact ih rest

/-- What is no ampersand stays as it is. -/
theorem decodeFrom_append_of_not_mem {front : List UInt8} (rest : List UInt8)
    (h : ascii '&' ∉ front) :
    decodeFrom 0 (front ++ rest) = (decodeFrom 0 rest).map (front ++ ·) := by
  induction front with
  | nil => exact Option.map_id'.symm
  | cons b front ih =>
    have hb : b ≠ ascii '&' := fun heq => h (heq ▸ List.mem_cons_self)
    rw [List.cons_append, decodeFrom, if_pos hb, ih fun hmem => h (List.mem_cons_of_mem _ hmem),
      Option.map_map]
    rfl

/-- A reference to a character. -/
theorem decodeFrom_character (rest : List UInt8) (hsemicolon : ascii ';' ∉ body)
    (hlength : body.length + 2 ≤ maxXmlReferenceBytes) (hbody : xmlReference body = .character c) :
    decodeFrom 0 (ascii '&' :: (body ++ ascii ';' :: rest))
      = (decodeFrom 0 rest).map (Utf8.encodeChar c ++ ·) := by
  have hdrop : (body ++ ascii ';' :: rest).drop (body.length + 1) = rest :=
    List.drop_length_add_append 1
  rw [decodeFrom, if_neg (by simp), referenceBody_append rest hsemicolon hlength]
  simp only [Option.map_some, hbody]
  rw [decodeFrom_skip, hdrop]

/-- A reference that is none of these ends in front of them. -/
theorem front_of_referenceBody {x : Char} (hx : x = '&' ∨ x = '$') {front : List UInt8}
    (h : referenceBody (front ++ ascii x :: rest) = some body)
    (hbody : xmlReference body ≠ .literal) : ∃ front', front = body ++ ascii ';' :: front' := by
  have hne : ascii x ≠ ascii ';' := by
    rcases hx with rfl | rfl
    · decide
    · decide
  obtain ⟨more, heq, -⟩ := referenceBody_eq_some h
  rcases List.append_eq_append_iff.mp heq with ⟨tail, rfl, hrest⟩ | ⟨tail, rfl, hrest⟩
  · cases tail with
    | nil => exact absurd (List.cons.inj hrest).1 hne
    | cons b tail =>
      obtain ⟨rfl, -⟩ := List.cons.inj hrest
      exact absurd (xmlReference_of_mem hx (List.mem_append_right _ List.mem_cons_self)) hbody
  · cases tail with
    | nil => exact absurd (List.cons.inj hrest).1.symm hne
    | cons b tail =>
      obtain ⟨rfl, -⟩ := List.cons.inj hrest
      exact ⟨tail, rfl⟩

/-- **What stands in front** of a writing is decoded for itself, or nothing is decoded. -/
theorem decodeFrom_append {x : Char} (hx : x = '&' ∨ x = '$') (front : List UInt8) :
    decodeFrom 0 (front ++ ascii x :: rest) = none ∨
      ∃ out, decodeFrom 0 (front ++ ascii x :: rest)
        = (decodeFrom 0 (ascii x :: rest)).map (out ++ ·) := by
  -- by the length of what stands in front, since a reference takes many bytes of it at once
  induction hlength : front.length using Nat.strongRecOn generalizing front with
  | ind n ih =>
    cases front with
    | nil => exact .inr ⟨[], Option.map_id'.symm⟩
    | cons b front =>
      have hnext : ∀ (k : Nat) (bytes : List UInt8), k ≤ front.length →
          (decodeFrom 0 (front.drop k ++ ascii x :: rest)).map (bytes ++ ·) = none ∨
            ∃ out, (decodeFrom 0 (front.drop k ++ ascii x :: rest)).map (bytes ++ ·)
              = (decodeFrom 0 (ascii x :: rest)).map (out ++ ·) := by
        intro k bytes hk
        have hlt : (front.drop k).length < n := by
          rw [List.length_drop]
          rw [List.length_cons] at hlength
          omega
        rcases ih _ hlt (front.drop k) rfl with hnone | ⟨out, hsome⟩
        · exact .inl (by rw [hnone]; rfl)
        · refine .inr ⟨bytes ++ out, ?_⟩
          rw [hsome, Option.map_map]
          simp only [Function.comp_def, List.append_assoc]
      rw [List.cons_append, decodeFrom]
      split
      · exact hnext 0 [b] (Nat.zero_le _)
      · split
        · rename_i stop c hreference
          obtain ⟨body, hbody, heq⟩ := Option.map_eq_some_iff.mp hreference
          obtain ⟨rfl, hcharacter⟩ := Prod.mk.inj heq
          obtain ⟨front', rfl⟩ := front_of_referenceBody hx hbody (by rw [hcharacter]; exact nofun)
          rw [decodeFrom_skip, List.append_assoc, List.drop_length_add_append]
          have hskip := hnext (body.length + 1) (Utf8.encodeChar c) (by simp)
          rwa [List.drop_length_add_append] at hskip
        · exact .inl rfl
        · exact hnext 0 [b] (Nat.zero_le _)
        · exact hnext 0 [b] (Nat.zero_le _)

theorem codeReference_toNat (c : Char) : codeReference (some c.toNat) = .character c := by
  have hvalid : c.toNat.isValidChar := c.valid
  rw [codeReference, Option.bind_some, charFromU32, if_pos hvalid, Char.ofNat_toNat]

theorem toNat_lt (c : Char) : c.toNat < 2 ^ 32 := by
  have := Utf8.toNat_bounds c
  omega

/-- A reference by a code, behind what tells its radix. -/
theorem decodeFrom_code {radix : Nat} (front : Str) {digits : Str}
    (hfront : ∀ d ∈ front, d.toNat < 0x80 ∧ d ≠ ';')
    (hvalue : readDigits radix digits = some c.toNat)
    (hlength : front.length + digits.length + 2 ≤ maxXmlReferenceBytes)
    (hcode : xmlReference (Utf8.encode (front ++ digits)) = codeReference (parseU32 radix digits))
    (hne : digits ≠ []) (rest : List UInt8) :
    decodeFrom 0 (Utf8.encode ('&' :: (front ++ digits) ++ [';']) ++ rest)
      = (decodeFrom 0 rest).map (Utf8.encodeChar c ++ ·) := by
  have hbody : ∀ d ∈ front ++ digits, d.toNat < 0x80 ∧ d ≠ ';' := by
    intro d hd
    rcases List.mem_append.mp hd with hd | hd
    · exact hfront d hd
    · have h := hexDigitValue_ascii (digit_of_readDigits hvalue hd)
      exact ⟨h.1, h.2.1⟩
  have hsplit : Utf8.encode ('&' :: (front ++ digits) ++ [';']) ++ rest
      = ascii '&' :: (Utf8.encode (front ++ digits) ++ ascii ';' :: rest) := by
    rw [List.cons_append, Utf8.encode_cons, Utf8.encode_append, List.append_assoc,
      List.append_assoc]
    rfl
  rw [hsplit]
  refine decodeFrom_character rest (fun hmem => ?_) ?_ ?_
  · exact (hbody _ (mem_of_ascii_mem_encode (by decide) hmem)).2 rfl
  · rwa [length_encode_ascii fun d hd => (hbody d hd).1, List.length_append]
  · rw [hcode, parseU32_of_digits hvalue hne (toNat_lt c), codeReference_toNat]

/-- **A writing of a character** is decoded. -/
theorem decodeFrom_spells {bytes : List UInt8} (h : Spells c bytes) (hamp : c ≠ '&')
    (rest : List UInt8) :
    decodeFrom 0 (bytes ++ rest) = (decodeFrom 0 rest).map (Utf8.encodeChar c ++ ·) := by
  cases h with
  | literal =>
    refine decodeFrom_append_of_not_mem rest fun hmem => hamp ?_
    have htext : ascii '&' ∈ Utf8.encode [c] := by
      rwa [Utf8.encode_cons, Utf8.encode, List.flatMap_nil, List.append_nil]
    exact (List.mem_singleton.mp (mem_of_ascii_mem_encode (by decide) htext)).symm
  | @decimal digits hvalue hne hlength =>
    refine decodeFrom_code ['#'] (by decide) hvalue ?_ ?_ hne rest
    · rw [List.length_singleton]
      omega
    · have hhex : stripPrefix "#x".toList ('#' :: digits) = none := by
        rw [Option.eq_none_iff_forall_ne_some]
        intro more hstrip
        rw [stripPrefix_eq_some_iff] at hstrip
        have hx : 'x' ∈ digits := by
          rw [(List.cons.inj hstrip).2]
          exact List.mem_cons_self
        exact (hexDigitValue_ascii (digit_of_readDigits hvalue hx)).2.2.2.1 rfl
      have hdecimal : stripPrefix ['#'] ('#' :: digits) = some digits :=
        stripPrefix_eq_some_iff.mpr rfl
      rw [xmlReference, Utf8.decode_encode]
      simp only [List.singleton_append, hhex, hdecimal]
  | @hexadecimal digits hvalue hne hlength =>
    refine decodeFrom_code "#x".toList (by decide) hvalue ?_ ?_ hne rest
    · change 2 + digits.length + 2 ≤ _
      omega
    · have hhex : stripPrefix "#x".toList ("#x".toList ++ digits) = some digits :=
        stripPrefix_eq_some_iff.mpr rfl
      rw [xmlReference, Utf8.decode_encode]
      simp only [hhex]

/-- **A writing of a text** is decoded. -/
theorem decodeFrom_writes {bytes : List UInt8} {text : Str} (h : Writes bytes text)
    (hamp : '&' ∉ text) (rest : List UInt8) :
    decodeFrom 0 (bytes ++ rest) = (decodeFrom 0 rest).map (Utf8.encode text ++ ·) := by
  induction h with
  | nil => exact Option.map_id'.symm
  | cons hc htext ih =>
    rename_i c text bytes bytes'
    have hne : c ≠ '&' := fun heq => hamp (heq ▸ List.mem_cons_self)
    rw [List.append_assoc, decodeFrom_spells hc hne,
      ih fun hmem => hamp (List.mem_cons_of_mem _ hmem),
      Option.map_map]
    simp only [Function.comp_def, Utf8.encode_cons, List.append_assoc]

/-- A writing begins with the character, or with an ampersand. -/
theorem Spells.cons {bytes : List UInt8} (h : Spells c bytes) (hc : c.toNat < 0x80) :
    ∃ x more, (x = '&' ∨ x = c) ∧ bytes = ascii x :: more := by
  cases h with
  | literal => exact ⟨c, [], .inr rfl, encodeChar_ascii hc⟩
  | decimal => exact ⟨'&', _, .inl rfl, rfl⟩
  | hexadecimal => exact ⟨'&', _, .inl rfl, rfl⟩

end

/-! ## 5. Completeness -/

theorem isNameChar_ascii {c : Char} (h : isNameChar c = true) : c.toNat < 0x80 := by
  have hbound : ∀ d : Char, d.toNat < 0x80 → c ≤ d → c.toNat < 0x80 := fun d hd hle =>
    Nat.lt_of_le_of_lt (UInt32.le_iff_toNat_le.mp hle) hd
  simp only [isNameChar, Char.isAlphanum, Text.isAlpha_eq, Text.isUpper_eq, Text.isLower_eq,
    Char.isDigit,
    Bool.or_eq_true, Bool.and_eq_true, decide_eq_true_eq] at h
  rcases h with ((⟨-, h⟩ | ⟨-, h⟩) | ⟨-, h⟩) | rfl
  · exact hbound 'Z' (by decide) h
  · exact hbound 'z' (by decide) h
  · exact hbound '9' (by decide) h
  · decide

theorem referencesFrom_append {name : Str} (front : List UInt8) {text : List UInt8}
    {prev : Option UInt8} (h : ∀ prev, name ∈ referencesFrom prev text) :
    name ∈ referencesFrom prev (front ++ text) := by
  induction front generalizing prev with
  | nil => exact h prev
  | cons b front ih => exact List.mem_append_right _ ih

theorem propertyName_marker {name : Str} (hne : name ≠ [])
    (hname : ∀ c ∈ name, isNameChar c = true) (rest : List UInt8) :
    propertyName (Utf8.encode name ++ ascii (Char.ofNat 125) :: rest) = some name := by
  have hbytes : ∀ b ∈ Utf8.encode name, isPropertyByte b = true := by
    intro b hb
    obtain ⟨c, hc, hmem⟩ := List.mem_flatMap.mp hb
    have hascii := isNameChar_ascii (hname c hc)
    rw [encodeChar_ascii hascii, List.mem_singleton] at hmem
    rw [hmem, isPropertyByte, toNat_ascii hascii, Char.ofNat_toNat, isPropertyChar, hname c hc]
    simp [hascii]
  have htake : (Utf8.encode name ++ ascii (Char.ofNat 125) :: rest).takeWhile isPropertyByte
      = Utf8.encode name := by
    rw [List.takeWhile_append_of_pos hbytes, List.takeWhile_cons_of_neg (by decide),
      List.append_nil]
  have htrim : trimEndMatches (fun c => c = '.' || c = '-') name = name := by
    refine trimEndMatches_eq_self fun c hc => ?_
    have hnot : c ≠ '.' ∧ c ≠ '-' := by
      have hc := hname c (List.mem_of_getLast? hc)
      constructor
      · rintro rfl
        exact absurd hc (by decide)
      · rintro rfl
        exact absurd hc (by decide)
    simp [hnot]
  rw [propertyName, htake, Utf8.decode_encode]
  simp [htrim, hne]

/-- What is decoded has the text where the writing stands. -/
theorem decoded_of_writes {front bytes rest decoded : List UInt8} {name : Str}
    (hwrites : Writes bytes (marker name)) (hamp : '&' ∉ marker name)
    (hdecode : decodeXmlReferences (front ++ bytes ++ rest) = some decoded) :
    ∃ out d, decoded = out ++ (Utf8.encode (marker name) ++ d) := by
  obtain ⟨x, more, hx, hbytes⟩ : ∃ x more, (x = '&' ∨ x = '$') ∧ bytes = ascii x :: more := by
    cases hwrites with
    | cons hc htext =>
      obtain ⟨x, more, hx, rfl⟩ := hc.cons (by decide)
      exact ⟨x, _, hx, rfl⟩
  have hwritten := decodeFrom_writes hwrites hamp rest
  rw [decodeXmlReferences, List.append_assoc] at hdecode
  rw [hbytes, List.cons_append] at hdecode hwritten
  rcases decodeFrom_append hx front with hnone | ⟨out, hout⟩
  · cases hnone.symm.trans hdecode
  · rw [hdecode, hwritten, Option.map_map] at hout
    obtain ⟨d, -, hd⟩ := Option.map_eq_some_iff.mp hout.symm
    exact ⟨out, d, hd.symm⟩

theorem literalEnvReferences_marker {name : Str} (hne : name ≠ [])
    (hname : ∀ c ∈ name, isNameChar c = true) (front rest : List UInt8) :
    name ∈ literalEnvReferences (front ++ (Utf8.encode (marker name) ++ rest)) := by
  refine referencesFrom_append front fun prev => ?_
  have hmarker : Utf8.encode (marker name) ++ rest = ascii '$' :: ascii (Char.ofNat 123) ::
      (envPropertyPrefix ++ (Utf8.encode name ++ ascii (Char.ofNat 125) :: rest)) := by
    simp only [marker, Utf8.encode_cons, Utf8.encode_append, envPropertyPrefix, List.append_assoc]
    rfl
  have hat : referenceAt (some (ascii (Char.ofNat 123)))
      (envPropertyPrefix ++ (Utf8.encode name ++ ascii (Char.ofNat 125) :: rest)) = some name := by
    rw [referenceAt, if_pos ⟨List.prefix_append _ _, by decide⟩, List.drop_left,
      propertyName_marker hne hname]
  rw [hmarker]
  refine List.mem_append_right _ (List.mem_append_right _ (List.mem_append_left _ ?_))
  exact Option.mem_toList.mpr hat

/-- **No reference is missed**: where some writing of `${env.NAME}` stands in a text, the scan gives
up or finds the name. -/
theorem envReferences_complete {text front bytes rest : List UInt8} {name : Str} (hne : name ≠ [])
    (hname : ∀ c ∈ name, isNameChar c = true) (hwrites : Writes bytes (marker name))
    (htext : text = front ++ bytes ++ rest) :
    envReferences text = none ∨ ∃ names, envReferences text = some names ∧ name ∈ names := by
  cases hdecode : decodeXmlReferences text with
  | none =>
    left
    rw [envReferences, hdecode]
    rfl
  | some decoded =>
    right
    refine ⟨literalEnvReferences text ++ literalEnvReferences decoded, ?_, ?_⟩
    · rw [envReferences, hdecode]
      rfl
    · refine List.mem_append_right _ ?_
      have hamp : '&' ∉ marker name := by
        have hnot : '&' ∉ name := fun hmem => absurd (hname _ hmem) (by decide)
        simp [marker, hnot]
      obtain ⟨out, d, rfl⟩ := decoded_of_writes hwrites hamp (by rw [← htext]; exact hdecode)
      exact literalEnvReferences_marker hne hname out d

theorem envReferences_complete_mixed :
    ∃ names, envReferences (Utf8.encode "&x &#36;\x7benv.A&#x5F;B\x7d".toList) = some names ∧
      "A_B".toList ∈ names := by
  have hdollar : Spells '$' (Utf8.encode ("&#".toList ++ "36".toList ++ [';'])) :=
    .decimal (by decide) (by decide) (by decide)
  have hunderscore : Spells '_' (Utf8.encode ("&#x".toList ++ "5F".toList ++ [';'])) :=
    .hexadecimal (by decide) (by decide) (by decide)
  have hwrites : Writes _ (marker "A_B".toList) :=
    .cons hdollar ((writes_encode "\x7benv.A".toList).append
      (.cons hunderscore (writes_encode "B\x7d".toList)))
  have htext : Utf8.encode "&x &#36;\x7benv.A&#x5F;B\x7d".toList = Utf8.encode "&x ".toList
      ++ Utf8.encode "&#36;\x7benv.A&#x5F;B\x7d".toList ++ [] := by decide
  exact (envReferences_complete (by decide) (by decide) hwrites htext).resolve_left
    (by decide +kernel)

end IndexCache
end MavenMcp
