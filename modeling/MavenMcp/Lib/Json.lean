/-
# JSON values

Parsed JSON as a tree: an object is its fields, looked up by name, and a number is its spelling.

The strings of JSON documents as writers spell them: a `StringWriter` may choose among the spellings
of a character that JSON knows, and no string is a prefix of another with its closing quotation mark
(`StringWriter.quoted_append_inj`).
-/
import MavenMcp.Lib.Text

inductive Json
  | null
  | bool (value : Bool)
  | number (text : Str)
  | string (text : Str)
  | array (items : List Json)
  | object (fields : List (Str × Json))
deriving Repr

namespace Json

abbrev Object := List (Str × Json)

def asStr : Json → Option Str
  | string text => some text
  | _ => none

def asObject : Json → Option Object
  | object fields => some fields
  | _ => none

/-- `Value::get` with a name. -/
def get (value : Json) (name : String) : Option Json :=
  value.asObject.bind fun fields => fields.lookup name.toList

namespace Object

def get (fields : Object) (name : String) : Option Json := fields.lookup name.toList

def has (fields : Object) (name : String) : Bool := (fields.get name).isSome

/-- `Map::insert`. -/
def insert (name : Str) (value : Json) (fields : Object) : Object :=
  (name, value) :: fields.filter (·.1 ≠ name)

def str (fields : Object) (name : String) : Option Str := (fields.get name).bind Json.asStr

end Object

/-! ## Strings -/

def hexDigitValue (c : Char) : Option Nat :=
  if c.isDigit then some (c.toNat - 48)
  else if 'a' ≤ c ∧ c ≤ 'f' then some (c.toNat - 87)
  else if 'A' ≤ c ∧ c ≤ 'F' then some (c.toNat - 55)
  else none

def readHex (digits : Str) : Option Nat :=
  digits.foldlM (fun n digit => (hexDigitValue digit).map (16 * n + ·)) 0

/-- The characters with an escape of two characters, and its second one. -/
def shortEscapes : List (Char × Char) :=
  [('"', '"'), ('\\', '\\'), ('/', '/'), (Char.ofNat 8, 'b'), (Char.ofNat 12, 'f'), ('\n', 'n'),
    ('\r', 'r'), ('\t', 't')]

/-- How a character may stand in a string. -/
inductive Spells : Char → Str → Prop
  | plain {c : Char} (hquote : c ≠ '"') (hslash : c ≠ '\\') (hcontrol : 0x20 ≤ c.toNat) :
      Spells c [c]
  | short {c x : Char} (h : (c, x) ∈ shortEscapes) : Spells c ['\\', x]
  | unicode {c : Char} {digits : Str} (hlength : digits.length = 4)
      (hvalue : readHex digits = some c.toNat) : Spells c ('\\' :: 'u' :: digits)

/-- A writer of strings. -/
structure StringWriter where
  escape : Char → Str
  spells : ∀ c, Spells c (escape c)

namespace StringWriter

variable (writer : StringWriter)

def escaped (text : Str) : Str := text.flatMap writer.escape

/-- The text of a string. -/
def quoted (text : Str) : Str := '"' :: (writer.escaped text ++ ['"'])

end StringWriter

theorem shortEscapes_fst {c d x : Char} (h : (c, x) ∈ shortEscapes) (h' : (d, x) ∈ shortEscapes) :
    c = d := by
  simp only [shortEscapes, List.mem_cons, List.not_mem_nil, or_false, Prod.mk.injEq] at h h'
  rcases h with ⟨rfl, rfl⟩ | ⟨rfl, rfl⟩ | ⟨rfl, rfl⟩ | ⟨rfl, rfl⟩ | ⟨rfl, rfl⟩ | ⟨rfl, rfl⟩ |
    ⟨rfl, rfl⟩ | ⟨rfl, rfl⟩
  all_goals exact Eq.symm (by simpa using h')

theorem ne_u_of_shortEscapes {c x : Char} (h : (c, x) ∈ shortEscapes) : x ≠ 'u' := by
  rintro rfl
  simp [shortEscapes] at h

/-- Spellings are told apart where they begin. -/
theorem Spells.cut {c d : Char} {x y t t' : Str} (hx : Spells c x) (hy : Spells d y)
    (h : x ++ t = y ++ t') : c = d ∧ t = t' := by
  cases hx with
  | plain hquote hslash hcontrol =>
    cases hy with
    | plain => exact ⟨(List.cons.inj h).1, (List.cons.inj h).2⟩
    | short => exact absurd (List.cons.inj h).1 hslash
    | unicode => exact absurd (List.cons.inj h).1 hslash
  | short hc =>
    cases hy with
    | plain hquote hslash hcontrol => exact absurd (List.cons.inj h).1.symm hslash
    | short hd =>
      cases h
      exact ⟨shortEscapes_fst hc hd, rfl⟩
    | unicode =>
      have hsecond := (List.cons.inj (List.cons.inj h).2).1
      exact absurd hsecond (ne_u_of_shortEscapes hc)
  | unicode hlength hvalue =>
    cases hy with
    | plain hquote hslash hcontrol => exact absurd (List.cons.inj h).1.symm hslash
    | short hd =>
      have hsecond := (List.cons.inj (List.cons.inj h).2).1
      exact absurd hsecond.symm (ne_u_of_shortEscapes hd)
    | unicode hlength' hvalue' =>
      have hrest := (List.cons.inj (List.cons.inj h).2).2
      obtain ⟨rfl, rfl⟩ := List.append_inj hrest (by rw [hlength, hlength'])
      rw [hvalue, Option.some.injEq] at hvalue'
      exact ⟨Char.toNat_inj.mp hvalue', rfl⟩

/-- A spelling does not begin with the quotation mark. -/
theorem Spells.cons {c : Char} {x : Str} (h : Spells c x) :
    ∃ first more, x = first :: more ∧ first ≠ '"' := by
  cases h with
  | plain hquote => exact ⟨c, [], rfl, hquote⟩
  | short => exact ⟨_, _, rfl, by decide⟩
  | unicode => exact ⟨_, _, rfl, by decide⟩

namespace StringWriter

variable {writer : StringWriter}

/-- A string ends where its quotation mark is. -/
theorem escaped_append_inj {a b t t' : Str}
    (h : writer.escaped a ++ '"' :: t = writer.escaped b ++ '"' :: t') : a = b ∧ t = t' := by
  induction a generalizing b with
  | nil =>
    cases b with
    | nil => exact ⟨rfl, (List.cons.inj h).2⟩
    | cons d b =>
      obtain ⟨first, more, hspelled, hne⟩ := (writer.spells d).cons
      rw [escaped, escaped, List.flatMap_cons, hspelled] at h
      exact absurd (List.cons.inj h).1.symm hne
  | cons c a ih =>
    cases b with
    | nil =>
      obtain ⟨first, more, hspelled, hne⟩ := (writer.spells c).cons
      rw [escaped, List.flatMap_cons, hspelled] at h
      exact absurd (List.cons.inj h).1 hne
    | cons d b =>
      simp only [escaped, List.flatMap_cons, List.append_assoc] at h
      obtain ⟨rfl, hrest⟩ := (writer.spells c).cut (writer.spells d) h
      obtain ⟨rfl, rfl⟩ := ih hrest
      exact ⟨rfl, rfl⟩

/-- **Strings** are told apart by any text that follows them. -/
theorem quoted_append_inj {a b t t' : Str} (h : writer.quoted a ++ t = writer.quoted b ++ t') :
    a = b ∧ t = t' := by
  have hcut : writer.escaped a ++ '"' :: t = writer.escaped b ++ '"' :: t' := by
    simpa only [quoted, List.cons_append, List.append_assoc, List.nil_append, List.cons.injEq,
      true_and] using h
  exact escaped_append_inj hcut

end StringWriter

/-- The escape of a character that has to be escaped, and the character itself elsewhere. -/
def minimalEscape (c : Char) : Str :=
  match shortEscapes.lookup c with
  | some x => if c = '/' then [c] else ['\\', x]
  | none =>
    if c.toNat < 0x20 then
      ['\\', 'u', '0', '0', Nat.digitChar (c.toNat / 16), Nat.digitChar (c.toNat % 16)]
    else [c]

theorem spells_minimalEscape_control : ∀ n < 32,
    readHex ['0', '0', Nat.digitChar (n / 16), Nat.digitChar (n % 16)] = some n := by
  decide

/-- The writer that escapes no more than it has to. -/
def minimalWriter : StringWriter where
  escape := minimalEscape
  spells c := by
    unfold minimalEscape
    split
    · rename_i x hlookup
      split
      · rename_i hc
        subst hc
        exact .plain (by decide) (by decide) (by decide)
      · obtain ⟨before, after, heq, -⟩ := List.lookup_eq_some_iff.mp hlookup
        exact .short (heq ▸ List.mem_append_right _ List.mem_cons_self)
    · rename_i hlookup
      split
      · rename_i hcontrol
        exact .unicode rfl (spells_minimalEscape_control c.toNat hcontrol)
      · rename_i hcontrol
        refine .plain ?_ ?_ (by omega)
        · rintro rfl
          cases hlookup
        · rintro rfl
          cases hlookup

end Json
