/-
# Unicode properties

The tables of Unicode are not part of any program that uses them.  `Unicode` holds the few
properties of characters that programs ask for, and `Unicode.Ascii` says what these are within
ASCII.
-/
import MavenMcp.Lib.Text

structure Unicode where
  /-- `char::is_alphanumeric`. -/
  alphanumeric : Char → Bool
  /-- `char::to_lowercase`. -/
  toLowercase : Char → Str
  /-- `\w` of regular expressions. -/
  word : Char → Bool
  /-- `char::is_lowercase`. -/
  lowercase : Char → Bool

namespace Unicode

/-- The properties within ASCII. -/
structure Ascii (u : Unicode) : Prop where
  alphanumeric : ∀ c : Char, c.toNat < 128 → u.alphanumeric c = c.isAlphanum
  toLowercase : ∀ c : Char, c.toNat < 128 → u.toLowercase c = [c.toLower]
  word : ∀ c : Char, c.toNat < 128 → u.word c = (c.isAlphanum || c == '_')
  lowercase : ∀ c : Char, c.toNat < 128 → u.lowercase c = c.isLower

/-- White space is no part of a word. -/
def Spaced (u : Unicode) : Prop := ∀ c : Char, Text.isWhitespace c = true → u.alphanumeric c = false

/-- No property beyond ASCII. -/
def asciiOnly : Unicode where
  alphanumeric := Char.isAlphanum
  toLowercase c := [c.toLower]
  word c := c.isAlphanum || c == '_'
  lowercase := Char.isLower

theorem asciiOnly_ascii : asciiOnly.Ascii :=
  ⟨fun _ _ => rfl, fun _ _ => rfl, fun _ _ => rfl, fun _ _ => rfl⟩

theorem asciiOnly_spaced : asciiOnly.Spaced := by
  intro c hc
  simp only [Text.isWhitespace, Bool.or_eq_true, Bool.and_eq_true, decide_eq_true_eq,
    beq_iff_eq] at hc
  simp only [asciiOnly, Char.isAlphanum, Text.isAlpha_eq, Text.isUpper_eq, Text.isLower_eq,
    Char.isDigit,
    Bool.or_eq_false_iff, Bool.and_eq_false_iff, decide_eq_false_iff_not, ge_iff_le,
    UInt32.le_iff_toNat_le]
  have hval : c.val.toNat = c.toNat := rfl
  have hbounds : 'A'.val.toNat = 65 ∧ 'Z'.val.toNat = 90 ∧ 'a'.val.toNat = 97 ∧
      'z'.val.toNat = 122 ∧ '0'.val.toNat = 48 ∧ '9'.val.toNat = 57 := by decide
  rw [hval]
  omega

end Unicode
