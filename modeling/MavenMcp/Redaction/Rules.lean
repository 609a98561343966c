/-
# The redaction rules

`src/redaction.rs` removes credentials from texts with five expressions, each applied to what the
one before it left, and masks the values of properties by their names.  Every expression below is
the one of the source, part by part; letters match without regard to case, which in Unicode adds
the long s and the Kelvin sign.
-/
import MavenMcp.Lib.Regex
import MavenMcp.Lib.Unicode

namespace MavenMcp
namespace Redaction

open Regex (opt plus seqs alts atLeast exactly literal)

/-! ## 1. Names -/

def redacted : Str := "<redacted>".toList

def credentials : Str := "<credentials>".toList

/-- `SENSITIVE_NAME_PARTS`. -/
def sensitiveNameParts : List Str :=
  ["password".toList, "passwd".toList, "passphrase".toList, "secret".toList, "token".toList,
    "credential".toList, "apikey".toList, "accesskey".toList, "privatekey".toList,
    "authorization".toList]

def isSensitiveName (u : Unicode) (name : Str) : Bool :=
  let normalized := (name.filter u.alphanumeric).flatMap u.toLowercase
  sensitiveNameParts.any fun part => Text.contains part normalized

/-! ## 2. Expressions -/

/-- A small letter of an expression without regard to case. -/
def sameLetter (c x : Char) : Bool :=
  x.toLower == c || (c == 's' && x == '\u017f') || (c == 'k' && x == '\u212a')

/-- `[a-z]` without regard to case. -/
def isLetter (x : Char) : Bool := x.isAlpha || x == '\u017f' || x == '\u212a'

def caseless (text : Str) : Regex := literal sameLetter text

def exact (text : Str) : Regex := literal (fun c x => x == c) text

def oneOf (cs : Str) : Regex := .char fun c => cs.contains c

def noneOf (cs : Str) : Regex := .char fun c => !cs.contains c

/-- `[ \t]*` -/
def blanks : Regex := .star (oneOf [' ', '\t'])

/-- `["']?` -/
def quotation : Regex := opt (oneOf ['"', '\''])

/-- `\S` -/
def nonSpace : Regex := .char fun c => !Text.isWhitespace c

/-- `[\w.-]` -/
def keyChar (u : Unicode) : Regex := .char fun c => u.word c || c == '.' || c == '-'

/-- `[_-]?` -/
def joint : Regex := opt (oneOf ['_', '-'])

/-- The words of `SENSITIVE_KEY`. -/
def sensitiveWord : Regex :=
  alts (caseless "password".toList) [caseless "passwd".toList, caseless "passphrase".toList,
    caseless "secret".toList, caseless "token".toList,
    .seq (caseless "credential".toList) (opt (caseless ['s'])),
    seqs [caseless "api".toList, joint, caseless "key".toList],
    seqs [caseless "access".toList, joint, caseless "key".toList],
    seqs [caseless "private".toList, joint, caseless "key".toList]]

/-- `SENSITIVE_KEY`. -/
def sensitiveKey (u : Unicode) : Regex :=
  seqs [.star (keyChar u), sensitiveWord, .star (keyChar u)]

/-- The first group of `AUTHORIZATION`. -/
def authorizationHeader : Regex :=
  seqs [opt (caseless "proxy-".toList), caseless "authorization".toList, quotation, blanks,
    oneOf [':', '='], blanks, quotation]

def authorization (u : Unicode) : Regex :=
  seqs [.boundary u.word, .group 1 authorizationHeader,
    .char fun c => !Text.isWhitespace c && c != '<', .star (noneOf ['\r', '\n'])]

def xmlElement (u : Unicode) : Regex :=
  seqs [exact ['<'], .group 1 (sensitiveKey u), exact ['>'], plus (noneOf ['<']), exact ['<', '/']]

/-- One side of `QUOTED`. -/
def quotedBy (quote : Char) : Regex :=
  seqs [exact [quote],
    .star (.alt (noneOf [quote, '\\', '\r', '\n']) (.seq (exact ['\\']) (noneOf ['\n']))),
    opt (exact [quote])]

def quoted : Regex := .alt (quotedBy '"') (quotedBy '\'')

/-- `VALUE`. -/
def unquoted : Regex :=
  .alt
    (seqs [exact ['<'], .star (noneOf ['>', '\r', '\n']), opt (exact ['>']), .star nonSpace])
    (plus nonSpace)

/-- `=` with blanks around it, or `:` with blanks behind it. -/
def separator : Regex :=
  .alt (seqs [blanks, oneOf ['='], blanks])
    (seqs [blanks, oneOf [':'], plus (oneOf [' ', '\t'])])

def keyValue (u : Unicode) : Regex :=
  .alt
    (.seq (.group 1 (seqs [sensitiveKey u, quotation, separator]))
      (.group 2 (.alt quoted unquoted)))
    (.seq (.group 3 (seqs [sensitiveKey u, quotation, blanks, oneOf [':']])) (.group 4 quoted))

/-- The first group of `URL_CREDENTIALS`. -/
def urlScheme : Regex :=
  seqs [.char isLetter,
    .star (.char fun c => isLetter c || c.isDigit || c == '+' || c == '.' || c == '-'),
    exact [':', '/', '/']]

def urlCredentials (u : Unicode) : Regex :=
  seqs [.boundary u.word, .group 1 urlScheme,
    plus (.char fun c => !Text.isWhitespace c &&
      !(['/', '?', '#', '\'', '"', '<', '>'].contains c)),
    exact ['@']]

/-- `[A-Za-z0-9_]`, and `-` too where `dash` says so. -/
def tokenChar (dash : Bool) : Regex :=
  .char fun c => c.isAlphanum || c == '_' || (dash && c == '-')

def knownToken (u : Unicode) : Regex :=
  seqs [.boundary u.word,
    alts (seqs [exact ['g', 'h'], oneOf "pousr".toList, exact ['_'], plus (tokenChar false)])
      [.seq (exact "github_pat_".toList) (plus (tokenChar false)),
        .seq (exact ['s', 'k', '-']) (atLeast 8 (tokenChar true)),
        .seq (exact "AKIA".toList) (exactly 16 (.char fun c => c.isUpper || c.isDigit)),
        seqs [exact "eyJ".toList, plus (tokenChar true), exact ['.'], plus (tokenChar true),
          exact ['.'], plus (tokenChar true)]],
    .boundary u.word]

/-! ## 3. Texts -/

/-- `&captures[i]` -/
def captured (m : Regex.State) (i : Nat) : Str := ((m.group i).getD ([], [])).2

/-- Close the bracket that was opened last, if any is open. -/
def closeOne (last : Char) : List (Char × Nat) → Option (List (Char × Nat))
  | [] => none
  | (closer, unclosed) :: rest =>
    if closer = last ∧ 0 < unclosed then some ((closer, unclosed - 1) :: rest)
    else (closeOne last rest).map ((closer, unclosed) :: ·)

/-- The loop of `closing_brackets`, on the value backwards. -/
def keptFrom : List (Char × Nat) → Str → Str → Str
  | _, [], kept => kept
  | opened, last :: value, kept =>
    match closeOne last opened with
    | some opened => keptFrom opened value (last :: kept)
    | none => kept

/-- What is open on the last line of a text. -/
def openBrackets (before : Str) : List (Char × Nat) :=
  let line := before.reverse.takeWhile fun c => c != '\r' && c != '\n'
  [('(', ')'), ('[', ']'), ('{', '}')].map fun (opener, closer) =>
    (closer, line.count opener - line.count closer)

def closingBrackets (before value : Str) : Str :=
  match value with
  | '"' :: _ | '\'' :: _ => []
  | _ => keptFrom (openBrackets before) value.reverse []

/-- What `KEY_VALUE` makes of a key and its value; `whole` is the match. -/
def redactValue (before key value whole : Str) : Str × Nat :=
  let closing := closingBrackets before value
  let secret := value.take (value.length - closing.length)
  if secret = [] ∨ secret = redacted then (whole, 0) else (key ++ redacted ++ closing, 1)

/-- The replacement of `KEY_VALUE` in a text. -/
def keyValueReplacement (text ahead : Str) (m : Regex.State) : Str × Nat :=
  let (start, key, value) :=
    match m.group 1, m.group 2 with
    | some (start, key), some (_, value) => (start, key, value)
    | _, _ => (((m.group 3).getD ([], [])).1, captured m 3, captured m 4)
  redactValue (text.take (text.length - start.length)) key value
    (ahead.take (ahead.length - m.ahead.length))

def redactAuthorization (u : Unicode) (text : Str) : Str × Nat :=
  (authorization u).replaceAll (fun _ m => (captured m 1 ++ redacted, 1)) text

def redactElements (u : Unicode) (text : Str) : Str × Nat :=
  (xmlElement u).replaceAll
    (fun _ m => ('<' :: captured m 1 ++ '>' :: redacted ++ ['<', '/'], 1)) text

def redactKeyValues (u : Unicode) (text : Str) : Str × Nat :=
  (keyValue u).replaceAll (keyValueReplacement text) text

def redactUrls (u : Unicode) (text : Str) : Str × Nat :=
  (urlCredentials u).replaceAll (fun _ m => (captured m 1 ++ credentials ++ ['@'], 1)) text

def redactTokens (u : Unicode) (text : Str) : Str × Nat :=
  (knownToken u).replaceAll (fun _ _ => (redacted, 1)) text

/-- `redact_sensitive_values`. -/
def redactSensitiveValues (u : Unicode) (text : Str) : Str × Nat :=
  let (text, authorizations) := redactAuthorization u text
  let (text, elements) := redactElements u text
  let (text, keyValues) := redactKeyValues u text
  let (text, urls) := redactUrls u text
  let (text, tokens) := redactTokens u text
  (text, authorizations + elements + keyValues + urls + tokens)

/-! ## 4. Properties -/

def redactProperty (u : Unicode) (name value : Str) : Str :=
  if value = [] then value
  else if isSensitiveName u name then redacted
  else (redactSensitiveValues u value).1

def redactProperties (u : Unicode) (properties : List (Str × Str)) : List (Str × Str) :=
  properties.map fun (name, value) => (name, redactProperty u name value)

end Redaction
end MavenMcp
