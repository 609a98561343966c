/-
# The lexer of declaration sources

The Java and Kotlin lexer that separates code tokens from comments and literals, and the linking of
brackets.  The lexer walks over the text with a byte position and a line number; a string template
holds code, so `next_token` calls itself through `skip_template`, to a depth of
`MAX_TEMPLATE_DEPTH`.  Here the depth that is left is the argument of the recursion, and every loop
runs for at most as many rounds as there are characters left.

The cursor keeps one thing that the source does not: the byte ranges of the comments it has
skipped.  No function reads them.
-/
import MavenMcp.Lib.Loop
import MavenMcp.Lib.Unicode

namespace MavenMcp.DeclarationSource

open Text

/-! ## 1. Data -/

inductive SourceLanguage
  | java
  | kotlin
deriving DecidableEq, Repr

/-- `SourceLanguage::of_entry`. -/
def SourceLanguage.ofEntry (entry : Str) : SourceLanguage :=
  if endsWith ".kt".toList entry then kotlin else java

/-- Nesting limit of Kotlin string templates inside string templates. -/
def maxTemplateDepth : Nat := 32

/-- Open brackets searched below the top of the stack to recover from a stray closer. -/
def maxBracketRecovery : Nat := 8

inductive TokenKind
  | identifier
  | punctuation
  | literal
deriving DecidableEq, Repr

/-- A code token; `line` and `endLine` are meant to be the zero-based lines of its first and last
byte.  The bytes from `start` to `stop` are `text`. -/
structure Token where
  kind : TokenKind
  start : Nat
  stop : Nat
  line : Nat
  endLine : Nat
  text : Str
deriving DecidableEq, Repr

/-- Where the lexer stands: the text that is left, its byte position and its line, and the comments
that are behind it. -/
structure Cursor where
  rest : Str
  position : Nat
  line : Nat
  comments : List (Nat × Nat)
deriving DecidableEq, Repr

namespace Cursor

def current (c : Cursor) : Option Char := c.rest.head?

def startsWith (c : Cursor) (text : Str) : Bool := Text.startsWith text c.rest

def bump (c : Cursor) : Cursor :=
  match c.rest with
  | [] => c
  | character :: rest =>
    { c with
      rest
      position := c.position + character.utf8Size
      line := if character = '\n' then c.line + 1 else c.line }

/-- Skips `count` ASCII characters that are known not to contain a newline. -/
def bumpAscii (count : Nat) (c : Cursor) : Cursor :=
  { c with rest := c.rest.drop count, position := c.position + count }

/-- A loop over the text that is left. -/
def loop (body : Cursor → ForInStep Cursor) (c : Cursor) : Cursor :=
  Loop.flow body (c.rest.length + 1) c

/-- A loop over the text that is left, with a counter. -/
def loopWith (body : Cursor × Nat → ForInStep (Cursor × Nat)) (c : Cursor) (depth : Nat) : Cursor :=
  (Loop.flow body (c.rest.length + 1) (c, depth)).1

/-- The lexer after a comment that began at `start`. -/
def afterComment (start c : Cursor) : Cursor :=
  { c with comments := c.comments ++ [(start.position, c.position)] }

/-- The text between two positions. -/
def textTo (start stop : Cursor) : Str := start.rest.take (start.rest.length - stop.rest.length)

end Cursor

section

variable (u : Unicode) (language : SourceLanguage)

def isIdentifierChar (character : Char) : Bool :=
  u.alphanumeric character || character == '_' || character == '$'

/-! ## 2. Trivia -/

def lineCommentRound (c : Cursor) : ForInStep Cursor :=
  if c.current.any (· ≠ '\n') then .yield c.bump else .done c

/-- Skips to the end of the line. -/
def skipLineComment : Cursor → Cursor := Cursor.loop lineCommentRound

/-- Kotlin block comments nest; Java block comments end at the first `*/`. -/
def blockCommentRound (s : Cursor × Nat) : ForInStep (Cursor × Nat) :=
  let (c, depth) := s
  let nested := language = .kotlin
  if c.current.isNone then .done (c, depth)
  else if c.startsWith "/*".toList ∧ (depth = 0 ∨ nested) then .yield (c.bumpAscii 2, depth + 1)
  else if c.startsWith "*/".toList then
    if depth - 1 = 0 then .done (c.bumpAscii 2, depth - 1) else .yield (c.bumpAscii 2, depth - 1)
  else .yield (c.bump, depth)

def skipBlockComment (c : Cursor) : Cursor := c.loopWith (blockCommentRound language) 0

def triviaRound (c : Cursor) : ForInStep Cursor :=
  if c.current.any isWhitespace then .yield c.bump
  else if c.startsWith "//".toList then .yield (c.afterComment (skipLineComment c))
  else if c.startsWith "/*".toList then .yield (c.afterComment (skipBlockComment language c))
  else .done c

def skipTrivia : Cursor → Cursor := Cursor.loop (triviaRound language)

/-! ## 3. Literals -/

def isTemplateStart (c : Cursor) : Bool :=
  decide (language = .kotlin) && c.startsWith ['$', '{']

def textBlockRound (c : Cursor) : ForInStep Cursor :=
  match c.current with
  | none => .done c
  | some character =>
    if character = '\\' then .yield c.bump.bump
    else if c.startsWith "\"\"\"".toList then .done (c.bumpAscii 3)
    else .yield c.bump

def skipTextBlock : Cursor → Cursor := Cursor.loop textBlockRound

def quotesRound (c : Cursor) : ForInStep Cursor :=
  if c.current = some '"' then .yield c.bump else .done c

/-- A Kotlin raw string has no escapes; extra quotes before the closing ones are content. -/
def rawStringRound (skipTemplate : Cursor → Cursor) (c : Cursor) : ForInStep Cursor :=
  if c.current.isNone then .done c
  else if c.startsWith "\"\"\"".toList then .done (c.loop quotesRound)
  else if isTemplateStart language c then .yield (skipTemplate c)
  else .yield c.bump

def skipRawString (skipTemplate : Cursor → Cursor) : Cursor → Cursor :=
  Cursor.loop (rawStringRound language skipTemplate)

def stringRound (skipTemplate : Cursor → Cursor) (c : Cursor) : ForInStep Cursor :=
  match c.current with
  | none => .done c
  | some '\n' => .done c
  | some '\\' => .yield c.bump.bump
  | some '"' => .done c.bump
  | some '$' => if isTemplateStart language c then .yield (skipTemplate c) else .yield c.bump
  | some _ => .yield c.bump

def skipString (skipTemplate : Cursor → Cursor) (c : Cursor) : Cursor :=
  if c.startsWith "\"\"\"".toList then
    match language with
    | .java => skipTextBlock (c.bumpAscii 3)
    | .kotlin => skipRawString language skipTemplate (c.bumpAscii 3)
  else (c.bumpAscii 1).loop (stringRound language skipTemplate)

def quotedRound (quote : Char) (c : Cursor) : ForInStep Cursor :=
  match c.current with
  | none => .done c
  | some character =>
    if character = '\n' then .done c
    else if character = '\\' then .yield c.bump.bump
    else if character = quote then .done c.bump
    else .yield c.bump

def skipQuoted (quote : Char) (c : Cursor) : Cursor := c.bump.loop (quotedRound quote)

def identifierRound (c : Cursor) : ForInStep Cursor :=
  if c.current.any (isIdentifierChar u) then .yield c.bump else .done c

def skipIdentifier : Cursor → Cursor := Cursor.loop (identifierRound u)

def numberRound (c : Cursor) : ForInStep Cursor :=
  match c.rest with
  | character :: rest =>
    if isIdentifierChar u character then .yield c.bump
    else if character = '.' ∧ rest.head?.any Char.isDigit then .yield c.bump
    else .done c
  | [] => .done c

def skipNumber : Cursor → Cursor := Cursor.loop (numberRound u)

/-! ## 4. Tokens -/

/-- The kind of the token that begins here, and where it ends. -/
def scanToken (skipTemplate : Cursor → Cursor) (character : Char) (c : Cursor) :
    TokenKind × Cursor :=
  if character = '"' then (.literal, skipString language skipTemplate c)
  else if character = '\'' then (.literal, skipQuoted '\'' c)
  else if character = '`' ∧ language = .kotlin then (.identifier, skipQuoted '`' c)
  else if character.isDigit then (.literal, skipNumber u c)
  else if isIdentifierChar u character then
    (.identifier, skipIdentifier u c)
  else (.punctuation, if c.startsWith "->".toList then c.bumpAscii 2 else c.bump)

/-- `next_token`, with what it does at a template. -/
def nextTokenWith (skipTemplate : Cursor → Cursor) (c : Cursor) : Option Token × Cursor :=
  let start := skipTrivia language c
  match start.current with
  | none => (none, start)
  | some character =>
    let (kind, stop) := scanToken u language skipTemplate character start
    (some
      { kind, start := start.position, stop := stop.position
        line := start.line, endLine := stop.line, text := start.textTo stop }, stop)

def templateRound (nextToken : Cursor → Option Token × Cursor) (s : Cursor × Nat) :
    ForInStep (Cursor × Nat) :=
  let (c, depth) := s
  match nextToken c with
  | (none, c) => .done (c, depth)
  | (some token, c) =>
    if token.kind ≠ .punctuation then .yield (c, depth)
    else if token.text = ['{'] then .yield (c, depth + 1)
    else if token.text = ['}'] then
      if depth - 1 = 0 then .done (c, depth - 1) else .yield (c, depth - 1)
    else .yield (c, depth)

/-- Skips the code of a `${...}` template, whose braces and strings may nest; `nextToken` is
`next_token` one level deeper, if the limit allows for it. -/
def skipTemplateWith (nextToken : Option (Cursor → Option Token × Cursor)) (c : Cursor) : Cursor :=
  match nextToken with
  | none => c.bumpAscii 2
  | some nextToken => (c.bumpAscii 2).loopWith (templateRound nextToken) 1

/-- `next_token`, with this many levels of templates left. -/
def nextToken : Nat → Cursor → Option Token × Cursor
  | 0 => nextTokenWith u language (skipTemplateWith none)
  | levels + 1 => nextTokenWith u language (skipTemplateWith (some (nextToken levels)))

/-- The lexer at the start of a text. -/
def Cursor.start (source : Str) : Cursor :=
  { rest := source, position := 0, line := 0, comments := [] }

/-- One round of the loop of `tokenize`. -/
def lexRound (s : Cursor × List Token) : ForInStep (Cursor × List Token) :=
  match nextToken u language maxTemplateDepth s.1 with
  | (none, c) => .done (c, s.2)
  | (some token, c) => .yield (c, s.2 ++ [token])

/-- The loop of `tokenize`: the lexer at the end of the text, and the tokens. -/
def lex (source : Str) : Cursor × List Token :=
  Loop.flow (lexRound u language) (source.length + 1) (.start source, [])

/-- `Lexer::tokenize`. -/
def tokenize (source : Str) : List Token := (lex u language source).2

/-- The byte ranges of the comments that the lexer skips. -/
def commentRanges (source : Str) : List (Nat × Nat) := (lex u language source).1.comments

end

/-! ## 5. Brackets -/

/-- The opening bracket of a closing one. -/
def openerOf (text : Str) : Option Str :=
  if text = [')'] then some ['(']
  else if text = [']'] then some ['[']
  else if text = ['}'] then some ['{']
  else none

/-- The variables of the loop; the top of the stack comes first. -/
structure BracketState where
  matching : List (Option Nat)
  opened : List (Nat × Str)

/-- One token. -/
def matchToken (s : BracketState) (token : Token × Nat) : BracketState :=
  let (token, index) := token
  if token.kind ≠ .punctuation then s
  else if token.text ∈ [['('], ['['], ['{']] then
    { s with opened := (index, token.text) :: s.opened }
  else
    match openerOf token.text with
    | none => s
    | some opener =>
      match (s.opened.take maxBracketRecovery).findIdx? fun entry => entry.2 = opener with
      | none => s
      | some position =>
        let start := (s.opened.getD position (0, [])).1
        { matching := (s.matching.set start (some index)).set index (some start)
          opened := s.opened.drop (position + 1) }

/-- Links every bracket to its partner; unbalanced brackets stay unlinked. -/
def matchBrackets (tokens : List Token) : List (Option Nat) :=
  (tokens.zipIdx.foldl matchToken
    { matching := List.replicate tokens.length none, opened := [] }).matching

end MavenMcp.DeclarationSource
