/-
# The outline of a source file

The data of the outline, and how it reads its tokens.  Reading past the last token answers `none`;
only `tokens[index]` itself, which the source writes in `slice`, `member_lines` and the newline
rules, panics there, and so these are programs that may panic.  A loop over the tokens ends because
`group_end` never goes back.
-/
import MavenMcp.DeclarationSource.Lexer
import MavenMcp.Lib.Safe

namespace MavenMcp.DeclarationSource

open Text

/-! ## 1. Data -/

inductive DeclarationKind
  | inClass
  | field
  | method
deriving DecidableEq, Repr

structure DeclarationCandidate where
  kind : DeclarationKind
  name : Str
  descriptor : Option Str
deriving DecidableEq, Repr

/-- The reasons that an outline gives. -/
inductive UnresolvedDeclarationReason
  | notFound
  | ambiguous
  | unproven
deriving DecidableEq, Repr

structure SourceSlice where
  startLine : Nat
  endLine : Nat
  source : Str
deriving DecidableEq, Repr

inductive SliceOutcome
  | found (slice : SourceSlice)
  | unresolved (reason : UnresolvedDeclarationReason) (candidateLines : List Nat)
deriving DecidableEq, Repr

def SliceOutcome.notFound : SliceOutcome := .unresolved .notFound []

structure TypeDeclaration where
  name : Str
  isEnum : Bool
  isRecord : Bool
  isCompanion : Bool
  typeParameters : Option (Nat × Nat)
  /-- Kotlin primary constructor or Java record header, as open and close parentheses. -/
  primaryParameters : Option (Nat × Nat)
  /-- Body braces; the close is the end of the scope when a truncated body is not closed. -/
  body : Option (Nat × Nat)
deriving DecidableEq, Repr

structure FunctionDeclaration where
  name : Str
  isConstructor : Bool
  isSuspend : Bool
  typeParameters : Option (Nat × Nat)
  /-- Kotlin extension receiver type as a half-open token range. -/
  receiver : Option (Nat × Nat)
  parameters : Nat × Nat
deriving DecidableEq, Repr

inductive MemberKind
  | type (declaration : TypeDeclaration)
  | function (function : FunctionDeclaration)
  | field (names : List Str)
  | other
deriving DecidableEq, Repr

/-- A member with its first and its last token. -/
structure Member where
  start : Nat
  stop : Nat
  kind : MemberKind
deriving DecidableEq, Repr

structure SourceOutline where
  source : Str
  language : SourceLanguage
  tokens : List Token
  matching : List (Option Nat)

/-- Simple names of the binary class name, from the outermost type; `none` for local classes. -/
def nestedTypePath (className : Str) : Option (List Str) :=
  let simple := (className.splitOn '.').getLastD []
  let path := simple.splitOn '$'
  if path.all fun segment => segment.head?.any fun first => !first.isDigit then some path else none

namespace SourceOutline

def parse (u : Unicode) (source : Str) (language : SourceLanguage) : SourceOutline :=
  let tokens := tokenize u language source
  { source, language, tokens, matching := matchBrackets tokens }

variable (o : SourceOutline)

/-! ## 2. Reading tokens -/

def text (index : Nat) : Option Str := o.tokens[index]?.map Token.text

def word (index : Nat) : Option Str :=
  (o.tokens[index]?.filter fun token => token.kind = .identifier).map Token.text

/-- An identifier with Kotlin backticks removed. -/
def identifier (index : Nat) : Option Str :=
  (o.word index).map fun word =>
    trimEndMatches (fun c => c == '`') (trimStartMatches (fun c => c == '`') word)

def isPunct (index : Nat) (value : Str) : Bool :=
  o.tokens[index]?.any fun token => token.kind = .punctuation && token.text = value

/-- One of these punctuation tokens. -/
def isPunctOf (index : Nat) (values : List Str) : Bool := values.any (o.isPunct index)

def isCloser (index : Nat) : Bool := o.isPunctOf index [[')'], [']'], ['}']]

def isOpener (index : Nat) : Bool := o.isPunctOf index [['('], ['['], ['{']]

def closing (index : Nat) : Option Nat := o.matching[index]?.join

/-- Index of the closer of a bracket opened at `index`, or `index` for other tokens.

An unclosed bracket extends to the last token before `stop`. -/
def groupEnd (index stop : Nat) : Nat :=
  if o.isOpener index then
    ((o.closing index).filter fun close => index < close ∧ close < stop).getD
      (max (stop - 1) index)
  else index

theorem le_groupEnd (index stop : Nat) : index ≤ o.groupEnd index stop := by
  unfold groupEnd
  split
  · cases h : (o.closing index).filter fun close => index < close ∧ close < stop with
    | none => exact Nat.le_max_right _ _
    | some close =>
      have hclose := (Option.filter_eq_some_iff.mp h).2
      simp only [decide_eq_true_eq] at hclose
      exact Nat.le_of_lt hclose.1
  · exact Nat.le_refl index

theorem groupEnd_lt {index stop : Nat} (h : index < stop) : o.groupEnd index stop < stop := by
  unfold groupEnd
  split
  · cases hclosing : (o.closing index).filter fun close => index < close ∧ close < stop with
    | none =>
      rw [Option.getD_none]
      omega
    | some close =>
      have hclose := (Option.filter_eq_some_iff.mp hclosing).2
      simp only [decide_eq_true_eq] at hclose
      exact hclose.2
  · exact h

/-- Where a loop over the tokens of a range goes on. -/
def next (index stop : Nat) : Nat := o.groupEnd index stop + 1

theorem lt_next (index stop : Nat) : index < o.next index stop :=
  Nat.lt_succ_of_le (o.le_groupEnd index stop)

theorem next_le {index stop : Nat} (h : index < stop) : o.next index stop ≤ stop :=
  o.groupEnd_lt h

/-- The loop of `angle_end`. -/
def angleEndFrom (opening stop depth index : Nat) : Nat :=
  if index < stop then
    if o.isPunct index ['<'] then angleEndFrom opening stop (depth + 1) (o.next index stop)
    else if o.isPunct index ['>'] then
      if depth - 1 = 0 then index else angleEndFrom opening stop (depth - 1) (o.next index stop)
    else if o.isPunctOf index [['{'], [';']] then max (index - 1) opening
    else angleEndFrom opening stop depth (o.next index stop)
  else max (stop - 1) opening
termination_by stop - index
decreasing_by all_goals have := o.lt_next index stop; omega

/-- Index of the `>` that closes the `<` at `opening`, or the last token before `stop`. -/
def angleEnd (opening stop : Nat) : Nat := o.angleEndFrom opening stop 0 opening

theorem le_angleEnd (opening stop : Nat) : opening ≤ o.angleEnd opening stop := by
  have h : ∀ depth index, opening ≤ index → opening ≤ o.angleEndFrom opening stop depth index := by
    intro depth index hle
    fun_induction o.angleEndFrom opening stop depth index with
    | case1 depth index _ _ ih | case3 depth index _ _ _ _ ih | case5 depth index _ _ _ _ ih =>
      exact ih (Nat.le_trans hle (Nat.le_of_lt (o.lt_next index stop)))
    | case2 => exact hle
    | case4 => exact Nat.le_max_right _ _
    | case6 => exact Nat.le_max_right _ _
  exact h 0 opening (Nat.le_refl _)

/-- The loop of `split_list`; the part at hand begins at `start`. -/
def splitFrom (close start angleDepth index : Nat) : List (Nat × Nat) :=
  if index < close then
    let next := o.next index close
    if o.isPunct index ['<'] then splitFrom close start (angleDepth + 1) next
    else if o.isPunct index ['>'] then splitFrom close start (angleDepth - 1) next
    else if angleDepth = 0 ∧ o.isPunct index [','] then
      (start, index) :: splitFrom close (index + 1) angleDepth next
    else splitFrom close start angleDepth next
  else [(start, close)]
termination_by close - index
decreasing_by all_goals have := o.lt_next index close; omega

/-- Splits the contents of the bracket pair `opening`..`close` at top-level commas. -/
def splitList (opening close : Nat) : List (Nat × Nat) :=
  (o.splitFrom close (opening + 1) 0 (opening + 1)).filter fun (start, stop) => start < stop

/-! ## 3. Slices -/

def slice (start stop : Nat) : Option SourceSlice := do
  let first ← o.tokens[start]?
  let last ← o.tokens[stop]?
  let startLine := first.line
  let endLine := max last.endLine startLine
  let further ← checkedSub endLine startLine
  some
    { startLine := startLine + 1
      endLine := endLine + 1
      source := ['\n'].intercalate (((lines o.source).drop startLine).take (further + 1)) }

/-- The lines on which the members begin, sorted and without duplicates. -/
def memberLines (members : List Member) : Option (List Nat) := do
  let lines ← members.mapM fun member => do
    let token ← o.tokens[member.start]?
    some (token.line + 1)
  some (lines.mergeSort (· ≤ ·)).eraseReps

def unresolvedMembers (members : List Member) : Option SliceOutcome := do
  if members.isEmpty then return .notFound
  let lines ← o.memberLines members
  return .unresolved .ambiguous lines

end SourceOutline

end MavenMcp.DeclarationSource
