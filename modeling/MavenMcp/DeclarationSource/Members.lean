/-
# Members

The member outline of Java and Kotlin type bodies: declaration kinds and boundaries.  The scanner
jumps forward over whole bracket groups; where the source indexes `tokens` or subtracts, the
program may panic.
-/
import MavenMcp.DeclarationSource.Erasure

namespace MavenMcp.DeclarationSource

open Text

/-- Tokens that keep a Kotlin statement open when they end a line. -/
def kotlinContinuingSuffixes : List Str :=
  [['='], [','], ['.'], [':'], ['-', '>'], ['+'], ['-'], ['*'], ['/'], ['%'], ['&'], ['|'], ['<']]

/-- Keywords whose parenthesized condition keeps a Kotlin statement open when it ends a line. -/
def kotlinConditionWords : List Str := ["if", "while", "for"].map String.toList

/-- Tokens that continue the previous Kotlin statement when they start a line. -/
def kotlinContinuingPrefixes : List Str := [['.'], ['?'], [':'], ['='], ['{'], ['&'], ['|']]

def kotlinContinuingWords : List Str :=
  ["where", "by", "else", "catch", "finally"].map String.toList

/-- Start of a Java method or constructor: the member start, the first token after the
modifiers and type parameters, and the type parameters. -/
structure JavaHeader where
  start : Nat
  first : Nat
  typeParameters : Option (Nat × Nat)

namespace SourceOutline

variable (o : SourceOutline)

/-! ## 1. Newlines -/

/-- The loop of `closes_type_arguments`: the `<` that are open at the end. -/
def openAngles (close depth index : Nat) : Nat :=
  if index < close then
    let next := o.next index close
    if o.isPunct index ['<'] then openAngles close (depth + 1) next
    else if o.isPunct index ['>'] then openAngles close (depth - 1) next
    else openAngles close depth next
  else depth
termination_by close - index
decreasing_by all_goals have := o.lt_next index close; omega

/-- Whether the `>` at `close` closes a `<` opened since `start`, so it ends type arguments
rather than being a comparison. -/
def closesTypeArguments (start close : Nat) : Bool := 0 < o.openAngles close 0 start

/-- Whether a line ending at `previous` leaves the statement that starts at `start` open: a
binary operator, a trailing `else`, or the condition of an `if`, `while` or `for`. -/
def lineEndContinues (start previous : Nat) : Bool :=
  if o.isPunctOf previous kotlinContinuingSuffixes || o.word previous == some "else".toList then
    true
  else if o.isPunct previous ['>'] then !o.closesTypeArguments start previous
  else
    o.isPunct previous [')'] &&
      (((o.closing previous).bind fun opening => checkedSub opening 1).bind o.word).any
        kotlinConditionWords.contains

def continuesStatement (start previous next : Nat) (isProperty : Bool) : Option Bool :=
  let continues :=
    o.lineEndContinues start previous || o.isPunctOf next kotlinContinuingPrefixes ||
      (o.word next).any kotlinContinuingWords.contains
  if continues || !isProperty then some continues
  else
    let accessor := (o.skipModifiers next o.tokens.length).1
    if o.word accessor = some "get".toList ∨ o.word accessor = some "set".toList then
      if accessor + 1 ≥ o.tokens.length ∨ o.isPunctOf (accessor + 1) [['('], ['=']] then some true
      else do
        let following ← o.tokens[accessor + 1]?
        let keyword ← o.tokens[accessor]?
        some (decide (following.line > keyword.endLine))
    else some false

/-- Whether a newline between `previous` and `next` ends the statement that starts at `start`. -/
def endsStatement (start previous next : Nat) (isProperty : Bool) : Option Bool := do
  let following ← o.tokens[next]?
  let before ← o.tokens[previous]?
  if following.line > before.endLine then
    (o.continuesStatement start previous next isProperty).map Bool.not
  else some false

/-- The loop of `statement_end`. -/
def statementEndFrom (start stop : Nat) (isProperty : Bool) (previous index : Nat) : Option Nat :=
  if index < stop then do
    let ends ← (if o.isCloser index then some true
      else o.endsStatement start previous index isProperty)
    if ends then some previous
    else if o.isPunct index [';'] then some index
    else statementEndFrom start stop isProperty (o.groupEnd index stop) (o.next index stop)
  else (checkedSub stop 1).map (min previous)
termination_by stop - index
decreasing_by
  have := o.lt_next index stop
  omega

/-- Last token of a Kotlin statement that starts at `start`, by the newline rules. -/
def statementEnd (start stop : Nat) (isProperty : Bool) : Option Nat :=
  o.statementEndFrom start stop isProperty (o.groupEnd start stop) (o.next start stop)

/-- The loop of `find_body`. -/
def findBodyFrom (start stop previous index : Nat) : Option (Option (Nat × Nat) × Nat) :=
  if index < stop then do
    let ends ← (if o.language = .kotlin then o.endsStatement start previous index false
      else some false)
    if ends then some (none, previous)
    else if o.isPunct index ['{'] then do
      let last ← checkedSub stop 1
      let close := (o.closing index).filter fun close => close < stop
      some (some (index, close.getD stop), close.getD last)
    else if o.isPunct index [';'] then some (none, index)
    else if o.isCloser index then some (none, previous)
    else if o.language = .kotlin ∧ o.isPunct index ['='] then do
      let last ← o.statementEnd index stop false
      some (none, last)
    else findBodyFrom start stop (o.groupEnd index stop) (o.next index stop)
  else (checkedSub stop 1).map fun last => (none, min previous last)
termination_by stop - index
decreasing_by
  have := o.lt_next index stop
  omega

/-- Finds the body of a declaration whose header runs from `start` to `last`.

Returns the body braces and the last token of the declaration. -/
def findBody (start last stop : Nat) : Option (Option (Nat × Nat) × Nat) :=
  o.findBodyFrom start stop last (last + 1)

/-! ## 2. Types -/

/-- Returns the index of the type keyword of a type declaration starting at `index`. -/
def typeKeyword (index : Nat) : Option Nat :=
  if o.isPunct index ['@'] ∧ o.word (index + 1) = some "interface".toList then some (index + 1)
  else do
    let word ← o.word index
    if word = "class".toList ∨ word = "interface".toList then some index
    else
      match o.language with
      | .java =>
        if word = "enum".toList then some index
        else if word = "record".toList ∧ (o.identifier (index + 1)).isSome ∧
            o.isPunctOf (index + 2) [['('], ['<']] then
          some index
        else none
      | .kotlin =>
        if word = "object".toList then some index
        else if word = "fun".toList ∧ o.word (index + 1) = some "interface".toList then
          some (index + 1)
        else none

def primaryParameters (index stop : Nat) (isRecord : Bool) : Option (Nat × Nat) := do
  let opening ← (match o.language with
    | .java => if isRecord then some index else none
    | .kotlin =>
      let afterModifiers := (o.skipModifiers index stop).1
      if o.word afterModifiers = some "constructor".toList then some (afterModifiers + 1)
      else if afterModifiers = index then some index
      else none)
  if opening < stop ∧ o.isPunct opening ['('] then some (opening, o.groupEnd opening stop) else none

/-- The name of a type, and the index behind it. -/
def typeName (keyword stop : Nat) (isCompanion : Bool) : Str × Nat :=
  match (o.identifier (keyword + 1)).filter fun _ => keyword + 1 < stop with
  | some name => (name, keyword + 2)
  | none => (if isCompanion then "Companion".toList else [], keyword + 1)

/-- Type parameters that begin at `index`. -/
def typeParametersAt (index stop : Nat) : Option (Nat × Nat) :=
  if o.isPunct index ['<'] then some (index, o.angleEnd index stop) else none

/-- The index behind an optional list that begins at `index`. -/
def behind (list : Option (Nat × Nat)) (index : Nat) : Nat :=
  match list with
  | some (_, close) => close + 1
  | none => index

def typeMember (start keyword stop : Nat) (modifiers : Modifiers) : Option Member := do
  let keywordText := (o.word keyword).getD []
  let isCompanion := modifiers.isCompanion && keywordText == "object".toList
  let (name, index) := o.typeName keyword stop isCompanion
  let typeParameters := o.typeParametersAt index stop
  let index := behind typeParameters index
  let isRecord := keywordText == "record".toList
  let primaryParameters := o.primaryParameters index stop isRecord
  let index := behind primaryParameters index
  let previous ← checkedSub index 1
  let (body, last) ← o.findBody keyword previous stop
  let isEnum := modifiers.isEnum || keywordText == "enum".toList
  some
    { start
      stop := max last keyword
      kind := .type
        { name, isEnum, isRecord, isCompanion, typeParameters, primaryParameters, body } }

/-! ## 3. Java members -/

def javaFunction (header : JavaHeader) (opening stop : Nat) (owner : Option Str) :
    Option Member := do
  let close := o.groupEnd opening stop
  let (_, last) ← o.findBody header.start close stop
  let name := if header.first < opening then o.identifier (opening - 1) else none
  match name with
  | none => some { start := header.start, stop := last, kind := .other }
  | some name =>
    some
      { start := header.start
        stop := last
        kind := .function
          { name
            isConstructor := decide (opening - 1 = header.first ∧ owner = some name)
            isSuspend := false
            typeParameters := header.typeParameters
            receiver := none
            parameters := (opening, close) } }

/-- The loop of `java_field_end`. -/
def javaFieldEndFrom (start stop index : Nat) : Option Nat :=
  if index < stop then
    if o.isPunct index [';'] then some index
    else if o.isCloser index then some (max (index - 1) start)
    else javaFieldEndFrom start stop (o.next index stop)
  else checkedSub stop 1
termination_by stop - index
decreasing_by
  have := o.lt_next index stop
  omega

def javaFieldEnd (start stop : Nat) : Option Nat := o.javaFieldEndFrom start stop start

/-- The loop of `declarator_name_before`. -/
def declaratorNameFrom (first index : Nat) : Option Str :=
  if first < index ∧ o.isPunct index [']'] then
    if 2 ≤ index then declaratorNameFrom first (index - 2) else none
  else if first < index then o.identifier index
  else none
termination_by index

def declaratorNameBefore (stop first : Nat) : Option Str :=
  (checkedSub stop 1).bind (o.declaratorNameFrom first)

/-- The names of the declarators after a comma. -/
def declaratorNames (last stop index : Nat) : List Str :=
  if index < last then
    let declarator :=
      if o.isPunct index [','] ∧ o.isPunctOf (index + 2) [['='], [','], [';'], ['[']] then
        o.identifier (index + 1)
      else none
    declarator.toList ++ declaratorNames last stop (o.next index stop)
  else []
termination_by last - index
decreasing_by
  have := o.lt_next index stop
  omega

def javaField (start first stopAt stop : Nat) : Option Member := do
  let last ← o.javaFieldEnd stopAt stop
  let names := (o.declaratorNameBefore stopAt first).toList ++ o.declaratorNames last stop stopAt
  some { start, stop := last, kind := .field names }

/-- The loop of `java_statement_end`. -/
def javaStatementEndFrom (start stop index : Nat) : Option Nat :=
  if index < stop then
    if o.isPunctOf index [[';'], ['{']] then some (o.groupEnd index stop)
    else if o.isCloser index then some (max (index - 1) start)
    else javaStatementEndFrom start stop (o.next index stop)
  else checkedSub stop 1
termination_by stop - index
decreasing_by
  have := o.lt_next index stop
  omega

def javaStatementEnd (start stop : Nat) : Option Nat := o.javaStatementEndFrom start stop start

/-- What the loop of `java_member` finds. -/
inductive JavaShape
  | function (opening : Nat)
  | field (stopAt : Nat)
  | other
deriving DecidableEq, Repr

/-- The loop of `java_member`. -/
def javaShape (stop angleDepth cursor : Nat) : JavaShape :=
  if cursor < stop then
    let next := o.next cursor stop
    if o.isPunct cursor ['<'] then javaShape stop (angleDepth + 1) next
    else if o.isPunct cursor ['>'] then javaShape stop (angleDepth - 1) next
    else if angleDepth = 0 then
      if o.isPunct cursor ['('] then .function cursor
      else if o.isPunctOf cursor [[','], ['='], [';']] then .field cursor
      else if o.isPunct cursor ['{'] ∨ o.isCloser cursor then .other
      else javaShape stop angleDepth next
    else javaShape stop angleDepth next
  else .other
termination_by stop - cursor
decreasing_by all_goals have := o.lt_next cursor stop; omega

def javaMember (start index stop : Nat) (owner : Option Str) : Option Member :=
  if o.isPunctOf index [['{'], [';']] then
    some { start, stop := o.groupEnd index stop, kind := .other }
  else
    let typeParameters := o.typeParametersAt index stop
    let first := behind typeParameters index
    match o.javaShape stop 0 first with
    | .function opening => o.javaFunction { start, first, typeParameters } opening stop owner
    | .field stopAt => o.javaField start first stopAt stop
    | .other => do
      let last ← o.javaStatementEnd index stop
      some { start, stop := last, kind := .other }

/-! ## 4. Kotlin members -/

/-- The loop of `kotlin_function`: the token of the name, or the end of the range; `none` where
the statement has no parameters. -/
def functionNameFrom (stop cursor : Nat) : Option Nat :=
  if cursor < stop ∧ ¬ ((o.identifier cursor).isSome ∧ o.isPunct (cursor + 1) ['(']) then
    if o.isPunctOf cursor [['{'], ['='], [';']] ∨ o.isCloser cursor then none
    else if o.isPunct cursor ['<'] then functionNameFrom stop (o.angleEnd cursor stop + 1)
    else functionNameFrom stop (o.next cursor stop)
  else some cursor
termination_by stop - cursor
decreasing_by
  · have := o.le_angleEnd cursor stop
    omega
  · have := o.lt_next cursor stop
    omega

def kotlinFunction (start keyword stop : Nat) (isSuspend : Bool) : Option Member :=
  let typeParameters := o.typeParametersAt (keyword + 1) stop
  let receiverStart := behind typeParameters (keyword + 1)
  match o.functionNameFrom stop receiverStart with
  | none => do
    let last ← o.statementEnd keyword stop false
    some { start, stop := last, kind := .other }
  | some cursor =>
    match (o.identifier cursor).filter fun _ => cursor < stop with
    | none => do
      let last ← checkedSub stop 1
      some { start, stop := last, kind := .other }
    | some name => do
      let close := o.groupEnd (cursor + 1) stop
      let (_, last) ← o.findBody keyword close stop
      let receiver := if receiverStart + 1 < cursor then some (receiverStart, cursor - 1) else none
      some
        { start
          stop := last
          kind := .function
            { name
              isConstructor := false
              isSuspend
              typeParameters
              receiver
              parameters := (cursor + 1, close) } }

/-- The loop of `kotlin_property`: the last identifier before the type or the initializer. -/
def propertyNameFrom (last stop : Nat) (name : Option Str) (cursor : Nat) : Option Str :=
  if cursor ≤ last then
    if o.isPunctOf cursor [[':'], ['=']] ∨ o.word cursor = some "by".toList then name
    else if o.isPunct cursor ['<'] then propertyNameFrom last stop name (o.angleEnd cursor stop + 1)
    else
      propertyNameFrom last stop ((o.identifier cursor).or name) (o.next cursor stop)
  else name
termination_by last + 1 - cursor
decreasing_by
  · have := o.le_angleEnd cursor stop
    omega
  · have := o.lt_next cursor stop
    omega

def kotlinProperty (start keyword stop : Nat) : Option Member := do
  let last ← o.statementEnd keyword stop true
  let name := o.propertyNameFrom last stop none (keyword + 1)
  some { start, stop := last, kind := .field name.toList }

def kotlinConstructor (start index stop : Nat) (owner : Option Str) : Option Member := do
  let close := o.groupEnd (index + 1) stop
  let (_, last) ← o.findBody index close stop
  some
    { start
      stop := last
      kind := .function
        { name := owner.getD []
          isConstructor := true
          isSuspend := false
          typeParameters := none
          receiver := none
          parameters := (index + 1, close) } }

def kotlinMember (start index stop : Nat) (owner : Option Str) (modifiers : Modifiers) :
    Option Member :=
  let word := o.word index
  if word = some "fun".toList then o.kotlinFunction start index stop modifiers.isSuspend
  else if word = some "val".toList ∨ word = some "var".toList then
    o.kotlinProperty start index stop
  else if word = some "constructor".toList ∧ o.isPunct (index + 1) ['('] then
    o.kotlinConstructor start index stop owner
  else if word = some "init".toList ∧ o.isPunct (index + 1) ['{'] then
    some { start, stop := o.groupEnd (index + 1) stop, kind := .other }
  else do
    let last ← o.statementEnd index stop false
    some { start, stop := last, kind := .other }

/-! ## 5. Scopes -/

def memberAt (start stop : Nat) (owner : Option Str) : Option Member :=
  let (index, modifiers) := o.skipModifiers start stop
  if index ≥ stop then do
    let last ← checkedSub stop 1
    some { start, stop := last, kind := .other }
  else
    match o.typeKeyword index with
    | some keyword => o.typeMember start keyword stop modifiers
    | none =>
      match o.language with
      | .java => o.javaMember start index stop owner
      | .kotlin => o.kotlinMember start index stop owner modifiers

/-- Where an enum entry ends: its arguments and its body are passed. -/
def enumEntryEnd (next stop : Nat) : Nat :=
  let next := if o.isPunct next ['('] then o.next next stop else next
  if next < stop ∧ o.isPunct next ['{'] then o.next next stop else next

theorem le_enumEntryEnd (next stop : Nat) : next ≤ o.enumEntryEnd next stop := by
  have harguments : next ≤ if o.isPunct next ['('] = true then o.next next stop else next := by
    split
    · exact Nat.le_of_lt (o.lt_next next stop)
    · exact Nat.le_refl next
  rw [enumEntryEnd]
  generalize (if o.isPunct next ['('] = true then o.next next stop else next) = target
    at harguments ⊢
  split
  · exact Nat.le_trans harguments (Nat.le_of_lt (o.lt_next target stop))
  · exact harguments

/-- The enum entries, and where the other members begin. -/
def scanEnumEntries (stop index : Nat) : Option (List Member × Nat) :=
  if index < stop then
    if o.isPunct index [';'] then some ([], index + 1)
    else
      let nameIndex := o.skipAnnotations index stop
      match (o.identifier nameIndex).filter fun _ => nameIndex < stop with
      | none => some ([], index)
      | some name =>
        let next := nameIndex + 1
        if next ≥ stop ∨ o.isPunctOf next [[','], [';'], ['('], ['{']] then do
          let next := o.enumEntryEnd next stop
          let last ← checkedSub next 1
          let after := if next < stop ∧ o.isPunct next [','] then next + 1 else next
          let (members, rest) ← scanEnumEntries stop after
          some ({ start := index, stop := last, kind := .field [name] } :: members, rest)
        else some ([], index)
  else some ([], index)
termination_by stop - index
decreasing_by
  have hname := o.le_skipAnnotations index stop
  have hentry := o.le_enumEntryEnd (o.skipAnnotations index stop + 1) stop
  split
  · omega
  · omega

/-- The loop of `scan_members`. -/
def scanFrom (stop : Nat) (owner : Option Str) (index : Nat) : Option (List Member) :=
  if index < stop then do
    let member ← o.memberAt index stop owner
    let members ← scanFrom stop owner (max member.stop index + 1)
    some (member :: members)
  else some []
termination_by stop - index

def scanMembers (start stop : Nat) (owner : Option Str) (isEnum : Bool) : Option (List Member) := do
  let (entries, index) ← (if isEnum then o.scanEnumEntries stop start else some ([], start))
  let members ← o.scanFrom stop owner index
  some (entries ++ members)

/-- One part of a Java record header or a Kotlin primary constructor. -/
def headerField (isRecord : Bool) (part : Nat × Nat) : Option (Option Member) :=
  let (start, stop) := part
  let index := (o.skipModifiers start stop).1
  let nameIndex :=
    if o.word index = some "val".toList ∨ o.word index = some "var".toList then some (index + 1)
    else if isRecord then o.javaParameterNameIndex start stop
    else none
  match nameIndex.bind o.identifier with
  | none => some none
  | some name => do
    let last ← checkedSub stop 1
    some (some { start, stop := last, kind := .field [name] })

/-- Java record components and Kotlin `val`/`var` primary constructor parameters. -/
def headerFields (opening close : Nat) (isRecord : Bool) : Option (List Member) :=
  ((o.splitList opening close).mapM (o.headerField isRecord)).map fun fields =>
    fields.filterMap id

/-- The primary constructor and the properties of its header. -/
def headerMembers (declaration : TypeDeclaration) (member : Member) : Option (List Member) :=
  match declaration.primaryParameters with
  | none => some []
  | some (opening, close) => do
    let fields ← o.headerFields opening close declaration.isRecord
    if declaration.isRecord then some fields
    else
      some
        ({ start := member.start
           stop := close
           kind := .function
            { name := declaration.name
              isConstructor := true
              isSuspend := false
              typeParameters := none
              receiver := none
              parameters := (opening, close) } } :: fields)

def membersOf (declaration : TypeDeclaration) (member : Member) : Option (List Member) := do
  let header ← o.headerMembers declaration member
  match declaration.body with
  | none => some header
  | some (opening, close) => do
    let members ← o.scanMembers (opening + 1) close (some declaration.name) declaration.isEnum
    some (header ++ members)

end SourceOutline

end MavenMcp.DeclarationSource
