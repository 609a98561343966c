/-
# Erased parameter types

The erasure of source parameter types for matching them against classfile descriptors.  None of
these functions can panic: every subtraction stands behind a test that the number is large enough.
-/
import MavenMcp.DeclarationSource.Modifiers

namespace MavenMcp.DeclarationSource

open Text

/-- Nesting limit of parenthesized and array element types in one Kotlin type. -/
def maxTypeNesting : Nat := 32

/-- Limit of type variable bounds followed while erasing a type variable. -/
def maxTypeVariableDepth : Nat := 8

/-- An erased JVM parameter type identified by its simple name and array dimensions. -/
structure ErasedType where
  name : Str
  dimensions : Nat
deriving DecidableEq, Repr

def ErasedType.object : ErasedType := { name := "Object".toList, dimensions := 0 }

/-- How a source function relates to the parameters of a classfile descriptor. -/
inductive DescriptorMatch
  | proven
  | possible
  | excluded
deriving DecidableEq, Repr

/-- Type variables in scope with the half-open token range of their first bound, latest first. -/
abbrev TypeVariables := List (Str × Option (Nat × Nat))

/-- The enclosing type chain of a located type, outermost first. -/
abbrev Owners := List (TypeDeclaration × Member)

/-! ## 1. Descriptors -/

def primitiveName : Char → Option Str
  | 'B' => some "byte".toList
  | 'C' => some "char".toList
  | 'D' => some "double".toList
  | 'F' => some "float".toList
  | 'I' => some "int".toList
  | 'J' => some "long".toList
  | 'S' => some "short".toList
  | 'Z' => some "boolean".toList
  | _ => none

/-- The loop of `descriptor_parameters`. -/
def descriptorFrom (dimensions : Nat) (characters : Str) : Option (List ErasedType) :=
  match characters with
  | [] => if dimensions = 0 then some [] else none
  | '[' :: rest => descriptorFrom (dimensions + 1) rest
  | 'L' :: rest => do
    let binary := rest.takeWhile (· ≠ ';')
    let name := (((binary.splitOn '/').getLastD []).splitOn '$').getLastD []
    let further ← descriptorFrom 0 ((rest.dropWhile (· ≠ ';')).drop 1)
    some ({ name, dimensions } :: further)
  | other :: rest => do
    let name ← primitiveName other
    let further ← descriptorFrom 0 rest
    some ({ name, dimensions } :: further)
termination_by characters.length
decreasing_by
  · exact Nat.lt_succ_self _
  · have hdrop := (List.dropWhile_suffix (l := rest) (· ≠ ';')).length_le
    simp only [List.length_cons, List.length_drop]
    omega
  · exact Nat.lt_succ_self _

def descriptorParameters (descriptor : Str) : Option (List ErasedType) := do
  let rest ← stripPrefix ['('] descriptor
  let (parameters, _) ← splitOnce ')' rest
  descriptorFrom 0 parameters

/-- The primitive type of a Kotlin type and its boxed type. -/
def kotlinPrimitive (name : Str) : Option (Str × Str) :=
  (([("Int", "int", "Integer"), ("Long", "long", "Long"), ("Short", "short", "Short"),
    ("Byte", "byte", "Byte"), ("Char", "char", "Character"), ("Boolean", "boolean", "Boolean"),
    ("Float", "float", "Float"), ("Double", "double", "Double")].find?
      fun entry => entry.1.toList == name).map fun entry => (entry.2.1.toList, entry.2.2.toList))

/-- The Java type of a Kotlin type that has another name. -/
def mappedName (name : Str) : Str :=
  (([("Any", "Object"), ("Nothing", "Void"), ("MutableList", "List"), ("MutableSet", "Set"),
    ("MutableMap", "Map"), ("MutableCollection", "Collection"), ("MutableIterable", "Iterable"),
    ("MutableIterator", "Iterator"), ("MutableListIterator", "ListIterator"),
    ("MutableEntry", "Entry")].find? fun entry => entry.1.toList == name).map
      fun entry => entry.2.toList).getD name

theorem length_of_stripSuffix {pat text rest : Str} (h : stripSuffix pat text = some rest) :
    rest.length + pat.length = text.length := by
  obtain ⟨back, hback, rfl⟩ := Option.map_eq_some_iff.mp h
  have htext := congrArg List.length (stripPrefix_eq_some_iff.mp hback)
  simp only [List.length_reverse, List.length_append] at htext ⊢
  omega

/-- Maps a Kotlin type name to the simple name of its erased JVM type. -/
def kotlinErasedName (u : Unicode) (name : Str) (boxed : Bool) : ErasedType :=
  match kotlinPrimitive name with
  | some (primitive, boxedName) =>
    { name := if boxed then boxedName else primitive, dimensions := 0 }
  | none =>
    match _h : stripSuffix "Array".toList name with
    | some element =>
      let element := kotlinErasedName u element false
      if element.name.head?.any u.lowercase then { name := element.name, dimensions := 1 }
      else { name := mappedName name, dimensions := 0 }
    | none => { name := mappedName name, dimensions := 0 }
termination_by name.length
decreasing_by
  have hlength := length_of_stripSuffix _h
  have harray : "Array".toList.length = 5 := rfl
  omega

namespace SourceOutline

variable (u : Unicode) (o : SourceOutline)

/-! ## 2. Java types -/

/-- The qualified name of a Java type: its last part, and the index behind it. -/
def javaTypeName (start stop : Nat) : Option (Str × Nat) :=
  let index := o.skipAnnotations start stop
  if index < stop then
    match o.identifier index with
    | none => none
    | some name =>
      let after :=
        if o.isPunct (index + 1) ['<'] then o.angleEnd (index + 1) stop + 1 else index + 1
      if o.isPunct after ['.'] ∧ (o.identifier (after + 1)).isSome then
        javaTypeName (after + 1) stop
      else some (name, after)
  else none
termination_by stop - start
decreasing_by
  have hstart := o.le_skipAnnotations start stop
  have hangle := o.le_angleEnd (o.skipAnnotations start stop + 1) stop
  split
  · omega
  · omega

/-- The dimensions behind a Java type, and the index behind them. -/
def javaDimensions (stop dimensions start : Nat) : Nat × Nat :=
  let index := o.skipAnnotations start stop
  if o.isPunct index ['['] ∧ o.isPunct (index + 1) [']'] then
    javaDimensions stop (dimensions + 1) (index + 2)
  else (dimensions, index)
termination_by o.tokens.length - start
decreasing_by
  rename_i h
  have hstart := o.le_skipAnnotations start stop
  have hlength := o.lt_length_of_isPunct h.1
  omega

/-- Parses a Java type at `index`; returns it with the index of the following token. -/
def javaType (index stop : Nat) : Option (ErasedType × Nat) := do
  let (name, index) ← o.javaTypeName index stop
  let (dimensions, index) := o.javaDimensions stop 0 index
  if [0, 1, 2].all fun offset => o.isPunct (index + offset) ['.'] then
    some ({ name, dimensions := dimensions + 1 }, index + 3)
  else some ({ name, dimensions }, index)

def javaParameterNameIndex (start stop : Nat) : Option Nat := do
  let (_, index) ← o.javaType (o.skipModifiers start stop).1 stop
  if index < stop ∧ (o.identifier index).isSome then some index else none

/-- The dimensions behind the name of a parameter. -/
def trailingDimensions (stop cursor : Nat) : Nat :=
  if cursor + 1 < stop ∧ o.isPunct cursor ['['] ∧ o.isPunct (cursor + 1) [']'] then
    trailingDimensions stop (cursor + 2) + 1
  else 0
termination_by stop - cursor

/-- Erased type of one Java parameter; `some none` for a receiver parameter. -/
def javaParameter (start stop : Nat) : Option (Option ErasedType) := do
  let (erased, index) ← o.javaType (o.skipModifiers start stop).1 stop
  if o.word index = some "this".toList ∨ o.word (index + 2) = some "this".toList then return none
  return some
    { erased with dimensions := erased.dimensions + o.trailingDimensions stop (index + 1) }

/-! ## 3. Kotlin types -/

/-- The next token of this punctuation outside of brackets, or the end of the range. -/
def seek (value : Str) (stop index : Nat) : Nat :=
  if index < stop ∧ o.isPunct index value = false then seek value stop (o.next index stop)
  else index
termination_by stop - index
decreasing_by
  have := o.lt_next index stop
  omega

/-- The qualified name of a Kotlin type: its last part with its type arguments. -/
def kotlinTypeName (stop index : Nat) (name : Str) : Str × Option (Nat × Nat) :=
  let opening := index + 1
  let isGeneric := o.isPunct opening ['<']
  let close := o.angleEnd opening stop
  let arguments := if isGeneric then some (opening, close) else none
  let after := if isGeneric then close + 1 else opening
  match o.identifier (after + 1) with
  | some segment =>
    if o.isPunct after ['.'] ∧ after + 1 < stop then kotlinTypeName stop (after + 1) segment
    else (name, arguments)
  | none => (name, arguments)
termination_by stop - index
decreasing_by
  rename_i h
  have hangle := o.le_angleEnd (index + 1) stop
  have hafter : index + 1 ≤ after := by
    simp only [after, isGeneric, close, opening]
    split
    · omega
    · omega
  show stop - (after + 1) < stop - index
  omega

/-- Parameter count of a Kotlin function type, a receiver counted as one parameter. -/
def kotlinFunctionTypeArity (start stop : Nat) : Option Nat := do
  let index := o.seek ['-', '>'] stop start
  let close ← checkedSub index 1
  if index ≥ stop ∨ o.isPunct close [')'] = false then none
  let opening ← (o.closing close).filter fun opening => start ≤ opening ∧ opening < close
  some ((o.splitList opening close).length + if start < opening then 1 else 0)

/-- Erases `Array<T>` from its type arguments, `Array<*>` as an `Object` array. -/
def kotlinArrayType (kotlinType : Nat → Nat → Option ErasedType)
    (arguments : Option (Nat × Nat)) : ErasedType :=
  let element := do
    let (opening, close) ← arguments
    let (start, stop) ← (o.splitList opening close).head?
    let start :=
      if o.word start = some "out".toList ∨ o.word start = some "in".toList then start + 1
      else start
    kotlinType start stop
  let element := element.getD .object
  { element with dimensions := element.dimensions + 1 }

/-- `kotlin_type`, with this many levels of nesting left. -/
def kotlinType : Nat → Nat → Nat → Bool → Option ErasedType
  | 0, _, _, _ => none
  | levels + 1, start, stop, boxed =>
    let index := o.skipAnnotations start stop
    let isSuspend := o.word index = some "suspend".toList
    let index := if isSuspend then index + 1 else index
    let nullable := index < stop ∧ o.isPunct (stop - 1) ['?']
    match o.kotlinFunctionTypeArity index stop with
    | some arity =>
      let arity := arity + if isSuspend then 1 else 0
      some { name := "Function".toList ++ Nat.toDigits 10 arity, dimensions := 0 }
    | none =>
      if o.isPunct index ['('] then
        kotlinType levels (index + 1) (o.groupEnd index stop) (boxed || nullable)
      else
        match (o.identifier index).filter fun _ => index < stop with
        | none => none
        | some name =>
          let (name, arguments) := o.kotlinTypeName stop index name
          if name = "Array".toList then
            some (o.kotlinArrayType (fun start stop => kotlinType levels start stop true) arguments)
          else some (kotlinErasedName u name (boxed || nullable))

/-- The loop over the modifiers of a Kotlin parameter. -/
def skipParameterModifiers (stop : Nat) (isVararg : Bool) (index : Nat) : Nat × Bool :=
  match _h : o.word index with
  | none => (index, isVararg)
  | some word =>
    if (word = "val".toList ∨ word = "var".toList ∨ word ∈ kotlinModifiers) ∧
        o.isPunct (index + 1) [':'] = false then
      skipParameterModifiers stop (isVararg || word == "vararg".toList)
        (o.skipAnnotations (index + 1) stop)
    else (index, isVararg)
termination_by o.tokens.length - index
decreasing_by
  have hlength := o.lt_length_of_word _h
  have hskip := o.le_skipAnnotations (index + 1) stop
  omega

def kotlinParameter (start stop : Nat) : Option ErasedType := do
  let (index, isVararg) := o.skipParameterModifiers stop false (o.skipAnnotations start stop)
  if (o.identifier index).isNone ∨ o.isPunct (index + 1) [':'] = false then none
  let typeStart := index + 2
  let typeEnd := o.seek ['='] stop typeStart
  let erased ← o.kotlinType u maxTypeNesting typeStart (min typeEnd stop) false
  some { erased with dimensions := erased.dimensions + if isVararg then 1 else 0 }

/-! ## 4. Signatures -/

def collectTypeVariables (parameters : Option (Nat × Nat)) (typeVariables : TypeVariables) :
    TypeVariables :=
  match parameters with
  | none => typeVariables
  | some (opening, close) =>
    (o.splitList opening close).foldl (fun typeVariables (start, stop) =>
      let index := o.skipAnnotations start stop
      let index :=
        if o.word index ∈ ["reified", "in", "out"].map fun word => some word.toList then index + 1
        else index
      match o.identifier index with
      | none => typeVariables
      | some name =>
        let hasBound :=
          o.word (index + 1) = some "extends".toList ∨ o.isPunct (index + 1) [':'] = true
        let boundStart := index + 2
        let bound :=
          if hasBound ∧ boundStart < stop then
            some (boundStart, min (o.seek ['&'] stop boundStart) stop)
          else none
        (name, bound) :: typeVariables) typeVariables

/-- `erase`, with this many bounds left to follow. -/
def erase (typeVariables : TypeVariables) : Nat → ErasedType → ErasedType
  | levels, erased =>
    match typeVariables.lookup erased.name with
    | none => erased
    | some bound =>
      match levels with
      | 0 => { ErasedType.object with dimensions := erased.dimensions }
      | levels + 1 =>
        let base := bound.bind fun (start, stop) =>
          match o.language with
          | .java => (o.javaType start stop).map Prod.fst
          | .kotlin => o.kotlinType u maxTypeNesting start stop true
        let base := (base.map (erase typeVariables levels)).getD .object
        { base with dimensions := base.dimensions + erased.dimensions }

def erasedSignature (function : FunctionDeclaration) (typeVariables : TypeVariables) :
    Option (List ErasedType) := do
  let receiver ← (match function.receiver with
    | none => some []
    | some (start, stop) => (o.kotlinType u maxTypeNesting start stop false).map ([·]))
  let parameters ← (o.splitList function.parameters.1 function.parameters.2).mapM
    fun (start, stop) =>
      match o.language with
      | .java => o.javaParameter start stop
      | .kotlin => (o.kotlinParameter u start stop).map some
  let signature :=
    (receiver ++ parameters.filterMap id).map (o.erase u typeVariables maxTypeVariableDepth)
  some (if function.isSuspend then
    signature ++ [{ name := "Continuation".toList, dimensions := 0 }] else signature)

end SourceOutline

/-- Accepts the synthetic leading constructor parameters javac and kotlinc add for inner
classes (the enclosing instance) and enums (name and ordinal). -/
def syntheticConstructorPrefix (owner : TypeDeclaration) (enclosing : Option Str)
    (actual expected : List ErasedType) : Bool :=
  enclosing.any (fun enclosing => expected = { name := enclosing, dimensions := 0 } :: actual) ||
    (owner.isEnum && expected = { name := "String".toList, dimensions := 0 } ::
      { name := "int".toList, dimensions := 0 } :: actual)

namespace SourceOutline

variable (u : Unicode) (o : SourceOutline)

def erasedParametersMatch (function : FunctionDeclaration) (owners : Owners)
    (expected : List ErasedType) : Bool :=
  let typeVariables := owners.foldl (fun typeVariables owner =>
    o.collectTypeVariables owner.1.typeParameters typeVariables) []
  let typeVariables := o.collectTypeVariables function.typeParameters typeVariables
  match o.erasedSignature u function typeVariables with
  | none => false
  | some actual =>
    actual = expected ||
      match owners.getLast? with
      | none => false
      | some (owner, _) =>
        let enclosing := (checkedSub owners.length 2).bind fun index =>
          owners[index]?.map fun owner => owner.1.name
        function.isConstructor && syntheticConstructorPrefix owner enclosing actual expected

def functionMatches (member : Member) (owners : Owners) (expected : List ErasedType) :
    DescriptorMatch :=
  match member.kind with
  | .function function =>
    if o.isPunct function.parameters.2 [')'] = false then .possible
    else if o.erasedParametersMatch u function owners expected then .proven
    else .excluded
  | _ => .excluded

end SourceOutline

end MavenMcp.DeclarationSource
