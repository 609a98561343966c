/-
# Descriptions of classes

What `read_class_description_from` makes of a classfile: its members in order, each with its
visibility, its modifiers and its annotations.  Parsing the bytes is the parameter `parseClass`.

A constructor is described under the simple name of its class, so `Foo()` and a method `void Foo()`
differ only in the list that they are in.
-/
import MavenMcp.Index.ClassTools

namespace MavenMcp
namespace Index

open Text

/-! ## 1. Classfiles -/

/-- `AttributeData`, as far as a description reads it; an annotation is its type descriptor. -/
inductive AttributeData
  | signature (signature : Str)
  | runtimeVisibleAnnotations (annotations : List Str)
  | runtimeInvisibleAnnotations (annotations : List Str)
  | other
deriving DecidableEq, Repr

/-- A field or a method of a classfile. -/
structure MemberInfo where
  name : Str
  descriptor : Str
  accessFlags : UInt16
  attributes : List AttributeData
deriving DecidableEq, Repr

/-- What a description reads of a parsed classfile. -/
structure Classfile where
  thisClass : Str
  superClass : Option Str
  interfaces : List Str
  majorVersion : UInt16
  accessFlags : UInt16
  methods : List MemberInfo
  fields : List MemberInfo
  attributes : List AttributeData
deriving DecidableEq, Repr

/-- `flags.contains(flag)`. -/
def hasFlag (flags flag : UInt16) : Bool := decide (flags &&& flag ≠ 0)

def publicFlag : UInt16 := 0x0001

/-- The name of a constructor in a classfile. -/
def initName : Str := "<init>".toList

/-- The name of a class initializer in a classfile. -/
def clinitName : Str := "<clinit>".toList

/-! ## 2. Descriptions -/

inductive Visibility
  | «public»
  | «protected»
  | «private»
  | packagePrivate
deriving DecidableEq, Repr

structure ClassMemberDescription where
  name : Str
  descriptor : Str
  genericSignature : Option Str
  visibility : Visibility
  modifiers : List Str
  annotations : List Str
deriving DecidableEq, Repr

structure JarSummary where
  coordinate : Str
  groupId : Str
  artifactId : Str
  version : Str
  classifier : Option Str
  path : Str
  classCount : Nat
  entryCount : Nat
deriving DecidableEq, Repr

structure ClassDescription where
  className : Str
  jar : JarSummary
  classFileVersion : UInt16
  visibility : Visibility
  modifiers : List Str
  genericSignature : Option Str
  superClass : Option Str
  interfaces : List Str
  constructors : List ClassMemberDescription
  methods : List ClassMemberDescription
  fields : List ClassMemberDescription
  annotations : List Str
deriving DecidableEq, Repr

def summary (jar : JarRecord) : JarSummary :=
  { coordinate := coordinate jar
    groupId := jar.key.groupId
    artifactId := jar.key.artifactId
    version := jar.key.version
    classifier := jar.classifier
    path := jar.relativePath
    classCount := jar.classes.length
    entryCount := jar.entries.length }

def memberVisibility (bits : UInt16) : Visibility :=
  if bits &&& 0x0001 ≠ 0 then .public
  else if bits &&& 0x0004 ≠ 0 then .protected
  else if bits &&& 0x0002 ≠ 0 then .private
  else .packagePrivate

/-- `modifier_names`, of the flags that have a name. -/
def modifierNames (flags : UInt16) (names : List (UInt16 × String)) : List Str :=
  (names.filter fun named => hasFlag flags named.1).map fun named => named.2.toList

def classModifiers (flags : UInt16) : List Str :=
  modifierNames flags
    [(0x0010, "final"), (0x0200, "interface"), (0x0400, "abstract"), (0x1000, "synthetic"),
      (0x2000, "annotation"), (0x4000, "enum")]

def methodModifiers (flags : UInt16) : List Str :=
  modifierNames flags
    [(0x0008, "static"), (0x0010, "final"), (0x0020, "synchronized"), (0x0040, "bridge"),
      (0x0080, "varargs"), (0x0100, "native"), (0x0400, "abstract"), (0x0800, "strict"),
      (0x1000, "synthetic")]

def fieldModifiers (flags : UInt16) : List Str :=
  modifierNames flags
    [(0x0008, "static"), (0x0010, "final"), (0x0040, "volatile"), (0x0080, "transient"),
      (0x1000, "synthetic"), (0x4000, "enum")]

def genericSignature (attributes : List AttributeData) : Option Str :=
  attributes.findSome? fun
    | .signature signature => some signature
    | _ => none

def annotationName (typeDescriptor : Str) : Str :=
  replaceChar '/' '.' (trimEndMatches (· = ';') (trimStartMatches (· = 'L') typeDescriptor))

def annotationNames (attributes : List AttributeData) : List Str :=
  let annotations := attributes.flatMap fun
    | .runtimeVisibleAnnotations annotations => annotations
    | .runtimeInvisibleAnnotations annotations => annotations
    | _ => []
  ((annotations.map annotationName).mergeSort strLe).destutter (· ≠ ·)

/-- `rsplit('.').next()` of the name of a class. -/
def simpleName (className : Str) : Str := (className.reverse.takeWhile (· ≠ '.')).reverse

def describeMethod (thisClass : Str) (method : MemberInfo) : ClassMemberDescription :=
  { name := if method.name = initName then simpleName (binaryName thisClass) else method.name
    descriptor := method.descriptor
    genericSignature := genericSignature method.attributes
    visibility := memberVisibility method.accessFlags
    modifiers := methodModifiers method.accessFlags
    annotations := annotationNames method.attributes }

def describeField (field : MemberInfo) : ClassMemberDescription :=
  { name := field.name
    descriptor := field.descriptor
    genericSignature := genericSignature field.attributes
    visibility := memberVisibility field.accessFlags
    modifiers := fieldModifiers field.accessFlags
    annotations := annotationNames field.attributes }

/-- Order by name and descriptor. -/
def memberLe (a b : ClassMemberDescription) : Bool :=
  ((List.compareLex charCompare a.name b.name).then
    (List.compareLex charCompare a.descriptor b.descriptor)).isLE

/-- The methods that a description lists, constructors among them. -/
def listedMethods (parsed : Classfile) (publicOnly : Bool) : List MemberInfo :=
  parsed.methods.filter fun method =>
    !(decide (method.name = clinitName) || publicOnly && !hasFlag method.accessFlags publicFlag)

def describe (summary : JarSummary) (parsed : Classfile) (publicOnly : Bool) : ClassDescription :=
  let listed := listedMethods parsed publicOnly
  let inits := listed.filter fun method => method.name = initName
  let others := listed.filter fun method => method.name ≠ initName
  let fields := parsed.fields.filter fun field =>
    !publicOnly || hasFlag field.accessFlags publicFlag
  { className := binaryName parsed.thisClass
    jar := summary
    classFileVersion := parsed.majorVersion
    visibility := if hasFlag parsed.accessFlags publicFlag then .public else .packagePrivate
    modifiers := classModifiers parsed.accessFlags
    genericSignature := genericSignature parsed.attributes
    superClass := parsed.superClass.map binaryName
    interfaces := (parsed.interfaces.map binaryName).mergeSort strLe
    constructors := (inits.map (describeMethod parsed.thisClass)).mergeSort fun a b =>
      strLe a.descriptor b.descriptor
    methods := (others.map (describeMethod parsed.thisClass)).mergeSort memberLe
    fields := (fields.map describeField).mergeSort memberLe
    annotations := annotationNames parsed.attributes }

/-! ## 3. Reading -/

inductive DescribeError
  /-- `indexed class entry is missing for {class_name}`. -/
  | missingEntry (className : Str)
  /-- `indexed entry {name} is no longer present`. -/
  | gone (entry : Str)
  | unreadable
  /-- `class entry exceeds configured MAX_SOURCE_BYTES limit`. -/
  | tooLarge
  /-- `cannot parse classfile for {class_name}`. -/
  | unparsable (className : Str)
deriving DecidableEq, Repr

/-- `read_class_description_from`, up to the parsed classfile. -/
def readClassfile (parseClass : List UInt8 → Option Classfile) (archive : ClassArchive)
    (jar : JarRecord) (className : Str) (maxBytes : Nat) : Except DescribeError Classfile :=
  match selectClassEntry jar className with
  | none => .error (.missingEntry className)
  | some entryPath =>
    match archive.byName entryPath with
    | none => .error .unreadable
    | some none => .error (.gone entryPath)
    | some (some entry) =>
      if maxBytes < entry.size then .error .tooLarge
      else
        match entry.bytes with
        | none => .error .unreadable
        | some bytes =>
          match parseClass bytes with
          | none => .error (.unparsable className)
          | some parsed => .ok parsed

def readClassDescriptionFrom (parseClass : List UInt8 → Option Classfile) (archive : ClassArchive)
    (jar : JarRecord) (summary : JarSummary) (className : Str) (maxBytes : Nat)
    (publicOnly : Bool) : Except DescribeError ClassDescription :=
  (readClassfile parseClass archive jar className maxBytes).map fun parsed =>
    describe summary parsed publicOnly

end Index
end MavenMcp
