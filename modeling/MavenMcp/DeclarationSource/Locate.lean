/-
# Locating a declaration

From the binary name of a class and a declaration of its classfile to the slice of the source, or
to the reason why there is none.
-/
import MavenMcp.DeclarationSource.Members

namespace MavenMcp.DeclarationSource

open Text

namespace Member

/-- The declaration, if the member is a type. -/
def type? (member : Member) : Option TypeDeclaration :=
  match member.kind with
  | .type declaration => some declaration
  | _ => none

def isTypeNamed (name : Str) (member : Member) : Bool :=
  member.type?.any fun declaration => declaration.name = name

def isFieldNamed (name : Str) (member : Member) : Bool :=
  match member.kind with
  | .field names => names.contains name
  | _ => false

def isFunctionNamed (name : Str) (member : Member) : Bool :=
  match member.kind with
  | .function function => function.name = name
  | _ => false

end Member

namespace SourceOutline

variable (u : Unicode) (o : SourceOutline)

/-- The members of a companion object; nothing for other members. -/
def companionMembers (member : Member) : Option (List Member) :=
  match member.type? with
  | some declaration =>
    if declaration.isCompanion then o.membersOf declaration member else some []
  | none => some []

/-- Direct members accepted by `accept`, or those of a Kotlin companion object when the
type itself declares none (companion members compile into the enclosing class). -/
def directOrCompanion (members : List Member) (accept : Member → Bool) : Option (List Member) := do
  let direct := members.filter accept
  if !direct.isEmpty then return direct
  let companions ← members.mapM o.companionMembers
  return companions.flatten.filter accept

def locateField (members : List Member) (name : Str) : Option SliceOutcome := do
  let found ← o.directOrCompanion members (Member.isFieldNamed name)
  match found with
  | [member] => (o.slice member.start member.stop).map .found
  | _ => o.unresolvedMembers found

/-- What the descriptor says about the declarations of one name. -/
def resolveOverload (owners : Owners) (expected : List ErasedType) (found : List Member) :
    Option SliceOutcome :=
  let proven := found.filter fun member => o.functionMatches u member owners expected = .proven
  let possible := found.filter fun member => o.functionMatches u member owners expected = .possible
  match proven, possible with
  | [member], [] => (o.slice member.start member.stop).map .found
  -- No match, or only declarations whose parameter list was cut off: none is proven.
  | [], _ => (o.memberLines found).map (.unresolved .unproven)
  | _, _ => o.unresolvedMembers (proven ++ possible)

def locateFunction (members : List Member) (owners : Owners) (candidate : DeclarationCandidate)
    (isCompilerGenerated : Bool) : Option SliceOutcome := do
  let found ← o.directOrCompanion members (Member.isFunctionNamed candidate.name)
  if found.isEmpty then return .notFound
  if isCompilerGenerated then (o.memberLines found).map (.unresolved .unproven)
  else
    match candidate.descriptor with
    | none =>
      match found with
      | [member] => (o.slice member.start member.stop).map .found
      | _ => o.unresolvedMembers found
    | some descriptor =>
      match descriptorParameters descriptor with
      | none => (o.memberLines found).map (.unresolved .unproven)
      | some expected => o.resolveOverload u owners expected found

/-- The loop of `locate`: from the members of a scope along the names of nested types. -/
def locateIn (candidate : DeclarationCandidate) (isCompilerGenerated : Bool) :
    List Str → List Member → Owners → Option SliceOutcome
  | [], members, owners =>
    match owners.getLast? with
    | none => some .notFound
    | some (_, ownerMember) =>
      match candidate.kind with
      | .inClass => (o.slice ownerMember.start ownerMember.stop).map .found
      | .field => o.locateField members candidate.name
      | .method => o.locateFunction u members owners candidate isCompilerGenerated
  | segment :: path, members, owners =>
    match members.filter (Member.isTypeNamed segment) with
    | [member] =>
      match member.type? with
      | none => some .notFound
      | some declaration => do
        let members ← o.membersOf declaration member
        locateIn candidate isCompilerGenerated path members (owners ++ [(declaration, member)])
    | found => o.unresolvedMembers found

/-- Locates the declaration of `candidate` in the type named by the binary `className`.

A compiler-generated (bridge or synthetic) method has no source declaration of its
own, so it is never matched to a same-named source method. -/
def locate (className : Str) (candidate : DeclarationCandidate) (isCompilerGenerated : Bool) :
    Option SliceOutcome :=
  match nestedTypePath className with
  | none => some .notFound
  | some path => do
    let members ← o.scanMembers 0 o.tokens.length none false
    o.locateIn u candidate isCompilerGenerated path members []

end SourceOutline

end MavenMcp.DeclarationSource
