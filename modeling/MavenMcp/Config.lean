/-
# Bounded XML files

Every XML file is read within limits of `src/config.rs`: of one file, and of the set of files that
one operation reads.  The file system and the events of the XML reader are parameters.
-/
import MavenMcp.Lib.Utf8

namespace MavenMcp

def maxXmlDepth : Nat := 128
def maxXmlElements : Nat := 200000
def maxXmlTotalBytes : Nat := 67108864
def maxXmlFiles : Nat := 4096

/-- The events of `quick_xml::Reader` that count. -/
inductive XmlEvent
  | start
  | empty
  | ended
  | other
deriving DecidableEq, Repr

/-- The files, by the paths that the caller uses. -/
structure XmlFiles (P : Type) where
  /-- What opening and reading a file answers. -/
  bytes : P → Option (List UInt8)
  /-- The events up to the end of the file; `none` stands for an error of the reader. -/
  events : Str → List (Option XmlEvent)
  /-- `max_xml_bytes()`. -/
  maxXmlBytes : Nat

inductive XmlError
  | unreadable
  /-- `XML file exceeds configured MAX_XML_BYTES limit of {limit} bytes` -/
  | tooLong (limit : Nat)
  /-- `XML file is not valid UTF-8` -/
  | notUtf8
  | malformed
  /-- `XML exceeds MAX_XML_DEPTH limit of {MAX_XML_DEPTH}` -/
  | tooDeep
  /-- `XML exceeds MAX_XML_ELEMENTS limit of {MAX_XML_ELEMENTS}` -/
  | tooManyElements
  /-- `XML set exceeds MAX_XML_FILES limit of {MAX_XML_FILES}` -/
  | tooManyFiles
deriving DecidableEq, Repr

/-- The elements that are open, and those that began. -/
structure XmlCounts where
  depth : Nat
  elements : Nat

/-- One round of the loop of `validate_xml_structure`. -/
def validateEvent (counts : XmlCounts) (event : Option XmlEvent) : Except XmlError XmlCounts := do
  let counts ←
    match event with
    | none => .error .malformed
    | some .start => .ok ⟨counts.depth + 1, counts.elements + 1⟩
    | some .empty =>
      if maxXmlDepth ≤ counts.depth then .error .tooDeep
      else .ok ⟨counts.depth, counts.elements + 1⟩
    | some .ended => .ok ⟨counts.depth - 1, counts.elements⟩
    | some .other => .ok counts
  if maxXmlDepth < counts.depth then .error .tooDeep
  else if maxXmlElements < counts.elements then .error .tooManyElements
  else .ok counts

namespace XmlFiles

variable {P : Type} (files : XmlFiles P)

def validateXmlStructure (xml : Str) : Except XmlError Unit := do
  let _ ← (files.events xml).foldlM validateEvent ⟨0, 0⟩
  .ok ()

def readBoundedXmlWithLimit (path : P) (limit : Nat) : Except XmlError Str :=
  match files.bytes path with
  | none => .error .unreadable
  | some bytes =>
    if limit < bytes.length then .error (.tooLong limit)
    else
      match Utf8.decode bytes with
      | none => .error .notUtf8
      | some xml => (files.validateXmlStructure xml).map fun _ => xml

/-- The text of a file, without limits. -/
def text (path : P) : Option Str := (files.bytes path).bind Utf8.decode

theorem text_of_readBounded {files : XmlFiles P} {path : P} {limit : Nat} {xml : Str}
    (h : files.readBoundedXmlWithLimit path limit = .ok xml) : files.text path = some xml := by
  unfold readBoundedXmlWithLimit at h
  unfold text
  cases hbytes : files.bytes path with
  | none => simp [hbytes] at h
  | some bytes =>
    simp only [hbytes] at h
    split at h
    · cases h
    · cases hdecode : Utf8.decode bytes with
      | none => simp [hdecode] at h
      | some text =>
        simp only [hdecode] at h
        cases hvalid : files.validateXmlStructure text with
        | error e => simp [hvalid, Except.map] at h
        | ok u =>
          simp only [hvalid, Except.map, Except.ok.injEq] at h
          rw [h] at hdecode
          exact hdecode

end XmlFiles

theorem eq_ok_of_toOption {ε α : Type} {x : Except ε α} {a : α} (h : x.toOption = some a) :
    x = .ok a := by
  cases x with
  | ok b =>
    cases h
    rfl
  | error e => cases h

structure XmlBudget where
  bytes : Nat
  files : Nat
deriving DecidableEq, Repr

namespace XmlBudget

/-- `XmlBudget::default`. -/
def empty : XmlBudget := ⟨0, 0⟩

variable {P : Type}

def read (files : XmlFiles P) (budget : XmlBudget) (path : P) :
    Except XmlError (Str × XmlBudget) := do
  if maxXmlFiles ≤ budget.files then .error .tooManyFiles
  else
    let remaining := maxXmlTotalBytes - budget.bytes
    let xml ← files.readBoundedXmlWithLimit path (min files.maxXmlBytes remaining)
    .ok (xml, ⟨budget.bytes + (Utf8.encode xml).length, budget.files + 1⟩)

/-- **A read within the budget** answers the text of the file, and is counted. -/
theorem read_eq_ok {files : XmlFiles P} {budget budget' : XmlBudget} {path : P} {xml : Str}
    (h : budget.read files path = .ok (xml, budget')) :
    files.text path = some xml ∧ budget.files < maxXmlFiles ∧
      budget'.files = budget.files + 1 := by
  unfold read at h
  split at h
  · cases h
  · rename_i hfiles
    simp only at h
    cases hread : files.readBoundedXmlWithLimit path
        (min files.maxXmlBytes (maxXmlTotalBytes - budget.bytes)) with
    | error e =>
      rw [hread] at h
      cases h
    | ok text =>
      rw [hread] at h
      cases h
      exact ⟨XmlFiles.text_of_readBounded hread, by omega, rfl⟩

end XmlBudget

end MavenMcp
