/-
# Coordinates and the lines of a dependency tree

Maven writes a dependency as `group:artifact:type[:classifier]:version:scope` and draws the tree
with one chunk of three characters for each ancestor and a marker in front of the node.  Here are
both, and the little that the two readers of such lines share: the test for a scope and the search
for the marker.
-/
import MavenMcp.Lib.Text

namespace MavenMcp

open Text

/-! ## 1. Coordinates -/

/-- The scopes that Maven writes. -/
inductive Scope
  | compile
  | provided
  | runtime
  | test
  | system
  | imported
deriving DecidableEq, Repr

/-- A scope as it is written. -/
def Scope.text : Scope → Str
  | compile => "compile".toList
  | provided => "provided".toList
  | runtime => "runtime".toList
  | test => "test".toList
  | system => "system".toList
  | imported => "import".toList

def isDependencyScope (value : Str) : Bool :=
  value ∈ ["compile".toList, "provided".toList, "runtime".toList, "test".toList, "system".toList,
    "import".toList]

theorem isDependencyScope_iff {value : Str} :
    isDependencyScope value = true ↔ ∃ scope : Scope, scope.text = value := by
  rw [isDependencyScope, decide_eq_true_eq]
  simp only [List.mem_cons, List.not_mem_nil, or_false]
  constructor
  · rintro (rfl | rfl | rfl | rfl | rfl | rfl)
    exacts [⟨.compile, rfl⟩, ⟨.provided, rfl⟩, ⟨.runtime, rfl⟩, ⟨.test, rfl⟩, ⟨.system, rfl⟩,
      ⟨.imported, rfl⟩]
  · rintro ⟨scope, rfl⟩
    cases scope
    exacts [.inl rfl, .inr (.inl rfl), .inr (.inr (.inl rfl)), .inr (.inr (.inr (.inl rfl))),
      .inr (.inr (.inr (.inr (.inl rfl)))), .inr (.inr (.inr (.inr (.inr rfl))))]

/-- What Maven accepts as a part of a coordinate has characters, and none that separates parts or
annotations. -/
def IsPart (text : Str) : Prop :=
  text ≠ [] ∧ ∀ c ∈ text, isWhitespace c = false ∧ c ∉ [':', '(', ')', ',']

instance (text : Str) : Decidable (IsPart text) :=
  inferInstanceAs (Decidable (_ ∧ _))

theorem IsPart.tight {text : Str} (h : IsPart text) : Tight text :=
  tight_of_not_whitespace h.1 fun c hc => (h.2 c hc).1

theorem isPart_scope (scope : Scope) : IsPart scope.text := by
  cases scope <;> decide

/-- Parts joined by colons. -/
def colons (parts : List Str) : Str := [':'].intercalate parts

/-- Reading the parts back. -/
theorem splitOn_colons {parts : List Str} (hne : parts ≠ []) (h : ∀ part ∈ parts, IsPart part) :
    (colons parts).splitOn ':' = parts :=
  List.splitOn_intercalate ':' (fun part hpart hmem => ((h part hpart).2 ':' hmem).2
    List.mem_cons_self) hne

theorem colons_injective {a b : List Str} (ha : a ≠ []) (hb : b ≠ [])
    (hpa : ∀ part ∈ a, IsPart part)
    (hpb : ∀ part ∈ b, IsPart part) (h : colons a = colons b) : a = b := by
  rw [← splitOn_colons ha hpa, h, splitOn_colons hb hpb]

theorem mem_colons {parts : List Str} (h : ∀ part ∈ parts, IsPart part) {x : Char}
    (hx : x ∈ colons parts) : isWhitespace x = false ∧ x ∉ ['(', ')', ','] := by
  rcases mem_intercalate hx with rfl | ⟨part, hpart, hx⟩
  · decide
  · exact ((h part hpart).2 x hx).imp_right fun hnot hx => hnot (List.mem_cons_of_mem _ hx)

/-- The last part of a text of several. -/
theorem colons_concat {parts : List Str} (hne : parts ≠ []) (part : Str) :
    colons (parts ++ [part]) = colons parts ++ ':' :: part := by
  induction parts with
  | nil => exact absurd rfl hne
  | cons p ps ih =>
    cases ps with
    | nil => simp [colons]
    | cons q ps =>
      have ih := ih (List.cons_ne_nil _ _)
      rw [colons] at ih ⊢
      rw [List.cons_append, List.cons_append, List.intercalate_cons_cons, ← List.cons_append, ih,
        colons, colons, List.intercalate_cons_cons]
      simp only [List.append_assoc]

/-- An artifact of a repository. -/
structure Artifact where
  groupId : Str
  artifactId : Str
  kind : Str
  classifier : Option Str
  version : Str
  valid : ∀ part ∈ [groupId, artifactId, kind] ++ classifier.toList ++ [version], IsPart part

namespace Artifact

/-- The parts in the order Maven writes them. -/
def parts (a : Artifact) : List Str :=
  [a.groupId, a.artifactId, a.kind] ++ a.classifier.toList ++ [a.version]

/-- `group:artifact:version[:classifier]`, as artifacts are reported. -/
def normalized (a : Artifact) : Str :=
  colons ([a.groupId, a.artifactId, a.version] ++ a.classifier.toList)

end Artifact

/-- A dependency: an artifact with a scope. -/
structure Coordinate extends Artifact where
  scope : Scope

namespace Coordinate

/-- The parts in the order Maven writes them. -/
def parts (c : Coordinate) : List Str := c.toArtifact.parts ++ [c.scope.text]

def text (c : Coordinate) : Str := colons c.parts

theorem isPart_of_mem {c : Coordinate} {part : Str} (h : part ∈ c.parts) : IsPart part := by
  rw [parts, List.mem_append, List.mem_singleton] at h
  rcases h with h | rfl
  · exact c.valid part h
  · exact isPart_scope c.scope

theorem splitOn_text (c : Coordinate) : c.text.splitOn ':' = c.parts :=
  splitOn_colons (List.cons_ne_nil _ _) fun _ => isPart_of_mem

theorem mem_text {c : Coordinate} {x : Char} (h : x ∈ c.text) :
    isWhitespace x = false ∧ x ∉ ['(', ')', ','] :=
  mem_colons (fun _ => isPart_of_mem) h

theorem text_eq (c : Coordinate) : c.text = colons c.toArtifact.parts ++ ':' :: c.scope.text :=
  colons_concat (List.cons_ne_nil _ _) _

theorem tight_text (c : Coordinate) : Tight c.text := by
  refine tight_of_not_whitespace ?_ fun x hx => (mem_text hx).1
  rw [text_eq]
  exact List.append_ne_nil_of_right_ne_nil _ (List.cons_ne_nil _ _)

end Coordinate

/-! ## 2. Lines of a tree -/

/-- The chunk under an ancestor. -/
def treeChunk (last : Bool) : Str := if last then "   ".toList else "|  ".toList

/-- The chunks under a chain of ancestors. -/
def treeChunks (above : List Bool) : Str := above.flatMap treeChunk

/-- What stands in front of a node. -/
def treeMarker (last : Bool) : Str := if last then "\\- ".toList else "+- ".toList

/-- The level of the lines. -/
def infoLevel : Str := "[INFO]".toList

theorem infoLevel_tight : Tight infoLevel :=
  tight_of_not_whitespace (by decide) (by decide)

/-- A line of the tree, as Maven logs it. -/
def treeLine (above : List Bool) (last : Bool) (text : Str) : Str :=
  infoLevel ++ ' ' :: (treeChunks above ++ (treeMarker last ++ text))

theorem mem_treeChunks {above : List Bool} {c : Char} (h : c ∈ treeChunks above) :
    c = '|' ∨ c = ' ' := by
  obtain ⟨last, -, hc⟩ := List.mem_flatMap.mp h
  cases last with
  | false =>
    have hc : c ∈ ['|', ' ', ' '] := hc
    simpa using hc
  | true =>
    have hc : c ∈ [' ', ' ', ' '] := hc
    exact .inr (by simpa using hc)

theorem treeLine_tight (above : List Bool) (last : Bool) {text : Str} (h : Tight text) :
    Tight (treeLine above last text) := by
  rw [treeLine, ← List.append_assoc (treeChunks above), ← List.cons_append]
  exact infoLevel_tight.append h _

/-- It is one line of a text. -/
theorem treeLine_line (above : List Bool) (last : Bool) {text : Str} (h : Tight text)
    (hlf : '\n' ∉ text) :
    '\n' ∉ treeLine above last text ∧ (treeLine above last text).getLast? ≠ some '\r' := by
  constructor
  · intro hmem
    rw [treeLine, List.mem_append, List.mem_cons, List.mem_append, List.mem_append] at hmem
    rcases hmem with hmem | hmem | hmem | hmem | hmem
    · revert hmem
      decide
    · cases hmem
    · rcases mem_treeChunks hmem with h | h <;> cases h
    · revert hmem
      cases last <;> decide
    · exact hlf hmem
  · intro hcr
    obtain ⟨-, c, hc, hws⟩ := treeLine_tight above last h
    cases hc.symm.trans hcr
    exact absurd hws (by decide)

theorem byteLen_treeChunks (above : List Bool) :
    byteLen (treeChunks above) = 3 * above.length := by
  induction above with
  | nil => rfl
  | cons last above ih =>
    have hlen : byteLen (treeChunk last) = 3 := by
      cases last <;> rfl
    rw [treeChunks, List.flatMap_cons, byteLen_append, ← treeChunks, ih, hlen, List.length_cons]
    omega

theorem drop_treeMarker (last : Bool) (text : Str) : (treeMarker last ++ text).drop 3 = text := by
  cases last <;> rfl

/-- `line.find("+- ").or_else(|| line.find("\\- "))`. -/
def findMarker (line : Str) : Option (Str × Str) :=
  (find "+- ".toList line).or (find "\\- ".toList line)

/-- **The marker found is the one of the node**, unless the node's own text holds one. -/
theorem findMarker_treeLine {text : Str} (above : List Bool) (last : Bool)
    (h : find "+- ".toList text = none) :
    findMarker (treeChunks above ++ (treeMarker last ++ text))
      = some (treeChunks above, treeMarker last ++ text) := by
  have hplus : '+' ∉ treeChunks above := fun hmem => by
    rcases mem_treeChunks hmem with h | h <;> cases h
  have hback : '\\' ∉ treeChunks above := fun hmem => by
    rcases mem_treeChunks hmem with h | h <;> cases h
  cases last with
  | false =>
    have hfound : find "+- ".toList (treeChunks above ++ (treeMarker false ++ text))
        = some (treeChunks above, treeMarker false ++ text) :=
      find_first hplus (startsWith_iff.mpr ⟨text, rfl⟩)
    rw [findMarker, hfound, Option.some_or]
  | true =>
    have hnone : find "+- ".toList (treeChunks above ++ (treeMarker true ++ text)) = none := by
      refine (find_append_of_not_mem _ hplus).trans ?_
      refine Option.map_eq_none_iff.mpr ((find_append_of_not_mem _ (by decide)).trans ?_)
      exact Option.map_eq_none_iff.mpr h
    have hfound : find "\\- ".toList (treeChunks above ++ (treeMarker true ++ text))
        = some (treeChunks above, treeMarker true ++ text) :=
      find_first hback (startsWith_iff.mpr ⟨text, rfl⟩)
    rw [findMarker, hnone, hfound, Option.none_or]

end MavenMcp
