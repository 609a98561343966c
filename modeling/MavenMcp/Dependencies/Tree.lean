/-
# Reading a dependency tree

`parse_dependency_tree` takes each line of `dependency:tree` apart: it strips the white space and
the log level, looks for the marker of the node, and counts the chunks in front of it.  The white
space it strips after the log level takes with it the chunks of ancestors that have no later
sibling, and below the last root every line starts with such a chunk.

`nodeOfLine_treeLine` says what a line yields; `parse_render_iff` that a tree is read back exactly
when its last root is a leaf.  `maven_log_message`, which the explanation of a resolution uses for
the same lines, strips one blank only.
-/
import Mathlib.Data.List.TakeWhile
import MavenMcp.Lib.Forest
import MavenMcp.Dependencies.Coordinate

namespace MavenMcp

open Text

/-! ## 1. The code -/

structure DependencyNode where
  depth : Nat
  coordinate : Str
  scope : Option Str
deriving DecidableEq, Repr

/-- Whether a prefix consists of chunks; its length is a multiple of three then. -/
def isTreePrefix : Str → Bool
  | [] => true
  | '|' :: ' ' :: ' ' :: rest => isTreePrefix rest
  | ' ' :: ' ' :: ' ' :: rest => isTreePrefix rest
  | _ => false

/-- The coordinate as it is reported, and its scope. -/
def normalizeParts : List Str → Option (Str × Option Str)
  | [group, artifact, _kind, version, scope] =>
    some (colons [group, artifact, version], some scope)
  | [group, artifact, _kind, classifier, version, scope] =>
    some (colons [group, artifact, version, classifier], some scope)
  | _ => none

/-- The closure of `parse_dependency_tree`. -/
def nodeOfLine (line : Str) : Option DependencyNode := do
  let line := trim (trimStartStr infoLevel (trim line))
  -- Unmarked lines include the project root and Maven diagnostics.
  let (front, rest) ← findMarker line
  let marker := byteLen front
  if marker % 3 ≠ 0 ∨ isTreePrefix front = false then none
  let depth := marker / 3 + 1
  let coordinate := trim (rest.drop 3)
  let coordinate := trimEndMatches (· = ',') (← firstWord coordinate)
  let parts := coordinate.splitOn ':'
  if parts.any List.isEmpty ∨ parts.getLast?.any isDependencyScope = false then none
  let (normalized, scope) ← normalizeParts parts
  some { depth, coordinate := normalized, scope }

def parseDependencyTree (output : Str) : List DependencyNode :=
  (lines output).filterMap nodeOfLine

/-! ## 2. The tree as Maven prints it -/

/-- The line of one visit. -/
def renderRow (row : Forest.Row Coordinate) : Str :=
  treeLine (row.above.map Prod.fst) row.last row.node.text

def renderTree (f : Forest Coordinate) : Str :=
  (f.walk []).flatMap fun row => renderRow row ++ ['\n']

/-- What a visit should be reported as. -/
def nodeOfRow (row : Forest.Row Coordinate) : DependencyNode where
  depth := row.depth
  coordinate := row.node.normalized
  scope := some row.node.scope.text

/-! ## 3. One line -/

theorem isTreePrefix_treeChunks (above : List Bool) : isTreePrefix (treeChunks above) = true := by
  induction above with
  | nil => rfl
  | cons last above ih =>
    cases last
    exacts [ih, ih]

/-- The chunks under ancestors without a later sibling are white space. -/
theorem treeChunks_blank {above : List Bool} (h : ∀ last ∈ above, last = true) :
    ∀ c ∈ treeChunks above, isWhitespace c = true := by
  intro c hc
  obtain ⟨last, hlast, hc⟩ := List.mem_flatMap.mp hc
  obtain rfl := h last hlast
  have hc : c ∈ [' ', ' ', ' '] := hc
  simp only [List.mem_cons, List.not_mem_nil, or_false, or_self] at hc
  subst hc
  decide

theorem treeChunks_append (a b : List Bool) :
    treeChunks (a ++ b) = treeChunks a ++ treeChunks b :=
  List.flatMap_append

/-- What follows the leading blanks is tight. -/
theorem tight_treeLine {above : List Bool} (habove : above.head? ≠ some true) (last : Bool)
    {text : Str} (htext : Tight text) : Tight (treeChunks above ++ (treeMarker last ++ text)) := by
  have hmarker : Tight (treeMarker last ++ text) := by
    cases last
    exacts [(tight_singleton (c := '+') rfl).append htext ['-', ' '],
      (tight_singleton (c := '\\') rfl).append htext ['-', ' ']]
  cases above with
  | nil => exact hmarker
  | cons first above =>
    cases first with
    | true => exact absurd rfl habove
    | false =>
      exact (tight_singleton (c := '|') rfl).append hmarker (' ' :: ' ' :: treeChunks above)

theorem firstWord_of_not_whitespace {text : Str} (hne : text ≠ [])
    (h : ∀ c ∈ text, isWhitespace c = false) : firstWord text = some text := by
  have hdrop : text.dropWhile isWhitespace = text :=
    trimStartMatches_eq_self fun c hc => h c (List.mem_of_mem_head? hc)
  have htake : (text.takeWhile fun c => !isWhitespace c) = text :=
    List.takeWhile_eq_self_iff.mpr fun c hc => by rw [h c hc]; rfl
  rw [firstWord, hdrop]
  cases text with
  | nil => exact absurd rfl hne
  | cons c text => exact congrArg some htake

theorem find_plus_text (c : Coordinate) : find "+- ".toList c.text = none := by
  have hspace : ' ' ∉ c.text := fun h => absurd (Coordinate.mem_text h).1 (by decide)
  have hx : ' ' ∈ "+- ".toList := by decide
  have hend : ∀ x ∈ ([] : Str).head?, x ∉ "+- ".toList := nofun
  have hnone : find "+- ".toList (c.text ++ []) = none :=
    (find_append_of_break hx hspace hend).trans rfl
  rwa [List.append_nil] at hnone

theorem normalizeParts_parts (c : Coordinate) :
    normalizeParts c.parts = some (c.normalized, some c.scope.text) := by
  rw [Coordinate.parts, Artifact.parts, Artifact.normalized]
  cases c.classifier with
  | none => rfl
  | some classifier => rfl

/-- **One line.**  The ancestors at the front that have no later sibling are lost. -/
theorem nodeOfLine_treeLine (above : List Bool) (last : Bool) (c : Coordinate) :
    nodeOfLine (treeLine above last c.text)
      = some { depth := (above.dropWhile id).length + 1
               coordinate := c.normalized
               scope := some c.scope.text } := by
  have hkept : (above.dropWhile id).head? ≠ some true := by
    intro h
    have := List.head?_dropWhile_not id above
    rw [h] at this
    cases this
  have htight := tight_treeLine hkept last c.tight_text
  have hline := treeLine_tight above last c.tight_text
  have hlevel : trimStartStr infoLevel (treeLine above last c.text)
      = ' ' :: (treeChunks above ++ (treeMarker last ++ c.text)) :=
    trimStartStr_append (by decide) rfl
  have hblank : ∀ x ∈ ' ' :: treeChunks (above.takeWhile id), isWhitespace x = true := by
    intro x hx
    rcases List.mem_cons.mp hx with rfl | hx
    · decide
    · exact treeChunks_blank (fun _ h => List.mem_takeWhile_imp h) x hx
  have htrim : trim (' ' :: (treeChunks above ++ (treeMarker last ++ c.text)))
      = treeChunks (above.dropWhile id) ++ (treeMarker last ++ c.text) := by
    rw [← htight.trim_append hblank, List.cons_append,
      ← List.append_assoc (treeChunks (above.takeWhile id)), ← treeChunks_append,
      List.takeWhile_append_dropWhile]
  have hword : firstWord c.text = some c.text :=
    firstWord_of_not_whitespace c.tight_text.ne_nil fun x hx => (Coordinate.mem_text hx).1
  have hcomma : trimEndMatches (· = ',') c.text = c.text := by
    refine trimEndMatches_eq_self fun x hx => ?_
    rw [decide_eq_false_iff_not]
    rintro rfl
    exact (Coordinate.mem_text (List.mem_of_mem_getLast? hx)).2 (by decide)
  have hparts : c.parts.any List.isEmpty = false := by
    rw [List.any_eq_false]
    intro part hpart
    rw [List.isEmpty_iff]
    exact (Coordinate.isPart_of_mem hpart).1
  have hscope : c.parts.getLast?.any isDependencyScope = true := by
    rw [Coordinate.parts, List.getLast?_append]
    exact isDependencyScope_iff.mpr ⟨c.scope, rfl⟩
  have hprefix := isTreePrefix_treeChunks (above.dropWhile id)
  have hmod : 3 * (above.dropWhile id).length % 3 = 0 := by
    omega
  have hdiv : 3 * (above.dropWhile id).length / 3 = (above.dropWhile id).length := by
    omega
  simp only [nodeOfLine, hline.trim_eq, hlevel, htrim,
    findMarker_treeLine _ _ (find_plus_text c), hprefix, byteLen_treeChunks, hmod, hdiv,
      drop_treeMarker,
    c.tight_text.trim_eq, hword, hcomma, c.splitOn_text, hparts, hscope, normalizeParts_parts,
    Option.bind_eq_bind, Option.bind_some, Bool.false_eq_true, Bool.true_eq_false, ne_eq,
    not_true_eq_false, or_self, if_false]

/-! ## 4. The whole tree -/

theorem parseDependencyTree_renderTree (f : Forest Coordinate) :
    parseDependencyTree (renderTree f) = (f.walk []).map fun row =>
      { nodeOfRow row with depth := ((row.above.map Prod.fst).dropWhile id).length + 1 } := by
  have hlines : lines (renderTree f) = (f.walk []).map renderRow := by
    have hrows : renderTree f = ((f.walk []).map renderRow).flatMap fun row => row ++ ['\n'] := by
      rw [List.flatMap_map]
      rfl
    rw [hrows]
    refine lines_flatMap fun row hrow => ?_
    obtain ⟨visit, -, rfl⟩ := List.mem_map.mp hrow
    refine treeLine_line _ _ visit.node.tight_text fun hmem => ?_
    exact absurd (Coordinate.mem_text hmem).1 (by decide)
  rw [parseDependencyTree, hlines, List.filterMap_map, ← List.filterMap_eq_map]
  congr 1
  funext row
  exact nodeOfLine_treeLine _ _ _

/-- Dropping from the front changes the length as soon as the front goes. -/
theorem length_dropWhile_eq_iff (above : List Bool) :
    (above.dropWhile id).length = above.length ↔ above.head? ≠ some true := by
  cases above with
  | nil => simp
  | cons first above =>
    cases first with
    | false => simp
    | true =>
      have := (List.dropWhile_sublist id (l := above)).length_le
      simp only [List.dropWhile_cons_of_pos, id, List.length_cons, List.head?_cons, ne_eq,
        not_true_eq_false, iff_false]
      omega

/-- **A tree is read back exactly when its last root is a leaf.** -/
theorem parse_render_iff (f : Forest Coordinate) :
    parseDependencyTree (renderTree f) = (f.walk []).map nodeOfRow ↔ f.LastIsLeaf := by
  rw [parseDependencyTree_renderTree, List.map_inj_left, Forest.lastIsLeaf_iff]
  refine forall₂_congr fun row _ => ?_
  rw [← List.head?_map, ← length_dropWhile_eq_iff, List.length_map]
  constructor
  · intro h
    have := congrArg DependencyNode.depth h
    simp only [nodeOfRow, Forest.Row.depth] at this
    omega
  · intro h
    simp only [nodeOfRow, Forest.Row.depth, h]

/-! ## 5. A tree that is not read back -/

/-- `org.a:a:jar:1:compile`. -/
def onlyRoot : Coordinate where
  groupId := "org.a".toList
  artifactId := "a".toList
  kind := "jar".toList
  classifier := none
  version := "1".toList
  scope := .compile
  valid := by decide

/-- A root with one child. -/
def rootWithChild : Forest Coordinate := .cons onlyRoot (.cons onlyRoot .nil .nil) .nil

example : renderTree rootWithChild =
    ("[INFO] \\- org.a:a:jar:1:compile\n" ++ "[INFO]    \\- org.a:a:jar:1:compile\n").toList := by
  decide

/-- The child comes back as a second root. -/
theorem child_of_last_root_is_lifted :
    parseDependencyTree (renderTree rootWithChild) ≠ (rootWithChild.walk []).map nodeOfRow := by
  rw [parseDependencyTree_renderTree]
  intro h
  exact absurd (congrArg (List.map DependencyNode.depth) h) (by decide)

end MavenMcp
