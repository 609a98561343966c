/-
# The paths of a resolution

`parse_dependency_resolution` on the verbose trees of any number of modules.  One line at a time,
`resolveLine_node` and `resolveLine_root`; over a forest, `run_walk`: whatever stood on the stack
beyond the ancestors is cut off before it can be taken for one, so every path has its true chain.
What the code misreads it misreads in single lines (`Dependencies.Verbose`), and
`explains_iff` says that the answer is right exactly when no line is misread and every module is the
first of its name in the project.
-/
import Mathlib.Data.List.TakeWhile
import MavenMcp.Lib.Forest
import MavenMcp.Dependencies.Verbose

namespace MavenMcp

open Text

/-! ## 1. The trees and what they mean -/

/-- The verbose tree of one module: the root project, or a module of it. -/
structure ModuleTree (project : MavenProject) where
  selector : Str
  root : Artifact
  forest : Forest Dependency
  belongs : (selector = ['.'] ∧ root.artifactId = project.artifactId) ∨
    ∃ m ∈ project.modules, m.selector = selector ∧ m.artifactId = root.artifactId

section

variable {project : MavenProject}

namespace ModuleTree

/-- The line of the module itself. -/
def rootLine (root : Artifact) : Str := infoLevel ++ ' ' :: colons root.parts

/-- The line of one visit. -/
def rowLine (row : Forest.Row Dependency) : Str :=
  treeLine (row.above.map Prod.fst) row.last row.node.text

def lines (m : ModuleTree project) : List Str :=
  rootLine m.root :: (m.forest.walk []).map rowLine

/-- The path of one occurrence: the root, the ancestors, the node. -/
def path (m : ModuleTree project) (row : Forest.Row Dependency) : DependencyResolutionPath where
  inModule := m.selector
  nodes := m.root.normalized ::
    (row.above.map fun a => a.2.toArtifact.normalized) ++ [row.node.toArtifact.normalized]
  requestedVersion := row.node.note.requestedVersion row.node.version
  status := row.node.note.status
  annotations := row.node.note.annotations

end ModuleTree

/-- The output of Maven. -/
def renderVerbose (modules : List (ModuleTree project)) : Str :=
  (modules.flatMap ModuleTree.lines).flatMap fun line => line ++ ['\n']

/-- Every occurrence in order. -/
def visits (modules : List (ModuleTree project)) :
    List (ModuleTree project × Forest.Row Dependency) :=
  modules.flatMap fun m => (m.forest.walk []).map fun row => (m, row)

/-- The path of every occurrence, with the identity of its artifact. -/
def occurrences (modules : List (ModuleTree project)) : List (Str × DependencyResolutionPath) :=
  (visits modules).map fun v => (v.2.node.identity, v.1.path v.2)

/-- The paths of one artifact. -/
def pathsOf (records : List (Str × DependencyResolutionPath)) (identity : Str) :
    List DependencyResolutionPath :=
  (records.filter fun record => record.1 = identity).map Prod.snd

/-- No line is malformed, and each artifact has one explanation, with its occurrences. -/
def Explains (parsed : ParsedDependencyResolution)
    (records : List (Str × DependencyResolutionPath)) : Prop :=
  parsed.malformed = false ∧
    ∀ identity, ((parsed.explanations.filter fun e => e.artifact = identity).map
        DependencyResolutionExplanation.paths)
      = if pathsOf records identity = [] then [] else [pathsOf records identity]

/-- A node whose line is read as it was meant. -/
structure Dependency.Readable (d : Dependency) : Prop where
  /-- No group, artifact, type or classifier is a scope word. -/
  clear : d.toCoordinate.Clear
  /-- A version that is a scope word is the scope. -/
  version : isDependencyScope d.version = true → d.version = d.scope.text
  /-- The other version does not read like an exclusion. -/
  status : ∀ other : { text : Str // IsPart text },
    d.note = .omittedForConflict other ∨ d.note = .managedFrom other →
      mentionsExclusion other.1 = false
  /-- A version before management ends in front of a semicolon; when it begins with one, the code
  reports the version of the node instead. -/
  managed : ∀ other : { text : Str // IsPart text }, d.note = .managedFrom other →
    ';' ∉ other.1 ∨ other.1.head? = some ';' ∧ d.version = other.1

/-- The first module with the artifactId of the root is this one. -/
def ModuleTree.FirstOfName (m : ModuleTree project) : Prop :=
  ∀ other, project.modules.find? (fun other => other.artifactId = m.root.artifactId) = some other →
    other.selector = m.selector

/-! ## 2. Single lines -/

theorem mavenLogMessage_info {message : Str} (h : Tight (infoLevel ++ ' ' :: message))
    (hend : trimEndMatches isWhitespace message = message) :
    mavenLogMessage (infoLevel ++ ' ' :: message) = message := by
  have htrim : trimEndMatches isWhitespace
      (trimStartMatches isWhitespace (infoLevel ++ ' ' :: message))
      = infoLevel ++ ' ' :: message := h.trim_eq
  have hlevel : stripPrefix "[INFO]".toList (infoLevel ++ ' ' :: message)
      = some (' ' :: message) := stripPrefix_append infoLevel _
  have hblank : stripPrefix [' '] (' ' :: message) = some message := stripPrefix_append [' '] _
  rw [mavenLogMessage]
  simp only [htrim, List.findSome?_cons, hlevel, hblank, Option.getD_some, hend]

theorem mavenLogMessage_treeLine (above : List Bool) (last : Bool) {text : Str} (h : Tight text) :
    mavenLogMessage (treeLine above last text) = treeChunks above ++ (treeMarker last ++ text) := by
  refine mavenLogMessage_info (treeLine_tight above last h) (trimEndMatches_eq_self ?_)
  intro c hc
  obtain ⟨-, d, hd, hws⟩ := h
  rw [List.getLast?_append, List.getLast?_append, hd] at hc
  cases hc
  exact hws

/-- The line of a node. -/
theorem resolveLine_node (project : MavenProject) (s : ResolutionState) (above : List Bool)
    (last : Bool) (d : Dependency) :
    resolveLine project s (treeLine above last d.text) =
      if d.toCoordinate.Clear then s.visit (d.read (above.length + 1))
      else { s with malformed := true } := by
  rw [resolveLine]
  simp only [mavenLogMessage_treeLine above last (tight_dependency d), pluginModuleArtifact_node,
    findMarker_treeLine _ _ (find_plus_dependency d), parseDependencyLine_text]
  by_cases hclear : d.toCoordinate.Clear
  · rw [if_pos hclear, if_pos hclear]
  · rw [if_neg hclear, if_neg hclear]

/-- The text of an artifact is one word. -/
theorem root_word (root : Artifact) :
    colons root.parts ≠ [] ∧ ∀ c ∈ colons root.parts, isWhitespace c = false ∧ c ≠ '(' := by
  refine ⟨?_, fun c hc => ?_⟩
  · have := colons_concat (List.cons_ne_nil root.groupId
      ([root.artifactId, root.kind] ++ root.classifier.toList)) root.version
    rw [Artifact.parts]
    exact this ▸ List.append_ne_nil_of_right_ne_nil _ (List.cons_ne_nil _ _)
  · obtain ⟨hws, hnot⟩ := mem_colons root.valid hc
    exact ⟨hws, fun h => hnot (by rw [h]; decide)⟩

theorem parseRootCoordinate_root (root : Artifact) :
    parseRootCoordinate (colons root.parts) = some (root.artifactId, root.normalized) := by
  obtain ⟨-, hword⟩ := root_word root
  have hws : (colons root.parts).any isWhitespace = false := by
    rw [List.any_eq_false]
    intro c hc
    rw [(hword c hc).1]
    exact Bool.false_ne_true
  have hparen : startsWith ['('] (colons root.parts) = false := by
    rw [startsWith, stripPrefix_singleton fun hmem => (hword _ hmem).2 rfl]
    rfl
  have hempty : root.parts.any List.isEmpty = false := by
    rw [List.any_eq_false]
    intro part hpart
    rw [List.isEmpty_iff]
    exact (root.valid part hpart).1
  have hsplit : (colons root.parts).splitOn ':' = root.parts :=
    splitOn_colons (List.cons_ne_nil _ _) root.valid
  rw [parseRootCoordinate, hws, hparen]
  simp only [hsplit, hempty]
  obtain ⟨group, artifact, kind, classifier, version, valid⟩ := root
  cases classifier with
  | none => rfl
  | some classifier => rfl

/-- The line of a module. -/
theorem resolveLine_root (project : MavenProject) (s : ResolutionState) (root : Artifact) :
    resolveLine project s (ModuleTree.rootLine root) =
      { s with
        inModule := moduleSelector project root.artifactId
        pathStack := [root.normalized] } := by
  obtain ⟨hne, hword⟩ := root_word root
  have htight : Tight (colons root.parts) := tight_of_not_whitespace hne fun c hc => (hword c hc).1
  have hspace : ' ' ∉ colons root.parts := fun hmem => absurd (hword _ hmem).1 (by decide)
  have hmessage : mavenLogMessage (ModuleTree.rootLine root) = colons root.parts :=
    mavenLogMessage_info (infoLevel_tight.append htight [' ']) htight.trimEnd_eq
  have hfind : ∀ {pat : Str}, ' ' ∈ pat → find pat (colons root.parts) = none := fun hpat =>
    find_eq_none_iff.mpr fun h => hspace (h.subset hpat)
  have hplugin : pluginModuleArtifact (colons root.parts) = none := by
    rw [pluginModuleArtifact, splitOnceStr, hfind (by decide)]
    rfl
  have hmarker : findMarker (colons root.parts) = none := by
    rw [findMarker, hfind (by decide), hfind (by decide)]
    rfl
  rw [resolveLine]
  simp only [hmessage, hplugin, hmarker, parseRootCoordinate_root]

/-! ## 3. What is filed -/

/-- The builders hold just these paths. -/
def Filed (builders : Builders) (records : List (Str × DependencyResolutionPath)) : Prop :=
  ∀ identity, (builders.lookup identity).map DependencyExplanationBuilder.paths
    = if pathsOf records identity = [] then none else some (pathsOf records identity)

theorem filed_nil : Filed ∅ [] := fun _ => rfl

theorem pathsOf_concat (records : List (Str × DependencyResolutionPath)) (identity key : Str)
    (path : DependencyResolutionPath) :
    pathsOf (records ++ [(key, path)]) identity
      = pathsOf records identity ++ if key = identity then [path] else [] := by
  rw [pathsOf, List.filter_append, List.map_append, ← pathsOf]
  congr 1
  by_cases h : key = identity
  · simp [h]
  · simp [h]

/-- One more path. -/
theorem Filed.visit {s : ResolutionState} {records : List (Str × DependencyResolutionPath)}
    (h : Filed s.builders records) (parsed : ParsedDependencyLine) :
    Filed (s.visit parsed).builders (records ++ [(parsed.coordinate.identity,
      { inModule := s.inModule
        nodes := (s.visit parsed).pathStack
        requestedVersion := parsed.requestedVersion
        status := parsed.status
        annotations := parsed.annotations })]) := by
  intro identity
  rw [pathsOf_concat]
  by_cases hid : parsed.coordinate.identity = identity
  · subst hid
    rw [if_pos rfl, if_neg (by simp)]
    have h := h parsed.coordinate.identity
    simp only [ResolutionState.visit, AList.lookup_insert, Option.map_some,
      DependencyExplanationBuilder.add]
    congr 2
    split at h
    · rename_i hnil
      rw [hnil, Option.map_eq_none_iff.mp h]
      rfl
    · obtain ⟨builder, hbuilder, hpaths⟩ := Option.map_eq_some_iff.mp h
      rw [hbuilder, ← hpaths]
      rfl
  · rw [if_neg hid, List.append_nil, ← h identity]
    simp only [ResolutionState.visit, AList.lookup_insert_ne (Ne.symm hid)]

/-! ## 4. The walk -/

/-- The path of an occurrence as the code reports it. -/
def readPath (inModule root : Str) (row : Forest.Row Dependency) : DependencyResolutionPath where
  inModule
  nodes := root :: (row.above.map fun a => a.2.toCoordinate.readNormalized) ++
    [row.node.toCoordinate.readNormalized]
  requestedVersion := row.node.note.readRequested row.node.toCoordinate.readVersion
  status := row.node.note.readStatus
  annotations := row.node.note.annotations

/-- What holds between two lines, below a chain of ancestors. -/
structure Below (root : Str) (above : List (Bool × Dependency)) (s : ResolutionState) : Prop where
  stack : s.pathStack.take (above.length + 1)
    = root :: above.map fun a => a.2.toCoordinate.readNormalized

/-- The stack after the line of a node: the ancestors and the node. -/
theorem pathStack_visit {root : Str} {above : List (Bool × Dependency)} {s : ResolutionState}
    (h : Below root above s) (parsed : ParsedDependencyLine)
    (hdepth : parsed.depth = above.length + 1) :
    (s.visit parsed).pathStack = root ::
      (above.map fun a => a.2.toCoordinate.readNormalized) ++ [parsed.coordinate.coordinate] := by
  have htake : s.pathStack.take (min parsed.depth s.pathStack.length)
      = s.pathStack.take (above.length + 1) := by
    rw [hdepth, ← List.take_eq_take_min]
  rw [ResolutionState.visit, htake, h.stack]

/-- **The walk over a forest.**  Below any ancestors, every node is filed with its true chain, and
the ancestors are on the stack afterwards as before. -/
theorem run_walk (project : MavenProject) (root : Str) (f : Forest Dependency)
    (above : List (Bool × Dependency))
    {s : ResolutionState} {records : List (Str × DependencyResolutionPath)}
    (hbelow : Below root above s) (hfiled : Filed s.builders records)
    (hclear : ∀ row ∈ f.walk above, row.node.toCoordinate.Clear) :
    let s' := ((f.walk above).map ModuleTree.rowLine).foldl (resolveLine project) s
    s'.malformed = s.malformed ∧ s'.inModule = s.inModule ∧ Below root above s' ∧
      Filed s'.builders (records ++
        (f.walk above).map fun row => (row.node.identity, readPath s.inModule root row)) := by
  induction f generalizing above s records with
  | nil =>
    refine ⟨rfl, rfl, hbelow, ?_⟩
    have hnil : records ++ ((Forest.nil : Forest Dependency).walk above).map
        (fun row => (row.node.identity, readPath s.inModule root row)) = records :=
      List.append_nil records
    rw [hnil]
    exact hfiled
  | cons node children siblings ihc ihs =>
    intro s'
    rw [Forest.walk] at hclear
    -- the line of the node
    have hline := resolveLine_node project s (above.map Prod.fst) siblings.isNil node
    rw [if_pos (hclear _ List.mem_cons_self), List.length_map] at hline
    have hstack := pathStack_visit hbelow (node.read (above.length + 1)) rfl
    have hfiled₁ := hfiled.visit (node.read (above.length + 1))
    -- the lines below it
    have hbelow₁ : Below root (above ++ [(siblings.isNil, node)])
        (s.visit (node.read (above.length + 1))) := by
      constructor
      rw [hstack, List.map_append, List.length_append]
      exact List.take_of_length_le (by simp)
    obtain ⟨hmal₂, hmod₂, hbelow₂, hfiled₂⟩ := ihc _ hbelow₁ hfiled₁ fun row hrow =>
      hclear row (List.mem_cons_of_mem _ (List.mem_append_left _ hrow))
    -- the lines after those
    have hbelow₃ : Below root above (((children.walk (above ++ [(siblings.isNil, node)])).map
        ModuleTree.rowLine).foldl (resolveLine project)
          (s.visit (node.read (above.length + 1)))) := by
      constructor
      have h := congrArg (List.take (above.length + 1)) hbelow₂.stack
      rw [List.take_take, List.length_append, Nat.min_eq_left (by simp), List.map_append,
        ← List.cons_append, List.take_left' (by simp)] at h
      exact h
    obtain ⟨hmal₃, hmod₃, hbelow₄, hfiled₃⟩ := ihs _ hbelow₃ hfiled₂ fun row hrow =>
      hclear row (List.mem_cons_of_mem _ (List.mem_append_right _ hrow))
    have hrun : s' = ((siblings.walk above).map ModuleTree.rowLine).foldl (resolveLine project)
        (((children.walk (above ++ [(siblings.isNil, node)])).map ModuleTree.rowLine).foldl
          (resolveLine project) (s.visit (node.read (above.length + 1)))) := by
      rw [← List.foldl_append, ← List.map_append, ← hline]
      rfl
    rw [hrun]
    refine ⟨hmal₃.trans (hmal₂.trans rfl), hmod₃.trans (hmod₂.trans rfl), hbelow₄, ?_⟩
    rw [hmod₂, hstack, List.append_assoc, List.append_assoc, ← List.map_append] at hfiled₃
    exact hfiled₃

/-- The paths of the modules as the code reports them. -/
def readRecords (modules : List (ModuleTree project)) : List (Str × DependencyResolutionPath) :=
  (visits modules).map fun v => (v.2.node.identity,
    readPath (moduleSelector project v.1.root.artifactId) v.1.root.normalized v.2)

theorem readRecords_cons (m : ModuleTree project) (modules : List (ModuleTree project)) :
    readRecords (m :: modules) = ((m.forest.walk []).map fun row => (row.node.identity,
      readPath (moduleSelector project m.root.artifactId) m.root.normalized row))
        ++ readRecords modules := by
  rw [readRecords, visits, List.flatMap_cons, List.map_append, List.map_map]
  rfl

/-- **The walk over all modules.** -/
theorem run_modules (modules : List (ModuleTree project)) {s : ResolutionState}
    {records : List (Str × DependencyResolutionPath)} (hfiled : Filed s.builders records)
    (hclear : ∀ m ∈ modules, ∀ row ∈ m.forest.walk [], row.node.toCoordinate.Clear) :
    let s' := (modules.flatMap ModuleTree.lines).foldl (resolveLine project) s
    s'.malformed = s.malformed ∧ Filed s'.builders (records ++ readRecords modules) := by
  induction modules generalizing s records with
  | nil =>
    have hnil : records ++ readRecords ([] : List (ModuleTree project)) = records :=
      List.append_nil records
    rw [hnil]
    exact ⟨rfl, hfiled⟩
  | cons m modules ih =>
    intro s'
    have hroot := resolveLine_root project s m.root
    obtain ⟨hmal₁, -, -, hfiled₁⟩ := run_walk project m.root.normalized m.forest []
      (s := { s with
        inModule := moduleSelector project m.root.artifactId
        pathStack := [m.root.normalized] })
      ⟨rfl⟩ hfiled (hclear m List.mem_cons_self)
    obtain ⟨hmal₂, hfiled₂⟩ := ih hfiled₁ fun m hm => hclear m (List.mem_cons_of_mem _ hm)
    have hrun : s' = (modules.flatMap ModuleTree.lines).foldl (resolveLine project)
        (((m.forest.walk []).map ModuleTree.rowLine).foldl (resolveLine project)
          (resolveLine project s (ModuleTree.rootLine m.root))) := by
      rw [← List.foldl_cons, ← List.foldl_append]
      rfl
    rw [hrun, hroot]
    refine ⟨hmal₂.trans hmal₁, ?_⟩
    rw [List.append_assoc] at hfiled₂
    rw [readRecords_cons]
    exact hfiled₂

/-- A malformed line is never forgotten. -/
theorem malformed_resolveLine {s : ResolutionState} (h : s.malformed = true) (line : Str) :
    (resolveLine project s line).malformed = true := by
  rw [resolveLine]
  split
  · exact h
  · split
    · split
      · exact h
      · exact h
    · split
      · rfl
      · exact h

theorem malformed_foldl {s : ResolutionState} (h : s.malformed = true) (lines : List Str) :
    (lines.foldl (resolveLine project) s).malformed = true := by
  induction lines generalizing s with
  | nil => exact h
  | cons line lines ih => exact ih (malformed_resolveLine h line)

theorem malformed_of_not_clear (project : MavenProject) {lines : List Str} {s : ResolutionState}
    {row : Forest.Row Dependency} (hmem : ModuleTree.rowLine row ∈ lines)
    (hclear : ¬ row.node.toCoordinate.Clear) :
    (lines.foldl (resolveLine project) s).malformed = true := by
  obtain ⟨front, rest, rfl⟩ := List.append_of_mem hmem
  rw [List.foldl_append, List.foldl_cons]
  refine malformed_foldl ?_ rest
  rw [ModuleTree.rowLine, resolveLine_node, if_neg hclear]

/-! ## 5. The answer -/

theorem newline_not_mem (d : Dependency) : '\n' ∉ d.text := by
  have hcoord : '\n' ∉ d.toCoordinate.text := not_mem_text (.inl (by decide))
  have hnote : ∀ note : Note, '\n' ∉ note.text := fun note h => not_mem_note h (by decide)
  intro hmem
  rw [Dependency.text] at hmem
  cases hd : d.note with
  | plain =>
    rw [hd] at hmem
    exact hcoord hmem
  | omittedForConflict version =>
    rw [hd] at hmem
    simp [hcoord, hnote] at hmem
  | omittedForDuplicate =>
    rw [hd] at hmem
    simp [hcoord, hnote] at hmem
  | managedFrom version =>
    rw [hd] at hmem
    simp [hcoord, hnote] at hmem

/-- The line of a module is one line. -/
theorem rootLine_line (root : Artifact) :
    '\n' ∉ ModuleTree.rootLine root ∧ (ModuleTree.rootLine root).getLast? ≠ some '\r' := by
  obtain ⟨hne, hword⟩ := root_word root
  constructor
  · intro hmem
    rcases List.mem_append.mp hmem with hmem | hmem
    · revert hmem
      decide
    · rcases List.mem_cons.mp hmem with h | hmem
      · cases h
      · exact absurd (hword _ hmem).1 (by decide)
  · intro hcr
    have htight := infoLevel_tight.append
      (tight_of_not_whitespace hne fun c hc => (hword c hc).1) [' ']
    obtain ⟨-, c, hc, hws⟩ := htight
    cases hc.symm.trans hcr
    exact absurd hws (by decide)

theorem lines_renderVerbose (modules : List (ModuleTree project)) :
    Text.lines (renderVerbose modules) = modules.flatMap ModuleTree.lines := by
  refine lines_flatMap fun line hline => ?_
  obtain ⟨m, -, hline⟩ := List.mem_flatMap.mp hline
  rcases List.mem_cons.mp hline with rfl | hline
  · exact rootLine_line m.root
  · obtain ⟨row, -, rfl⟩ := List.mem_map.mp hline
    exact treeLine_line _ _ (tight_dependency row.node) (newline_not_mem row.node)

/-- Each builder becomes one explanation, with its paths. -/
theorem explanations_paths (builders : Builders) (identity : Str) :
    ((((builders.entries.mergeSort fun a b => strLe a.1 b.1).map fun e =>
        explanationOf e.1 e.2).filter fun e => e.artifact = identity).map
          DependencyResolutionExplanation.paths)
      = ((builders.lookup identity).map DependencyExplanationBuilder.paths).toList := by
  have hpaths : ∀ builder, (addMediationReason builder).paths = builder.paths := by
    intro builder
    rw [addMediationReason]
    split
    · split <;> rfl
    · split <;> rfl
  have hperm := (List.mergeSort_perm builders.entries fun a b => strLe a.1 b.1).filter
    fun e => decide (e.1 = identity)
  rw [builders.filter_entries identity] at hperm
  have hsorted : ((builders.entries.mergeSort fun a b => strLe a.1 b.1).filter fun e =>
      decide (e.1 = identity)) = (builders.lookup identity).toList.map fun v => ⟨identity, v⟩ := by
    cases hlook : builders.lookup identity with
    | none =>
      rw [hlook] at hperm
      exact List.perm_nil.mp hperm
    | some builder =>
      rw [hlook] at hperm
      exact List.perm_singleton.mp hperm
  rw [List.filter_map, List.map_map]
  have hfun : (fun e : DependencyResolutionExplanation => decide (e.artifact = identity)) ∘
      (fun e : Σ _ : Str, DependencyExplanationBuilder => explanationOf e.1 e.2)
      = fun e => decide (e.1 = identity) := rfl
  rw [hfun, hsorted]
  cases builders.lookup identity with
  | none => rfl
  | some builder => exact congrArg (fun paths => [paths]) (hpaths builder)

/-! ## 6. When the answer is right -/

theorem pathsOf_map {α : Type} (l : List α) (key : α → Str) (f : α → DependencyResolutionPath)
    (identity : Str) : pathsOf (l.map fun x => (key x, f x)) identity
      = (l.filter fun x => key x = identity).map f := by
  rw [pathsOf, List.filter_map, List.map_map]
  rfl

/-- Two reports of the same occurrences have the same paths only if they agree on each. -/
theorem eq_of_pathsOf_eq {α : Type} {l : List α} {key : α → Str}
    {f g : α → DependencyResolutionPath}
    (h : ∀ identity, pathsOf (l.map fun x => (key x, f x)) identity
      = pathsOf (l.map fun x => (key x, g x)) identity) : ∀ x ∈ l, f x = g x := by
  intro x hx
  have h := h (key x)
  rw [pathsOf_map, pathsOf_map, List.map_inj_left] at h
  exact h x (List.mem_filter.mpr ⟨hx, by simp⟩)

theorem moduleSelector_eq_iff (m : ModuleTree project) :
    moduleSelector project m.root.artifactId = m.selector ↔ m.FirstOfName := by
  rw [moduleSelector, ModuleTree.FirstOfName]
  cases hfind : project.modules.find? fun other => other.artifactId = m.root.artifactId with
  | some other =>
    constructor
    · intro h _ heq
      cases heq
      exact h
    · exact fun h => h other rfl
  | none =>
    refine ⟨fun _ => nofun, fun _ => ?_⟩
    rcases m.belongs with ⟨hselector, -⟩ | ⟨other, hmem, -, hname⟩
    · exact hselector.symm
    · have := List.find?_eq_none.mp hfind other hmem
      rw [decide_eq_true_eq] at this
      exact absurd hname this

theorem readVersion_eq_iff (c : Coordinate) : c.readVersion = c.version ↔
    (isDependencyScope c.version = true → c.version = c.scope.text) := by
  rw [Coordinate.readVersion]
  by_cases hscope : isDependencyScope c.version = true
  · rw [if_pos hscope]
    exact ⟨fun h _ => h.symm, fun h => (h hscope).symm⟩
  · rw [if_neg hscope]
    exact ⟨fun _ h => absurd h hscope, fun _ => rfl⟩

theorem readNormalized_eq_iff (c : Coordinate) :
    c.readNormalized = c.toArtifact.normalized ↔ c.readVersion = c.version := by
  constructor
  · intro h
    have hparts : ∀ version, IsPart version →
        ∀ part ∈ [c.groupId, c.artifactId, version] ++ c.classifier.toList, IsPart part := by
      intro version hversion part hpart
      simp only [List.mem_append, List.mem_cons, List.not_mem_nil, or_false] at hpart
      rcases hpart with (rfl | rfl | rfl) | hpart
      · exact c.valid _ (by simp)
      · exact c.valid _ (by simp)
      · exact hversion
      · exact c.valid _ (by simp [hpart])
    have hversion : IsPart c.version := c.valid _ (by simp)
    have hread : IsPart c.readVersion := by
      rw [Coordinate.readVersion]
      split
      · exact isPart_scope c.scope
      · exact hversion
    have hlist := colons_injective (List.cons_ne_nil _ _) (List.cons_ne_nil _ _)
      (hparts _ hread) (hparts _ hversion) h
    exact (List.cons.inj (List.cons.inj (List.cons.inj hlist).2).2).1
  · intro h
    rw [Coordinate.readNormalized, Artifact.normalized, h]

theorem readStatus_eq_iff (note : Note) : note.readStatus = note.status ↔
    ∀ other : { text : Str // IsPart text },
      note = .omittedForConflict other ∨ note = .managedFrom other →
        mentionsExclusion other.1 = false := by
  have hother : ∀ (version : { text : Str // IsPart text }) (status : DependencyPathStatus),
      status ≠ .excluded →
      ((if mentionsExclusion version.1 then DependencyPathStatus.excluded else status) = status ↔
        mentionsExclusion version.1 = false) := by
    intro version status hne
    cases mentionsExclusion version.1 with
    | false => exact ⟨fun _ => rfl, fun _ => rfl⟩
    | true => exact ⟨fun h => absurd h.symm hne, nofun⟩
  cases note with
  | plain => exact ⟨fun _ _ h => h.elim nofun nofun, fun _ => rfl⟩
  | omittedForConflict version =>
    refine (hother version .conflictOmitted nofun).trans ⟨?_, ?_⟩
    · rintro h other (heq | heq) <;> cases heq
      exact h
    · exact fun h => h version (.inl rfl)
  | omittedForDuplicate => exact ⟨fun _ _ h => h.elim nofun nofun, fun _ => rfl⟩
  | managedFrom version =>
    refine (hother version .selected nofun).trans ⟨?_, ?_⟩
    · rintro h other (heq | heq) <;> cases heq
      exact h
    · exact fun h => h version (.inr rfl)

theorem readRequested_eq_iff (version : Str) (note : Note) :
    note.readRequested version = note.requestedVersion version ↔
      ∀ other : { text : Str // IsPart text }, note = .managedFrom other →
        ';' ∉ other.1 ∨ other.1.head? = some ';' ∧ version = other.1 := by
  cases note with
  | plain => exact ⟨fun _ _ h => Note.noConfusion h, fun _ => rfl⟩
  | omittedForConflict _ => exact ⟨fun _ _ h => Note.noConfusion h, fun _ => rfl⟩
  | omittedForDuplicate => exact ⟨fun _ _ h => Note.noConfusion h, fun _ => rfl⟩
  | managedFrom managed =>
    have hpass : ∀ c ∈ managed.1, c ≠ ';' → c ∉ [';', ',', ' '] := by
      intro c hc hne hmem
      obtain ⟨hws, hnot⟩ := managed.2.2 c hc
      simp only [List.mem_cons, List.not_mem_nil, or_false] at hmem
      rcases hmem with rfl | rfl | rfl
      exacts [hne rfl, hnot (by decide), absurd hws (by decide)]
    have hall : ((managed.1.takeWhile fun c => decide (c ∉ [';', ',', ' '])) = managed.1) ↔
        ';' ∉ managed.1 := by
      rw [List.takeWhile_eq_self_iff]
      constructor
      · exact fun h hmem => absurd (h _ hmem) (by decide)
      · intro h c hc
        rw [decide_eq_true_eq]
        exact hpass c hc fun heq => h (heq ▸ hc)
    have hcase : (Note.managedFrom managed).readRequested version = managed.1 ↔
        ';' ∉ managed.1 ∨ managed.1.head? = some ';' ∧ version = managed.1 := by
      rw [← hall, Note.readRequested]
      cases htext : managed.1 with
      | nil => exact absurd htext managed.2.1
      | cons c text =>
        by_cases hc : c = ';'
        · subst hc
          have hnil : ((';' :: text).takeWhile fun c => decide (c ∉ [';', ',', ' '])) = [] := rfl
          simp only [hnil]
          exact ⟨fun h => .inr ⟨rfl, h⟩,
            fun h => h.elim (fun hnil => absurd hnil.symm (List.cons_ne_nil _ _)) And.right⟩
        · have hpos := hpass c (by rw [htext]; exact List.mem_cons_self) hc
          rw [List.takeWhile_cons_of_pos (by rw [decide_eq_true_eq]; exact hpos)]
          simp only [List.isEmpty_cons, Bool.false_eq_true, if_false]
          exact ⟨.inl, fun h => h.elim id fun h => absurd (Option.some.inj h.1) hc⟩
    refine hcase.trans ⟨?_, fun h => h managed rfl⟩
    intro h other heq
    cases heq
    exact h

/-- The last node of a path is the one its line was read as. -/
theorem readVersion_of_readPath {m : ModuleTree project} {row : Forest.Row Dependency}
    {inModule root : Str} (h : readPath inModule root row = m.path row) :
    row.node.toCoordinate.readVersion = row.node.version := by
  have hnodes := congrArg DependencyResolutionPath.nodes h
  have hlast := (List.append_inj' hnodes rfl).2
  exact (readNormalized_eq_iff _).mp (List.cons.inj hlast).1

/-- One occurrence is reported as it was meant, if its ancestors are. -/
theorem readPath_eq_iff (m : ModuleTree project) (row : Forest.Row Dependency)
    (habove : ∀ a ∈ row.above, a.2.toCoordinate.readVersion = a.2.version) :
    readPath (moduleSelector project m.root.artifactId) m.root.normalized row = m.path row ↔
      m.FirstOfName ∧ row.node.toCoordinate.readVersion = row.node.version ∧
        row.node.note.readStatus = row.node.note.status ∧
          row.node.note.readRequested row.node.version
            = row.node.note.requestedVersion row.node.version := by
  have hchain : (row.above.map fun a => a.2.toCoordinate.readNormalized)
      = row.above.map fun a => a.2.toArtifact.normalized :=
    List.map_congr_left fun a ha => (readNormalized_eq_iff _).mpr (habove a ha)
  rw [readPath, ModuleTree.path, hchain, DependencyResolutionPath.mk.injEq, moduleSelector_eq_iff]
  constructor
  · rintro ⟨hmodule, hnodes, hrequested, hstatus, -⟩
    have hlast := List.append_cancel_left hnodes
    have hversion := (readNormalized_eq_iff _).mp (List.cons.inj hlast).1
    rw [hversion] at hrequested
    exact ⟨hmodule, hversion, hstatus, hrequested⟩
  · rintro ⟨hmodule, hversion, hstatus, hrequested⟩
    rw [(readNormalized_eq_iff _).mpr hversion, hversion]
    exact ⟨hmodule, rfl, hrequested, hstatus, rfl⟩

theorem readable_iff (d : Dependency) : d.Readable ↔ d.toCoordinate.Clear ∧
    d.toCoordinate.readVersion = d.version ∧ d.note.readStatus = d.note.status ∧
      d.note.readRequested d.version = d.note.requestedVersion d.version := by
  rw [readVersion_eq_iff, readStatus_eq_iff, readRequested_eq_iff]
  exact ⟨fun h => ⟨h.clear, h.version, h.status, h.managed⟩,
    fun ⟨hclear, hversion, hstatus, hmanaged⟩ => ⟨hclear, hversion, hstatus, hmanaged⟩⟩

theorem mem_visits {modules : List (ModuleTree project)} {m : ModuleTree project}
    {row : Forest.Row Dependency} :
    (m, row) ∈ visits modules ↔ m ∈ modules ∧ row ∈ m.forest.walk [] := by
  simp only [visits, List.mem_flatMap, List.mem_map, Prod.mk.injEq]
  constructor
  · rintro ⟨_, hm, _, hrow, rfl, rfl⟩
    exact ⟨hm, hrow⟩
  · rintro ⟨hm, hrow⟩
    exact ⟨m, hm, row, hrow, rfl, rfl⟩

/-- The answer, when no line is malformed. -/
theorem explains_iff_pathsOf {modules : List (ModuleTree project)}
    (hclear : ∀ m ∈ modules, ∀ row ∈ m.forest.walk [], row.node.toCoordinate.Clear)
    (records : List (Str × DependencyResolutionPath)) :
    Explains (parseDependencyResolution (renderVerbose modules) project) records ↔
      ∀ identity, pathsOf (readRecords modules) identity = pathsOf records identity := by
  obtain ⟨hmal, hfiled⟩ := run_modules modules (s := .initial) filed_nil hclear
  rw [List.nil_append] at hfiled
  have hreport : ∀ identity, ((parseDependencyResolution (renderVerbose modules)
      project).explanations.filter fun e => e.artifact = identity).map
        DependencyResolutionExplanation.paths
      = if pathsOf (readRecords modules) identity = [] then []
        else [pathsOf (readRecords modules) identity] := by
    intro identity
    rw [parseDependencyResolution, lines_renderVerbose]
    refine (explanations_paths _ identity).trans ?_
    rw [hfiled identity]
    split <;> rfl
  have hnot : (parseDependencyResolution (renderVerbose modules) project).malformed = false := by
    rw [parseDependencyResolution, lines_renderVerbose]
    exact hmal
  constructor
  · rintro ⟨-, h⟩ identity
    have h := (hreport identity).symm.trans (h identity)
    split at h
    · rename_i hnil
      split at h
      · rename_i hnil'
        rw [hnil, hnil']
      · cases h
    · split at h
      · cases h
      · exact (List.cons.inj h).1
  · intro h
    refine ⟨hnot, fun identity => ?_⟩
    rw [hreport, h identity]

/-- **The answer is right exactly when no line is misread and every module that has dependencies is
the first of its name.** -/
theorem explains_iff (modules : List (ModuleTree project)) :
    Explains (parseDependencyResolution (renderVerbose modules) project) (occurrences modules) ↔
      ∀ m ∈ modules, ∀ row ∈ m.forest.walk [], row.node.Readable ∧ m.FirstOfName := by
  constructor
  · intro h
    have hclear : ∀ m ∈ modules, ∀ row ∈ m.forest.walk [], row.node.toCoordinate.Clear := by
      intro m hm row hrow
      by_contra hclear
      have hmem : ModuleTree.rowLine row ∈ modules.flatMap ModuleTree.lines :=
        List.mem_flatMap.mpr ⟨m, hm, List.mem_cons_of_mem _ (List.mem_map_of_mem hrow)⟩
      have hmal := malformed_of_not_clear (s := .initial) project hmem hclear
      rw [← lines_renderVerbose] at hmal
      exact absurd (hmal.symm.trans h.1) nofun
    rw [explains_iff_pathsOf hclear] at h
    have hpaths := eq_of_pathsOf_eq h
    intro m hm row hrow
    have hpath := hpaths (m, row) (mem_visits.mpr ⟨hm, hrow⟩)
    obtain ⟨hfirst, hversion, hstatus, hrequested⟩ := (readPath_eq_iff m row fun a ha => by
      rcases Forest.exists_of_mem_above hrow ha with h | ⟨row', hrow', hnode⟩
      · cases h
      · rw [← hnode]
        exact readVersion_of_readPath (hpaths (m, row') (mem_visits.mpr ⟨hm, hrow'⟩))).mp hpath
    exact ⟨(readable_iff _).mpr ⟨hclear m hm row hrow, hversion, hstatus, hrequested⟩, hfirst⟩
  · intro h
    have hclear : ∀ m ∈ modules, ∀ row ∈ m.forest.walk [], row.node.toCoordinate.Clear :=
      fun m hm row hrow => (h m hm row hrow).1.clear
    rw [explains_iff_pathsOf hclear]
    intro identity
    congr 1
    refine List.map_congr_left fun ⟨m, row⟩ hv => ?_
    obtain ⟨hm, hrow⟩ := mem_visits.mp hv
    obtain ⟨hreadable, hfirst⟩ := h m hm row hrow
    obtain ⟨-, hversion, hstatus, hrequested⟩ := (readable_iff _).mp hreadable
    refine congrArg _ ((readPath_eq_iff m row fun a ha => ?_).mpr
      ⟨hfirst, hversion, hstatus, hrequested⟩)
    rcases Forest.exists_of_mem_above hrow ha with h | ⟨row', hrow', hnode⟩
    · cases h
    · rw [← hnode]
      exact ((readable_iff _).mp (h m hm row' hrow').1).2.1

end

/-! ## 7. A line that is misread -/

/-- A project without modules. -/
def smallProject : MavenProject := { artifactId := "app".toList, modules := [] }

/-- A dependency whose artifactId is a scope word. -/
def dependencyNamedTest : Dependency where
  groupId := "org.a".toList
  artifactId := "test".toList
  kind := "jar".toList
  classifier := none
  version := "1".toList
  valid := by decide
  scope := .compile
  note := .plain

/-- The project with this one dependency. -/
def smallTree : ModuleTree smallProject where
  selector := ['.']
  root :=
    { groupId := "org.a".toList, artifactId := "app".toList, kind := "jar".toList
      classifier := none, version := "1".toList, valid := by decide }
  forest := .cons dependencyNamedTest .nil .nil
  belongs := .inl ⟨rfl, rfl⟩

example : renderVerbose [smallTree]
    = ("[INFO] org.a:app:jar:1\n" ++ "[INFO] \\- org.a:test:jar:1:compile\n").toList := by
  decide

/-- Its line is taken for malformed. -/
theorem scope_word_is_malformed : ¬ Explains
    (parseDependencyResolution (renderVerbose [smallTree]) smallProject)
    (occurrences [smallTree]) := by
  intro h
  have hclear : ¬ dependencyNamedTest.toCoordinate.Clear := by decide
  have hmem : ModuleTree.rowLine { above := [], last := true, node := dependencyNamedTest } ∈
      [smallTree].flatMap ModuleTree.lines := .tail _ (.head _)
  have hmal := malformed_of_not_clear (s := .initial) smallProject hmem hclear
  rw [← lines_renderVerbose] at hmal
  exact absurd (hmal.symm.trans h.1) nofun

end MavenMcp
