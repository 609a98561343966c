/-
# Searching the type hierarchy

`search_type_hierarchy` follows the child-to-parent facts of all JARs from a type to its children,
breadth first.  A fact meets a type when the names agree up to ASCII case; a fact is dropped when
one with the same lowercased class, lowercased parent and coordinate was examined before.

* `exits_hierarchyLoop`: on every index the loop comes to its end.
* `hierarchy_filed`: in a built index the map of children holds the facts of all records.
* `exists_exits_ofState`: a transitive search without a selector, and with room for all facts, is a
  search over edges (`EdgeSearch`).
-/
import MavenMcp.Index.ClassTools
import MavenMcp.Lib.EdgeSearch

namespace MavenMcp
namespace Index

open Text

/-! ## 1. The search -/

/-- A child-to-parent fact with its class and its JAR. -/
structure ParentFact where
  jar : JarRecord
  class_ : IndexedClassFacts
  fact : IndexedTypeParent

def ParentFact.child (f : ParentFact) : Str := f.jar.factString f.class_.sourceClass

def ParentFact.factParent (f : ParentFact) : Str := f.jar.factString f.fact.parent

def ParentFact.edgeKey (lowercase : Str → Str) (f : ParentFact) : Str × Str × Str :=
  (lowercase f.child, lowercase f.factParent, coordinate f.jar)

/-- The fact at a position. -/
def MavenIndex.factAt (index : MavenIndex) (edge : HierarchyEdge) : Option ParentFact :=
  (index.jars[edge.jar]?).bind fun jar => (jar.classFacts[edge.class_]?).bind fun class_ =>
    (class_.parents[edge.parent]?).map fun fact => { jar, class_, fact }

/-- `children_of`. -/
def MavenIndex.childrenOf (index : MavenIndex) (parent : Str) : List HierarchyEdge :=
  index.childrenByParent.group (toAsciiLowercase parent)

/-- A type found; the JAR by its position. -/
structure TypeHierarchyMatch where
  typeName : Str
  jar : Nat
  relation : TypeRelation
  depth : Nat
  path : List Str
deriving DecidableEq, Repr

/-- The state of the search; `returned` is set where the source leaves its loop. -/
structure HierarchySearch where
  queue : List (Str × List Str × Nat)
  visitedEdges : List (Str × Str × Str)
  results : List TypeHierarchyMatch
  returned : Bool
deriving DecidableEq, Repr

/-- One edge to a child of the type that was taken from the queue. -/
def MavenIndex.examineEdge (lowercase : Str → Str) (index : MavenIndex) (transitive : Bool)
    (selector : Option Str) (limit : Nat) (path : List Str) (depth : Nat) (s : HierarchySearch)
    (edge : HierarchyEdge) : HierarchySearch :=
  if s.returned then s
  else
    match index.factAt edge with
    | none => s
    | some f =>
      if f.edgeKey lowercase ∈ s.visitedEdges then s
      else
        let s := { s with visitedEdges := f.edgeKey lowercase :: s.visitedEdges }
        if f.child ∈ path then s
        else
          let childPath := path ++ [f.child]
          let passes := selector.all (matchesSelector f.jar)
          let s :=
            if passes then
              { s with
                results := s.results ++
                  [{ typeName := f.child, jar := edge.jar, relation := f.fact.relation
                     depth := depth + 1, path := childPath }] }
            else s
          if passes ∧ s.results.length = limit then { s with returned := true }
          else if transitive then { s with queue := s.queue ++ [(f.child, childPath, depth + 1)] }
          else s

/-- One round: the next type of the queue, and the edges to its children. -/
def MavenIndex.hierarchyRound (lowercase : Str → Str) (index : MavenIndex) (transitive : Bool)
    (selector : Option Str) (limit : Nat) (s : HierarchySearch) : Option HierarchySearch :=
  if s.returned then none
  else
    match s.queue with
    | [] => none
    | (parent, path, depth) :: queue =>
      let s := (index.childrenOf parent).foldl
        (index.examineEdge lowercase transitive selector limit path depth) { s with queue }
      some (if transitive then s else { s with returned := true })

def HierarchySearch.start (root : Str) : HierarchySearch :=
  { queue := [(root, [root], 0)], visitedEdges := [], results := [], returned := false }

/-- The edges that the map of children holds. -/
def MavenIndex.filedEdges (index : MavenIndex) : List HierarchyEdge :=
  index.childrenByParent.values.flatten

/-- The loop from a type, which ends after as many rounds as there are edges, and one. -/
def MavenIndex.hierarchyLoop (lowercase : Str → Str) (index : MavenIndex) (root : Str)
    (transitive : Bool) (selector : Option Str) (limit : Nat) : HierarchySearch :=
  Loop.run (index.hierarchyRound lowercase transitive selector limit) (index.filedEdges.length + 1)
    (HierarchySearch.start root)

/-- `search_type_hierarchy`. -/
def MavenIndex.searchTypeHierarchy (lowercase : Str → Str) (index : MavenIndex) (typeName : Str)
    (transitive : Bool) (selector : Option Str) (limit : Option Nat) : List TypeHierarchyMatch :=
  let root := normalizeClassQuery typeName
  if root = [] then []
  else (index.hierarchyLoop lowercase root transitive selector (index.limit limit)).results

/-! ## 2. Its end -/

variable {lowercase : Str → Str} {index : MavenIndex}

/-- The edge was not examined yet. -/
def MavenIndex.isUnvisited (lowercase : Str → Str) (index : MavenIndex) (s : HierarchySearch)
    (edge : HierarchyEdge) : Bool :=
  (index.factAt edge).any fun f => decide (f.edgeKey lowercase ∉ s.visitedEdges)

/-- What the rounds use up: the queue and the edges that were not examined. -/
def MavenIndex.hierarchyLeft (lowercase : Str → Str) (index : MavenIndex) (s : HierarchySearch) :
    Nat :=
  s.queue.length + index.filedEdges.countP (index.isUnvisited lowercase s)

/-- Visiting a key for the first time leaves fewer edges. -/
theorem countP_visit {s s' : HierarchySearch} {edge : HierarchyEdge}
    (hedge : edge ∈ index.filedEdges) {f : ParentFact} (hfact : index.factAt edge = some f)
    (hnew : f.edgeKey lowercase ∉ s.visitedEdges)
    (hvisited : s'.visitedEdges = f.edgeKey lowercase :: s.visitedEdges) :
    index.filedEdges.countP (index.isUnvisited lowercase s') + 1
      ≤ index.filedEdges.countP (index.isUnvisited lowercase s) := by
  have hmono : ∀ e, index.isUnvisited lowercase s' e = true →
      index.isUnvisited lowercase s e = true := by
    intro e he
    unfold MavenIndex.isUnvisited at he ⊢
    cases hat : index.factAt e with
    | none =>
      rw [hat] at he
      exact he
    | some f' =>
      rw [hat, Option.any_some, decide_eq_true_eq, hvisited] at he
      rw [Option.any_some, decide_eq_true_eq]
      exact fun hmem => he (List.mem_cons_of_mem _ hmem)
  have hbefore : index.isUnvisited lowercase s edge = true := by
    rw [MavenIndex.isUnvisited, hfact, Option.any_some]
    exact decide_eq_true hnew
  have hafter : index.isUnvisited lowercase s' edge = false := by
    rw [MavenIndex.isUnvisited, hfact, Option.any_some, decide_eq_false_iff_not, hvisited, not_not]
    exact List.mem_cons_self
  obtain ⟨l₁, l₂, hsplit⟩ := List.append_of_mem hedge
  have hone : ∀ l : List HierarchyEdge,
      l.countP (index.isUnvisited lowercase s') ≤ l.countP (index.isUnvisited lowercase s) :=
    fun l => List.countP_mono_left fun e _ => hmono e
  have h₁ := hone l₁
  have h₂ := hone l₂
  rw [hsplit, List.countP_append, List.countP_append, List.countP_cons_of_neg (by simp [hafter]),
    List.countP_cons_of_pos hbefore]
  omega

variable (lowercase) in
theorem hierarchyLeft_examineEdge (transitive : Bool) (selector : Option Str) (limit : Nat)
    (path : List Str) (depth : Nat) (s : HierarchySearch) {edge : HierarchyEdge}
    (hedge : edge ∈ index.filedEdges) :
    index.hierarchyLeft lowercase
        (index.examineEdge lowercase transitive selector limit path depth s edge)
      ≤ index.hierarchyLeft lowercase s := by
  unfold MavenIndex.examineEdge
  split
  · exact Nat.le_refl _
  · split
    · exact Nat.le_refl _
    · rename_i f hfact
      split
      · exact Nat.le_refl _
      · rename_i hnew
        have hvisit := fun (s' : HierarchySearch)
            (h : s'.visitedEdges = f.edgeKey lowercase :: s.visitedEdges) =>
          countP_visit hedge hfact hnew h
        -- one key more is visited, and at most one type enters the queue
        have hbound : ∀ s' : HierarchySearch,
            s'.visitedEdges = f.edgeKey lowercase :: s.visitedEdges →
              s'.queue.length ≤ s.queue.length + 1 →
                index.hierarchyLeft lowercase s' ≤ index.hierarchyLeft lowercase s := by
          intro s' hvisited hqueue
          have hcount := hvisit s' hvisited
          unfold MavenIndex.hierarchyLeft
          omega
        simp only
        split
        · exact hbound _ rfl (Nat.le_succ _)
        · split_ifs
          all_goals exact hbound _ rfl (by simp)

variable (lowercase) in
theorem hierarchyLeft_examineEdges (transitive : Bool) (selector : Option Str) (limit : Nat)
    (path : List Str) (depth : Nat) {edges : List HierarchyEdge}
    (hedges : ∀ edge ∈ edges, edge ∈ index.filedEdges) (s : HierarchySearch) :
    index.hierarchyLeft lowercase (edges.foldl
        (index.examineEdge lowercase transitive selector limit path depth) s)
      ≤ index.hierarchyLeft lowercase s := by
  induction edges generalizing s with
  | nil => exact Nat.le_refl _
  | cons edge edges ih =>
    have hfirst := hierarchyLeft_examineEdge lowercase transitive selector limit path depth s
      (hedges edge List.mem_cons_self)
    have hrest := ih (fun e he => hedges e (List.mem_cons_of_mem _ he))
      (index.examineEdge lowercase transitive selector limit path depth s edge)
    rw [List.foldl_cons]
    omega

theorem mem_filedEdges_of_childrenOf {parent : Str} {edge : HierarchyEdge}
    (h : edge ∈ index.childrenOf parent) : edge ∈ index.filedEdges := by
  unfold MavenIndex.childrenOf AList.group at h
  cases hlookup : index.childrenByParent.lookup (toAsciiLowercase parent) with
  | none =>
    rw [hlookup] at h
    cases h
  | some edges =>
    rw [hlookup] at h
    exact List.mem_flatten.mpr ⟨edges, AList.mem_values.mpr ⟨_, hlookup⟩, h⟩

/-- **Each round** uses something up. -/
theorem hierarchyLeft_round {transitive : Bool} {selector : Option Str} {limit : Nat}
    {s s' : HierarchySearch}
    (h : index.hierarchyRound lowercase transitive selector limit s = some s') :
    index.hierarchyLeft lowercase s' < index.hierarchyLeft lowercase s := by
  unfold MavenIndex.hierarchyRound at h
  split at h
  · cases h
  · split at h
    · cases h
    · rename_i parent path depth queue hqueue
      have hedges := hierarchyLeft_examineEdges lowercase transitive selector limit path depth
        (fun edge (hedge : edge ∈ index.childrenOf parent) => mem_filedEdges_of_childrenOf hedge)
        { s with queue }
      have hpop : index.hierarchyLeft lowercase { s with queue } + 1
          = index.hierarchyLeft lowercase s := by
        have hlength : s.queue.length = queue.length + 1 := by
          rw [hqueue, List.length_cons]
        have hleft : index.hierarchyLeft lowercase { s with queue }
            = queue.length + index.filedEdges.countP (index.isUnvisited lowercase s) := rfl
        rw [hleft, MavenIndex.hierarchyLeft, hlength]
        omega
      rw [← Option.some.inj h]
      split
      · omega
      · have hsame : ∀ t : HierarchySearch,
            index.hierarchyLeft lowercase { t with returned := true }
              = index.hierarchyLeft lowercase t := fun _ => rfl
        rw [hsame]
        omega

/-- **The search ends** on every index. -/
theorem exits_hierarchyLoop (root : Str) (transitive : Bool) (selector : Option Str) (limit : Nat) :
    Loop.Exits (index.hierarchyRound lowercase transitive selector limit)
      (HierarchySearch.start root)
      (index.hierarchyLoop lowercase root transitive selector limit) := by
  refine Loop.exits_run (index.hierarchyLeft lowercase) (fun s s' => hierarchyLeft_round) _ _ ?_
  have hcount : index.filedEdges.countP (index.isUnvisited lowercase (HierarchySearch.start root))
      ≤ index.filedEdges.length := List.countP_le_length
  have hone : (HierarchySearch.start root).queue.length = 1 := rfl
  unfold MavenIndex.hierarchyLeft
  omega

/-! ## 3. The facts of an index -/

/-- All facts with their positions. -/
def MavenIndex.parentFacts (index : MavenIndex) : List (HierarchyEdge × ParentFact) :=
  index.jars.zipIdx.flatMap fun (jar, j) => jar.classFacts.zipIdx.flatMap fun (class_, c) =>
    class_.parents.zipIdx.map fun (fact, p) =>
      ({ jar := j, class_ := c, parent := p }, { jar, class_, fact })

theorem mem_parentFacts {e : HierarchyEdge × ParentFact} :
    e ∈ index.parentFacts ↔ index.factAt e.1 = some e.2 := by
  obtain ⟨edge, f⟩ := e
  unfold MavenIndex.factAt
  rw [Option.bind_eq_some_iff]
  constructor
  · intro h
    obtain ⟨⟨jar, j⟩, hjar, h⟩ := List.mem_flatMap.mp h
    obtain ⟨⟨class_, c⟩, hclass, h⟩ := List.mem_flatMap.mp h
    obtain ⟨⟨fact, p⟩, hfact, heq⟩ := List.mem_map.mp h
    obtain ⟨rfl, rfl⟩ := Prod.mk.inj heq
    refine ⟨jar, List.mem_zipIdx_iff_getElem?.mp hjar, Option.bind_eq_some_iff.mpr ⟨class_,
      List.mem_zipIdx_iff_getElem?.mp hclass, Option.map_eq_some_iff.mpr ⟨fact,
        List.mem_zipIdx_iff_getElem?.mp hfact, rfl⟩⟩⟩
  · rintro ⟨jar, hjar, h⟩
    obtain ⟨class_, hclass, h⟩ := Option.bind_eq_some_iff.mp h
    obtain ⟨fact, hfact, rfl⟩ := Option.map_eq_some_iff.mp h
    refine List.mem_flatMap.mpr ⟨(jar, edge.jar), List.mem_zipIdx_iff_getElem?.mpr hjar, ?_⟩
    refine List.mem_flatMap.mpr ⟨(class_, edge.class_), List.mem_zipIdx_iff_getElem?.mpr hclass, ?_⟩
    exact List.mem_map.mpr ⟨(fact, edge.parent), List.mem_zipIdx_iff_getElem?.mpr hfact, rfl⟩

/-- The entries of the map of children are the facts under their parents. -/
theorem hierarchyEntries_eq :
    (index.jars.zipIdx.flatMap fun (record, jarIndex) => hierarchyEdges jarIndex record)
      = index.parentFacts.map fun e => (toAsciiLowercase e.2.factParent, e.1) := by
  unfold MavenIndex.parentFacts
  rw [List.map_flatMap]
  refine List.flatMap_congr fun jar _ => ?_
  unfold hierarchyEdges
  rw [List.map_flatMap]
  refine List.flatMap_congr fun class_ _ => ?_
  rw [List.map_map]
  rfl

theorem mem_group_childrenByParent (h : index.Built lowercase) {c : Str} {edge : HierarchyEdge} :
    edge ∈ index.childrenByParent.group c ↔
      ∃ f, (edge, f) ∈ index.parentFacts ∧ toAsciiLowercase f.factParent = c := by
  have hgroups : index.childrenByParent
      = ((∅ : Table Str (List HierarchyEdge)).pushAll
          (index.parentFacts.map fun e => (toAsciiLowercase e.2.factParent, e.1))).mapVals
            fun edges => edges.mergeSort (edgeLe index.jars) := by
    rw [h.childrenByParent, ← hierarchyEntries_eq]
    rfl
  have hmem : edge ∈ index.childrenByParent.group c ↔
      edge ∈ ((∅ : Table Str (List HierarchyEdge)).pushAll
        (index.parentFacts.map fun e => (toAsciiLowercase e.2.factParent, e.1))).group c := by
    rw [hgroups]
    unfold AList.group
    rw [AList.lookup_mapVals]
    cases AList.lookup c ((∅ : Table Str (List HierarchyEdge)).pushAll
        (index.parentFacts.map fun e => (toAsciiLowercase e.2.factParent, e.1))) with
    | none => rfl
    | some edges => exact List.mem_mergeSort
  rw [hmem, AList.group_pushAll, AList.group_empty, List.nil_append, List.mem_map]
  constructor
  · rintro ⟨e, he, rfl⟩
    obtain ⟨hfact, hkey⟩ := List.mem_filter.mp he
    obtain ⟨e', he', rfl⟩ := List.mem_map.mp hfact
    exact ⟨e'.2, he', of_decide_eq_true hkey⟩
  · rintro ⟨f, hf, hkey⟩
    refine ⟨(toAsciiLowercase f.factParent, edge), ?_, rfl⟩
    refine List.mem_filter.mpr ⟨?_, decide_eq_true hkey⟩
    exact List.mem_map.mpr ⟨(edge, f), hf, rfl⟩

/-- The facts as a graph on types, which meet up to ASCII case. -/
def MavenIndex.hierarchy (lowercase : Str → Str) (index : MavenIndex) :
    EdgeSearch.Graph Str Str (HierarchyEdge × ParentFact) (Str × Str × Str) where
  classOf := toAsciiLowercase
  edges := index.parentFacts
  parent e := e.2.factParent
  child e := e.2.child
  key e := e.2.edgeKey lowercase
  children c := (index.childrenByParent.group c).filterMap fun edge =>
    (index.factAt edge).map fun f => (edge, f)

theorem hierarchy_filed (h : index.Built lowercase) : (index.hierarchy lowercase).Filed := by
  rintro c ⟨edge, f⟩
  have hchildren : (edge, f) ∈ (index.hierarchy lowercase).children c ↔
      edge ∈ index.childrenByParent.group c ∧ index.factAt edge = some f := by
    unfold MavenIndex.hierarchy
    rw [List.mem_filterMap]
    constructor
    · rintro ⟨edge', hmem, heq⟩
      obtain ⟨f', hf', hpair⟩ := Option.map_eq_some_iff.mp heq
      obtain ⟨rfl, rfl⟩ := Prod.mk.inj hpair
      exact ⟨hmem, hf'⟩
    · rintro ⟨hmem, hfact⟩
      exact ⟨edge, hmem, Option.map_eq_some_iff.mpr ⟨f, hfact, rfl⟩⟩
  rw [hchildren, mem_group_childrenByParent h, ← mem_parentFacts (e := (edge, f))]
  constructor
  · rintro ⟨⟨f', hmem', hclass⟩, hmem⟩
    obtain rfl : f' = f := by
      have hat := mem_parentFacts.mp hmem
      rw [mem_parentFacts.mp hmem'] at hat
      exact Option.some.inj hat
    exact ⟨hmem, hclass⟩
  · rintro ⟨hmem, hclass⟩
    exact ⟨⟨f, hmem, hclass⟩, hmem⟩

/-! ## 4. In step with a search over edges -/

def matchOf (m : EdgeSearch.Found Str (HierarchyEdge × ParentFact)) : TypeHierarchyMatch :=
  { typeName := m.edge.2.child, jar := m.edge.1.jar, relation := m.edge.2.fact.relation
    depth := m.depth, path := m.path }

/-- A state of the search over edges as a state of `search_type_hierarchy`. -/
def HierarchySearch.ofState
    (t : EdgeSearch.State Str (HierarchyEdge × ParentFact) (Str × Str × Str)) : HierarchySearch :=
  { queue := t.queue.map fun item => (item.node, item.path, item.depth), visitedEdges := t.visited
    results := t.found.map matchOf, returned := false }

/-- **One edge**, as long as the limit leaves room. -/
theorem examineEdge_ofState {limit : Nat} {item : EdgeSearch.Item Str}
    {t : EdgeSearch.State Str (HierarchyEdge × ParentFact) (Str × Str × Str)} {edge : HierarchyEdge}
    {f : ParentFact} (hfact : index.factAt edge = some f)
    (hroom : (EdgeSearch.examine (index.hierarchy lowercase) item t (edge, f)).found.length
      < limit) :
    index.examineEdge lowercase true none limit item.path item.depth (.ofState t) edge
      = .ofState (EdgeSearch.examine (index.hierarchy lowercase) item t (edge, f)) := by
  have hkey : (index.hierarchy lowercase).key (edge, f) = f.edgeKey lowercase := rfl
  have hchild : (index.hierarchy lowercase).child (edge, f) = f.child := rfl
  have hvisited : (HierarchySearch.ofState t).visitedEdges = t.visited := rfl
  have hreturned : (HierarchySearch.ofState t).returned = false := rfl
  unfold EdgeSearch.examine at hroom ⊢
  unfold MavenIndex.examineEdge
  rw [hkey, hchild] at hroom ⊢
  rw [hvisited, hfact, hreturned, if_neg Bool.false_ne_true]
  simp only
  by_cases hold : f.edgeKey lowercase ∈ t.visited
  · rw [if_pos hold, if_pos hold]
  · rw [if_neg hold] at hroom
    rw [if_neg hold, if_neg hold]
    by_cases hpath : f.child ∈ item.path
    · rw [if_pos hpath, if_pos hpath]
      rfl
    · rw [if_neg hpath, List.length_append, List.length_singleton] at hroom
      rw [if_neg hpath, if_neg hpath]
      have hlength : ∀ m, (t.found.map matchOf ++ [m]).length ≠ limit := by
        intro m
        rw [List.length_append, List.length_map, List.length_singleton]
        omega
      simp only [HierarchySearch.ofState, Option.all_none, if_true, true_and, if_neg (hlength _),
        List.map_append, List.map_singleton]
      rfl

/-- **All edges of a round.** -/
theorem examineEdges_ofState {limit : Nat} (hlimit : index.parentFacts.length < limit)
    {item : EdgeSearch.Item Str} {edges : List HierarchyEdge}
    {t : EdgeSearch.State Str (HierarchyEdge × ParentFact) (Str × Str × Str)}
    (honce : EdgeSearch.Once (index.hierarchy lowercase) t) :
    edges.foldl (index.examineEdge lowercase true none limit item.path item.depth) (.ofState t)
      = .ofState ((edges.filterMap fun edge => (index.factAt edge).map fun f => (edge, f)).foldl
          (EdgeSearch.examine (index.hierarchy lowercase) item) t) := by
  induction edges generalizing t with
  | nil => rfl
  | cons edge edges ih =>
    rw [List.foldl_cons]
    cases hfact : index.factAt edge with
    | none =>
      rw [List.filterMap_cons_none (by rw [hfact]; rfl)]
      have hskip : index.examineEdge lowercase true none limit item.path item.depth (.ofState t)
          edge = .ofState t := by
        unfold MavenIndex.examineEdge
        rw [hfact]
        exact ite_self _
      rw [hskip]
      exact ih honce
    | some f =>
      rw [List.filterMap_cons_some (b := (edge, f)) (by rw [hfact]; rfl), List.foldl_cons]
      have hmem : (edge, f) ∈ (index.hierarchy lowercase).edges := mem_parentFacts.mpr hfact
      have hnext := honce.examine item hmem
      have hroom := hnext.length_le
      rw [examineEdge_ofState hfact (Nat.lt_of_le_of_lt hroom hlimit)]
      exact ih hnext

/-- **One round.** -/
theorem hierarchyRound_ofState {limit : Nat} (hlimit : index.parentFacts.length < limit)
    {t : EdgeSearch.State Str (HierarchyEdge × ParentFact) (Str × Str × Str)}
    (honce : EdgeSearch.Once (index.hierarchy lowercase) t) :
    index.hierarchyRound lowercase true none limit (.ofState t)
      = (EdgeSearch.round (index.hierarchy lowercase) t).map HierarchySearch.ofState := by
  obtain ⟨queue, visited, found⟩ := t
  unfold MavenIndex.hierarchyRound EdgeSearch.round
  cases queue with
  | nil => rfl
  | cons item queue =>
    have honce' : EdgeSearch.Once (index.hierarchy lowercase) { queue, visited, found } :=
      ⟨honce.nodup, honce.visited, honce.edges⟩
    exact congrArg some (examineEdges_ofState hlimit honce')

/-- The search ends as the search over edges does. -/
theorem exists_exits_ofState (h : index.Built lowercase) {limit : Nat}
    (hlimit : index.parentFacts.length < limit) (root : Str) :
    ∃ t, Loop.Exits (EdgeSearch.round (index.hierarchy lowercase)) (EdgeSearch.start root) t ∧
      index.hierarchyLoop lowercase root true none limit = .ofState t := by
  obtain ⟨hreaches, hexit⟩ :=
    @exits_hierarchyLoop lowercase index root true none limit
  have hfiled := hierarchy_filed h
  have hstart : HierarchySearch.start root = .ofState (EdgeSearch.start root) := rfl
  rw [hstart] at hreaches
  generalize index.hierarchyLoop lowercase root true none limit = s at hreaches hexit
  have hsteps : ∃ t, Relation.ReflTransGen
      (Loop.Round (EdgeSearch.round (index.hierarchy lowercase))) (EdgeSearch.start root) t ∧
        s = .ofState t := by
    clear hexit
    induction hreaches with
    | refl => exact ⟨_, .refl, rfl⟩
    | tail _ hround ih =>
      obtain ⟨t, ht, rfl⟩ := ih
      unfold Loop.Round at hround
      rw [hierarchyRound_ofState hlimit (EdgeSearch.once_of_reaches hfiled ht)] at hround
      obtain ⟨t', ht', rfl⟩ := Option.map_eq_some_iff.mp hround
      exact ⟨t', ht.tail ht', rfl⟩
  obtain ⟨t, ht, heq⟩ := hsteps
  refine ⟨t, ⟨ht, ?_⟩, heq⟩
  rw [heq, hierarchyRound_ofState hlimit (EdgeSearch.once_of_reaches hfiled ht)] at hexit
  exact Option.map_eq_none_iff.mp hexit

end Index
end MavenMcp
