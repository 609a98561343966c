/-
# Breadth-first search over edges

A search that starts in a node and follows edges from parent to child.  Nodes are met by classes:
an edge leaves every node of the class of its parent.  Each edge is examined once, by its key, and
an edge to a node of the path that led to it is not followed.

What is found does not repeat a key (`Once`) and is within reach (`Sound`).  On a graph without
cycles whose edges within reach have keys of their own, the search is complete, and it finds each
edge on a shortest way (`complete_of_exits`).  The invariant of the rounds is `Inv`; the argument
for shortest ways is `exists_item`: as long as a class is not done, some item of the queue is at
most as far away.
-/
import MavenMcp.Lib.Loop
import Mathlib.Data.List.Nodup
import Mathlib.Data.List.Perm.Subperm

namespace EdgeSearch

variable {N C E K : Type}

/-! ## 1. The search -/

structure Graph (N C E K : Type) where
  classOf : N → C
  edges : List E
  parent : E → N
  child : E → N
  key : E → K
  children : C → List E

/-- A node in the queue, with the path that led to it. -/
structure Item (N : Type) where
  node : N
  path : List N
  depth : Nat

structure Found (N E : Type) where
  edge : E
  path : List N
  depth : Nat

structure State (N E K : Type) where
  queue : List (Item N)
  visited : List K
  found : List (Found N E)

variable [DecidableEq N] [DecidableEq K]

/-- One edge that leaves the class of an item. -/
def examine (g : Graph N C E K) (item : Item N) (s : State N E K) (e : E) : State N E K :=
  if g.key e ∈ s.visited then s
  else if g.child e ∈ item.path then { s with visited := g.key e :: s.visited }
  else
    { queue := s.queue ++ [{ node := g.child e, path := item.path ++ [g.child e]
                             depth := item.depth + 1 }]
      visited := g.key e :: s.visited
      found := s.found ++ [{ edge := e, path := item.path ++ [g.child e]
                             depth := item.depth + 1 }] }

def round (g : Graph N C E K) (s : State N E K) : Option (State N E K) :=
  match s.queue with
  | [] => none
  | item :: queue =>
    some ((g.children (g.classOf item.node)).foldl (examine g item) { s with queue })

/-- The start in a node. -/
def start (root : N) : State N E K :=
  { queue := [{ node := root, path := [root], depth := 0 }], visited := [], found := [] }

/-! ## 2. What it should find -/

namespace Graph

omit [DecidableEq N] [DecidableEq K]

variable (g : Graph N C E K)

/-- The children of a class are the edges that leave it. -/
def Filed : Prop := ∀ c e, e ∈ g.children c ↔ e ∈ g.edges ∧ g.classOf (g.parent e) = c

/-- An edge from one class to another. -/
def Step (a b : C) : Prop :=
  ∃ e ∈ g.edges, g.classOf (g.parent e) = a ∧ g.classOf (g.child e) = b

def Acyclic : Prop := ∀ c, ¬ Relation.TransGen g.Step c c

/-- There is a way of so many edges from the root to the class. -/
inductive Way (root : N) : Nat → C → Prop
  | root : Way root 0 (g.classOf root)
  | step {n : Nat} {e : E} (h : Way root n (g.classOf (g.parent e))) (he : e ∈ g.edges) :
      Way root (n + 1) (g.classOf (g.child e))

/-- The edge can be reached from the root. -/
def Reached (root : N) (e : E) : Prop := e ∈ g.edges ∧ ∃ n, g.Way root n (g.classOf (g.parent e))

/-- The nodes of a way, its last node and its number of edges. -/
inductive Chain (root : N) : List N → N → Nat → Prop
  | root : Chain root [root] root 0
  | step {path : List N} {node : N} {n : Nat} {e : E} (h : Chain root path node n)
      (he : e ∈ g.edges) (hmeets : g.classOf (g.parent e) = g.classOf node) :
      Chain root (path ++ [g.child e]) (g.child e) (n + 1)

/-- An edge that was found, with a shortest way to it. -/
structure Shortest (root : N) (m : Found N E) : Prop where
  edge : m.edge ∈ g.edges
  exists_chain : ∃ path node n, g.Chain root path node n ∧
    g.classOf (g.parent m.edge) = g.classOf node ∧ m.path = path ++ [g.child m.edge] ∧
      m.depth = n + 1 ∧ ∀ n', g.Way root n' (g.classOf (g.parent m.edge)) → n ≤ n'

/-- Edges within reach have keys of their own, up to `same`. -/
def KeysApart (root : N) (same : E → E → Prop) : Prop :=
  ∀ e e', g.Reached root e → g.Reached root e' → g.key e = g.key e' → same e e'

variable {g} {root : N}

theorem Chain.way {path : List N} {node : N} {n : Nat} (h : g.Chain root path node n) :
    g.Way root n (g.classOf node) := by
  induction h with
  | root => exact .root
  | step h he hmeets ih => exact .step (by rw [hmeets]; exact ih) he

theorem Shortest.reached {m : Found N E} (h : g.Shortest root m) : g.Reached root m.edge := by
  obtain ⟨path, node, n, hchain, hmeets, -⟩ := h.exists_chain
  refine ⟨h.edge, n, ?_⟩
  rw [hmeets]
  exact hchain.way

/-- Every node of a path leads to its end. -/
theorem Chain.reaches {path : List N} {node x : N} {n : Nat} (h : g.Chain root path node n)
    (hx : x ∈ path) : Relation.ReflTransGen g.Step (g.classOf x) (g.classOf node) := by
  induction h with
  | root =>
    rw [List.mem_singleton.mp hx]
  | step h he hmeets ih =>
    rcases List.mem_append.mp hx with hx | hx
    · exact (ih hx).tail ⟨_, he, hmeets, rfl⟩
    · rw [List.mem_singleton.mp hx]

/-- Without cycles no edge leads back to its path. -/
theorem Acyclic.not_mem_path (hacyclic : g.Acyclic) {path : List N} {node : N} {n : Nat}
    (h : g.Chain root path node n) {e : E} (he : e ∈ g.edges)
    (hmeets : g.classOf (g.parent e) = g.classOf node) : g.child e ∉ path := by
  intro hmem
  exact hacyclic _ (Relation.TransGen.tail' (h.reaches hmem) ⟨e, he, hmeets, rfl⟩)

end Graph

/-! ## 3. No key twice -/

/-- What is found has different keys, all of them visited. -/
structure Once (g : Graph N C E K) (s : State N E K) : Prop where
  nodup : (s.found.map fun m => g.key m.edge).Nodup
  visited : ∀ m ∈ s.found, g.key m.edge ∈ s.visited
  edges : ∀ m ∈ s.found, m.edge ∈ g.edges

variable {g : Graph N C E K}

theorem Once.examine (item : Item N) {s : State N E K} (h : Once g s) {e : E} (he : e ∈ g.edges) :
    Once g (examine g item s e) := by
  unfold EdgeSearch.examine
  split
  · exact h
  · rename_i hnew
    split
    · exact ⟨h.nodup, fun m hm => List.mem_cons_of_mem _ (h.visited m hm), h.edges⟩
    · refine ⟨?_, fun m hm => ?_, fun m hm => ?_⟩
      · rw [List.map_append, List.map_singleton]
        refine List.nodup_append.mpr ⟨h.nodup, List.nodup_singleton _, ?_⟩
        intro k hk k' hk'
        obtain ⟨m, hm, rfl⟩ := List.mem_map.mp hk
        rw [List.mem_singleton.mp hk']
        intro heq
        exact hnew (heq ▸ h.visited m hm)
      · rcases List.mem_append.mp hm with hm | hm
        · exact List.mem_cons_of_mem _ (h.visited m hm)
        · rw [List.mem_singleton.mp hm]
          exact List.mem_cons_self
      · rcases List.mem_append.mp hm with hm | hm
        · exact h.edges m hm
        · rw [List.mem_singleton.mp hm]
          exact he

theorem Once.examineAll {item : Item N} {edges : List E} (hedges : ∀ e ∈ edges, e ∈ g.edges)
    {s : State N E K} (h : Once g s) : Once g (edges.foldl (EdgeSearch.examine g item) s) := by
  induction edges generalizing s with
  | nil => exact h
  | cons e edges ih =>
    exact ih (fun e' he' => hedges e' (List.mem_cons_of_mem _ he'))
      (h.examine item (hedges e List.mem_cons_self))

theorem Once.round (hfiled : g.Filed) {s s' : State N E K} (hround : round g s = some s')
    (h : Once g s) : Once g s' := by
  unfold EdgeSearch.round at hround
  split at hround
  · cases hround
  · rw [← Option.some.inj hround]
    refine Once.examineAll (fun e he => ((hfiled _ e).mp he).1) ?_
    exact ⟨h.nodup, h.visited, h.edges⟩

omit [DecidableEq N] [DecidableEq K] in
theorem once_start (root : N) : Once g (start root : State N E K) := ⟨List.nodup_nil, nofun, nofun⟩

omit [DecidableEq N] [DecidableEq K] in
/-- There are at most as many finds as edges. -/
theorem Once.length_le {s : State N E K} (h : Once g s) : s.found.length ≤ g.edges.length := by
  have hsub : (s.found.map fun m => g.key m.edge) ⊆ g.edges.map g.key := by
    intro k hk
    obtain ⟨m, hm, rfl⟩ := List.mem_map.mp hk
    exact List.mem_map_of_mem (h.edges m hm)
  have hlength := (List.subperm_of_subset h.nodup hsub).length_le
  rwa [List.length_map, List.length_map] at hlength

/-! ## 4. Nothing out of reach -/

/-- The queue and what is found are within reach. -/
structure Sound (g : Graph N C E K) (root : N) (s : State N E K) : Prop where
  items : ∀ item ∈ s.queue, ∃ n, g.Way root n (g.classOf item.node)
  found : ∀ m ∈ s.found, g.Reached root m.edge

variable {root : N}

theorem Sound.examine {item : Item N} {s : State N E K} (h : Sound g root s) {e : E}
    (he : e ∈ g.edges) {n : Nat} (hway : g.Way root n (g.classOf (g.parent e))) :
    Sound g root (examine g item s e) := by
  unfold EdgeSearch.examine
  split
  · exact h
  · split
    · exact ⟨h.items, h.found⟩
    · refine ⟨fun a ha => ?_, fun m hm => ?_⟩
      · rcases List.mem_append.mp ha with ha | ha
        · exact h.items a ha
        · rw [List.mem_singleton.mp ha]
          exact ⟨n + 1, .step hway he⟩
      · rcases List.mem_append.mp hm with hm | hm
        · exact h.found m hm
        · rw [List.mem_singleton.mp hm]
          exact ⟨he, n, hway⟩

theorem Sound.examineAll {item : Item N} {edges : List E} {n : Nat}
    (hedges : ∀ e ∈ edges, e ∈ g.edges ∧ g.Way root n (g.classOf (g.parent e))) {s : State N E K}
    (h : Sound g root s) : Sound g root (edges.foldl (EdgeSearch.examine g item) s) := by
  induction edges generalizing s with
  | nil => exact h
  | cons e edges ih =>
    obtain ⟨he, hway⟩ := hedges e List.mem_cons_self
    exact ih (fun e' he' => hedges e' (List.mem_cons_of_mem _ he')) (h.examine he hway)

theorem Sound.round (hfiled : g.Filed) {s s' : State N E K} (hround : round g s = some s')
    (h : Sound g root s) : Sound g root s' := by
  unfold EdgeSearch.round at hround
  split at hround
  · cases hround
  · rename_i item queue hqueue
    rw [← Option.some.inj hround]
    obtain ⟨n, hway⟩ := h.items item (hqueue ▸ List.mem_cons_self)
    refine Sound.examineAll (n := n) (fun e he => ?_) ⟨fun a ha => ?_, h.found⟩
    · obtain ⟨hedge, hclass⟩ := (hfiled _ e).mp he
      exact ⟨hedge, by rw [hclass]; exact hway⟩
    · exact h.items a (hqueue ▸ List.mem_cons_of_mem _ ha)

omit [DecidableEq N] [DecidableEq K] in
theorem sound_start (root : N) : Sound g root (start root : State N E K) where
  items item hitem := by
    rw [List.mem_singleton.mp hitem]
    exact ⟨0, .root⟩
  found := nofun

/-! ## 5. The invariant -/

omit [DecidableEq N] [DecidableEq K]

/-- All edges that leave the class have been examined. -/
def Done (g : Graph N C E K) (s : State N E K) (c : C) : Prop :=
  ∀ e ∈ g.edges, g.classOf (g.parent e) = c → g.key e ∈ s.visited

/-- The class is at this depth in the queue. -/
def Queued (g : Graph N C E K) (s : State N E K) (c : C) (depth : Nat) : Prop :=
  ∃ item ∈ s.queue, g.classOf item.node = c ∧ item.depth = depth

/-- What is known of the state while the edges that leave the class `pending` are examined; between
the rounds there is no such class. -/
structure Inv (g : Graph N C E K) (root : N) (pending : Option C) (s : State N E K) : Prop where
  once : Once g s
  /-- Every key that was visited belongs to a find. -/
  visited : ∀ k ∈ s.visited, ∃ m ∈ s.found, g.key m.edge = k
  found : ∀ m ∈ s.found, g.Shortest root m
  items : ∀ item ∈ s.queue, g.Chain root item.path item.node item.depth
  sorted : s.queue.Pairwise fun a b => a.depth ≤ b.depth
  spread : ∀ a ∈ s.queue, ∀ b ∈ s.queue, b.depth ≤ a.depth + 1
  /-- The end of a find has been dealt with, or will be. -/
  followed : ∀ m ∈ s.found, Done g s (g.classOf (g.child m.edge)) ∨
    some (g.classOf (g.child m.edge)) = pending ∨ Queued g s (g.classOf (g.child m.edge)) m.depth
  rooted : Done g s (g.classOf root) ∨ some (g.classOf root) = pending ∨
    Queued g s (g.classOf root) 0

variable {same : E → E → Prop}

/-- **Nothing is passed over.**  Between the rounds, of every class that is not done there is an
item in the queue that is nearer to the root, or as near and of this class. -/
theorem Inv.exists_item {s : State N E K} (h : Inv g root none s)
    (hsame : ∀ e e', same e e' → g.parent e = g.parent e' ∧ g.child e = g.child e')
    (hkeys : g.KeysApart root same) {n : Nat} {c : C} (hway : g.Way root n c)
    (hdone : ¬ Done g s c) :
    ∃ item ∈ s.queue, item.depth < n ∨ item.depth ≤ n ∧ g.classOf item.node = c := by
  induction hway with
  | root =>
    rcases h.rooted with hdone' | hpending | ⟨item, hitem, hclass, hdepth⟩
    · exact absurd hdone' hdone
    · cases hpending
    · exact ⟨item, hitem, .inr ⟨Nat.le_of_eq hdepth, hclass⟩⟩
  | @step n e hway he ih =>
    by_cases hparent : Done g s (g.classOf (g.parent e))
    · -- the edge itself has been found
      obtain ⟨m, hm, hkey⟩ := h.visited _ (hparent e he rfl)
      obtain ⟨-, -, k, -, -, -, hdepth, hshort⟩ := (h.found m hm).exists_chain
      obtain ⟨hparents, hchildren⟩ :=
        hsame _ _ (hkeys m.edge e (h.found m hm).reached ⟨he, n, hway⟩ hkey)
      have hle : k ≤ n := hshort n (by rw [hparents]; exact hway)
      rcases h.followed m hm with hdone' | hpending | ⟨item, hitem, hclass, hitemDepth⟩
      · rw [hchildren] at hdone'
        exact absurd hdone' hdone
      · cases hpending
      · refine ⟨item, hitem, .inr ⟨by omega, ?_⟩⟩
        rw [hclass, hchildren]
    · obtain ⟨item, hitem, hnear⟩ := ih hparent
      refine ⟨item, hitem, .inl ?_⟩
      rcases hnear with hlt | ⟨hle, -⟩
      · omega
      · omega

/-- The first item is nearest to the root, when its class is not done. -/
theorem Inv.head_le {s : State N E K} (h : Inv g root none s)
    (hsame : ∀ e e', same e e' → g.parent e = g.parent e' ∧ g.child e = g.child e')
    (hkeys : g.KeysApart root same) {item : Item N} {queue : List (Item N)}
    (hqueue : s.queue = item :: queue) (hdone : ¬ Done g s (g.classOf item.node)) {n : Nat}
    (hway : g.Way root n (g.classOf item.node)) : item.depth ≤ n := by
  obtain ⟨other, hother, hnear⟩ := h.exists_item hsame hkeys hway hdone
  have hsorted := h.sorted
  rw [hqueue] at hother hsorted
  have hfirst : item.depth ≤ other.depth := by
    rcases List.mem_cons.mp hother with rfl | hother
    · exact Nat.le_refl _
    · exact (List.pairwise_cons.mp hsorted).1 other hother
  rcases hnear with hlt | ⟨hle, -⟩
  · omega
  · omega

theorem Done.mono {s s' : State N E K} (h : ∀ k ∈ s.visited, k ∈ s'.visited) {c : C}
    (hdone : Done g s c) : Done g s' c := fun e he hparent => h _ (hdone e he hparent)

variable [DecidableEq N] [DecidableEq K]

/-- What is known of the queue while the edges of an item are examined. -/
structure Bounded (item : Item N) (s : State N E K) : Prop where
  low : ∀ a ∈ s.queue, item.depth ≤ a.depth
  high : ∀ a ∈ s.queue, a.depth ≤ item.depth + 1

omit [DecidableEq N] [DecidableEq K] in
theorem Queued.mono {s s' : State N E K} (h : ∀ item ∈ s.queue, item ∈ s'.queue) {c : C}
    {depth : Nat} (hqueued : Queued g s c depth) : Queued g s' c depth := by
  obtain ⟨item, hitem, hclass⟩ := hqueued
  exact ⟨item, h item hitem, hclass⟩

/-- **One edge** keeps the invariant. -/
theorem Inv.examine (hacyclic : g.Acyclic) {item : Item N} {s : State N E K} {e : E}
    (h : Inv g root (some (g.classOf item.node)) s) (hbounded : Bounded item s)
    (hchain : g.Chain root item.path item.node item.depth) (he : e ∈ g.edges)
    (hmeets : g.classOf (g.parent e) = g.classOf item.node)
    (hshort : g.key e ∉ s.visited → ∀ n, g.Way root n (g.classOf item.node) → item.depth ≤ n) :
    Inv g root (some (g.classOf item.node)) (examine g item s e) ∧
      Bounded item (examine g item s e) := by
  have honce := h.once.examine item he
  unfold EdgeSearch.examine at honce ⊢
  split
  · exact ⟨h, hbounded⟩
  · rename_i hnew
    rw [if_neg hnew, if_neg (hacyclic.not_mem_path hchain he hmeets)] at honce
    rw [if_neg (hacyclic.not_mem_path hchain he hmeets)]
    have hdone : ∀ c, Done g s c → Done g
        { queue := s.queue ++ [{ node := g.child e, path := item.path ++ [g.child e]
                                 depth := item.depth + 1 }]
          visited := g.key e :: s.visited
          found := s.found ++ [{ edge := e, path := item.path ++ [g.child e]
                                 depth := item.depth + 1 }] } c := fun c hc =>
      hc.mono fun k hk => List.mem_cons_of_mem _ hk
    refine ⟨⟨honce, ?_, ?_, ?_, ?_, ?_, ?_, ?_⟩, ?_, ?_⟩
    · intro k hk
      rcases List.mem_cons.mp hk with rfl | hk
      · exact ⟨_, List.mem_append_right _ (List.mem_singleton.mpr rfl), rfl⟩
      · obtain ⟨m, hm, hkey⟩ := h.visited k hk
        exact ⟨m, List.mem_append_left _ hm, hkey⟩
    · intro m hm
      rcases List.mem_append.mp hm with hm | hm
      · exact h.found m hm
      · rw [List.mem_singleton.mp hm]
        refine ⟨he, item.path, item.node, item.depth, hchain, hmeets, rfl, rfl, fun n hway => ?_⟩
        exact hshort hnew n (by rw [← hmeets]; exact hway)
    · intro a ha
      rcases List.mem_append.mp ha with ha | ha
      · exact h.items a ha
      · rw [List.mem_singleton.mp ha]
        exact .step hchain he hmeets
    · refine List.pairwise_append.mpr ⟨h.sorted, List.pairwise_singleton _ _, fun a ha b hb => ?_⟩
      rw [List.mem_singleton.mp hb]
      exact hbounded.high a ha
    · intro a ha b hb
      have hlow : item.depth ≤ a.depth := by
        rcases List.mem_append.mp ha with ha | ha
        · exact hbounded.low a ha
        · rw [List.mem_singleton.mp ha]
          exact Nat.le_succ _
      have hhigh : b.depth ≤ item.depth + 1 := by
        rcases List.mem_append.mp hb with hb | hb
        · exact hbounded.high b hb
        · exact Nat.le_of_eq (by rw [List.mem_singleton.mp hb])
      omega
    · intro m hm
      rcases List.mem_append.mp hm with hm | hm
      · rcases h.followed m hm with hc | hpending | hqueued
        · exact .inl (hdone _ hc)
        · exact .inr (.inl hpending)
        · exact .inr (.inr (hqueued.mono fun a ha => List.mem_append_left _ ha))
      · rw [List.mem_singleton.mp hm]
        exact .inr (.inr ⟨_, List.mem_append_right _ (List.mem_singleton.mpr rfl), rfl, rfl⟩)
    · rcases h.rooted with hc | hpending | hqueued
      · exact .inl (hdone _ hc)
      · exact .inr (.inl hpending)
      · exact .inr (.inr (hqueued.mono fun a ha => List.mem_append_left _ ha))
    · intro a ha
      rcases List.mem_append.mp ha with ha | ha
      · exact hbounded.low a ha
      · rw [List.mem_singleton.mp ha]
        exact Nat.le_succ _
    · intro a ha
      rcases List.mem_append.mp ha with ha | ha
      · exact hbounded.high a ha
      · exact Nat.le_of_eq (by rw [List.mem_singleton.mp ha])

theorem visited_examine (item : Item N) (s : State N E K) (e : E) :
    ∀ k, k ∈ s.visited ∨ k = g.key e → k ∈ (examine g item s e).visited := by
  intro k hk
  unfold EdgeSearch.examine
  split
  · rename_i hold
    rcases hk with hk | rfl
    · exact hk
    · exact hold
  · split
    · exact List.mem_cons.mpr hk.symm
    · exact List.mem_cons.mpr hk.symm

theorem visited_examineAll (item : Item N) (edges : List E) (s : State N E K) :
    ∀ k, (k ∈ s.visited ∨ ∃ e ∈ edges, g.key e = k) →
      k ∈ (edges.foldl (EdgeSearch.examine g item) s).visited := by
  induction edges generalizing s with
  | nil =>
    rintro k (hk | ⟨e, he, -⟩)
    · exact hk
    · cases he
  | cons e edges ih =>
    rintro k (hk | ⟨e', he', hkey⟩)
    · exact ih _ k (.inl (visited_examine item s e k (.inl hk)))
    · rcases List.mem_cons.mp he' with rfl | he'
      · exact ih _ k (.inl (visited_examine item s e' k (.inr hkey.symm)))
      · exact ih _ k (.inr ⟨e', he', hkey⟩)

theorem Inv.examineAll (hacyclic : g.Acyclic) {item : Item N} {edges : List E} {s : State N E K}
    (h : Inv g root (some (g.classOf item.node)) s) (hbounded : Bounded item s)
    (hchain : g.Chain root item.path item.node item.depth)
    (hedges : ∀ e ∈ edges, e ∈ g.edges ∧ g.classOf (g.parent e) = g.classOf item.node)
    (hshort : ∀ e ∈ edges, g.key e ∉ s.visited →
      ∀ n, g.Way root n (g.classOf item.node) → item.depth ≤ n) :
    Inv g root (some (g.classOf item.node)) (edges.foldl (EdgeSearch.examine g item) s) := by
  induction edges generalizing s with
  | nil => exact h
  | cons e edges ih =>
    obtain ⟨he, hmeets⟩ := hedges e List.mem_cons_self
    obtain ⟨hnext, hbounded'⟩ :=
      h.examine hacyclic hbounded hchain he hmeets (hshort e List.mem_cons_self)
    refine ih hnext hbounded' (fun e' he' => hedges e' (List.mem_cons_of_mem _ he'))
      fun e' he' hnew => hshort e' (List.mem_cons_of_mem _ he') fun hold => hnew ?_
    exact visited_examine item s e _ (.inl hold)

/-- **One round** keeps the invariant. -/
theorem Inv.round (hacyclic : g.Acyclic) (hfiled : g.Filed)
    (hsame : ∀ e e', same e e' → g.parent e = g.parent e' ∧ g.child e = g.child e')
    (hkeys : g.KeysApart root same) {s s' : State N E K} (h : Inv g root none s)
    (hround : round g s = some s') : Inv g root none s' := by
  unfold EdgeSearch.round at hround
  split at hround
  · cases hround
  · rename_i item queue hqueue
    have hnext : (g.children (g.classOf item.node)).foldl (EdgeSearch.examine g item)
        { s with queue } = s' := Option.some.inj hround
    have hmem : ∀ a ∈ queue, a ∈ s.queue := fun a ha => hqueue ▸ List.mem_cons_of_mem _ ha
    have hitem : item ∈ s.queue := hqueue ▸ List.mem_cons_self
    have hsorted := h.sorted
    rw [hqueue] at hsorted
    obtain ⟨hhead, htail⟩ := List.pairwise_cons.mp hsorted
    -- the class of the item leaves the queue and is pending
    have hleaves : ∀ (c : C) (depth : Nat), Queued g s c depth →
        some c = some (g.classOf item.node) ∨ Queued g { s with queue } c depth := by
      rintro c depth ⟨a, ha, hclass, hdepth⟩
      rw [hqueue] at ha
      rcases List.mem_cons.mp ha with rfl | ha
      · exact .inl (congrArg some hclass.symm)
      · exact .inr ⟨a, ha, hclass, hdepth⟩
    have hpending : Inv g root (some (g.classOf item.node)) { s with queue } := by
      refine ⟨⟨h.once.nodup, h.once.visited, h.once.edges⟩, h.visited, h.found,
        fun a ha => h.items a (hmem a ha), htail,
        fun a ha b hb => h.spread a (hmem a ha) b (hmem b hb), fun m hm => ?_, ?_⟩
      · rcases h.followed m hm with hdone | hnone | hqueued
        · exact .inl hdone
        · cases hnone
        · exact .inr (hleaves _ _ hqueued)
      · rcases h.rooted with hdone | hnone | hqueued
        · exact .inl hdone
        · cases hnone
        · exact .inr (hleaves _ _ hqueued)
    have hall : Inv g root (some (g.classOf item.node)) s' := by
      rw [← hnext]
      refine hpending.examineAll hacyclic ⟨hhead, fun a ha => h.spread item hitem a (hmem a ha)⟩
        (h.items item hitem) (fun e he => (hfiled _ e).mp he) fun e he hnew n hway => ?_
      refine h.head_le hsame hkeys hqueue (fun hdone => hnew ?_) hway
      obtain ⟨hedge, hparent⟩ := (hfiled _ e).mp he
      exact hdone e hedge hparent
    have hdone : Done g s' (g.classOf item.node) := by
      intro e he hparent
      rw [← hnext]
      exact visited_examineAll item _ _ _ (.inr ⟨e, (hfiled _ e).mpr ⟨he, hparent⟩, rfl⟩)
    refine ⟨hall.once, hall.visited, hall.found, hall.items, hall.sorted, hall.spread,
      fun m hm => ?_, ?_⟩
    · rcases hall.followed m hm with hc | hc | hqueued
      · exact .inl hc
      · rw [Option.some.inj hc]
        exact .inl hdone
      · exact .inr (.inr hqueued)
    · rcases hall.rooted with hc | hc | hqueued
      · exact .inl hc
      · rw [Option.some.inj hc]
        exact .inl hdone
      · exact .inr (.inr hqueued)

omit [DecidableEq N] [DecidableEq K] in
theorem inv_start (root : N) : Inv g root none (start root : State N E K) where
  once := once_start root
  visited := nofun
  found := nofun
  items item hitem := by
    rw [List.mem_singleton.mp hitem]
    exact .root
  sorted := List.pairwise_singleton _ _
  spread a ha b hb := by
    rw [List.mem_singleton.mp ha, List.mem_singleton.mp hb]
    exact Nat.le_succ _
  followed := nofun
  rooted := .inr (.inr ⟨_, List.mem_singleton.mpr rfl, rfl, rfl⟩)

/-! ## 6. Searches -/

/-- What is found never repeats a key. -/
theorem once_of_reaches (hfiled : g.Filed) {s : State N E K}
    (h : Relation.ReflTransGen (Loop.Round (round g)) (start root) s) : Once g s := by
  induction h with
  | refl => exact once_start root
  | tail _ hround ih => exact ih.round hfiled hround

/-- What is found is within reach. -/
theorem sound_of_reaches (hfiled : g.Filed) {s : State N E K}
    (h : Relation.ReflTransGen (Loop.Round (round g)) (start root) s) : Sound g root s := by
  induction h with
  | refl => exact sound_start root
  | tail _ hround ih => exact ih.round hfiled hround

/-- **The search is complete**, and what it finds is on shortest ways. -/
theorem complete_of_exits (hacyclic : g.Acyclic) (hfiled : g.Filed)
    (hsame : ∀ e e', same e e' → g.parent e = g.parent e' ∧ g.child e = g.child e')
    (hkeys : g.KeysApart root same) {s : State N E K}
    (h : Loop.Exits (round g) (start root) s) :
    (∀ m ∈ s.found, g.Shortest root m) ∧ ∀ e, g.Reached root e → ∃ m ∈ s.found, same m.edge e := by
  obtain ⟨hreaches, hexit⟩ := h
  have hinv : Inv g root none s := by
    clear hexit
    induction hreaches with
    | refl => exact inv_start root
    | tail _ hround ih => exact ih.round hacyclic hfiled hsame hkeys hround
  have hqueue : s.queue = [] := by
    unfold EdgeSearch.round at hexit
    split at hexit
    · assumption
    · cases hexit
  refine ⟨hinv.found, ?_⟩
  rintro e ⟨he, n, hway⟩
  have hdone : Done g s (g.classOf (g.parent e)) := by
    by_contra hnot
    obtain ⟨item, hitem, -⟩ := hinv.exists_item hsame hkeys hway hnot
    rw [hqueue] at hitem
    cases hitem
  obtain ⟨m, hm, hkey⟩ := hinv.visited _ (hdone e he rfl)
  exact ⟨m, hm, hkeys m.edge e (hinv.found m hm).reached ⟨he, n, hway⟩ hkey⟩

end EdgeSearch
