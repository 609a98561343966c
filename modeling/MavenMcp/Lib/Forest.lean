/-
# Forests

A forest is drawn with its trees from left to right: a node, what is below it, and what stands
beside it.  `walk` visits the nodes in preorder; each visit knows the chain of ancestors, and of
each ancestor and of the node itself whether it is the last child of its parent.  That is all a
drawing of the forest needs, line by line.
-/
import Mathlib.Data.List.Basic

/-- A node, the forest below it and the forest of the siblings after it. -/
inductive Forest (α : Type)
  | nil
  | cons (node : α) (children siblings : Forest α)
deriving DecidableEq, Repr

namespace Forest

variable {α : Type}

def isNil : Forest α → Bool
  | nil => true
  | cons _ _ _ => false

/-- One visit: the ancestors from the root on, and the node; each with the answer to the question
whether it has no later sibling. -/
structure Row (α : Type) where
  above : List (Bool × α)
  last : Bool
  node : α
deriving DecidableEq, Repr

/-- The nodes in preorder, below a chain of ancestors. -/
def walk (above : List (Bool × α)) : Forest α → List (Row α)
  | nil => []
  | cons node children siblings =>
    { above, last := siblings.isNil, node } ::
      (walk (above ++ [(siblings.isNil, node)]) children ++ walk above siblings)

/-- The depth of a node; that of a root is 1. -/
def Row.depth (row : Row α) : Nat := row.above.length + 1

/-- The last tree is a single node. -/
def LastIsLeaf : Forest α → Prop
  | nil => True
  | cons _ children nil => children = nil
  | cons _ _ siblings => LastIsLeaf siblings

/-- Whatever hangs below a node keeps it as an ancestor. -/
theorem above_of_mem_walk {above : List (Bool × α)} {f : Forest α} {row : Row α}
    (h : row ∈ walk above f) : above <+: row.above := by
  induction f generalizing above with
  | nil => cases h
  | cons node children siblings ihc ihs =>
    rw [walk, List.mem_cons, List.mem_append] at h
    rcases h with rfl | h | h
    · exact List.prefix_refl _
    · exact (List.prefix_append _ _).trans (ihc h)
    · exact ihs h

/-- The ancestors of a node are visited, too, or stand above the whole forest. -/
theorem exists_of_mem_above {above : List (Bool × α)} {f : Forest α} {row : Row α}
    (h : row ∈ walk above f) {a : Bool × α} (ha : a ∈ row.above) :
    a ∈ above ∨ ∃ row' ∈ walk above f, row'.node = a.2 := by
  induction f generalizing above with
  | nil => cases h
  | cons node children siblings ihc ihs =>
    rw [walk, List.mem_cons, List.mem_append] at h
    rw [walk]
    rcases h with rfl | h | h
    · exact .inl ha
    · rcases ihc h with hmem | ⟨row', hrow, hnode⟩
      · rcases List.mem_append.mp hmem with hmem | hmem
        · exact .inl hmem
        · rw [List.mem_singleton.mp hmem]
          exact .inr ⟨_, List.mem_cons_self, rfl⟩
      · exact .inr ⟨row', List.mem_cons_of_mem _ (List.mem_append_left _ hrow), hnode⟩
    · rcases ihs h with hmem | ⟨row', hrow, hnode⟩
      · exact .inl hmem
      · exact .inr ⟨row', List.mem_cons_of_mem _ (List.mem_append_right _ hrow), hnode⟩

/-- **The last root is an ancestor exactly when it is no leaf.** -/
theorem lastIsLeaf_iff (f : Forest α) :
    f.LastIsLeaf ↔ ∀ row ∈ walk [] f, row.above.head?.map Prod.fst ≠ some true := by
  have hbelow : ∀ {last : Bool} {node : α} {children : Forest α} {row : Row α},
      row ∈ walk [(last, node)] children → row.above.head?.map Prod.fst = some last := by
    intro last node children row h
    obtain ⟨rest, hrest⟩ := above_of_mem_walk h
    rw [← hrest]
    rfl
  induction f with
  | nil => simp [LastIsLeaf, walk]
  | cons node children siblings _ ihs =>
    cases siblings with
    | nil =>
      cases children with
      | nil => simp [LastIsLeaf, walk]
      | cons child below beside =>
        simp only [LastIsLeaf, reduceCtorEq, false_iff]
        intro h
        have hmem : { above := [(true, node)], last := beside.isNil, node := child } ∈
            walk [] (cons node (cons child below beside) nil) := by
          simp [walk, isNil]
        exact h _ hmem rfl
    | cons sibling below beside =>
      refine Iff.trans Iff.rfl (ihs.trans ⟨?_, ?_⟩)
      · intro h row hrow
        rw [walk, List.mem_cons, List.mem_append] at hrow
        rcases hrow with rfl | hrow | hrow
        · exact nofun
        · rw [hbelow hrow]
          exact nofun
        · exact h row hrow
      · intro h row hrow
        refine h row ?_
        rw [walk, List.mem_cons, List.mem_append]
        exact .inr (.inr hrow)

end Forest
