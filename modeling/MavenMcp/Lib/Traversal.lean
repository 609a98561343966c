/-
# Traversals with a list of visited nodes

A traversal adds nodes to the list of visited ones before it follows their edges.  `Extends r l l'`
is what such a part of a traversal leaves behind: nothing is forgotten, and the edges of a node that
came in lead to visited nodes.  It composes, so that a traversal that started with nothing ends with
a list that is closed under the edges (`Extends.reachable`).
-/
import Mathlib.Logic.Relation
import Mathlib.Data.List.Basic

namespace Traversal

variable {α : Type} {r : α → α → Prop} {l l' l'' : List α} {a b : α}

/-- `l'` is `l` with nodes whose edges lead into `l'`. -/
structure Extends (r : α → α → Prop) (l l' : List α) : Prop where
  subset : l ⊆ l'
  closed : ∀ a ∈ l', a ∉ l → ∀ b, r a b → b ∈ l'

theorem Extends.refl (r : α → α → Prop) (l : List α) : Extends r l l :=
  ⟨List.Subset.refl l, fun _ h hn => absurd h hn⟩

theorem Extends.trans (h : Extends r l l') (h' : Extends r l' l'') : Extends r l l'' where
  subset := List.Subset.trans h.subset h'.subset
  closed a ha hn b hb := by
    by_cases hmem : a ∈ l'
    · exact h'.subset (h.closed a hmem hn b hb)
    · exact h'.closed a ha hmem b hb

/-- A node comes in, and then its edges are followed. -/
theorem Extends.visit (h : Extends r (a :: l) l') (ha : ∀ b, r a b → b ∈ l') : Extends r l l' where
  subset := List.Subset.trans (List.subset_cons_self a l) h.subset
  closed c hc hn b hb := by
    by_cases hca : c = a
    · rw [hca] at hb
      exact ha b hb
    · exact h.closed c hc (fun hmem => (List.mem_cons.mp hmem).elim hca hn) b hb

/-- **A traversal from nothing is complete.** -/
theorem Extends.reachable (h : Extends r [] l) (ha : a ∈ l) (hr : Relation.ReflTransGen r a b) :
    b ∈ l := by
  induction hr with
  | refl => exact ha
  | tail _ hb ih => exact h.closed _ ih List.not_mem_nil _ hb

/-- `n` edges lead from `a` to `b`. -/
inductive Chain (r : α → α → Prop) : Nat → α → α → Prop
  | refl (a : α) : Chain r 0 a a
  | tail {n : Nat} {a b c : α} : Chain r n a b → r b c → Chain r (n + 1) a c

end Traversal
