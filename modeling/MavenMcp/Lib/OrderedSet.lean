/-
# Sets in the order of their elements, and what leads from one to another

A set is a map without values, so its elements are in strict order without a proof of their own.

A patch takes elements out of one set and puts others in, so that another set is left.  A patch
that takes out only what was there and puts in only what was not, in the order of the elements, is
the pair of the two differences (`isPatch_iff`): there is one for every two sets.
-/
import MavenMcp.Lib.OrderedMap
import Mathlib.Data.Set.Basic

/-- `BTreeSet`. -/
abbrev OrderedSet (κ : Type) (cmp : κ → κ → Ordering) := OrderedMap κ Unit cmp

namespace OrderedSet

variable {κ : Type} {cmp : κ → κ → Ordering}

/-! ## 1. Elements -/

def elements (s : OrderedSet κ cmp) : List κ := s.keys

def carrier (s : OrderedSet κ cmp) : Set κ := {a | a ∈ s.elements}

def Ascending (cmp : κ → κ → Ordering) (l : List κ) : Prop := l.Pairwise fun a b => cmp a b = .lt

theorem ascending_elements (s : OrderedSet κ cmp) : Ascending cmp s.elements := s.sorted

@[simp] theorem mem_carrier {s : OrderedSet κ cmp} {a : κ} : a ∈ s.carrier ↔ a ∈ s.elements := .rfl

/-- `iter().filter(..)`. -/
def filter (p : κ → Bool) (s : OrderedSet κ cmp) : OrderedSet κ cmp where
  entries := s.entries.filter fun e => p e.1
  sorted := s.sorted.sublist (List.filter_sublist.map Prod.fst)

theorem elements_filter (p : κ → Bool) (s : OrderedSet κ cmp) :
    elements (filter p s) = (elements s).filter p := by
  rw [elements, elements, OrderedMap.keys, OrderedMap.keys, List.filter_map]
  rfl

/-- `s.difference(&t)`. -/
def difference [DecidableEq κ] (s t : OrderedSet κ cmp) : OrderedSet κ cmp :=
  filter (fun a => decide (a ∉ elements t)) s

theorem mem_difference [DecidableEq κ] {s t : OrderedSet κ cmp} {a : κ} :
    a ∈ elements (difference s t) ↔ a ∈ elements s ∧ a ∉ elements t := by
  simp [difference, elements_filter]

/-! ## 2. Patches -/

/-- Taking `removed` out of `s` and putting `added` in leaves `t`, and nothing is done in vain. -/
structure IsPatch (cmp : κ → κ → Ordering) (s t : Set κ) (removed added : List κ) : Prop where
  removed_ascending : Ascending cmp removed
  added_ascending : Ascending cmp added
  removed_mem : ∀ a ∈ removed, a ∈ s
  added_notMem : ∀ a ∈ added, a ∉ s
  result : ∀ a, a ∈ t ↔ (a ∈ s ∧ a ∉ removed) ∨ a ∈ added

theorem isPatch_difference [DecidableEq κ] (s t : OrderedSet κ cmp) :
    IsPatch cmp (carrier s) (carrier t) (elements (difference s t))
      (elements (difference t s)) where
  removed_ascending := ascending_elements _
  added_ascending := ascending_elements _
  removed_mem _ ha := (mem_difference.mp ha).1
  added_notMem _ ha := (mem_difference.mp ha).2
  result a := by
    simp only [mem_difference, mem_carrier]
    tauto

theorem IsPatch.mem_removed {s t : Set κ} {removed added : List κ}
    (h : IsPatch cmp s t removed added) (a : κ) : a ∈ removed ↔ a ∈ s ∧ a ∉ t := by
  have hadded := h.added_notMem a
  have hremoved := h.removed_mem a
  rw [h.result a]
  tauto

theorem IsPatch.mem_added {s t : Set κ} {removed added : List κ}
    (h : IsPatch cmp s t removed added) (a : κ) : a ∈ added ↔ a ∈ t ∧ a ∉ s := by
  have hadded := h.added_notMem a
  rw [h.result a]
  tauto

/-- A patch that does nothing leaves what was there. -/
theorem IsPatch.nil_iff {s t : Set κ} : IsPatch cmp s t [] [] ↔ s = t := by
  constructor
  · intro h
    ext a
    simp [h.result a]
  · rintro rfl
    exact ⟨.nil, .nil, by simp, by simp, by simp⟩

/-- A patch can be taken back. -/
theorem IsPatch.reverse {s t : Set κ} {removed added : List κ}
    (h : IsPatch cmp s t removed added) : IsPatch cmp t s added removed where
  removed_ascending := h.added_ascending
  added_ascending := h.removed_ascending
  removed_mem a ha := ((h.mem_added a).mp ha).1
  added_notMem a ha := ((h.mem_removed a).mp ha).2
  result a := by
    rw [h.mem_added, h.mem_removed]
    tauto

/-! ## 3. The order of the elements -/

section

variable [Std.TransCmp cmp] [Std.LawfulEqCmp cmp]

/-- The elements of a strictly ascending list determine it. -/
theorem Ascending.eq_of_mem_iff {l l' : List κ} (h : Ascending cmp l) (h' : Ascending cmp l')
    (hmem : ∀ a, a ∈ l ↔ a ∈ l') : l = l' := by
  have hnodup {l : List κ} (h : Ascending cmp l) : l.Nodup := h.imp OrderedMap.ne_of_lt
  have hperm : l.Perm l' := (List.perm_ext_iff_of_nodup (hnodup h) (hnodup h')).mpr hmem
  refine hperm.eq_of_pairwise (fun a b _ _ hab hba => ?_) h h'
  exact absurd rfl (OrderedMap.ne_of_lt (Std.TransCmp.lt_trans hab hba))

/-- `collect::<BTreeSet<_>>()`. -/
def ofList (l : List κ) : OrderedSet κ cmp := l.foldl (fun s a => s.insert a ()) .empty

theorem mem_insert [DecidableEq κ] {s : OrderedSet κ cmp} {a b : κ} :
    b ∈ elements (s.insert a ()) ↔ b = a ∨ b ∈ elements s := by
  rw [elements, OrderedMap.mem_keys_iff, elements, OrderedMap.mem_keys_iff]
  simp only [OrderedMap.lookup_insert]
  by_cases h : b = a <;> simp [h]

theorem mem_ofList [DecidableEq κ] {l : List κ} {a : κ} :
    a ∈ elements (ofList l : OrderedSet κ cmp) ↔ a ∈ l := by
  have key : ∀ (l : List κ) (s : OrderedSet κ cmp),
      a ∈ elements (l.foldl (fun s a => s.insert a ()) s) ↔ a ∈ l ∨ a ∈ elements s := by
    intro l
    induction l with
    | nil => simp
    | cons b l ih =>
      intro s
      rw [List.foldl_cons, ih, mem_insert, List.mem_cons]
      tauto
  rw [ofList, key]
  simp [elements, OrderedMap.keys, OrderedMap.empty]

/-- There is one patch between two sets. -/
theorem IsPatch.unique {s t : Set κ} {removed added removed' added' : List κ}
    (h : IsPatch cmp s t removed added) (h' : IsPatch cmp s t removed' added') :
    removed = removed' ∧ added = added' :=
  ⟨h.removed_ascending.eq_of_mem_iff h'.removed_ascending fun a => by
      rw [h.mem_removed, h'.mem_removed],
    h.added_ascending.eq_of_mem_iff h'.added_ascending fun a => by rw [h.mem_added, h'.mem_added]⟩

theorem isPatch_iff [DecidableEq κ] {s t : OrderedSet κ cmp} {removed added : List κ} :
    IsPatch cmp (carrier s) (carrier t) removed added ↔
      removed = elements (difference s t) ∧ added = elements (difference t s) := by
  constructor
  · exact fun h => h.unique (isPatch_difference s t)
  · rintro ⟨rfl, rfl⟩
    exact isPatch_difference s t

end

end OrderedSet
