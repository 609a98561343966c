/-
# Maps in the order of their keys

A map is the list of its entries in strict order of the keys, and the order is a field of the map.
`lookup_insert` and `mem_entries_iff` are all that a proof needs to know of a tree map;
`perm_values_insert` is for maps that number their keys.
-/
import Mathlib.Data.List.Basic
import Mathlib.Data.List.Nodup
import Mathlib.Data.List.Perm.Basic

structure OrderedMap (κ α : Type) (cmp : κ → κ → Ordering) where
  entries : List (κ × α)
  sorted : (entries.map Prod.fst).Pairwise fun a b => cmp a b = .lt

namespace OrderedMap

variable {κ α : Type} {cmp : κ → κ → Ordering}

/-! ## 1. Entries -/

def empty : OrderedMap κ α cmp := ⟨[], .nil⟩

def keys (m : OrderedMap κ α cmp) : List κ := m.entries.map Prod.fst

def values (m : OrderedMap κ α cmp) : List α := m.entries.map Prod.snd

def size (m : OrderedMap κ α cmp) : Nat := m.entries.length

/-- The value of a key among entries. -/
def valueIn (cmp : κ → κ → Ordering) (k : κ) : List (κ × α) → Option α
  | [] => none
  | e :: rest => if cmp k e.1 = .eq then some e.2 else valueIn cmp k rest

def lookup (m : OrderedMap κ α cmp) (k : κ) : Option α := valueIn cmp k m.entries

/-- The entries with another one in its place. -/
def place (cmp : κ → κ → Ordering) (k : κ) (v : α) : List (κ × α) → List (κ × α)
  | [] => [(k, v)]
  | e :: rest =>
    match cmp k e.1 with
    | .lt => (k, v) :: e :: rest
    | .eq => (k, v) :: rest
    | .gt => e :: place cmp k v rest

@[simp] theorem lookup_empty (k : κ) : (empty : OrderedMap κ α cmp).lookup k = none := rfl

theorem mem_place {k : κ} {v : α} {e : κ × α} :
    ∀ {l : List (κ × α)}, e ∈ place cmp k v l → e = (k, v) ∨ e ∈ l
  | [], h => .inl (List.mem_singleton.mp h)
  | e' :: rest, h => by
    rw [place] at h
    split at h
    · exact (List.mem_cons.mp h).imp_right id
    · exact (List.mem_cons.mp h).imp_right (List.mem_cons_of_mem _)
    · rcases List.mem_cons.mp h with rfl | h
      · exact .inr List.mem_cons_self
      · exact (mem_place h).imp_right (List.mem_cons_of_mem _)

theorem perm_place_of_none {k : κ} {v : α} : ∀ {l : List (κ × α)},
    valueIn cmp k l = none → (place cmp k v l).Perm ((k, v) :: l)
  | [], _ => .refl _
  | e :: rest, h => by
    rw [valueIn] at h
    split at h
    · cases h
    · rename_i hne
      rw [place]
      split
      · exact .refl _
      · exact absurd ‹_› hne
      · exact ((perm_place_of_none h).cons e).trans (.swap _ _ _)

/-! ## 2. Lookups -/

section

variable [Std.LawfulEqCmp cmp]

theorem ne_of_lt {a b : κ} (h : cmp a b = .lt) : a ≠ b := by
  rintro rfl
  have heq : cmp a a = .eq := Std.ReflCmp.compare_self
  rw [heq] at h
  cases h

theorem valueIn_cons [DecidableEq κ] (k : κ) (e : κ × α) (rest : List (κ × α)) :
    valueIn cmp k (e :: rest) = if k = e.1 then some e.2 else valueIn cmp k rest := by
  rw [valueIn]
  by_cases hk : k = e.1
  · rw [if_pos hk, if_pos (hk ▸ Std.ReflCmp.compare_self)]
  · rw [if_neg hk, if_neg fun heq => hk (Std.LawfulEqCmp.eq_of_compare heq)]

theorem valueIn_eq_some_iff {k : κ} {v : α} : ∀ {l : List (κ × α)},
    (l.map Prod.fst).Pairwise (fun a b => cmp a b = .lt) →
      (valueIn cmp k l = some v ↔ (k, v) ∈ l)
  | [], _ => by simp [valueIn]
  | e :: rest, h => by
    obtain ⟨hhead, hrest⟩ := List.pairwise_cons.mp h
    rw [valueIn]
    split
    · rename_i heq
      obtain rfl : k = e.1 := Std.LawfulEqCmp.eq_of_compare heq
      have hnot : (e.1, v) ∉ rest := fun hmem =>
        ne_of_lt (hhead _ (List.mem_map_of_mem hmem)) rfl
      constructor
      · rintro ⟨⟩
        exact List.mem_cons_self
      · intro hmem
        have heq : (e.1, v) = e := (List.mem_cons.mp hmem).resolve_right hnot
        exact congrArg some (congrArg Prod.snd heq).symm
    · rename_i hne
      rw [valueIn_eq_some_iff hrest, List.mem_cons]
      refine ⟨.inr, fun hmem => hmem.resolve_left ?_⟩
      rintro rfl
      exact hne Std.ReflCmp.compare_self

theorem mem_entries_iff {m : OrderedMap κ α cmp} {k : κ} {v : α} :
    (k, v) ∈ m.entries ↔ m.lookup k = some v := (valueIn_eq_some_iff m.sorted).symm

theorem mem_keys_iff {m : OrderedMap κ α cmp} {k : κ} :
    k ∈ m.keys ↔ ∃ v, m.lookup k = some v := by
  constructor
  · intro h
    obtain ⟨e, he, rfl⟩ := List.mem_map.mp h
    exact ⟨e.2, mem_entries_iff.mp he⟩
  · rintro ⟨v, hv⟩
    exact List.mem_map_of_mem (f := Prod.fst) (mem_entries_iff.mpr hv)

theorem nodup_keys (m : OrderedMap κ α cmp) : m.keys.Nodup := m.sorted.imp ne_of_lt

/-- Where no value occurs twice, a value has one key. -/
theorem key_of_value {m : OrderedMap κ α cmp} (h : m.values.Nodup) {k k' : κ} {v : α}
    (hk : m.lookup k = some v) (hk' : m.lookup k' = some v) : k = k' :=
  congrArg Prod.fst (List.inj_on_of_nodup_map h (mem_entries_iff.mpr hk) (mem_entries_iff.mpr hk')
    rfl)

end

/-! ## 3. Insertion -/

section

variable [Std.TransCmp cmp] [Std.LawfulEqCmp cmp]

theorem sorted_place (k : κ) (v : α) : ∀ {l : List (κ × α)},
    (l.map Prod.fst).Pairwise (fun a b => cmp a b = .lt) →
      ((place cmp k v l).map Prod.fst).Pairwise fun a b => cmp a b = .lt
  | [], _ => List.pairwise_singleton _ _
  | e :: rest, h => by
    have hhead := (List.pairwise_cons.mp h).1
    rw [place]
    split
    · rename_i hlt
      refine List.pairwise_cons.mpr ⟨fun b hb => ?_, h⟩
      rcases List.mem_cons.mp hb with rfl | hb
      · exact hlt
      · exact Std.TransCmp.lt_trans hlt (hhead b hb)
    · rename_i heq
      obtain rfl : k = e.1 := Std.LawfulEqCmp.eq_of_compare heq
      exact h
    · rename_i hgt
      refine List.pairwise_cons.mpr ⟨fun b hb => ?_, sorted_place k v (List.pairwise_cons.mp h).2⟩
      obtain ⟨e', he', rfl⟩ := List.mem_map.mp hb
      rcases mem_place he' with rfl | he'
      · exact Std.OrientedCmp.lt_of_gt hgt
      · exact hhead _ (List.mem_map_of_mem he')

/-- `BTreeMap::insert`. -/
def insert (m : OrderedMap κ α cmp) (k : κ) (v : α) : OrderedMap κ α cmp :=
  ⟨place cmp k v m.entries, sorted_place k v m.sorted⟩

theorem valueIn_place [DecidableEq κ] (k k' : κ) (v : α) : ∀ l : List (κ × α),
    valueIn cmp k' (place cmp k v l) = if k' = k then some v else valueIn cmp k' l
  | [] => by rw [place, valueIn_cons]
  | e :: rest => by
    rw [place]
    split
    · rw [valueIn_cons]
    · rename_i heq
      obtain rfl : k = e.1 := Std.LawfulEqCmp.eq_of_compare heq
      rw [valueIn_cons, valueIn_cons]
      split
      · rfl
      · rfl
    · rename_i hgt
      rw [valueIn_cons, valueIn_cons, valueIn_place k k' v rest]
      by_cases hk : k' = k
      · obtain rfl := hk
        rw [if_pos rfl, if_pos rfl, if_neg (ne_of_lt (Std.OrientedCmp.lt_of_gt hgt)).symm]
      · rw [if_neg hk, if_neg hk]

theorem lookup_insert [DecidableEq κ] (m : OrderedMap κ α cmp) (k k' : κ) (v : α) :
    (m.insert k v).lookup k' = if k' = k then some v else m.lookup k' :=
  valueIn_place k k' v m.entries

/-- A new key adds its value. -/
theorem perm_values_insert {m : OrderedMap κ α cmp} {k : κ} (v : α) (h : m.lookup k = none) :
    (m.insert k v).values.Perm (v :: m.values) := (perm_place_of_none h).map Prod.snd

theorem size_insert {m : OrderedMap κ α cmp} {k : κ} (v : α) (h : m.lookup k = none) :
    (m.insert k v).size = m.size + 1 := (perm_place_of_none h).length_eq

end

end OrderedMap
