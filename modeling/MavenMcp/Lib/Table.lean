/-
# Tables with unique keys

`AList` is Mathlib's association list whose keys are distinct.  This file uses it as a hash
table whose VALUES are also walked: filtered, counted, summed and searched for a minimum.
None of these walks depends on the order of the entries, so every fact below is stated
through `lookup` or up to permutation.

* `perm_erase_of_lookup` splits the values of a table at one key, which is what turns an
  update of one entry into an equation between sums (`sumBy_insert_of_lookup`);
* `retain` and `mapVals` are the two updates that touch every entry;
* `pick` lists the parts that a function finds in the values, with one lemma per update;
* `minKey` is the least key-holder of a filtered walk, with the two facts a caller needs:
  the winner passed the filter, and nothing that passed it was missed.
-/
import Mathlib.Data.List.AList
import Mathlib.Data.List.MinMax
import Mathlib.Algebra.BigOperators.Group.List.Basic
import Mathlib.Algebra.GroupWithZero.Nat

/-- A finite table from `κ` to `α` with unique keys. -/
abbrev Table (κ α : Type) := AList (fun _ : κ => α)

namespace AList

variable {κ α β : Type}

/-! ## 1. Reading all values -/

/-- The values of a table, in the order of its entries. -/
def values (t : Table κ α) : List α := t.entries.map Sigma.snd

/-- The sum of a figure over all values. -/
def sumBy (f : α → Nat) (t : Table κ α) : Nat := (t.values.map f).sum

/-- The sum of a figure over all entries. -/
def sumEntries (f : κ → α → Nat) (t : Table κ α) : Nat := (t.entries.map fun e => f e.1 e.2).sum

/-- How many values pass a test. -/
def countBy (p : α → Bool) (t : Table κ α) : Nat := t.values.countP p

theorem countBy_eq_sumBy (p : α → Bool) (t : Table κ α) :
    t.countBy p = t.sumBy (fun v => if p v then 1 else 0) := by
  simp only [countBy, sumBy]
  induction t.values with
  | nil => rfl
  | cons v vs ih =>
    simp only [List.countP_cons, List.map_cons, List.sum_cons, ih]
    omega

variable [DecidableEq κ]

theorem mem_values {t : Table κ α} {v : α} : v ∈ t.values ↔ ∃ k, t.lookup k = some v := by
  simp only [values, List.mem_map]
  constructor
  · rintro ⟨⟨k, w⟩, hm, rfl⟩
    exact ⟨k, mem_lookup_iff.mpr hm⟩
  · rintro ⟨k, hk⟩
    exact ⟨⟨k, v⟩, mem_lookup_iff.mp hk, rfl⟩

/-- Splitting the entries at one key: the entry there, and those of the table without it. -/
theorem perm_entries_of_lookup {t : Table κ α} {k : κ} {v : α} (h : t.lookup k = some v) :
    t.entries.Perm (⟨k, v⟩ :: (t.erase k).entries) := by
  have hk : k ∈ t.entries.keys := lookup_isSome.mp (by rw [h]; rfl)
  obtain ⟨w, l₁, l₂, hn, he, hke⟩ := List.exists_of_kerase hk
  have hw : w = v := by
    have hm : (⟨k, w⟩ : Σ _ : κ, α) ∈ t.entries := by rw [he]; simp
    have := mem_lookup_iff.mpr hm
    rw [Option.mem_def, h] at this
    exact (Option.some.inj this).symm
  subst hw
  have herase : (t.erase k).entries = l₁ ++ l₂ := hke
  rw [herase, he]
  exact List.perm_middle

/-- Splitting the values likewise. -/
theorem perm_erase_of_lookup {t : Table κ α} {k : κ} {v : α} (h : t.lookup k = some v) :
    t.values.Perm (v :: (t.erase k).values) :=
  (perm_entries_of_lookup h).map (Sigma.snd : (Σ _ : κ, α) → α)

/-- The entries with one key: there is at most one. -/
theorem filter_entries (t : Table κ α) (k : κ) :
    (t.entries.filter fun e => e.1 = k) = (t.lookup k).toList.map fun v => ⟨k, v⟩ := by
  cases hlook : t.lookup k with
  | none =>
    refine List.filter_eq_nil_iff.mpr fun e he => ?_
    rw [decide_eq_true_eq]
    rintro rfl
    exact lookup_eq_none.mp hlook (List.mem_keys_of_mem he)
  | some v =>
    have hmem : (⟨k, v⟩ : Σ _ : κ, α) ∈ t.entries := mem_lookup_iff.mp hlook
    obtain ⟨l₁, l₂, hsplit⟩ := List.append_of_mem hmem
    have hkeys := t.nodupKeys
    rw [hsplit, List.NodupKeys, List.keys, List.map_append, List.map_cons, List.nodup_append,
      List.nodup_cons] at hkeys
    obtain ⟨-, ⟨hnot₂, -⟩, hdisj⟩ := hkeys
    have hnil₁ : (l₁.filter fun e => e.1 = k) = [] := by
      refine List.filter_eq_nil_iff.mpr fun e he => ?_
      rw [decide_eq_true_eq]
      exact hdisj _ (List.mem_map_of_mem he) _ List.mem_cons_self
    have hnil₂ : (l₂.filter fun e => e.1 = k) = [] := by
      refine List.filter_eq_nil_iff.mpr fun e he => ?_
      rw [decide_eq_true_eq]
      rintro rfl
      exact hnot₂ (List.mem_map.mpr ⟨e, he, rfl⟩)
    rw [hsplit, List.filter_append, List.filter_cons, if_pos (by simp), hnil₁, hnil₂]
    rfl

theorem perm_insert_values (t : Table κ α) (k : κ) (v : α) :
    (t.insert k v).values.Perm (v :: (t.erase k).values) := by
  rw [values, entries_insert, List.map_cons]
  exact .rfl

/-- Nothing is left of a table that was not in it. -/
theorem sublist_values_erase (t : Table κ α) (k : κ) : (t.erase k).values.Sublist t.values :=
  (List.kerase_sublist k t.entries).map (Sigma.snd : (Σ _ : κ, α) → α)

theorem values_erase_of_none {t : Table κ α} {k : κ} (h : t.lookup k = none) :
    (t.erase k).values = t.values := by
  have hk : k ∉ t.entries.keys := lookup_eq_none.mp h
  have hentries : (t.erase k).entries = t.entries := List.kerase_of_notMem_keys hk
  rw [values, hentries, values]

theorem sumBy_erase_of_lookup {t : Table κ α} {k : κ} {v : α} (f : α → Nat)
    (h : t.lookup k = some v) : t.sumBy f = f v + (t.erase k).sumBy f := by
  simpa [sumBy] using ((perm_erase_of_lookup h).map f).sum_eq

theorem sumBy_insert (t : Table κ α) (k : κ) (v : α) (f : α → Nat) :
    (t.insert k v).sumBy f = f v + (t.erase k).sumBy f := by
  simpa [sumBy] using ((perm_insert_values t k v).map f).sum_eq

/-- Overwriting one entry trades its old figure for the new one. -/
theorem sumBy_insert_of_lookup {t : Table κ α} {k : κ} {v w : α} (f : α → Nat)
    (h : t.lookup k = some v) : (t.insert k w).sumBy f + f v = t.sumBy f + f w := by
  rw [sumBy_insert, sumBy_erase_of_lookup f h]
  omega

theorem sumEntries_of_lookup {t : Table κ α} {k : κ} {v : α} (f : κ → α → Nat)
    (h : t.lookup k = some v) : t.sumEntries f = f k v + (t.erase k).sumEntries f :=
  ((perm_entries_of_lookup h).map fun e : Σ _ : κ, α => f e.1 e.2).sum_eq

/-- A new entry adds its figure. -/
theorem sumEntries_insert_of_none {t : Table κ α} {k : κ} {v : α} (f : κ → α → Nat)
    (h : t.lookup k = none) : (t.insert k v).sumEntries f = t.sumEntries f + f k v := by
  have hk : k ∉ t := lookup_eq_none.mp h
  rw [sumEntries, entries_insert_of_notMem hk, List.map_cons, List.sum_cons, Nat.add_comm]
  rfl

/-- Overwriting one entry trades its old figure for the new one. -/
theorem sumEntries_insert_of_lookup {t : Table κ α} {k : κ} {v w : α} (f : κ → α → Nat)
    (h : t.lookup k = some v) :
    (t.insert k w).sumEntries f + f k v = t.sumEntries f + f k w := by
  have hinsert : (t.insert k w).sumEntries f = f k w + (t.erase k).sumEntries f := by
    rw [sumEntries, entries_insert, List.map_cons, List.sum_cons]
    rfl
  rw [hinsert, sumEntries_of_lookup f h]
  omega

/-! ## 2. Updates -/

/-- Update the value at `k`, when there is one. -/
def modify (k : κ) (f : α → α) (t : Table κ α) : Table κ α :=
  match t.lookup k with
  | some v => t.insert k (f v)
  | none => t

@[simp] theorem lookup_modify (k : κ) (f : α → α) (t : Table κ α) :
    (t.modify k f).lookup k = (t.lookup k).map f := by
  unfold modify
  cases h : t.lookup k with
  | some v => simp
  | none => simp [h]

theorem lookup_modify_ne {k k' : κ} (f : α → α) (t : Table κ α) (h : k' ≠ k) :
    (t.modify k f).lookup k' = t.lookup k' := by
  unfold modify
  cases t.lookup k with
  | some v => exact lookup_insert_ne h
  | none => rfl

omit [DecidableEq κ] in
theorem nodupKeys_mapVals (f : α → β) (t : Table κ α) :
    (t.entries.map fun e => (⟨e.1, f e.2⟩ : Σ _ : κ, β)).NodupKeys := by
  have hk : (t.entries.map fun e => (⟨e.1, f e.2⟩ : Σ _ : κ, β)).keys = t.entries.keys := by
    simp [List.keys, Function.comp_def]
  rw [List.NodupKeys, hk]
  exact t.nodupKeys

theorem lookup_insert_eq_some {t : Table κ α} {k k' : κ} {v w : α} :
    (t.insert k v).lookup k' = some w ↔ (k' = k ∧ w = v) ∨ (k' ≠ k ∧ t.lookup k' = some w) := by
  by_cases h : k' = k
  · subst h
    simp [lookup_insert, eq_comm]
  · simp [lookup_insert_ne h, h]

theorem lookup_erase_eq_some {t : Table κ α} {k k' : κ} {w : α} :
    (t.erase k).lookup k' = some w ↔ k' ≠ k ∧ t.lookup k' = some w := by
  by_cases h : k' = k
  · subst h
    simp
  · simp [lookup_erase_ne h, h]

/-- Apply `f` to every value. -/
def mapVals (f : α → β) (t : Table κ α) : Table κ β :=
  ⟨t.entries.map fun e => ⟨e.1, f e.2⟩, nodupKeys_mapVals f t⟩

@[simp] theorem lookup_mapVals (f : α → β) (t : Table κ α) (k : κ) :
    (t.mapVals f).lookup k = (t.lookup k).map f := by
  apply Option.ext
  intro w
  have h1 := mem_lookup_iff (s := t.mapVals f) (a := k) (b := w)
  simp only [Option.mem_def] at h1
  rw [h1, Option.map_eq_some_iff]
  simp only [mapVals, List.mem_map]
  constructor
  · rintro ⟨⟨k', v⟩, hm, he⟩
    cases he
    exact ⟨v, mem_lookup_iff.mpr hm, rfl⟩
  · rintro ⟨v, hv, rfl⟩
    exact ⟨⟨k, v⟩, mem_lookup_iff.mp hv, rfl⟩

/-- Keep the entries whose value passes the test. -/
def retain (p : α → Bool) (t : Table κ α) : Table κ α :=
  ⟨t.entries.filter fun e => p e.2, t.nodupKeys.sublist List.filter_sublist⟩

@[simp] theorem lookup_retain (p : α → Bool) (t : Table κ α) (k : κ) :
    (t.retain p).lookup k = (t.lookup k).filter p := by
  apply Option.ext
  intro v
  have h1 := mem_lookup_iff (s := t.retain p) (a := k) (b := v)
  have h2 := mem_lookup_iff (s := t) (a := k) (b := v)
  simp only [Option.mem_def] at h1 h2
  rw [h1, Option.filter_eq_some_iff, h2]
  simp [retain]

omit [DecidableEq κ] in
@[simp] theorem values_mapVals (f : α → β) (t : Table κ α) :
    (t.mapVals f).values = t.values.map f := by
  simp [values, mapVals]

omit [DecidableEq κ] in
@[simp] theorem values_retain (p : α → Bool) (t : Table κ α) :
    (t.retain p).values = t.values.filter p := by
  simp only [values, retain, List.filter_map]
  rfl

/-! ## 3. What the values carry

`pick g t` collects the parts that `g` finds in the values: a ledger of the table. -/

/-- The parts of the values, in the order of the entries. -/
def pick (g : α → Option β) (t : Table κ α) : List β := t.values.filterMap g

theorem perm_pick_of_lookup {t : Table κ α} {k : κ} {v : α} (g : α → Option β)
    (h : t.lookup k = some v) : (t.pick g).Perm ((g v).toList ++ (t.erase k).pick g) := by
  have hp := (perm_erase_of_lookup h).filterMap g
  rw [List.filterMap_cons] at hp
  cases hg : g v with
  | none => simpa [pick, hg] using hp
  | some w => simpa [pick, hg] using hp

theorem perm_pick_insert (t : Table κ α) (k : κ) (v : α) (g : α → Option β) :
    ((t.insert k v).pick g).Perm ((g v).toList ++ (t.erase k).pick g) := by
  have hp := (perm_insert_values t k v).filterMap g
  rw [List.filterMap_cons] at hp
  cases hg : g v with
  | none => simpa [pick, hg] using hp
  | some w => simpa [pick, hg] using hp

theorem pick_erase_of_none {t : Table κ α} {k : κ} (g : α → Option β) (h : t.lookup k = none) :
    (t.erase k).pick g = t.pick g := by
  rw [pick, pick, values_erase_of_none h]

/-- An update that keeps the part of one value keeps the ledger. -/
theorem perm_pick_modify {t : Table κ α} {k : κ} {f : α → α} {g : α → Option β}
    (h : ∀ v, t.lookup k = some v → g (f v) = g v) : ((t.modify k f).pick g).Perm (t.pick g) := by
  unfold modify
  cases hk : t.lookup k with
  | none => exact .refl _
  | some v =>
    refine (perm_pick_insert t k (f v) g).trans ?_
    rw [h v hk]
    exact (perm_pick_of_lookup g hk).symm

omit [DecidableEq κ] in
theorem pick_mapVals {f : α → α} {g : α → Option β} (t : Table κ α) (h : ∀ v, g (f v) = g v) :
    (t.mapVals f).pick g = t.pick g := by
  rw [pick, values_mapVals, List.filterMap_map, pick]
  congr 1
  funext v
  exact h v

omit [DecidableEq κ] in
/-- Dropping values without a part keeps the ledger. -/
theorem pick_retain {p : α → Bool} {g : α → Option β} (t : Table κ α)
    (h : ∀ v, p v = false → g v = none) : (t.retain p).pick g = t.pick g := by
  rw [pick, values_retain, pick]
  induction t.values with
  | nil => rfl
  | cons v vs ih =>
    cases hp : p v with
    | true => rw [List.filter_cons_of_pos hp, List.filterMap_cons, List.filterMap_cons, ih]
    | false =>
      rw [List.filter_cons_of_neg (by simp [hp]), List.filterMap_cons, h v hp, ih]

/-! ## 4. Counting entries -/

/-- The keys whose value passes a test, without repetition. -/
def keysBy (p : α → Bool) (t : Table κ α) : List κ :=
  (t.entries.filter fun e => p e.2).map Sigma.fst

omit [DecidableEq κ] in
theorem length_keysBy (p : α → Bool) (t : Table κ α) : (t.keysBy p).length = t.countBy p := by
  simp only [keysBy, countBy, values, List.length_map, List.countP_map]
  exact (List.countP_eq_length_filter).symm

omit [DecidableEq κ] in
theorem nodup_keysBy (p : α → Bool) (t : Table κ α) : (t.keysBy p).Nodup := by
  have hn : t.entries.keys.Nodup := t.nodupKeys
  exact hn.sublist (List.filter_sublist.map Sigma.fst)

theorem mem_keysBy {p : α → Bool} {t : Table κ α} {k : κ} :
    k ∈ t.keysBy p ↔ ∃ v, t.lookup k = some v ∧ p v = true := by
  simp only [keysBy, List.mem_map, List.mem_filter]
  constructor
  · rintro ⟨⟨k', v⟩, ⟨hm, hp⟩, rfl⟩
    exact ⟨v, mem_lookup_iff.mpr hm, hp⟩
  · rintro ⟨v, hv, hp⟩
    exact ⟨⟨k, v⟩, ⟨mem_lookup_iff.mp hv, hp⟩, rfl⟩

/-- A table whose passing entries are entries that passed before counts no more of them. -/
theorem countBy_le {p : α → Bool} {t t' : Table κ α}
    (h : ∀ k v', t'.lookup k = some v' → p v' = true → ∃ v, t.lookup k = some v ∧ p v = true) :
    t'.countBy p ≤ t.countBy p := by
  rw [← length_keysBy, ← length_keysBy]
  refine (List.subperm_of_subset (nodup_keysBy p t') fun k hk => ?_).length_le
  obtain ⟨v', hv', hp⟩ := mem_keysBy.mp hk
  exact mem_keysBy.mpr (h k v' hv' hp)

/-- When only one key passes, the count is at most one. -/
theorem countBy_le_one {p : α → Bool} {t : Table κ α} (k₀ : κ)
    (h : ∀ k v, t.lookup k = some v → p v = true → k = k₀) : t.countBy p ≤ 1 := by
  rw [← length_keysBy]
  have hs : t.keysBy p ⊆ [k₀] := by
    intro k hk
    obtain ⟨v, hv, hp⟩ := mem_keysBy.mp hk
    rw [h k v hv hp]
    exact List.mem_singleton_self k₀
  exact (List.subperm_of_subset (nodup_keysBy p t) hs).length_le

/-! ## 5. The least value that passes a test -/

/-- The key of a value with the least rank among those that pass the test. -/
def minKey (p : κ → α → Bool) (rank : α → Nat) (t : Table κ α) : Option κ :=
  ((t.entries.filter fun e => p e.1 e.2).argmin fun e => rank e.2).map Sigma.fst

theorem lookup_of_minKey {p : κ → α → Bool} {rank : α → Nat} {t : Table κ α} {k : κ}
    (h : t.minKey p rank = some k) : ∃ v, t.lookup k = some v ∧ p k v = true := by
  simp only [minKey, Option.map_eq_some_iff] at h
  obtain ⟨⟨k', v⟩, ha, rfl⟩ := h
  have hm := List.argmin_mem ha
  rw [List.mem_filter] at hm
  exact ⟨v, mem_lookup_iff.mpr hm.1, hm.2⟩

theorem minKey_eq_none {p : κ → α → Bool} {rank : α → Nat} {t : Table κ α} :
    t.minKey p rank = none ↔ ∀ k v, t.lookup k = some v → p k v = false := by
  simp only [minKey, Option.map_eq_none_iff, List.argmin_eq_none, List.filter_eq_nil_iff]
  constructor
  · intro h k v hk
    simpa using h ⟨k, v⟩ (mem_lookup_iff.mp hk)
  · rintro h ⟨k, v⟩ hm
    simp [h k v (mem_lookup_iff.mpr hm)]

end AList
