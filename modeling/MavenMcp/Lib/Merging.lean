/-
# Merging by key

Items that have a key are merged into one survivor for each key, in the order in which they come;
items without a key all survive.  `Merged` says this of the survivors, whatever the data structure
that finds the one with a key; one lemma for each thing a program does with an item.

`perm_survivors_iff`: the survivors do not depend on the order of the items exactly when no group
depends on its own.
-/
import Mathlib.Data.List.Perm.Subperm
import Mathlib.Data.List.Basic

namespace Merging

variable {α κ : Type}

/-! ## 1. Groups -/

/-- The first element, with the others merged into it. -/
def fold1 (merge : α → α → α) : List α → Option α
  | [] => none
  | a :: l => some (l.foldl merge a)

theorem fold1_concat (merge : α → α → α) (l : List α) (a : α) :
    fold1 merge (l ++ [a]) = some (((fold1 merge l).map fun b => merge b a).getD a) := by
  cases l with
  | nil => rfl
  | cons b l =>
    rw [List.cons_append, fold1, fold1, List.foldl_append]
    rfl

theorem fold1_eq_none {merge : α → α → α} {l : List α} : fold1 merge l = none ↔ l = [] := by
  cases l with
  | nil => exact iff_of_true rfl rfl
  | cons a l => exact iff_of_false nofun nofun

/-- What survives of a group: all that have no key, and one that has all others of its key merged
into it. -/
def collapse (merge : α → α → α) : Option κ → List α → List α
  | none, l => l
  | some _, l => (fold1 merge l).toList

theorem eq_of_length_le_one {l : List α} (h : l.length ≤ 1) {a b : α} (ha : a ∈ l) (hb : b ∈ l) :
    a = b := by
  match l, h with
  | [c], _ => rw [List.mem_singleton.mp ha, List.mem_singleton.mp hb]

theorem eq_of_toList_perm {x y : Option α} (h : x.toList.Perm y.toList) : x = y := by
  cases y with
  | none => exact Option.toList_eq_nil_iff.mp (List.perm_nil.mp h)
  | some a => exact Option.toList_eq_singleton_iff.mp (List.perm_singleton.mp h)

variable [DecidableEq κ]

/-- The items with this key. -/
def group (key : α → κ) (items : List α) (k : κ) : List α := items.filter fun a => key a = k

section

variable {key : α → κ} {items items' : List α} {a : α} {k : κ}

theorem mem_group : a ∈ group key items k ↔ a ∈ items ∧ key a = k := by
  rw [group, List.mem_filter, decide_eq_true_eq]

theorem group_append (items items' : List α) (k : κ) :
    group key (items ++ items') k = group key items k ++ group key items' k :=
  List.filter_append ..

theorem group_singleton_self (h : key a = k) : group key [a] k = [a] := by
  rw [group, List.filter_singleton, decide_eq_true h]
  rfl

theorem group_singleton_of_ne (h : key a ≠ k) : group key [a] k = [] := by
  rw [group, List.filter_singleton, decide_eq_false h]
  rfl

theorem group_eq_nil (h : ∀ a ∈ items, key a ≠ k) : group key items k = [] :=
  List.filter_eq_nil_iff.mpr fun a ha => by simpa using h a ha

theorem group_perm (h : items.Perm items') (k : κ) :
    (group key items k).Perm (group key items' k) :=
  h.filter _

/-- What is left when one group is taken out. -/
def others (key : α → κ) (items : List α) (k : κ) : List α :=
  items.filter fun a => !decide (key a = k)

theorem perm_group_others (items : List α) (k : κ) :
    (group key items k ++ others key items k).Perm items :=
  List.filter_append_perm (fun a => decide (key a = k)) items

theorem group_others_self (items : List α) (k : κ) : group key (others key items k) k = [] :=
  group_eq_nil fun a ha => by simpa [others] using (List.mem_filter.mp ha).2

theorem group_others_of_ne {j : κ} (h : j ≠ k) (items : List α) :
    group key (others key items k) j = group key items j := by
  rw [group, others, List.filter_filter]
  refine List.filter_congr fun a _ => ?_
  by_cases hj : key a = j
  · simp [hj, h]
  · simp [hj]

theorem count_map_key [BEq κ] [LawfulBEq κ] (items : List α) (k : κ) :
    (items.map key).count k = (group key items k).length := by
  rw [List.count, List.countP_map, List.countP_eq_length_filter, group]
  congr 1
  refine List.filter_congr fun a _ => ?_
  rw [Bool.eq_iff_iff, Function.comp_apply, beq_iff_eq, decide_eq_true_eq]

/-- Lists whose groups agree agree. -/
theorem perm_of_groups (key : α → κ) (h : ∀ k, (group key items k).Perm (group key items' k)) :
    items.Perm items' := by
  classical
  rw [List.perm_iff_count]
  intro a
  have hcount := (h (key a)).count_eq a
  rwa [group, group, List.count_filter (by simp), List.count_filter (by simp)] at hcount

end

/-! ## 2. Survivors -/

/-- The survivors that are kept under this key. -/
def kept (entries : List (Option κ × α)) (k : Option κ) : List α :=
  (group Prod.fst entries k).map Prod.snd

section

variable {entries : List (Option κ × α)} {j k : Option κ} {a : α}

theorem kept_append (entries entries' : List (Option κ × α)) (k : Option κ) :
    kept (entries ++ entries') k = kept entries k ++ kept entries' k := by
  rw [kept, group_append, List.map_append]
  rfl

theorem kept_singleton_self (k : Option κ) (a : α) : kept [(k, a)] k = [a] := by
  have hgroup : group Prod.fst [(k, a)] k = [(k, a)] := group_singleton_self rfl
  rw [kept, hgroup]
  rfl

theorem kept_singleton_of_ne (h : j ≠ k) : kept [(j, a)] k = [] := by
  have hgroup : group Prod.fst [(j, a)] k = [] := group_singleton_of_ne h
  rw [kept, hgroup]
  rfl

theorem kept_cons (entries : List (Option κ × α)) (e : Option κ × α) (k : Option κ) :
    kept (e :: entries) k = kept [e] k ++ kept entries k :=
  kept_append [e] entries k

/-- The survivors by their keys, and the keys with their survivors. -/
theorem group_eq_kept (entries : List (Option κ × α)) (k : Option κ) :
    group Prod.fst entries k = (kept entries k).map fun a => (k, a) := by
  have hid : ∀ e ∈ group Prod.fst entries k, ((fun a => (k, a)) ∘ Prod.snd) e = id e := by
    intro e he
    obtain ⟨-, rfl⟩ := mem_group.mp he
    rfl
  rw [kept, List.map_map, List.map_congr_left hid, List.map_id]

end

variable {key : α → Option κ} {merge : α → α → α}

/-- The entries are the survivors of the items, each with the key that it is kept under. -/
def Merged (key : α → Option κ) (merge : α → α → α) (items : List α)
    (entries : List (Option κ × α)) : Prop :=
  ∀ k, kept entries k = collapse merge k (group key items k)

theorem merged_nil : Merged key merge [] ([] : List (Option κ × α)) := by
  intro k
  cases k <;> rfl

variable {items : List α} {entries : List (Option κ × α)} {a b : α} {k : κ}

/-- An item without a key survives as it is. -/
theorem Merged.push_none (h : Merged key merge items entries) (ha : key a = none) :
    Merged key merge (items ++ [a]) (entries ++ [(none, a)]) := by
  intro j
  rw [kept_append, group_append, h j]
  by_cases hj : none = j
  · subst hj
    rw [group_singleton_self ha, kept_singleton_self]
    rfl
  · rw [group_singleton_of_ne (ha.trans_ne hj), kept_singleton_of_ne hj, List.append_nil,
      List.append_nil]

/-- The first item of its key survives for now. -/
theorem Merged.push_new (h : Merged key merge items entries) (ha : key a = some k)
    (hnew : ∀ e ∈ entries, e.1 ≠ some k) :
    Merged key merge (items ++ [a]) (entries ++ [(some k, a)]) := by
  intro j
  rw [kept_append, group_append, h j]
  by_cases hj : some k = j
  · subst hj
    have hgroup : group key items (some k) = [] := by
      have hnone := h (some k)
      rw [kept, group_eq_nil hnew] at hnone
      have hfold : fold1 merge (group key items (some k)) = none :=
        Option.toList_eq_nil_iff.mp hnone.symm
      exact fold1_eq_none.mp hfold
    rw [hgroup, group_singleton_self ha, kept_singleton_self]
    rfl
  · rw [group_singleton_of_ne (ha.trans_ne hj), kept_singleton_of_ne hj, List.append_nil,
      List.append_nil]

/-- An item is merged into the survivor of its key. -/
theorem Merged.merge_into {before after : List (Option κ × α)}
    (h : Merged key merge items (before ++ (some k, b) :: after)) (ha : key a = some k) :
    Merged key merge (items ++ [a]) (before ++ (some k, merge b a) :: after) := by
  intro j
  have hj := h j
  rw [kept_append, kept_cons] at hj ⊢
  rw [group_append]
  by_cases hkey : some k = j
  · subst hkey
    rw [kept_singleton_self] at hj ⊢
    rw [group_singleton_self ha, collapse, fold1_concat]
    -- There is one survivor for the key, so it is this one.
    cases hfold : fold1 merge (group key items (some k)) with
    | none =>
      rw [collapse, hfold] at hj
      cases (List.append_eq_nil_iff.mp hj).2
    | some c =>
      rw [collapse, hfold] at hj
      obtain ⟨hbefore, hrest⟩ | ⟨-, hrest⟩ := List.append_eq_singleton_iff.mp hj
      · rw [List.singleton_append] at hrest
        obtain ⟨rfl, hafter⟩ := List.cons.inj hrest
        rw [hbefore, hafter]
        rfl
      · cases hrest
  · rw [kept_singleton_of_ne hkey] at hj ⊢
    rw [group_singleton_of_ne (ha.trans_ne hkey), List.append_nil]
    exact hj

/-- One survivor for each key. -/
theorem Merged.length_le (h : Merged key merge items entries) (k : κ) :
    (kept entries (some k)).length ≤ 1 := by
  rw [h (some k), collapse]
  cases fold1 merge (group key items (some k)) with
  | none => exact Nat.zero_le 1
  | some b => exact Nat.le_refl 1

/-- The entry of a key is the survivor of its group. -/
theorem Merged.mem_iff (h : Merged key merge items entries) :
    (some k, a) ∈ entries ↔ fold1 merge (group key items (some k)) = some a := by
  have hgroup : (some k, a) ∈ entries ↔ (some k, a) ∈ group Prod.fst entries (some k) :=
    ⟨fun hmem => mem_group.mpr ⟨hmem, rfl⟩, fun hmem => (mem_group.mp hmem).1⟩
  rw [hgroup, group_eq_kept, h (some k), collapse, List.mem_map]
  simp only [Option.mem_toList, Prod.mk.injEq, true_and, exists_eq_right]

/-- What is kept without a key has none. -/
theorem Merged.key_eq_none (h : Merged key merge items entries) (hmem : (none, a) ∈ entries) :
    key a = none := by
  have hkept : a ∈ kept entries none :=
    List.mem_map.mpr ⟨_, mem_group.mpr ⟨hmem, rfl⟩, rfl⟩
  rw [h none, collapse] at hkept
  exact (mem_group.mp hkept).2

/-- **Nothing was merged**, if no fewer survive, and then no key stands twice. -/
theorem Merged.length_group_le (h : Merged key merge items entries)
    (hlength : items.length ≤ entries.length) (k : κ) : (group key items (some k)).length ≤ 1 := by
  have hkept : ∀ j, (group Prod.fst entries j).length = (kept entries j).length :=
    fun j => (List.length_map _).symm
  have hsub : (entries.map Prod.fst).Subperm (items.map key) := by
    rw [List.subperm_ext_iff]
    intro j _
    rw [count_map_key, count_map_key, hkept, h j]
    cases j with
    | none => exact Nat.le_refl _
    | some j =>
      rw [collapse]
      cases group key items (some j) with
      | nil => exact Nat.zero_le _
      | cons a l => exact Nat.succ_le_succ (Nat.zero_le _)
  have hperm := hsub.perm_of_length_le (by rwa [List.length_map, List.length_map])
  rw [← count_map_key, ← hperm.count_eq, count_map_key, hkept]
  exact h.length_le k

/-! ## 3. The order of the items -/

theorem perm_entries_of_kept {entries entries' : List (Option κ × α)}
    (h : ∀ k, (kept entries k).Perm (kept entries' k)) : entries.Perm entries' := by
  refine perm_of_groups Prod.fst fun k => ?_
  rw [group_eq_kept, group_eq_kept]
  exact (h k).map _

/-- **The survivors do not depend on the order of the items** exactly when the survivor of no group
depends on the order of the group. -/
theorem perm_survivors_iff (survivors : List α → List α)
    (hmerged : ∀ items, ∃ entries, Merged key merge items entries ∧
      (survivors items).Perm (entries.map Prod.snd)) (items : List α) :
    (∀ items', items'.Perm items → (survivors items').Perm (survivors items)) ↔
      ∀ (k : κ) (l : List α), l.Perm (group key items (some k)) →
        fold1 merge l = fold1 merge (group key items (some k)) := by
  obtain ⟨entries, hentries, hsurvivors⟩ := hmerged items
  constructor
  · intro h k l hl
    -- The same items, the group first and in its other order.
    have hitems : (l ++ others key items (some k)).Perm items :=
      (hl.append_right _).trans (perm_group_others items (some k))
    obtain ⟨entries', hentries', hsurvivors'⟩ := hmerged (l ++ others key items (some k))
    have hl_key : ∀ a ∈ l, key a = some k := fun a ha => (mem_group.mp (hl.mem_iff.mp ha)).2
    have hself : group key (l ++ others key items (some k)) (some k) = l := by
      rw [group_append, group_others_self, List.append_nil]
      exact List.filter_eq_self.mpr fun a ha => decide_eq_true (hl_key a ha)
    have hothers : (others Prod.fst entries' (some k)).Perm (others Prod.fst entries (some k)) := by
      refine perm_of_groups Prod.fst fun j => ?_
      by_cases hj : j = some k
      · subst hj
        rw [group_others_self, group_others_self]
      · have hnone : group key l j = [] :=
          group_eq_nil fun a ha => (hl_key a ha).trans_ne (Ne.symm hj)
        rw [group_others_of_ne hj, group_others_of_ne hj, group_eq_kept, group_eq_kept,
          hentries' j, hentries j, group_append, hnone, group_others_of_ne hj, List.nil_append]
    have hsplit : ∀ entries : List (Option κ × α), (kept entries (some k)
        ++ (others Prod.fst entries (some k)).map Prod.snd).Perm (entries.map Prod.snd) := by
      intro entries
      rw [kept, ← List.map_append]
      exact (perm_group_others entries (some k)).map _
    have hall := (hsplit entries').trans
      (hsurvivors'.symm.trans ((h _ hitems).trans (hsurvivors.trans (hsplit entries).symm)))
    have hkept : (kept entries' (some k)).Perm (kept entries (some k)) :=
      (List.perm_append_right_iff _).mp (((hothers.map _).symm.append_left _).trans hall)
    rw [hentries' (some k), hentries (some k), hself, collapse, collapse] at hkept
    exact eq_of_toList_perm hkept
  · intro h items' hperm
    obtain ⟨entries', hentries', hsurvivors'⟩ := hmerged items'
    refine hsurvivors'.trans (.trans (.map _ (perm_entries_of_kept fun k => ?_)) hsurvivors.symm)
    rw [hentries k, hentries' k]
    cases k with
    | none => exact group_perm hperm none
    | some k => rw [collapse, collapse, h k _ (group_perm hperm (some k))]

end Merging
