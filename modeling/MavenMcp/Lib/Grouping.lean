/-
# Entries filed under their keys

`map.entry(k).or_default().push(v)`, entry after entry: the table ends with one group for each key,
in the order of the entries.  Walking the groups of some keys is walking the entries with those
keys, up to permutation (`perm_flatMap_groups`), in whatever order the keys are taken.
-/
import MavenMcp.Lib.Table

namespace AList

variable {κ α β : Type} [DecidableEq κ]

/-! ## 1. One entry -/

/-- The group of a key, empty when there is none. -/
def group (t : Table κ (List α)) (k : κ) : List α := (t.lookup k).getD []

/-- `entry(k).or_default().push(v)`. -/
def push (t : Table κ (List α)) (k : κ) (v : α) : Table κ (List α) := t.insert k (t.group k ++ [v])

/-- Every entry under its key. -/
def pushAll (t : Table κ (List α)) (entries : List (κ × α)) : Table κ (List α) :=
  entries.foldl (fun t e => t.push e.1 e.2) t

@[simp] theorem group_empty (k : κ) : group (∅ : Table κ (List α)) k = [] := rfl

theorem group_push (t : Table κ (List α)) (k k' : κ) (v : α) :
    (t.push k v).group k' = t.group k' ++ if k = k' then [v] else [] := by
  by_cases h : k = k'
  · subst h
    rw [group, push, lookup_insert, if_pos rfl]
    rfl
  · have hne : k' ≠ k := fun heq => h heq.symm
    rw [group, push, lookup_insert_ne hne, if_neg h, List.append_nil]
    rfl

theorem mem_push {t : Table κ (List α)} {k k' : κ} {v : α} : k' ∈ t.push k v ↔ k' = k ∨ k' ∈ t :=
  mem_insert t

/-! ## 2. All entries -/

theorem pushAll_append (t : Table κ (List α)) (a b : List (κ × α)) :
    t.pushAll (a ++ b) = (t.pushAll a).pushAll b :=
  List.foldl_append

/-- The group of a key gets the entries of that key, in their order. -/
theorem group_pushAll (t : Table κ (List α)) (entries : List (κ × α)) (k : κ) :
    (t.pushAll entries).group k
      = t.group k ++ (entries.filter fun e => e.1 = k).map Prod.snd := by
  induction entries generalizing t with
  | nil => exact (List.append_nil _).symm
  | cons e entries ih =>
    have hstep : t.pushAll (e :: entries) = (t.push e.1 e.2).pushAll entries := rfl
    rw [hstep, ih, group_push, List.append_assoc, List.filter_cons]
    by_cases h : e.1 = k
    · simp only [h, if_true, decide_true, List.map_cons, List.singleton_append]
    · simp only [h, if_false, decide_false, List.nil_append, Bool.false_eq_true]

theorem mem_pushAll {t : Table κ (List α)} {entries : List (κ × α)} {k : κ} :
    k ∈ t.pushAll entries ↔ k ∈ t ∨ ∃ e ∈ entries, e.1 = k := by
  induction entries generalizing t with
  | nil => simp [pushAll]
  | cons e entries ih =>
    have hstep : t.pushAll (e :: entries) = (t.push e.1 e.2).pushAll entries := rfl
    rw [hstep, ih, mem_push, List.exists_mem_cons_iff]
    constructor
    · rintro ((rfl | h) | h)
      · exact .inr (.inl rfl)
      · exact .inl h
      · exact .inr (.inr h)
    · rintro (h | rfl | h)
      · exact .inl (.inr h)
      · exact .inl (.inl rfl)
      · exact .inr h

/-! ## 3. Walking the groups -/

/-- Taking entries key by key takes those whose key is among the keys. -/
theorem perm_flatMap_filter {keys : List κ} (hnodup : keys.Nodup) (entries : List (κ × α)) :
    (keys.flatMap fun k => entries.filter fun e => e.1 = k).Perm
      (entries.filter fun e => e.1 ∈ keys) := by
  induction keys with
  | nil => simp
  | cons k keys ih =>
    obtain ⟨hk, hkeys⟩ := List.nodup_cons.mp hnodup
    have hsplit := List.filter_append_perm (fun e => decide (e.1 = k))
      (entries.filter fun e => e.1 ∈ k :: keys)
    have hfirst : (entries.filter fun e => e.1 ∈ k :: keys).filter (fun e => e.1 = k)
        = entries.filter fun e => e.1 = k := by
      rw [List.filter_filter]
      refine List.filter_congr fun e _ => ?_
      by_cases he : e.1 = k <;> simp [he]
    have hrest : (entries.filter fun e => e.1 ∈ k :: keys).filter (fun e => !decide (e.1 = k))
        = entries.filter fun e => e.1 ∈ keys := by
      rw [List.filter_filter]
      refine List.filter_congr fun e _ => ?_
      by_cases he : e.1 = k
      · simp [he, hk]
      · simp [he]
    rw [hfirst, hrest] at hsplit
    rw [List.flatMap_cons]
    exact ((ih hkeys).append_left _).trans hsplit

/-- **Walking groups is walking entries.**  The groups of the keys that pass a test hold exactly the
entries whose keys pass it. -/
theorem perm_flatMap_groups (entries : List (κ × α)) (p : κ → Bool) (f : κ → α → β) {keys : List κ}
    (hkeys : keys.Perm (((∅ : Table κ (List α)).pushAll entries).keys.filter p)) :
    (keys.flatMap fun k => (((∅ : Table κ (List α)).pushAll entries).group k).map (f k)).Perm
      ((entries.filter fun e => p e.1).map fun e => f e.1 e.2) := by
  have hmem : ∀ k, k ∈ keys ↔ (∃ e ∈ entries, e.1 = k) ∧ p k = true := by
    intro k
    rw [hkeys.mem_iff, List.mem_filter, ← mem_keys, mem_pushAll]
    simp only [notMem_empty, false_or]
  have hnodup : keys.Nodup := hkeys.nodup_iff.mpr ((keys_nodup _).filter p)
  have hwalk : (keys.flatMap fun k => (((∅ : Table κ (List α)).pushAll entries).group k).map (f k))
      = (keys.flatMap fun k => entries.filter fun e => e.1 = k).map fun e => f e.1 e.2 := by
    rw [List.map_flatMap]
    refine List.flatMap_congr fun k _ => ?_
    rw [group_pushAll, group_empty, List.nil_append, List.map_map]
    refine List.map_congr_left fun e he => ?_
    have hk : e.1 = k := of_decide_eq_true (List.mem_filter.mp he).2
    rw [Function.comp_apply, hk]
  have hfilter : (entries.filter fun e => e.1 ∈ keys) = entries.filter fun e => p e.1 := by
    refine List.filter_congr fun e he => ?_
    rw [Bool.eq_iff_iff, decide_eq_true_eq, hmem]
    exact ⟨And.right, fun hp => ⟨⟨e, he, rfl⟩, hp⟩⟩
  rw [hwalk, ← hfilter]
  exact (perm_flatMap_filter hnodup entries).map _

end AList
