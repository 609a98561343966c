/-
# Ledgers that forget the dead

A ledger lists what something charges for.  Entries belong to allocations that outside parties
may hold; an entry nobody holds any more may be forgotten at any time, and nothing else may.
`Sheds alive l l'` says that `l'` is `l` without some dead entries, in any order.  It is
reflexive, transitive and compatible with new entries, so a component's books are settled by
composing the steps that keep them.

`sum_alive` is what the books are for: when no allocation is listed twice, the entries still
held or still kept are charged exactly once each.
-/
import Mathlib.Algebra.BigOperators.Group.List.Basic
import Mathlib.Algebra.GroupWithZero.Nat
import Mathlib.Data.List.Perm.Basic

namespace Ledger

variable {β κ : Type}

/-- `l'` is `l`, in any order, without some entries that are dead. -/
def Sheds (alive : β → Bool) (l l' : List β) : Prop :=
  ∃ dead, l.Perm (l' ++ dead) ∧ ∀ x ∈ dead, alive x = false

theorem Sheds.of_perm {alive : β → Bool} {l l' : List β} (h : l.Perm l') : Sheds alive l l' :=
  ⟨[], by simpa using h, by simp⟩

theorem Sheds.refl (alive : β → Bool) (l : List β) : Sheds alive l l := .of_perm (.refl l)

theorem Sheds.trans {alive : β → Bool} {a b c : List β} (h₁ : Sheds alive a b)
    (h₂ : Sheds alive b c) : Sheds alive a c := by
  obtain ⟨d₁, hp₁, hd₁⟩ := h₁
  obtain ⟨d₂, hp₂, hd₂⟩ := h₂
  refine ⟨d₂ ++ d₁, ?_, fun x hx => ?_⟩
  · have := hp₁.trans (hp₂.append_right d₁)
    rwa [List.append_assoc] at this
  · rcases List.mem_append.mp hx with h | h
    · exact hd₂ x h
    · exact hd₁ x h

/-- New entries on both sides. -/
theorem Sheds.append {alive : β → Bool} {a b : List β} (h : Sheds alive a b) (l : List β) :
    Sheds alive (a ++ l) (b ++ l) := by
  obtain ⟨d, hp, hd⟩ := h
  refine ⟨d, ?_, hd⟩
  calc (a ++ l).Perm ((b ++ d) ++ l) := hp.append_right l
    _ = b ++ (d ++ l) := List.append_assoc _ _ _
    List.Perm _ (b ++ (l ++ d)) := List.perm_append_comm.append_left b
    _ = (b ++ l) ++ d := (List.append_assoc _ _ _).symm

/-- What is listed was listed before. -/
theorem Sheds.mem {alive : β → Bool} {l l' : List β} (h : Sheds alive l l') {x : β}
    (hx : x ∈ l') : x ∈ l := by
  obtain ⟨d, hp, _⟩ := h
  exact hp.mem_iff.mpr (List.mem_append_left _ hx)

theorem Sheds.append_left {alive : β → Bool} {a b : List β} (h : Sheds alive a b) (l : List β) :
    Sheds alive (l ++ a) (l ++ b) := by
  obtain ⟨d, hp, hd⟩ := h
  exact ⟨d, by rw [List.append_assoc]; exact hp.append_left l, hd⟩

theorem sheds_filter (alive : β → Bool) (l : List β) : Sheds alive l (l.filter alive) := by
  refine ⟨l.filter fun x => !alive x, (List.filter_append_perm alive l).symm, fun x hx => ?_⟩
  simpa using (List.mem_filter.mp hx).2

/-- Entries dead now stay dead. -/
theorem Sheds.weaken {alive alive' : β → Bool} {l l' : List β} (h : Sheds alive l l')
    (hm : ∀ x ∈ l, alive x = false → alive' x = false) : Sheds alive' l l' := by
  obtain ⟨d, hp, hd⟩ := h
  exact ⟨d, hp, fun x hx => hm x (hp.mem_iff.mpr (List.mem_append_right _ hx)) (hd x hx)⟩

/-- The same when only entries that are listed no longer need to stay dead. -/
theorem Sheds.mono {alive alive' : β → Bool} {l l' : List β} (h : Sheds alive l l')
    (hm : ∀ x ∈ l, alive x = false → x ∉ l' → alive' x = false) (hn : l.Nodup) :
    Sheds alive' l l' := by
  obtain ⟨d, hp, hd⟩ := h
  refine ⟨d, hp, fun x hx => hm x (hp.mem_iff.mpr (List.mem_append_right _ hx)) (hd x hx) ?_⟩
  intro hx'
  exact (List.nodup_append.mp (hp.nodup_iff.mp hn)).2.2 x hx' x hx rfl

variable [DecidableEq κ]

/-- **Exactly once.**  `all` lists every allocation ever charged for, once each.  The books keep
`kept` and `released`, and shed only the dead.  Then what is charged for the kept entries and
for the released ones still held is the cost of all that are alive. -/
theorem sum_alive (key : β → κ) (held : κ → Bool) (cost : β → Nat)
    {all kept released : List β} (h : Sheds (fun x => held (key x)) all (kept ++ released))
    (hn : (all.map key).Nodup) :
    ((all.filter fun x => held (key x) || (kept.map key).contains (key x)).map cost).sum
      = (kept.map cost).sum + ((released.filter fun x => held (key x)).map cost).sum := by
  obtain ⟨dead, hp, hd⟩ := h
  have hn' : ((kept ++ released ++ dead).map key).Nodup := (hp.map key).nodup_iff.mp hn
  rw [List.map_append, List.map_append] at hn'
  have hout : ∀ x ∈ released ++ dead, (kept.map key).contains (key x) = false := by
    intro x hx
    rw [List.append_assoc, List.nodup_append] at hn'
    rw [List.contains_eq_mem, decide_eq_false_iff_not]
    intro hk
    have hmem : key x ∈ released.map key ++ dead.map key := by
      rw [← List.map_append]
      exact List.mem_map_of_mem hx
    exact hn'.2.2 _ hk _ hmem rfl
  have hk : kept.filter (fun x => held (key x) || (kept.map key).contains (key x)) = kept := by
    rw [List.filter_eq_self]
    intro x hx
    have : (kept.map key).contains (key x) = true := by
      rw [List.contains_eq_mem, decide_eq_true_eq]
      exact List.mem_map_of_mem hx
    rw [this, Bool.or_true]
  have hr : released.filter (fun x => held (key x) || (kept.map key).contains (key x))
      = released.filter fun x => held (key x) := by
    refine List.filter_congr fun x hx => ?_
    rw [hout x (List.mem_append_left _ hx), Bool.or_false]
  have hdead : dead.filter (fun x => held (key x) || (kept.map key).contains (key x)) = [] := by
    rw [List.filter_eq_nil_iff]
    intro x hx
    have hh : held (key x) = false := hd x hx
    rw [hout x (List.mem_append_right _ hx), hh]
    simp
  calc ((all.filter fun x => held (key x) || (kept.map key).contains (key x)).map cost).sum
      = (((kept ++ released ++ dead).filter fun x =>
          held (key x) || (kept.map key).contains (key x)).map cost).sum :=
        ((hp.filter _).map cost).sum_eq
    _ = (kept.map cost).sum + ((released.filter fun x => held (key x)).map cost).sum := by
        rw [List.filter_append, List.filter_append, hk, hr, hdead]
        simp

end Ledger
