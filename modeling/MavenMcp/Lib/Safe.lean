/-
# Programs that may panic

A program that indexes a list, or computes with numbers of a machine, answers an `Option`: `none` is
a panic.  `Safe x Q` says that `x` does not panic and that its answer has `Q`; the rules below take
a program apart along its binds, so a function is verified once and cited by its callers.
-/
import Mathlib.Algebra.GroupWithZero.Nat
import Mathlib.Data.List.Basic

/-- Unsigned subtraction; `none` where it underflows. -/
def checkedSub (a b : Nat) : Option Nat := if b ≤ a then some (a - b) else none

/-- Addition of unsigned numbers with so many bits; `none` where it overflows. -/
def checkedAdd (bits a b : Nat) : Option Nat := if a + b < 2 ^ bits then some (a + b) else none

/-- The slice of `n` elements from position `i` on; `none` where it is out of bounds. -/
def checkedSlice {α : Type} (l : List α) (i n : Nat) : Option (List α) :=
  if i + n ≤ l.length then some ((l.drop i).take n) else none

/-- What is left of a list after its first `n` elements are drained, where it has as many. -/
def checkedDrain {α : Type} (l : List α) (n : Nat) : Option (List α) :=
  if n ≤ l.length then some (l.drop n) else none

theorem checkedSub_eq_some {a b : Nat} (h : b ≤ a) : checkedSub a b = some (a - b) := if_pos h

theorem checkedAdd_eq_some {bits a b : Nat} (h : a + b < 2 ^ bits) :
    checkedAdd bits a b = some (a + b) := if_pos h

theorem checkedSlice_eq_some {α : Type} {l : List α} {i n : Nat} (h : i + n ≤ l.length) :
    checkedSlice l i n = some ((l.drop i).take n) := if_pos h

theorem checkedDrain_eq_some {α : Type} {l : List α} {n : Nat} (h : n ≤ l.length) :
    checkedDrain l n = some (l.drop n) := if_pos h

/-- The program answers, and the answer has `Q`. -/
def Safe {α : Type} (x : Option α) (Q : α → Prop) : Prop := ∃ a, x = some a ∧ Q a

namespace Safe

variable {α β : Type} {P Q : α → Prop} {R : β → Prop}

theorem pure {a : α} (h : Q a) : Safe (some a) Q := ⟨a, rfl, h⟩

theorem bind {x : Option α} {f : α → Option β} (h : Safe x P) (hf : ∀ a, P a → Safe (f a) R) :
    Safe (x >>= f) R := by
  obtain ⟨a, rfl, ha⟩ := h
  exact hf a ha

theorem map {x : Option α} {f : α → β} (h : Safe x P) (hf : ∀ a, P a → R (f a)) :
    Safe (x.map f) R := by
  obtain ⟨a, rfl, ha⟩ := h
  exact ⟨f a, rfl, hf a ha⟩

/-- What a program that answers has been proved to answer. -/
theorem answer {x : Option α} (h : Safe x Q) {a : α} (hx : x = some a) : Q a := by
  obtain ⟨b, hb, hq⟩ := h
  cases hx.symm.trans hb
  exact hq

theorem isSome {x : Option α} (h : Safe x Q) : x.isSome = true := by
  obtain ⟨a, rfl, -⟩ := h
  rfl

theorem checkedSub {a b : Nat} {Q : Nat → Prop} (h : b ≤ a) (hQ : Q (a - b)) :
    Safe (checkedSub a b) Q :=
  ⟨a - b, if_pos h, hQ⟩

theorem get {l : List α} {i : Nat} (h : i < l.length) : Safe l[i]? (· = l[i]) :=
  ⟨l[i], List.getElem?_eq_getElem h, rfl⟩

/-- A program for every element of a list. -/
theorem mapM {f : α → Option β} {l : List α} (h : ∀ a ∈ l, Safe (f a) R) :
    Safe (l.mapM f) fun bs => ∀ b ∈ bs, R b := by
  induction l with
  | nil => exact ⟨[], rfl, nofun⟩
  | cons a l ih =>
    obtain ⟨b, hb, hR⟩ := h a List.mem_cons_self
    obtain ⟨bs, hbs, hRs⟩ := ih fun x hx => h x (List.mem_cons_of_mem a hx)
    refine ⟨b :: bs, ?_, ?_⟩
    · rw [List.mapM_cons, hb, hbs]
      rfl
    · intro x hx
      cases hx with
      | head => exact hR
      | tail _ hx => exact hRs x hx

/-- What a program for every element answers comes from an element. -/
theorem mem_of_mapM {f : α → Option β} {l : List α} {bs : List β} (h : l.mapM f = some bs) :
    ∀ b ∈ bs, ∃ a ∈ l, f a = some b := by
  induction l generalizing bs with
  | nil =>
    cases h
    exact nofun
  | cons a l ih =>
    rw [List.mapM_cons] at h
    obtain ⟨b, hb, h⟩ := Option.bind_eq_some_iff.mp h
    obtain ⟨rest, hrest, h⟩ := Option.bind_eq_some_iff.mp h
    cases h
    intro x hx
    cases hx with
    | head => exact ⟨a, List.mem_cons_self, hb⟩
    | tail _ hx =>
      obtain ⟨a', ha', hfa⟩ := ih hrest x hx
      exact ⟨a', List.mem_cons_of_mem a ha', hfa⟩

/-- Every element has its answer. -/
theorem exists_of_mapM {f : α → Option β} {l : List α} {bs : List β} (h : l.mapM f = some bs) :
    ∀ a ∈ l, ∃ b ∈ bs, f a = some b := by
  induction l generalizing bs with
  | nil => exact nofun
  | cons a l ih =>
    rw [List.mapM_cons] at h
    obtain ⟨b, hb, h⟩ := Option.bind_eq_some_iff.mp h
    obtain ⟨rest, hrest, h⟩ := Option.bind_eq_some_iff.mp h
    cases h
    intro x hx
    cases hx with
    | head => exact ⟨b, List.mem_cons_self, hb⟩
    | tail _ hx =>
      obtain ⟨b', hb', hfx⟩ := ih hrest x hx
      exact ⟨b', List.mem_cons_of_mem b hb', hfx⟩

end Safe
