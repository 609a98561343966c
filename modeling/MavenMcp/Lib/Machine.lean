/-
# Unsigned numbers of a machine

A build with overflow checks panics where a sum leaves its type, a build without them wraps.  A
program is written once, for the profile it is built with, and answers `none` for a panic.

`Exactly x fits a` says that `x` answers `a` in every build as long as `fits` holds, and that the
checked build panics otherwise.  The rules below derive it along the binds, maps and sums of a
program, so that the condition of the whole is collected from those of its sums.
-/
import Mathlib.Algebra.GroupWithZero.Nat
import Mathlib.Data.List.Basic
import Mathlib.Data.BitVec

namespace Machine

/-- How a program is built: with overflow checks or without. -/
inductive Profile where
  | dev
  | release
deriving DecidableEq, Repr

variable {w : Nat} {α β : Type}

/-! ## 1. Operations -/

/-- `a + b`. -/
def add (profile : Profile) (a b : BitVec w) : Option (BitVec w) :=
  match profile with
  | .dev => if a.toNat + b.toNat < 2 ^ w then some (a + b) else none
  | .release => some (a + b)

/-- `Iterator::sum`. -/
def sum (profile : Profile) (l : List (BitVec w)) : Option (BitVec w) :=
  l.foldlM (add profile) 0#w

/-- `a.saturating_sub(b)`. -/
def saturatingSub (a b : BitVec w) : BitVec w :=
  if b.toNat ≤ a.toNat then a - b else 0

/-- `a.saturating_mul(b)`. -/
def saturatingMul (a b : BitVec w) : BitVec w :=
  if a.toNat * b.toNat < 2 ^ w then a * b else BitVec.allOnes w

/-- `a.checked_div(b)`. -/
def checkedDiv (a b : BitVec w) : Option (BitVec w) :=
  if b = 0 then none else some (a / b)

/-! ## 2. What an operation computes -/

theorem toNat_add_of_fits {a b : BitVec w} (h : a.toNat + b.toNat < 2 ^ w) :
    (a + b).toNat = a.toNat + b.toNat := by
  rw [BitVec.toNat_add, Nat.mod_eq_of_lt h]

@[simp] theorem toNat_saturatingSub (a b : BitVec w) :
    (saturatingSub a b).toNat = a.toNat - b.toNat := by
  unfold saturatingSub
  split
  next h => exact BitVec.toNat_sub_of_le h
  next h => simp; omega

theorem toNat_saturatingMul_of_fits {a b : BitVec w} (h : a.toNat * b.toNat < 2 ^ w) :
    (saturatingMul a b).toNat = a.toNat * b.toNat := by
  rw [saturatingMul, if_pos h, BitVec.toNat_mul, Nat.mod_eq_of_lt h]

/-- The sum of words, as numbers. -/
def total (l : List (BitVec w)) : Nat := (l.map BitVec.toNat).sum

@[simp] theorem total_nil : total ([] : List (BitVec w)) = 0 := rfl

@[simp] theorem total_cons (a : BitVec w) (l : List (BitVec w)) :
    total (a :: l) = a.toNat + total l := by simp [total]

theorem total_perm {l l' : List (BitVec w)} (h : l.Perm l') : total l = total l' :=
  (h.map _).sum_nat

theorem toNat_le_total {a : BitVec w} {l : List (BitVec w)} (h : a ∈ l) : a.toNat ≤ total l := by
  induction l with
  | nil => cases h
  | cons b l ih =>
    rw [total_cons]
    cases h with
    | head => exact Nat.le_add_right _ _
    | tail _ h => exact (ih h).trans (Nat.le_add_left _ _)

theorem toNat_ofNat_total {l : List (BitVec w)} (h : total l < 2 ^ w) :
    (BitVec.ofNat w (total l)).toNat = total l := by
  rw [BitVec.toNat_ofNat, Nat.mod_eq_of_lt h]

/-! ## 3. The same answer in every build -/

/-- The program answers `a` in every build where `fits` holds; a checked build panics elsewhere. -/
structure Exactly (x : Profile → Option α) (fits : Prop) (a : α) : Prop where
  answers : fits → ∀ profile, x profile = some a
  fits_of_dev : ∀ b, x .dev = some b → fits

namespace Exactly

theorem pure (a : α) : Exactly (fun _ => some a) True a :=
  ⟨fun _ _ => rfl, fun _ _ => trivial⟩

theorem congr {x : Profile → Option α} {F G : Prop} {a : α} (h : Exactly x F a) (hFG : F ↔ G) :
    Exactly x G a :=
  ⟨fun hG => h.answers (hFG.mpr hG), fun b hb => hFG.mp (h.fits_of_dev b hb)⟩

theorem congrAnswer {x : Profile → Option α} {F : Prop} {a b : α} (h : Exactly x F a)
    (hab : F → a = b) : Exactly x F b :=
  ⟨fun hF profile => hab hF ▸ h.answers hF profile, h.fits_of_dev⟩

/-- A sum. -/
theorem add (a b : BitVec w) :
    Exactly (fun profile => Machine.add profile a b) (a.toNat + b.toNat < 2 ^ w) (a + b) where
  answers h profile := by
    cases profile with
    | dev => exact if_pos h
    | release => rfl
  fits_of_dev c hc := by
    by_contra h
    rw [Machine.add, if_neg h] at hc
    cases hc

/-- One program after another. -/
theorem bind {x : Profile → Option α} {f : Profile → α → Option β} {F G : Prop} {a : α} {b : β}
    (hx : Exactly x F a) (hf : Exactly (fun profile => f profile a) G b) :
    Exactly (fun profile => x profile >>= f profile) (F ∧ G) b where
  answers h profile := by
    simp only [hx.answers h.1 profile, Option.bind_eq_bind, Option.bind_some]
    exact hf.answers h.2 profile
  fits_of_dev c hc := by
    obtain ⟨a', ha', hc⟩ := Option.bind_eq_some_iff.mp hc
    have hF := hx.fits_of_dev a' ha'
    cases ha'.symm.trans (hx.answers hF .dev)
    exact ⟨hF, hf.fits_of_dev c hc⟩

theorem map {x : Profile → Option α} {F : Prop} {a : α} (h : Exactly x F a) (f : α → β) :
    Exactly (fun profile => (x profile).map f) F (f a) where
  answers hF profile := by simp only [h.answers hF profile, Option.map_some]
  fits_of_dev b hb := by
    obtain ⟨a', ha', -⟩ := Option.map_eq_some_iff.mp hb
    exact h.fits_of_dev a' ha'

/-- A program that ends with its answer. -/
theorem bind_pure {x : Profile → Option α} {F : Prop} {a : α} (h : Exactly x F a) (f : α → β) :
    Exactly (fun profile => x profile >>= fun a => Pure.pure (f a)) F (f a) :=
  (h.bind (pure (f a))).congr (and_iff_left trivial)

/-- A program for what may be missing. -/
theorem optionMapM {f : Profile → α → Option β} {F : α → Prop} {g : α → β}
    (h : ∀ a, Exactly (fun profile => f profile a) (F a) (g a)) (o : Option α) :
    Exactly (fun profile => o.mapM (f profile)) (∀ a ∈ o, F a) (o.map g) := by
  cases o with
  | none => exact (pure none).congr (by simp)
  | some a =>
    have hmapM : (fun profile => (some a).mapM (f profile))
        = fun profile => (f profile a).map some := by
      funext profile
      cases hf : f profile a <;> simp [hf]
    rw [hmapM]
    exact ((h a).map some).congr (by simp)

/-- A program for each element of a list. -/
theorem mapM {f : Profile → α → Option β} {F : α → Prop} {g : α → β}
    (h : ∀ a, Exactly (fun profile => f profile a) (F a) (g a)) (l : List α) :
    Exactly (fun profile => l.mapM (f profile)) (∀ a ∈ l, F a) (l.map g) := by
  induction l with
  | nil => exact (pure []).congr (by simp)
  | cons a l ih =>
    have hmapM : (fun profile => (a :: l).mapM (f profile))
        = fun profile => f profile a >>= fun b => l.mapM (f profile) >>= fun bs =>
          some (b :: bs) := by
      funext profile
      rw [List.mapM_cons]
      rfl
    rw [hmapM]
    exact ((h a).bind (ih.bind_pure (g a :: ·))).congr (by simp)

/-- A sum, from a sum so far. -/
theorem foldlM_add (l : List (BitVec w)) (a : BitVec w) :
    Exactly (fun profile => l.foldlM (Machine.add profile) a) (a.toNat + total l < 2 ^ w)
      (BitVec.ofNat w (a.toNat + total l)) := by
  induction l generalizing a with
  | nil => simpa using (pure a).congr (iff_of_true trivial a.isLt)
  | cons b l ih =>
    have hvalue : BitVec.ofNat w ((a + b).toNat + total l)
        = BitVec.ofNat w (a.toNat + total (b :: l)) := by
      apply BitVec.eq_of_toNat_eq
      simp [Nat.add_assoc]
    refine hvalue ▸ ((add a b).bind (ih (a + b))).congr ?_
    rw [total_cons]
    constructor
    · rintro ⟨h, hl⟩
      rw [toNat_add_of_fits h] at hl
      omega
    · intro h
      have hab : a.toNat + b.toNat < 2 ^ w := by omega
      rw [toNat_add_of_fits hab]
      exact ⟨hab, by omega⟩

theorem sum (l : List (BitVec w)) :
    Exactly (fun profile => Machine.sum profile l) (total l < 2 ^ w)
      (BitVec.ofNat w (total l)) := by
  have h := foldlM_add l 0#w
  rw [BitVec.toNat_zero, Nat.zero_add] at h
  exact h

/-- **The answers are right** in every build exactly where the sums fit. -/
theorem iff {x : Profile → Option α} {F : Prop} {a : α} (h : Exactly x F a) {Q : α → Prop}
    (hQ : F → Q a) : (∀ profile, ∃ b, x profile = some b ∧ Q b) ↔ F := by
  constructor
  · intro hx
    obtain ⟨b, hb, -⟩ := hx .dev
    exact h.fits_of_dev b hb
  · exact fun hF profile => ⟨a, h.answers hF profile, hQ hF⟩

end Exactly

end Machine
