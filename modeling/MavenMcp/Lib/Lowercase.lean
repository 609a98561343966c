/-
# Lowercasing texts

`str::to_lowercase` maps character by character, but for the capital sigma, whose image depends on
whether a word ends there.  The tables of Unicode are parameters (`CaseTables`).

What programs that fold names rely on is `Lowercases`: texts that agree up to the case of ASCII
letters have the same image, and an image is its own image.  `lowercases_lower` has it for every
table with three properties of single characters; `asciiTables` is one.
-/
import MavenMcp.Lib.Text

open Text

/-- What is relied on. -/
structure Lowercases (lowercase : Str → Str) : Prop where
  ascii : ∀ a b, toAsciiLowercase a = toAsciiLowercase b → lowercase a = lowercase b
  idempotent : ∀ a, lowercase (lowercase a) = lowercase a

structure CaseTables where
  /-- `char::to_lowercase`. -/
  toLowercase : Char → Str
  /-- The property `Cased`. -/
  cased : Char → Bool
  /-- The property `Case_Ignorable`. -/
  caseIgnorable : Char → Bool

namespace CaseTables

/-! ## 1. The definition -/

/-- The first character that is not ignored is cased. -/
def ignorableThenCased (t : CaseTables) (text : Str) : Bool :=
  (text.dropWhile t.caseIgnorable).head?.any t.cased

/-- The image of a capital sigma after and before these characters, the nearest first. -/
def sigma (t : CaseTables) (before after : Str) : Char :=
  if t.ignorableThenCased before && !t.ignorableThenCased after then 'ς' else 'σ'

def lowerFrom (t : CaseTables) : Str → Str → Str
  | _, [] => []
  | before, c :: rest =>
    (if c = 'Σ' then [t.sigma before rest] else t.toLowercase c) ++ t.lowerFrom (c :: before) rest

/-- `str::to_lowercase`. -/
def lower (t : CaseTables) (text : Str) : Str := t.lowerFrom [] text

/-- Characters that agree up to ASCII case are alike; images are their own images. -/
structure Standard (t : CaseTables) : Prop where
  ascii : ∀ c d, toAsciiLowercase [c] = toAsciiLowercase [d] →
    t.toLowercase c = t.toLowercase d ∧ t.cased c = t.cased d ∧
      t.caseIgnorable c = t.caseIgnorable d
  settled : ∀ c, c ≠ 'Σ' → ∀ d ∈ t.toLowercase c, d ≠ 'Σ' ∧ t.toLowercase d = [d]
  sigmas : t.toLowercase 'σ' = ['σ'] ∧ t.toLowercase 'ς' = ['ς']

/-! ## 2. Texts that agree up to ASCII case -/

variable {t : CaseTables}

theorem ignorableThenCased_congr (ht : t.Standard) {a b : Str}
    (h : toAsciiLowercase a = toAsciiLowercase b) :
    t.ignorableThenCased a = t.ignorableThenCased b := by
  induction a generalizing b with
  | nil =>
    rw [List.map_eq_nil_iff.mp h.symm]
  | cons c a ih =>
    cases b with
    | nil => cases h
    | cons d b =>
      obtain ⟨hhead, htail⟩ := List.cons.inj h
      obtain ⟨-, hcased, hignorable⟩ := ht.ascii c d (congrArg (· :: []) hhead)
      unfold ignorableThenCased
      rw [List.dropWhile_cons, List.dropWhile_cons, hignorable]
      split
      · exact ih htail
      · exact hcased

/-- No other character is a capital sigma up to ASCII case. -/
theorem sigma_unique {c d : Char} (h : toAsciiLowercase [c] = toAsciiLowercase [d])
    (hc : c = 'Σ') : d = 'Σ' := by
  have hlower : 'Σ' = if 65 ≤ d.toNat ∧ d.toNat ≤ 90 then Char.ofNat (d.toNat + 32) else d := by
    rw [hc] at h
    exact (List.cons.inj h).1
  split at hlower
  · rename_i hupper
    have hnat : 'Σ'.toNat = d.toNat + 32 := by
      rw [hlower]
      exact toNat_ofNat_of_valid (by omega)
    have hvalue : 'Σ'.toNat = 931 := rfl
    omega
  · exact hlower.symm

theorem lowerFrom_congr (ht : t.Standard) {a b before before' : Str}
    (hbefore : toAsciiLowercase before = toAsciiLowercase before')
    (h : toAsciiLowercase a = toAsciiLowercase b) :
    t.lowerFrom before a = t.lowerFrom before' b := by
  induction a generalizing b before before' with
  | nil => rw [List.map_eq_nil_iff.mp h.symm]; rfl
  | cons c a ih =>
    cases b with
    | nil => cases h
    | cons d b =>
      obtain ⟨hhead, htail⟩ := List.cons.inj h
      have hone : toAsciiLowercase [c] = toAsciiLowercase [d] := congrArg (· :: []) hhead
      have hnext : toAsciiLowercase (c :: before) = toAsciiLowercase (d :: before') := by
        rw [toAsciiLowercase, List.map_cons, toAsciiLowercase, List.map_cons]
        exact congrArg₂ _ hhead hbefore
      rw [lowerFrom, lowerFrom, ih hnext htail]
      congr 1
      by_cases hc : c = 'Σ'
      · rw [if_pos hc, if_pos (sigma_unique hone hc), sigma, sigma,
          ignorableThenCased_congr ht hbefore, ignorableThenCased_congr ht htail]
      · rw [if_neg hc, if_neg fun hd => hc (sigma_unique hone.symm hd)]
        exact (ht.ascii c d hone).1

/-! ## 3. Images -/

/-- A text of characters that are their own images is its own image. -/
theorem lowerFrom_eq_self {text : Str} (h : ∀ c ∈ text, c ≠ 'Σ' ∧ t.toLowercase c = [c])
    (before : Str) : t.lowerFrom before text = text := by
  induction text generalizing before with
  | nil => rfl
  | cons c text ih =>
    obtain ⟨hsigma, himage⟩ := h c List.mem_cons_self
    rw [lowerFrom, if_neg hsigma, himage, ih fun d hd => h d (List.mem_cons_of_mem _ hd)]
    rfl

theorem settled_lowerFrom (ht : t.Standard) (text before : Str) :
    ∀ c ∈ t.lowerFrom before text, c ≠ 'Σ' ∧ t.toLowercase c = [c] := by
  induction text generalizing before with
  | nil => exact nofun
  | cons d text ih =>
    intro c hc
    rw [lowerFrom] at hc
    rcases List.mem_append.mp hc with hc | hc
    · split at hc
      · rw [List.mem_singleton.mp hc, sigma]
        split
        · exact ⟨by decide, ht.sigmas.2⟩
        · exact ⟨by decide, ht.sigmas.1⟩
      · exact ht.settled d (by assumption) c hc
    · exact ih _ c hc

theorem lowercases_lower (ht : t.Standard) : Lowercases t.lower where
  ascii _ _ h := lowerFrom_congr ht rfl h
  idempotent a := lowerFrom_eq_self (settled_lowerFrom ht a []) []

/-! ## 4. The tables within ASCII -/

theorem toAsciiLowercase_idem (text : Str) :
    toAsciiLowercase (toAsciiLowercase text) = toAsciiLowercase text := by
  unfold toAsciiLowercase
  rw [List.map_map]
  refine List.map_congr_left fun c _ => ?_
  by_cases hupper : 65 ≤ c.toNat ∧ c.toNat ≤ 90
  · have hnat : (Char.ofNat (c.toNat + 32)).toNat = c.toNat + 32 :=
      toNat_ofNat_of_valid (by omega)
    rw [Function.comp_apply, if_pos hupper, if_neg (by omega)]
  · rw [Function.comp_apply, if_neg hupper, if_neg hupper]

/-- No letters beyond ASCII. -/
def asciiTables : CaseTables where
  toLowercase c := toAsciiLowercase [c]
  cased c := (toAsciiLowercase [c]).any Char.isLower
  caseIgnorable c := decide (toAsciiLowercase [c] = ['.'])

theorem asciiTables_standard : asciiTables.Standard where
  ascii c d h := by
    unfold asciiTables
    exact ⟨h, congrArg (List.any · Char.isLower) h, by simp only [h]⟩
  settled c hc d hd := by
    have hd' : toAsciiLowercase [c] = [d] := by
      obtain ⟨x, hx, hxd⟩ := List.mem_map.mp hd
      rw [List.mem_singleton.mp hx] at hxd
      rw [← hxd]
      rfl
    have himage : toAsciiLowercase [d] = [d] := by
      rw [← hd', toAsciiLowercase_idem]
    exact ⟨fun hsigma => hc (sigma_unique (himage.trans hd'.symm) hsigma), himage⟩
  sigmas := ⟨rfl, rfl⟩

end CaseTables
