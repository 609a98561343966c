/-
# The effective classfile of a multi-release JAR

`effective_class_entries` walks the entries once and replaces the entry it has for a class when it
meets one of a higher version.  What it should select is said without an order (`Selected`): of the
places that hold the class, the one of the highest version, where the base directory counts as the
lowest and version directories count under the manifest flag only.  The fold keeps the selection
for the entries seen so far (`Chosen`), so the answer depends on which entries there are and on
nothing else.
-/
import MavenMcp.Index.Record
import MavenMcp.Lib.Decimal
import Mathlib.Data.List.Sort

namespace MavenMcp

open Text

/-! ## 1. Sorted maps -/

section

variable {α : Type}

/-- Strictly sorted by key. -/
def SortedMap (m : List (Str × α)) : Prop :=
  m.Pairwise fun a b => strLe a.1 b.1 = true ∧ a.1 ≠ b.1

theorem mem_upsert_key {key : Str} {f : Option α → α} {m : List (Str × α)} {e : Str × α}
    (h : e ∈ upsert key f m) : e.1 = key ∨ ∃ e' ∈ m, e'.1 = e.1 := by
  induction m with
  | nil =>
    rw [upsert, List.mem_singleton] at h
    exact .inl (by rw [h])
  | cons head m ih =>
    obtain ⟨k, v⟩ := head
    rw [upsert] at h
    split at h
    · rename_i hk
      rcases List.mem_cons.mp h with rfl | h
      · exact .inl hk
      · exact .inr ⟨e, List.mem_cons_of_mem _ h, rfl⟩
    · split at h
      · rcases List.mem_cons.mp h with rfl | h
        · exact .inl rfl
        · exact .inr ⟨e, h, rfl⟩
      · rcases List.mem_cons.mp h with rfl | h
        · exact .inr ⟨(k, v), List.mem_cons_self, rfl⟩
        · rcases ih h with heq | ⟨e', he', heq⟩
          · exact .inl heq
          · exact .inr ⟨e', List.mem_cons_of_mem _ he', heq⟩

theorem SortedMap.upsert {key : Str} {f : Option α → α} {m : List (Str × α)} (h : SortedMap m) :
    SortedMap (upsert key f m) := by
  induction m with
  | nil => exact List.pairwise_singleton _ _
  | cons head m ih =>
    obtain ⟨k, v⟩ := head
    have hhead := (List.pairwise_cons.mp h).1
    have htail : SortedMap m := List.Pairwise.of_cons h
    rw [MavenMcp.upsert]
    split
    · exact .cons hhead htail
    · rename_i hne
      split
      · rename_i hle
        refine .cons (fun e he => ?_) h
        rcases List.mem_cons.mp he with rfl | he
        · exact ⟨hle, fun heq => hne heq.symm⟩
        · obtain ⟨hle', hne'⟩ := hhead _ he
          refine ⟨strLe_trans hle hle', ?_⟩
          rintro rfl
          exact hne' (strLe_antisymm hle' hle)
      · rename_i hle
        refine .cons (fun e he => ?_) (ih htail)
        rcases mem_upsert_key he with heq | ⟨e', he', heq⟩
        · rw [heq]
          exact ⟨(strLe_total k key).resolve_right hle, hne⟩
        · rw [← heq]
          exact hhead _ he'

theorem lookup_cons_ite (k k' : Str) (v : α) (m : List (Str × α)) :
    ((k', v) :: m).lookup k = if k = k' then some v else m.lookup k := by
  rw [List.lookup_cons]
  by_cases hk : k = k'
  · simp [hk]
  · have hbeq : (k == k') = false := beq_eq_false_iff_ne.mpr hk
    simp [hk, hbeq]

/-- A key before all others is not among them. -/
theorem lookup_eq_none_of_le {key : Str} {m : List (Str × α)}
    (h : ∀ e ∈ m, strLe key e.1 = true ∧ key ≠ e.1) : m.lookup key = none := by
  refine List.lookup_eq_none_iff.mpr fun e he => ?_
  rw [bne_iff_ne]
  exact (h e he).2

/-- What a map holds after an update. -/
theorem lookup_upsert {key : Str} {f : Option α → α} {m : List (Str × α)} (h : SortedMap m)
    (k : Str) :
    (upsert key f m).lookup k = if k = key then some (f (m.lookup key)) else m.lookup k := by
  induction m with
  | nil =>
    rw [upsert, lookup_cons_ite]
    rfl
  | cons head m ih =>
    obtain ⟨k', v⟩ := head
    have hhead := (List.pairwise_cons.mp h).1
    rw [upsert]
    split
    · rename_i heq
      rw [heq, lookup_cons_ite, lookup_cons_ite, lookup_cons_ite, if_pos rfl]
      split
      · rfl
      · rfl
    · rename_i hne
      have hother : ¬ key = k' := fun heq => hne heq.symm
      rw [lookup_cons_ite key k', if_neg hother]
      split
      · rename_i hle
        have hnone : m.lookup key = none := by
          refine lookup_eq_none_of_le fun e he => ⟨strLe_trans hle (hhead _ he).1, ?_⟩
          rintro rfl
          exact hne (strLe_antisymm (hhead _ he).1 hle)
        rw [lookup_cons_ite, hnone]
      · rw [lookup_cons_ite, lookup_cons_ite, ih (List.Pairwise.of_cons h)]
        by_cases hk : k = k'
        · rw [if_pos hk, if_pos hk, if_neg fun heq => hne (hk.symm.trans heq)]
        · rw [if_neg hk, if_neg hk]

/-- In a sorted map, the entries are what lookups find. -/
theorem SortedMap.mem_iff {m : List (Str × α)} (h : SortedMap m) {k : Str} {v : α} :
    (k, v) ∈ m ↔ m.lookup k = some v := by
  induction m with
  | nil => simp
  | cons head m ih =>
    obtain ⟨k', v'⟩ := head
    have hhead := (List.pairwise_cons.mp h).1
    rw [List.mem_cons, lookup_cons_ite, ih (List.Pairwise.of_cons h), Prod.mk.injEq]
    by_cases hk : k = k'
    · rw [if_pos hk, hk, lookup_eq_none_of_le hhead]
      simp [eq_comm]
    · simp [hk]

end

/-! ## 2. Where a class is found -/

/-- The directory of the entries of one version. -/
def versionDirectory (version : Nat) : Str :=
  "META-INF/versions/".toList ++ (Nat.toDigits 10 version ++ ['/'])

/-- The entry is the class of this version; the base directory, outside of all version directories,
is version zero. -/
def HoldsClass (multiRelease : Bool) (logical : Str) (version : Nat) (entry : Str) : Prop :=
  (version = 0 ∧ entry = logical ∧ ¬ "META-INF/versions/".toList <+: logical) ∨
    (multiRelease = true ∧ 9 ≤ version ∧ version < 2 ^ 32 ∧
      entry = versionDirectory version ++ logical)

/-- **The entry that a class is read from**: of those that hold it, the one of the highest
version. -/
def Selected (multiRelease : Bool) (entries : List Str) (logical entry : Str) : Prop :=
  entry ∈ entries ∧ ∃ version, HoldsClass multiRelease logical version entry ∧
    ∀ entry' ∈ entries, ∀ version', HoldsClass multiRelease logical version' entry' →
      version' ≤ version

theorem parseVersion_eq_some_iff {text : Str} {n : Nat} :
    parseVersion text = some n ↔ text = Nat.toDigits 10 n ∧ 9 ≤ n ∧ n < 2 ^ 32 := by
  rw [parseVersion]
  constructor
  · intro h
    split at h
    · cases h
    · rename_i hbad
      simp only [not_or, Bool.not_eq_true', Bool.not_eq_false, List.all_eq_true] at hbad
      simp only at h
      split at h
      · cases h
      · rename_i hrange
        cases h
        exact ⟨(Decimal.toDigits_ofDigitChars hbad.1 hbad.2.1 hbad.2.2).symm, by omega, by omega⟩
  · rintro ⟨rfl, hlow, hhigh⟩
    have hdigits : (Nat.toDigits 10 n).all Char.isDigit = true :=
      List.all_eq_true.mpr fun c hc => Nat.isDigit_of_mem_toDigits (by decide) (by decide) hc
    have hhead : (Nat.toDigits 10 n).head? ≠ some '0' := Decimal.head_toDigits (by omega)
    simp only [Nat.toDigits_ne_nil, hhead, hdigits, Nat.ofDigitChars_ten_toDigits,
      Bool.not_true, Bool.false_eq_true, or_self, if_false]
    rw [if_neg (by omega)]

theorem candidateOf_eq_some_iff {multiRelease : Bool} {entry logical : Str} {version : Nat} :
    candidateOf multiRelease entry = some (version, logical) ↔
      HoldsClass multiRelease logical version entry := by
  unfold candidateOf HoldsClass versionDirectory
  generalize "META-INF/versions/".toList = root
  cases hstrip : stripPrefix root entry with
  | none =>
    have hnot : ¬ root <+: entry := by
      rw [← startsWith_iff, startsWith, hstrip]
      exact Bool.false_ne_true
    constructor
    · rintro ⟨⟩
      exact .inl ⟨rfl, rfl, hnot⟩
    · rintro (⟨hversion, heq, -⟩ | ⟨-, -, -, heq⟩)
      · rw [hversion, heq]
      · rw [heq, List.append_assoc] at hnot
        exact absurd (List.prefix_append _ _) hnot
  | some rest =>
    obtain rfl : entry = root ++ rest := stripPrefix_eq_some_iff.mp hstrip
    cases multiRelease with
    | false =>
      constructor
      · intro h
        cases h
      · rintro (⟨-, heq, hnot⟩ | ⟨h, -⟩)
        · rw [← heq] at hnot
          exact absurd (List.prefix_append _ _) hnot
        · cases h
    | true =>
      simp only [Bool.not_true, Bool.false_eq_true, if_false, true_and]
      constructor
      · intro h
        split at h
        · cases h
        · rename_i text name hsplit
          obtain ⟨n, hn, heq⟩ := Option.map_eq_some_iff.mp h
          cases heq
          obtain ⟨rfl, hlow, hhigh⟩ := parseVersion_eq_some_iff.mp hn
          obtain ⟨rfl, -⟩ := splitOnce_eq_some_iff.mp hsplit
          exact .inr ⟨hlow, hhigh, by simp only [List.append_assoc, List.singleton_append]⟩
      · rintro (⟨-, heq, hnot⟩ | ⟨hlow, hhigh, heq⟩)
        · rw [← heq] at hnot
          exact absurd (List.prefix_append _ _) hnot
        · have hrest : rest = Nat.toDigits 10 version ++ '/' :: logical := by
            simp only [List.append_assoc, List.singleton_append] at heq
            exact List.append_cancel_left heq
          have hslash : '/' ∉ Nat.toDigits 10 version := fun hmem => by
            have hdigit := Nat.isDigit_of_mem_toDigits (by decide) (by decide) hmem
            exact absurd hdigit (by decide)
          rw [splitOnce_eq_some_iff.mpr ⟨hrest, hslash⟩]
          simp only [parseVersion_eq_some_iff.mpr ⟨rfl, hlow, hhigh⟩, Option.map_some]

/-- An entry is a classfile exactly when its logical path is one. -/
theorem endsWith_of_holdsClass {multiRelease : Bool} {logical entry : Str} {version : Nat}
    (h : HoldsClass multiRelease logical version entry) :
    endsWith ".class".toList entry = endsWith ".class".toList logical := by
  rcases h with ⟨-, heq, -⟩ | ⟨-, -, -, heq⟩
  · rw [heq]
  · rw [heq]
    unfold versionDirectory
    generalize "META-INF/versions/".toList = root
    generalize Nat.toDigits 10 version = digits
    rw [Bool.eq_iff_iff, endsWith_iff, endsWith_iff]
    have hslash : root ++ (digits ++ ['/']) ++ logical = root ++ digits ++ '/' :: logical := by
      simp only [List.append_assoc, List.singleton_append]
    rw [hslash]
    constructor
    · intro hsuffix
      rcases List.suffix_or_suffix_of_suffix hsuffix (List.suffix_append _ ('/' :: logical)) with
        hin | hin
      · rcases List.suffix_cons_iff.mp hin with heq | hin
        · cases heq
        · exact hin
      · exact absurd (hin.subset List.mem_cons_self) (by decide)
    · intro hsuffix
      exact hsuffix.trans ((List.suffix_cons _ _).trans (List.suffix_append _ _))

/-! ## 3. The fold -/

/-- What the fold has chosen for a class, the entries seen so far being these. -/
def Chosen (multiRelease : Bool) (seen : List Str) (logical : Str) : Option (Nat × Str) → Prop
  | none => ∀ entry ∈ seen, ∀ version, ¬ HoldsClass multiRelease logical version entry
  | some (version, entry) => entry ∈ seen ∧ HoldsClass multiRelease logical version entry ∧
      ∀ entry' ∈ seen, ∀ version', HoldsClass multiRelease logical version' entry' →
        version' ≤ version

/-- What the fold makes of one entry. -/
def chooseEntry (multiRelease : Bool) (selected : List (Str × Nat × Str)) (entry : Str) :
    List (Str × Nat × Str) :=
  match candidateOf multiRelease entry with
  | none => selected
  | some (version, logical) =>
    upsert logical
      (fun
        | none => (version, entry)
        | some candidate => if candidate.1 < version then (version, entry) else candidate)
      selected

variable {multiRelease : Bool}

/-- An entry that does not hold the class changes nothing for it. -/
theorem Chosen.other {seen : List Str} {logical entry : Str} {o : Option (Nat × Str)}
    (h : Chosen multiRelease seen logical o)
    (hnot : ∀ version, ¬ HoldsClass multiRelease logical version entry) :
    Chosen multiRelease (seen ++ [entry]) logical o := by
  cases o with
  | none =>
    intro x hx version
    rcases List.mem_append.mp hx with hx | hx
    · exact h x hx version
    · rw [List.mem_singleton.mp hx]
      exact hnot version
  | some chosen =>
    refine ⟨List.mem_append_left _ h.1, h.2.1, fun x hx version' hholds => ?_⟩
    rcases List.mem_append.mp hx with hx | hx
    · exact h.2.2 x hx version' hholds
    · rw [List.mem_singleton.mp hx] at hholds
      exact absurd hholds (hnot version')

/-- **One entry**: the selection stays right for what has been seen. -/
theorem chooseEntry_chosen {seen : List Str} {selected : List (Str × Nat × Str)} (entry : Str)
    (hsorted : SortedMap selected)
    (h : ∀ logical, Chosen multiRelease seen logical (selected.lookup logical)) :
    SortedMap (chooseEntry multiRelease selected entry) ∧
      ∀ logical, Chosen multiRelease (seen ++ [entry]) logical
        ((chooseEntry multiRelease selected entry).lookup logical) := by
  rw [chooseEntry]
  cases hcandidate : candidateOf multiRelease entry with
  | none =>
    refine ⟨hsorted, fun logical => (h logical).other fun version hholds => ?_⟩
    rw [candidateOf_eq_some_iff.mpr hholds] at hcandidate
    cases hcandidate
  | some candidate =>
    obtain ⟨version, name⟩ := candidate
    have hholds := candidateOf_eq_some_iff.mp hcandidate
    refine ⟨hsorted.upsert, fun logical => ?_⟩
    rw [lookup_upsert hsorted]
    by_cases hname : logical = name
    · rw [if_pos hname, hname]
      have hseen := h name
      have honly : ∀ version', HoldsClass multiRelease name version' entry →
          version' = version := by
        intro version' hholds'
        rw [candidateOf_eq_some_iff.mpr hholds'] at hcandidate
        cases hcandidate
        rfl
      cases hlookup : selected.lookup name with
      | none =>
        rw [hlookup] at hseen
        refine ⟨List.mem_append_right _ (List.mem_singleton.mpr rfl), hholds, ?_⟩
        intro x hx version' hholds'
        rcases List.mem_append.mp hx with hx | hx
        · exact absurd hholds' (hseen x hx version')
        · rw [List.mem_singleton.mp hx] at hholds'
          exact Nat.le_of_eq (honly version' hholds')
      | some chosen =>
        rw [hlookup] at hseen
        simp only
        split
        · rename_i hlt
          refine ⟨List.mem_append_right _ (List.mem_singleton.mpr rfl), hholds, ?_⟩
          intro x hx version' hholds'
          rcases List.mem_append.mp hx with hx | hx
          · exact Nat.le_of_lt (Nat.lt_of_le_of_lt (hseen.2.2 x hx version' hholds') hlt)
          · rw [List.mem_singleton.mp hx] at hholds'
            exact Nat.le_of_eq (honly version' hholds')
        · rename_i hlt
          refine ⟨List.mem_append_left _ hseen.1, hseen.2.1, fun x hx version' hholds' => ?_⟩
          rcases List.mem_append.mp hx with hx | hx
          · exact hseen.2.2 x hx version' hholds'
          · rw [List.mem_singleton.mp hx] at hholds'
            rw [honly version' hholds']
            exact Nat.le_of_not_lt hlt
    · rw [if_neg hname]
      refine (h logical).other fun version' hholds' => hname ?_
      rw [candidateOf_eq_some_iff.mpr hholds'] at hcandidate
      cases hcandidate
      rfl

/-- **The whole walk.** -/
theorem chosen_of_fold (entries : List Str) {seen : List Str} {selected : List (Str × Nat × Str)}
    (hsorted : SortedMap selected)
    (h : ∀ logical, Chosen multiRelease seen logical (selected.lookup logical)) :
    SortedMap (entries.foldl (chooseEntry multiRelease) selected) ∧
      ∀ logical, Chosen multiRelease (seen ++ entries) logical
        ((entries.foldl (chooseEntry multiRelease) selected).lookup logical) := by
  induction entries generalizing seen selected with
  | nil =>
    rw [List.append_nil]
    exact ⟨hsorted, h⟩
  | cons entry entries ih =>
    obtain ⟨hsorted', h'⟩ := chooseEntry_chosen entry hsorted h
    have hrest := ih hsorted' h'
    rw [List.append_assoc] at hrest
    exact hrest

/-! ## 4. The selection -/

/-- The map at the end of the walk, with the versions still in it. -/
def selectedEntries (multiRelease : Bool) (entries : List Str) : List (Str × Nat × Str) :=
  (entries.filter (endsWith ".class".toList)).foldl (chooseEntry multiRelease) []

theorem effectiveClassEntries_eq (entries : List Str) :
    effectiveClassEntries entries multiRelease =
      (selectedEntries multiRelease entries).map fun e => (e.1, e.2.2) := rfl

theorem selectedEntries_chosen (entries : List Str) :
    SortedMap (selectedEntries multiRelease entries) ∧
      ∀ logical, Chosen multiRelease (entries.filter (endsWith ".class".toList)) logical
        ((selectedEntries multiRelease entries).lookup logical) := by
  have hstart : ∀ logical, Chosen multiRelease [] logical
      (([] : List (Str × Nat × Str)).lookup logical) := fun _ => nofun
  exact chosen_of_fold _ List.Pairwise.nil hstart

theorem sorted_effectiveClassEntries (entries : List Str) :
    SortedMap (effectiveClassEntries entries multiRelease) :=
  List.pairwise_map.mpr (selectedEntries_chosen entries).1

/-- A version of a class has one entry. -/
theorem HoldsClass.unique {logical entry entry' : Str} {version : Nat}
    (h : HoldsClass multiRelease logical version entry)
    (h' : HoldsClass multiRelease logical version entry') : entry = entry' := by
  rcases h with ⟨hzero, heq, -⟩ | ⟨-, hnine, -, heq⟩
  · rcases h' with ⟨-, heq', -⟩ | ⟨-, hnine', -⟩
    · rw [heq, heq']
    · omega
  · rcases h' with ⟨hzero', -⟩ | ⟨-, -, -, heq'⟩
    · omega
    · rw [heq, heq']

/-- **What is selected for a class.** -/
theorem mem_effectiveClassEntries (entries : List Str) (logical entry : Str) :
    (logical, entry) ∈ effectiveClassEntries entries multiRelease ↔
      endsWith ".class".toList logical = true ∧ Selected multiRelease entries logical entry := by
  obtain ⟨hsorted, hall⟩ := selectedEntries_chosen entries
  have hchosen := hall logical
  rw [effectiveClassEntries_eq, List.mem_map]
  constructor
  · rintro ⟨⟨name, version, chosen⟩, hmem, hproj⟩
    cases hproj
    rw [hsorted.mem_iff.mp hmem] at hchosen
    obtain ⟨hin, hholds, hmax⟩ := hchosen
    obtain ⟨hin, hclass⟩ := List.mem_filter.mp hin
    have hlogical := (endsWith_of_holdsClass hholds).symm.trans hclass
    refine ⟨hlogical, hin, version, hholds, fun x hx version' hholds' => ?_⟩
    have hx' : x ∈ entries.filter (endsWith ".class".toList) :=
      List.mem_filter.mpr ⟨hx, (endsWith_of_holdsClass hholds').trans hlogical⟩
    exact hmax x hx' version' hholds'
  · rintro ⟨hlogical, hin, version, hholds, hmax⟩
    have hin' : entry ∈ entries.filter (endsWith ".class".toList) :=
      List.mem_filter.mpr ⟨hin, (endsWith_of_holdsClass hholds).trans hlogical⟩
    cases hlookup : (selectedEntries multiRelease entries).lookup logical with
    | none =>
      rw [hlookup] at hchosen
      exact absurd hholds (hchosen entry hin' version)
    | some chosen =>
      obtain ⟨version', entry'⟩ := chosen
      rw [hlookup] at hchosen
      obtain ⟨hin'', hholds', hmax'⟩ := hchosen
      -- both versions are the highest one
      have hversion : version' = version :=
        Nat.le_antisymm (hmax entry' (List.mem_filter.mp hin'').1 version' hholds')
          (hmax' entry hin' version hholds)
      rw [hversion] at hholds'
      exact ⟨(logical, version', entry'), hsorted.mem_iff.mpr hlookup,
        by rw [hholds.unique hholds']⟩

/-- A class is present when some entry holds it. -/
theorem exists_effective_iff (entries : List Str) (logical : Str) :
    (∃ entry, (logical, entry) ∈ effectiveClassEntries entries multiRelease) ↔
      endsWith ".class".toList logical = true ∧
        ∃ entry ∈ entries, ∃ version, HoldsClass multiRelease logical version entry := by
  constructor
  · rintro ⟨entry, h⟩
    obtain ⟨hlogical, hin, version, hholds, -⟩ := (mem_effectiveClassEntries _ _ _).mp h
    exact ⟨hlogical, entry, hin, version, hholds⟩
  · rintro ⟨hlogical, entry, hin, version, hholds⟩
    obtain ⟨hsorted, hall⟩ := selectedEntries_chosen entries
    have hchosen := hall logical
    have hin' : entry ∈ entries.filter (endsWith ".class".toList) :=
      List.mem_filter.mpr ⟨hin, (endsWith_of_holdsClass hholds).trans hlogical⟩
    cases hlookup : (selectedEntries multiRelease entries).lookup logical with
    | none =>
      rw [hlookup] at hchosen
      exact absurd hholds (hchosen entry hin' version)
    | some chosen =>
      refine ⟨chosen.2, ?_⟩
      rw [effectiveClassEntries_eq]
      exact List.mem_map.mpr ⟨(logical, chosen), hsorted.mem_iff.mpr hlookup, rfl⟩

/-- Sorted maps with the same entries are the same. -/
theorem SortedMap.ext {α : Type} {m m' : List (Str × α)} (h : SortedMap m) (h' : SortedMap m')
    (hmem : ∀ k v, (k, v) ∈ m ↔ (k, v) ∈ m') : m = m' := by
  have hirrefl : Std.Irrefl fun a b : Str × α => strLe a.1 b.1 = true ∧ a.1 ≠ b.1 :=
    ⟨fun _ hself => hself.2 rfl⟩
  have hantisymm : Std.Antisymm fun a b : Str × α => strLe a.1 b.1 = true ∧ a.1 ≠ b.1 :=
    ⟨fun _ _ hab hba => absurd (strLe_antisymm hab.1 hba.1) hab.2⟩
  exact List.Pairwise.eq_of_mem_iff h h' fun e => hmem e.1 e.2

/-- **Multi-release selection.**  Each class has exactly the entry that is selected for it; a class
that is in version directories only is present under the flag; the order of the entries does not
matter. -/
theorem effectiveClassEntries_selects (entries : List Str) (multiRelease : Bool) :
    (∀ logical entry, (logical, entry) ∈ effectiveClassEntries entries multiRelease ↔
        endsWith ".class".toList logical = true ∧ Selected multiRelease entries logical entry) ∧
      (∀ logical entry entry', (logical, entry) ∈ effectiveClassEntries entries multiRelease →
        (logical, entry') ∈ effectiveClassEntries entries multiRelease → entry = entry') ∧
      (∀ logical, endsWith ".class".toList logical = true →
        (∀ entry ∈ entries, ¬ HoldsClass multiRelease logical 0 entry) →
        (∃ entry ∈ entries, ∃ version, HoldsClass true logical version entry) →
        ((∃ entry, (logical, entry) ∈ effectiveClassEntries entries multiRelease) ↔
          multiRelease = true)) ∧
      ∀ entries', entries'.Perm entries →
        effectiveClassEntries entries' multiRelease =
          effectiveClassEntries entries multiRelease := by
  refine ⟨mem_effectiveClassEntries entries, fun logical entry entry' h h' => ?_,
    fun logical hclass hbase hversioned => ?_, fun entries' hperm => ?_⟩
  · have hlookup := (sorted_effectiveClassEntries entries).mem_iff.mp h
    rw [(sorted_effectiveClassEntries entries).mem_iff.mp h'] at hlookup
    exact (Option.some.inj hlookup).symm
  · rw [exists_effective_iff]
    constructor
    · rintro ⟨-, entry, hin, version, hholds⟩
      rcases hholds with ⟨hzero, heq, hnot⟩ | ⟨hflag, -⟩
      · exact absurd (.inl ⟨rfl, heq, hnot⟩) (hbase entry hin)
      · exact hflag
    · rintro rfl
      exact ⟨hclass, hversioned⟩
  · refine (sorted_effectiveClassEntries entries').ext (sorted_effectiveClassEntries entries) ?_
    intro logical entry
    rw [mem_effectiveClassEntries, mem_effectiveClassEntries]
    simp only [Selected, hperm.mem_iff]

end MavenMcp
