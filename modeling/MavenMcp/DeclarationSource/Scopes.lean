/-
# Scopes

The members of a scope, one statement for each kind of member: it does not panic, and what it
returns is `Outlined`.  From this the scope itself: its members lie behind one another
(`listed_scanMembers`), and their bodies are scopes again (`Scanned`).
-/
import MavenMcp.DeclarationSource.Scan

namespace MavenMcp.DeclarationSource

open Text

namespace SourceOutline

variable {o : SourceOutline} {stop : Nat} {G : Nat → Prop}

/-! ## 1. Members -/

/-- A parameter list: its parenthesis and the end of its group. -/
structure Parameters (o : SourceOutline) (stop : Nat) (parameters : Nat × Nat) : Prop where
  lt : parameters.1 < stop
  parenthesis : o.isPunct parameters.1 ['('] = true
  close : parameters.2 = o.groupEnd parameters.1 stop

/-- What the scanner returns for a member of a range. -/
structure Outlined (o : SourceOutline) (stop : Nat) (G : Nat → Prop) (m : Member) : Prop where
  last : Last stop G m.start m.stop
  function : ∀ f, m.kind = .function f → Parameters o stop f.parameters
  header : ∀ d, m.kind = .type d → ∀ p ∈ d.primaryParameters,
    Parameters o stop p ∧ m.start ≤ p.1
  body : ∀ d, m.kind = .type d → ∀ b ∈ d.body, Body o stop G b

/-- A member of this range that begins here. -/
def Begins (o : SourceOutline) (stop : Nat) (G : Nat → Prop) (start : Nat) (m : Member) : Prop :=
  m.start = start ∧ Outlined o stop G m

theorem begins_other {start last : Nat} (h : Last stop G start last) :
    Begins o stop G start { start, stop := last, kind := .other } :=
  ⟨rfl, h, nofun, nofun, nofun⟩

theorem begins_field {start last : Nat} (h : Last stop G start last) (names : List Str) :
    Begins o stop G start { start, stop := last, kind := .field names } :=
  ⟨rfl, h, nofun, nofun, nofun⟩

theorem begins_function {start last : Nat} (h : Last stop G start last)
    {f : FunctionDeclaration} (hf : Parameters o stop f.parameters) :
    Begins o stop G start { start, stop := last, kind := .function f } := by
  refine ⟨rfl, h, ?_, nofun, nofun⟩
  intro f' hf'
  cases hf'
  exact hf

namespace Range

variable (r : Range o stop G)

include r

theorem parameters {opening : Nat} (h : At stop G opening)
    (hopening : o.isPunct opening ['('] = true) :
    Parameters o stop (opening, o.groupEnd opening stop) ∧
      Last stop G opening (o.groupEnd opening stop) := by
  have hlt := r.lt_of_isPunct h.le hopening (by decide)
  exact ⟨⟨hlt, hopening, rfl⟩, r.last_groupEnd h hlt⟩

/-- Behind type parameters, where there are any. -/
theorem at_typeParameters {index : Nat} (h : At stop G index) :
    At stop G (behind (o.typeParametersAt index stop) index) ∧
      index ≤ behind (o.typeParametersAt index stop) index := by
  rw [typeParametersAt]
  split
  · rename_i hangle
    have hlast := r.last_angleEnd h hangle
    exact ⟨hlast.at, Nat.le_succ_of_le hlast.le⟩
  · exact ⟨h, Nat.le_refl index⟩

theorem primaryParameters_spec {index : Nat} (h : At stop G index) {isRecord : Bool}
    {p : Nat × Nat} (hp : o.primaryParameters index stop isRecord = some p) :
    Parameters o stop p ∧ index ≤ p.1 ∧ Last stop G index p.2 := by
  obtain ⟨opening, hopening, hp⟩ := Option.bind_eq_some_iff.mp hp
  have hat : At stop G opening ∧ index ≤ opening := by
    have hmodifiers := r.at_skipModifiers h
    have hle := o.le_skipModifiers index stop
    cases hlanguage : o.language with
    | java =>
      rw [hlanguage] at hopening
      simp only at hopening
      split at hopening
      · cases hopening
        exact ⟨h, Nat.le_refl _⟩
      · cases hopening
    | kotlin =>
      rw [hlanguage] at hopening
      simp only at hopening
      split at hopening
      · rename_i hword
        cases hopening
        exact ⟨r.at_succ_of_word hmodifiers hword, Nat.le_succ_of_le hle⟩
      · split at hopening
        · cases hopening
          exact ⟨h, Nat.le_refl _⟩
        · cases hopening
  split at hp
  · rename_i hparenthesis
    cases hp
    have hspec := r.parameters hat.1 hparenthesis.2
    exact ⟨hspec.1, hat.2, hspec.2.mono hat.2⟩
  · cases hp

theorem typeKeyword_spec {index keyword : Nat} (h : At stop G index)
    (hkeyword : o.typeKeyword index = some keyword) :
    index ≤ keyword ∧ At stop G (keyword + 1) := by
  rw [typeKeyword] at hkeyword
  split at hkeyword
  · rename_i hat
    cases hkeyword
    exact ⟨Nat.le_succ _, r.at_succ_of_word (r.at_succ_of_isPunct h hat.1 (by decide)) hat.2⟩
  · obtain ⟨word, hword, hkeyword⟩ := Option.bind_eq_some_iff.mp hkeyword
    have hself : index ≤ index ∧ At stop G (index + 1) :=
      ⟨Nat.le_refl _, r.at_succ_of_word h hword⟩
    split at hkeyword
    · cases hkeyword
      exact hself
    · split at hkeyword
      · split at hkeyword
        · cases hkeyword
          exact hself
        · split at hkeyword
          · cases hkeyword
            exact hself
          · cases hkeyword
      · split at hkeyword
        · cases hkeyword
          exact hself
        · split at hkeyword
          · rename_i hinterface
            cases hkeyword
            exact ⟨Nat.le_succ _, r.at_succ_of_word (r.at_succ_of_word h hword) hinterface.2⟩
          · cases hkeyword

theorem at_typeName {keyword : Nat} (h : At stop G (keyword + 1)) (isCompanion : Bool) :
    At stop G (o.typeName keyword stop isCompanion).2 ∧
      keyword + 1 ≤ (o.typeName keyword stop isCompanion).2 := by
  rw [typeName]
  split
  · rename_i name hname
    have hsome : (o.identifier (keyword + 1)).isSome = true := by
      rw [(Option.filter_eq_some_iff.mp hname).1]
      rfl
    obtain ⟨word, hword⟩ := word_of_identifier hsome
    exact ⟨r.at_succ_of_word h hword, Nat.le_succ _⟩
  · exact ⟨h, Nat.le_refl _⟩

/-- Behind a primary constructor or a record header, where there is one. -/
theorem at_primaryParameters {index : Nat} (h : At stop G index) (isRecord : Bool) :
    At stop G (behind (o.primaryParameters index stop isRecord) index) ∧
      index ≤ behind (o.primaryParameters index stop isRecord) index := by
  cases hp : o.primaryParameters index stop isRecord with
  | none => exact ⟨h, Nat.le_refl index⟩
  | some p =>
    have hlast := (r.primaryParameters_spec h hp).2.2
    exact ⟨hlast.at, Nat.le_succ_of_le hlast.le⟩

theorem typeMember_spec {start keyword : Nat} (hle : start ≤ keyword)
    (h : At stop G (keyword + 1)) (modifiers : Modifiers) :
    Safe (o.typeMember start keyword stop modifiers) (Begins o stop G start) := by
  rw [typeMember]
  generalize (o.word keyword).getD [] = keywordText
  simp only
  generalize (modifiers.isCompanion && keywordText == "object".toList) = isCompanion
  generalize (keywordText == "record".toList) = isRecord
  have hname := r.at_typeName h isCompanion
  generalize o.typeName keyword stop isCompanion = named at hname ⊢
  have htype := r.at_typeParameters hname.1
  generalize o.typeParametersAt named.2 stop = typeParameters at htype ⊢
  generalize behind typeParameters named.2 = index at htype ⊢
  have hprimary := r.at_primaryParameters htype.1 isRecord
  have hheader : ∀ p, o.primaryParameters index stop isRecord = some p → _ :=
    fun p hp => r.primaryParameters_spec htype.1 hp
  generalize o.primaryParameters index stop isRecord = primary at hprimary hheader ⊢
  generalize behind primary index = last at hprimary ⊢
  refine (Safe.checkedSub (Q := (· = last - 1)) (by omega) rfl).bind ?_
  rintro previous rfl
  have hlast : Last stop G keyword (last - 1) := by
    have hle' := hprimary.1.le
    refine ⟨by omega, by omega, ?_⟩
    rw [Nat.sub_add_cancel (by omega)]
    exact hprimary.1.cut
  refine (r.last_findBody keyword hlast).bind fun found hfound => .pure ?_
  have hmax : max found.2 keyword = found.2 := Nat.max_eq_left hfound.2.le
  refine ⟨rfl, ?_, nofun, ?_, ?_⟩
  · rw [hmax]
    exact hfound.2.mono hle
  · intro d hd p hp
    cases hd
    have hspec := hheader p hp
    have hafter : start ≤ p.1 := by omega
    exact ⟨hspec.1, hafter⟩
  · intro d hd b hb
    cases hd
    exact hfound.1 b hb

end Range

/-! ## 2. Java members -/

/-- What the loop of `java_member` finds from `cursor` on lies in the range. -/
def JavaShape.Within (o : SourceOutline) (stop : Nat) (G : Nat → Prop) (cursor : Nat) :
    JavaShape → Prop
  | .function opening => cursor ≤ opening ∧ At stop G opening ∧ o.isPunct opening ['('] = true
  | .field stopAt => cursor ≤ stopAt ∧ At stop G stopAt ∧ stopAt < stop
  | .other => True

theorem JavaShape.Within.mono {cursor cursor' : Nat} (hle : cursor ≤ cursor') :
    ∀ {shape : JavaShape}, shape.Within o stop G cursor' → shape.Within o stop G cursor
  | .function _, h => ⟨Nat.le_trans hle h.1, h.2⟩
  | .field _, h => ⟨Nat.le_trans hle h.1, h.2⟩
  | .other, _ => trivial

namespace Range

variable (r : Range o stop G)

include r

theorem javaFunction_spec {header : JavaHeader} {opening : Nat} (hle : header.start ≤ opening)
    (h : At stop G opening) (hopening : o.isPunct opening ['('] = true) (owner : Option Str) :
    Safe (o.javaFunction header opening stop owner) (Begins o stop G header.start) := by
  obtain ⟨hparameters, hclose⟩ := r.parameters h hopening
  refine (r.last_findBody header.start hclose).bind fun found hfound => ?_
  have hlast := hfound.2.mono hle
  simp only
  cases (if header.first < opening then o.identifier (opening - 1) else none) with
  | none => exact .pure (begins_other hlast)
  | some name => exact .pure (begins_function hlast hparameters)

/-- The token in front of a stray closer ends a declaration. -/
theorem last_before {start index : Nat} (hle : start ≤ index) (h : At stop G index)
    (hlt : index < stop) (hcloser : o.isCloser index = true) :
    Last stop G start (max (index - 1) start) := by
  rcases Nat.eq_or_lt_of_le hle with rfl | hlt'
  · have hopener : o.isOpener start = false := by
      obtain ⟨value, hvalue, hstart⟩ := isPunctOf_iff.mp hcloser
      refine isPunctOf_of_isPunct hstart ?_
      clear hstart
      revert value
      decide
    rw [Nat.max_eq_right (Nat.sub_le start 1)]
    exact ⟨Nat.le_refl start, hlt, (r.at_succ h hlt hopener).cut⟩
  · rw [Nat.max_eq_left (by omega)]
    refine ⟨by omega, by omega, ?_⟩
    rw [Nat.sub_add_cancel (by omega)]
    exact h.cut

theorem last_javaFieldEnd {start : Nat} (h : At stop G start) (hlt : start < stop) :
    Safe (o.javaFieldEnd start stop) (Last stop G start) := by
  have hloop : ∀ index, start ≤ index → At stop G index →
      Safe (o.javaFieldEndFrom start stop index) (Last stop G start) := by
    intro index hle hindex
    fun_induction o.javaFieldEndFrom start stop index with
    | case1 index hi hsemicolon =>
      exact .pure ⟨hle, hi, (r.at_succ_of_isPunct hindex hsemicolon (by decide)).cut⟩
    | case2 index hi _ hcloser => exact .pure (r.last_before hle hindex hi hcloser)
    | case3 index hi _ _ ih =>
      exact ih (Nat.le_trans hle (Nat.le_of_lt (o.lt_next index stop))) (r.at_next hindex hi)
    | case4 index hi => exact safe_last (by omega) hindex hi
  exact hloop start (Nat.le_refl _) h

theorem javaField_spec {start stopAt : Nat} (first : Nat) (hle : start ≤ stopAt)
    (h : At stop G stopAt) (hlt : stopAt < stop) :
    Safe (o.javaField start first stopAt stop) (Begins o stop G start) :=
  (r.last_javaFieldEnd h hlt).bind fun _ hlast => .pure (begins_field (hlast.mono hle) _)

theorem last_javaStatementEnd {start : Nat} (h : At stop G start) (hlt : start < stop) :
    Safe (o.javaStatementEnd start stop) (Last stop G start) := by
  have hloop : ∀ index, start ≤ index → At stop G index →
      Safe (o.javaStatementEndFrom start stop index) (Last stop G start) := by
    intro index hle hindex
    fun_induction o.javaStatementEndFrom start stop index with
    | case1 index hi _ => exact .pure ((r.last_groupEnd hindex hi).mono hle)
    | case2 index hi _ hcloser => exact .pure (r.last_before hle hindex hi hcloser)
    | case3 index hi _ _ ih =>
      exact ih (Nat.le_trans hle (Nat.le_of_lt (o.lt_next index stop))) (r.at_next hindex hi)
    | case4 index hi => exact safe_last (by omega) hindex hi
  exact hloop start (Nat.le_refl _) h

theorem within_javaShape (depth : Nat) {cursor : Nat} (h : At stop G cursor) :
    (o.javaShape stop depth cursor).Within o stop G cursor := by
  have hle {index : Nat} : index ≤ o.next index stop := Nat.le_of_lt (o.lt_next index stop)
  fun_induction o.javaShape stop depth cursor with
  | case1 depth cursor hi _ _ ih | case2 depth cursor hi _ _ _ ih
  | case6 cursor hi _ _ _ _ _ _ ih | case7 depth cursor hi _ _ _ _ ih =>
    exact (ih (r.at_next h hi)).mono hle
  | case3 cursor hi _ _ hparenthesis => exact ⟨Nat.le_refl _, h, hparenthesis⟩
  | case4 cursor hi _ _ _ _ => exact ⟨Nat.le_refl _, h, hi⟩
  | case5 | case8 => trivial

theorem javaMember_spec {start index : Nat} (hle : start ≤ index) (h : At stop G index)
    (hlt : index < stop) (owner : Option Str) :
    Safe (o.javaMember start index stop owner) (Begins o stop G start) := by
  rw [javaMember]
  split
  · exact .pure (begins_other ((r.last_groupEnd h hlt).mono hle))
  · have htype := r.at_typeParameters h
    have hwithin := r.within_javaShape 0 htype.1
    simp only
    split
    · rename_i opening hshape
      rw [hshape] at hwithin
      have hle' : start ≤ opening := Nat.le_trans hle (Nat.le_trans htype.2 hwithin.1)
      exact r.javaFunction_spec hle' hwithin.2.1 hwithin.2.2 owner
    · rename_i stopAt hshape
      rw [hshape] at hwithin
      have hle' : start ≤ stopAt := Nat.le_trans hle (Nat.le_trans htype.2 hwithin.1)
      exact r.javaField_spec _ hle' hwithin.2.1 hwithin.2.2
    · exact (r.last_javaStatementEnd h hlt).bind fun last hlast =>
        .pure (begins_other (hlast.mono hle))

/-! ## 3. Kotlin members -/

/-- Where the loop of `kotlin_function` stops: at the name in front of a parameter list, or at the
end of the range. -/
theorem at_functionName {cursor c : Nat} (h : At stop G cursor)
    (hc : o.functionNameFrom stop cursor = some c) :
    cursor ≤ c ∧ At stop G c ∧
      (c < stop → (o.identifier c).isSome = true ∧ o.isPunct (c + 1) ['('] = true) := by
  fun_induction o.functionNameFrom stop cursor with
  | case1 => cases hc
  | case2 cursor hi _ hangle ih =>
    have hlast := r.last_angleEnd h hangle
    have hle := hlast.le
    obtain ⟨hle', hspec⟩ := ih hlast.at hc
    exact ⟨by omega, hspec⟩
  | case3 cursor hi _ _ ih =>
    have hnext := o.lt_next cursor stop
    obtain ⟨hle', hspec⟩ := ih (r.at_next h hi.1) hc
    exact ⟨by omega, hspec⟩
  | case4 cursor hstop =>
    cases hc
    refine ⟨Nat.le_refl _, h, fun hlt => ?_⟩
    by_contra hnot
    exact hstop ⟨hlt, hnot⟩

theorem kotlinFunction_spec {start keyword : Nat} (hle : start ≤ keyword) (h : At stop G keyword)
    {word : Str} (hword : o.word keyword = some word) (isSuspend : Bool) :
    Safe (o.kotlinFunction start keyword stop isSuspend) (Begins o stop G start) := by
  have hlt := r.lt_of_word h.le hword
  have htype := r.at_typeParameters (r.at_succ_of_word h hword)
  rw [kotlinFunction]
  simp only
  cases hcursor : o.functionNameFrom stop
      (behind (o.typeParametersAt (keyword + 1) stop) (keyword + 1)) with
  | none =>
    exact (r.last_statementEnd h hlt false).bind fun last hlast =>
      .pure (begins_other (hlast.mono hle))
  | some cursor =>
    obtain ⟨hafter, hat, hname⟩ := r.at_functionName htype.1 hcursor
    have hstart : start < cursor := by omega
    simp only
    cases hfilter : (o.identifier cursor).filter fun _ => cursor < stop with
    | none =>
      have hstop : ¬ cursor < stop := by
        intro hlt'
        obtain ⟨name, hid⟩ := Option.isSome_iff_exists.mp (hname hlt').1
        rw [hid, Option.filter_some, decide_eq_true hlt'] at hfilter
        cases hfilter
      exact (safe_last hstart hat hstop).bind fun last hlast => .pure (begins_other hlast)
    | some name =>
      have hlt' : cursor < stop := of_decide_eq_true (Option.filter_eq_some_iff.mp hfilter).2
      obtain ⟨hid, hparenthesis⟩ := hname hlt'
      obtain ⟨word, hword⟩ := word_of_identifier hid
      obtain ⟨hparameters, hclose⟩ := r.parameters (r.at_succ_of_word hat hword) hparenthesis
      refine (r.last_findBody keyword hclose).bind fun found hfound => .pure ?_
      exact begins_function (hfound.2.mono (Nat.le_succ_of_le (Nat.le_of_lt hstart))) hparameters

theorem kotlinMember_spec {start index : Nat} (hle : start ≤ index) (h : At stop G index)
    (hlt : index < stop) (owner : Option Str) (modifiers : Modifiers) :
    Safe (o.kotlinMember start index stop owner modifiers) (Begins o stop G start) := by
  rw [kotlinMember]
  split
  · rename_i hword
    exact r.kotlinFunction_spec hle h hword _
  · split
    · exact (r.last_statementEnd h hlt true).bind fun last hlast =>
        .pure (begins_field (hlast.mono hle) _)
    · split
      · rename_i hconstructor
        have hat := r.at_succ_of_word h hconstructor.1
        obtain ⟨hparameters, hclose⟩ := r.parameters hat hconstructor.2
        refine (r.last_findBody index hclose).bind fun found hfound => .pure ?_
        exact begins_function (hfound.2.mono (Nat.le_succ_of_le hle)) hparameters
      · split
        · rename_i hinit
          have hat := r.at_succ_of_word h hinit.1
          have hlt' := r.lt_of_isPunct hat.le hinit.2 (by decide)
          exact .pure (begins_other ((r.last_groupEnd hat hlt').mono (Nat.le_succ_of_le hle)))
        · exact (r.last_statementEnd h hlt false).bind fun last hlast =>
            .pure (begins_other (hlast.mono hle))

/-! ## 4. Scopes -/

/-- **A member begins where the scanner looks for it and ends inside of the range.** -/
theorem memberAt_spec {start : Nat} (h : At stop G start) (hlt : start < stop)
    (owner : Option Str) : Safe (o.memberAt start stop owner) (Begins o stop G start) := by
  have hmodifiers := r.at_skipModifiers h
  have hle := o.le_skipModifiers start stop
  rw [memberAt]
  generalize o.skipModifiers start stop = skipped at hmodifiers hle ⊢
  obtain ⟨index, modifiers⟩ := skipped
  simp only at hmodifiers hle ⊢
  split
  · rename_i hstop
    refine (safe_last (show start < index by omega) hmodifiers (by omega)).bind fun last hlast => ?_
    exact .pure (begins_other hlast)
  · rename_i hstop
    have hindex := Nat.lt_of_not_le hstop
    split
    · rename_i keyword hkeyword
      obtain ⟨hle', hat⟩ := r.typeKeyword_spec hmodifiers hkeyword
      exact r.typeMember_spec (Nat.le_trans hle hle') hat modifiers
    · cases o.language with
      | java => exact r.javaMember_spec hle hmodifiers hindex owner
      | kotlin => exact r.kotlinMember_spec hle hmodifiers hindex owner modifiers

end Range

/-- Members that lie behind one another, from `lo` on. -/
inductive Listed (o : SourceOutline) (stop : Nat) (G : Nat → Prop) : Nat → List Member → Prop
  | nil {lo : Nat} : Listed o stop G lo []
  | cons {lo : Nat} {m : Member} {members : List Member} : lo ≤ m.start → G m.start →
      Outlined o stop G m → Listed o stop G (m.stop + 1) members → Listed o stop G lo (m :: members)

theorem Listed.mono {lo lo' : Nat} {members : List Member} (h : Listed o stop G lo members)
    (hle : lo' ≤ lo) : Listed o stop G lo' members := by
  cases h with
  | nil => exact .nil
  | cons hlo hcut houtlined hrest => exact .cons (Nat.le_trans hle hlo) hcut houtlined hrest

theorem Listed.mem {lo : Nat} {members : List Member} (h : Listed o stop G lo members) :
    ∀ m ∈ members, lo ≤ m.start ∧ G m.start ∧ Outlined o stop G m := by
  induction h with
  | nil => exact nofun
  | cons hlo hcut houtlined _ ih =>
    intro m hm
    cases hm with
    | head => exact ⟨hlo, hcut, houtlined⟩
    | tail _ hm =>
      obtain ⟨hlo', hspec⟩ := ih m hm
      have hle := houtlined.last.le
      exact ⟨by omega, hspec⟩

theorem Listed.pairwise {lo : Nat} {members : List Member} (h : Listed o stop G lo members) :
    members.Pairwise fun m m' => m.stop < m'.start := by
  induction h with
  | nil => exact .nil
  | cons _ _ _ hrest ih => exact List.pairwise_cons.mpr ⟨fun m hm => (hrest.mem m hm).1, ih⟩

namespace Range

variable (r : Range o stop G)

include r

theorem listed_scanFrom {index : Nat} (h : At stop G index) (owner : Option Str) :
    Safe (o.scanFrom stop owner index) (Listed o stop G index) := by
  induction hn : stop - index using Nat.strongRecOn generalizing index with
  | _ n ih =>
    rw [scanFrom]
    split
    · rename_i hlt
      refine (r.memberAt_spec h hlt owner).bind fun m hm => ?_
      obtain ⟨hstart, houtlined⟩ := hm
      have hle := houtlined.last.le
      have hmax : max m.stop index = m.stop := by omega
      rw [hmax]
      have hrest := ih (stop - (m.stop + 1)) (by omega) houtlined.last.at rfl
      refine hrest.bind fun members hmembers => .pure ?_
      exact .cons (by omega) (hstart ▸ h.cut) houtlined hmembers
    · exact .pure .nil

/-- Behind the arguments and the body of an enum entry. -/
theorem at_enumEntryEnd {next : Nat} (h : At stop G next) :
    At stop G (o.enumEntryEnd next stop) := by
  have harguments : At stop G (if o.isPunct next ['('] = true then o.next next stop else next) := by
    split
    · rename_i hparenthesis
      exact r.at_next h (r.lt_of_isPunct h.le hparenthesis (by decide))
    · exact h
  rw [enumEntryEnd]
  generalize (if o.isPunct next ['('] = true then o.next next stop else next) = target
    at harguments ⊢
  split
  · rename_i hbrace
    exact r.at_next harguments hbrace.1
  · exact harguments

theorem listed_scanEnumEntries {index : Nat} (h : At stop G index) :
    Safe (o.scanEnumEntries stop index) fun found => At stop G found.2 ∧
      ∀ members, Listed o stop G found.2 members → Listed o stop G index (found.1 ++ members) := by
  induction hn : stop - index using Nat.strongRecOn generalizing index with
  | _ n ih =>
    have hnone : At stop G index ∧ ∀ members, Listed o stop G index members →
        Listed o stop G index ([] ++ members) := ⟨h, fun _ hmembers => hmembers⟩
    rw [scanEnumEntries]
    split
    · split
      · rename_i hsemicolon
        exact .pure ⟨r.at_succ_of_isPunct h hsemicolon (by decide),
          fun _ hmembers => hmembers.mono (Nat.le_succ index)⟩
      · simp only
        split
        · exact .pure hnone
        · rename_i name hname
          have hskip := o.le_skipAnnotations index stop
          have hsome : (o.identifier (o.skipAnnotations index stop)).isSome = true := by
            rw [(Option.filter_eq_some_iff.mp hname).1]
            rfl
          obtain ⟨word, hword⟩ := word_of_identifier hsome
          have hat := r.at_succ_of_word (r.at_skipAnnotations h) hword
          have hend := r.at_enumEntryEnd hat
          have hle := o.le_enumEntryEnd (o.skipAnnotations index stop + 1) stop
          split
          · generalize o.enumEntryEnd (o.skipAnnotations index stop + 1) stop = next at hend hle ⊢
            refine (Safe.checkedSub (Q := (· = next - 1)) (by omega) rfl).bind ?_
            rintro last rfl
            have hlast : Last stop G index (next - 1) := by
              have hnext := hend.le
              refine ⟨by omega, by omega, ?_⟩
              rw [Nat.sub_add_cancel (by omega)]
              exact hend.cut
            have hafter : At stop G
                (if next < stop ∧ o.isPunct next [','] then next + 1 else next) ∧
                next ≤ (if next < stop ∧ o.isPunct next [','] then next + 1 else next) := by
              split
              · rename_i hcomma
                exact ⟨r.at_succ_of_isPunct hend hcomma.2 (by decide), Nat.le_succ next⟩
              · exact ⟨hend, Nat.le_refl next⟩
            generalize (if next < stop ∧ o.isPunct next [','] then next + 1 else next) = after
              at hafter ⊢
            refine (ih (stop - after) (by omega) hafter.1 rfl).bind fun found hfound => .pure ?_
            refine ⟨hfound.1, fun members hmembers => ?_⟩
            have hrest := (hfound.2 members hmembers).mono (show next - 1 + 1 ≤ after by omega)
            exact .cons (Nat.le_refl index) h.cut (begins_field hlast [name]).2 hrest
          · exact .pure hnone
    · exact .pure hnone

/-- **The members of a scope lie behind one another.** -/
theorem listed_scanMembers {start : Nat} (h : At stop G start) (owner : Option Str)
    (isEnum : Bool) : Safe (o.scanMembers start stop owner isEnum) (Listed o stop G start) := by
  have hentries : Safe (if isEnum then o.scanEnumEntries stop start else some ([], start))
      fun found => At stop G found.2 ∧ ∀ members, Listed o stop G found.2 members →
        Listed o stop G start (found.1 ++ members) := by
    cases isEnum with
    | true => exact r.listed_scanEnumEntries h
    | false => exact .pure ⟨h, fun _ hmembers => hmembers⟩
  refine hentries.bind fun found hfound => ?_
  exact (r.listed_scanFrom hfound.1 owner).bind fun members hmembers =>
    .pure (hfound.2 members hmembers)

end Range

end SourceOutline

end MavenMcp.DeclarationSource
