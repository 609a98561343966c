/-
# The outline never fails

Every scope that `locate` scans is `Scanned`: the file, or the body of a type in a scanned scope.
All of them are ranges, so the scanner stays inside of them (`scanMembers_within`), and with it the
way from a class name to a slice does not panic on any text (`locate_safe`).
-/
import MavenMcp.DeclarationSource.Scopes

namespace MavenMcp.DeclarationSource

open Text

theorem Member.kind_of_type {m : Member} {d : TypeDeclaration} (h : m.type? = some d) :
    m.kind = .type d := by
  rw [Member.type?] at h
  split at h
  · rename_i hkind
    cases h
    exact hkind
  · cases h

namespace SourceOutline

variable {o : SourceOutline}

/-- The ranges that `scan_members` is called with: the file, and the bodies of types. -/
inductive Scanned (o : SourceOutline) : Nat → Nat → Option Str → Bool → Prop
  | file : Scanned o 0 o.tokens.length none false
  | body {start stop opening close : Nat} {owner : Option Str} {isEnum : Bool}
      {members : List Member} {m : Member} {d : TypeDeclaration} :
      Scanned o start stop owner isEnum → o.scanMembers start stop owner isEnum = some members →
      m ∈ members → m.kind = .type d → d.body = some (opening, close) →
      Scanned o (opening + 1) close (some d.name) d.isEnum

theorem parse_nested (u : Unicode) (source : Str) (language : SourceLanguage) :
    Nested (parse u source language).tokens (parse u source language).closing :=
  matchBrackets_nested _

/-! ## 1. Scanned scopes are ranges -/

/-- Any position may begin a step. -/
abbrev Anywhere : Nat → Prop := fun _ => True

theorem range_file (h : Nested o.tokens o.closing) : Range o o.tokens.length Anywhere where
  nested := h
  stop_le := Nat.le_refl _
  barrier hlt := absurd hlt (Nat.lt_irrefl _)
  next _ _ _ := trivial

/-- A body ends at its closing brace, or with its range. -/
theorem Range.body {stop : Nat} {G : Nat → Prop} (r : Range o stop G) {body : Nat × Nat}
    (h : Body o stop G body) :
    Range o body.2 Anywhere ∧ body.1 + 1 ≤ body.2 := by
  obtain ⟨opening, close⟩ := body
  have hlt := r.lt_of_isPunct h.position.le h.brace (by decide)
  have hopener : o.isOpener opening = true := isPunctOf_iff.mpr ⟨['{'], by decide, h.brace⟩
  have hclose := h.close
  cases hfilter : (o.closing opening).filter fun close => close < stop with
  | none =>
    rw [hfilter, Option.getD_none] at hclose
    cases hclose
    exact ⟨⟨r.nested, r.stop_le, r.barrier, fun _ _ _ => trivial⟩, hlt⟩
  | some c =>
    rw [hfilter, Option.getD_some] at hclose
    cases hclose
    obtain ⟨hclosing, -⟩ := Option.filter_eq_some_iff.mp hfilter
    have hforward := r.lt_of_closing hopener hclosing
    obtain ⟨first, last, hpair⟩ := r.nested.pair opening close hclosing hforward
    obtain ⟨token, htoken, -, htext⟩ := isPunct_iff.mp h.brace
    have hfirst := hpair.firstAt
    rw [htoken] at hfirst
    cases hfirst
    have hbrace : o.isPunct close ['}'] = true := by
      refine isPunct_iff.mpr ⟨last, hpair.lastAt, hpair.kinds.2, ?_⟩
      have hopens := hpair.opener
      rw [htext, openerOf] at hopens
      split at hopens
      · cases hopens
      · split at hopens
        · cases hopens
        · split at hopens
          · assumption
          · cases hopens
    exact ⟨⟨r.nested, Nat.le_of_lt (o.lt_length_of_isPunct hbrace), fun _ => hbrace,
      fun _ _ _ => trivial⟩, hforward⟩

theorem Scanned.range (h : Nested o.tokens o.closing) {start stop : Nat} {owner : Option Str}
    {isEnum : Bool} (hs : Scanned o start stop owner isEnum) :
    Range o stop Anywhere ∧ At stop Anywhere start := by
  induction hs with
  | file => exact ⟨range_file h, Nat.zero_le _, trivial⟩
  | body _ hmembers hm hkind hbody ih =>
    have hlisted := (ih.1.listed_scanMembers ih.2 _ _).answer hmembers
    obtain ⟨hrange, hle⟩ := ih.1.body ((hlisted.mem _ hm).2.2.body _ hkind _ hbody)
    exact ⟨hrange, hle, trivial⟩

/-! ## 2. Members of known scopes -/

theorem splitFrom_le {close start depth index : Nat} :
    ∀ part ∈ o.splitFrom close start depth index, part.2 ≤ close := by
  fun_induction o.splitFrom close start depth index with
  | case1 _ _ _ _ _ _ ih | case2 _ _ _ _ _ _ _ ih | case4 _ _ _ _ _ _ _ _ ih => exact ih
  | case3 start depth index hi _ _ _ _ ih =>
    intro part hpart
    cases hpart with
    | head => exact Nat.le_of_lt hi
    | tail _ hpart => exact ih part hpart
  | case5 start depth index _ =>
    intro part hpart
    cases List.mem_singleton.mp hpart
    exact Nat.le_refl close

theorem splitList_bounds {opening close : Nat} {part : Nat × Nat}
    (h : part ∈ o.splitList opening close) : part.1 < part.2 ∧ part.2 ≤ close := by
  obtain ⟨hmem, hlt⟩ := List.mem_filter.mp h
  exact ⟨of_decide_eq_true hlt, splitFrom_le part hmem⟩

/-- A member that `locate` may look at: it lies in the text, and a type comes from the scanner. -/
structure Known (o : SourceOutline) (m : Member) : Prop where
  start : m.start < o.tokens.length
  stop : m.stop < o.tokens.length
  type : ∀ d, m.kind = .type d → ∃ start stop owner isEnum members,
    Scanned o start stop owner isEnum ∧ o.scanMembers start stop owner isEnum = some members ∧
      m ∈ members

theorem Scanned.known (h : Nested o.tokens o.closing) {start stop : Nat} {owner : Option Str}
    {isEnum : Bool} (hs : Scanned o start stop owner isEnum) :
    Safe (o.scanMembers start stop owner isEnum) fun members => ∀ m ∈ members, Known o m := by
  obtain ⟨hrange, hat⟩ := hs.range h
  obtain ⟨members, hmembers, hlisted⟩ := hrange.listed_scanMembers hat owner isEnum
  refine ⟨members, hmembers, fun m hm => ?_⟩
  have hlast := (hlisted.mem m hm).2.2.last
  have hle := hlast.le
  have hlt := hlast.lt
  have hstop := hrange.stop_le
  exact ⟨by omega, by omega, fun _ _ => ⟨start, stop, owner, isEnum, members, hs, hmembers, hm⟩⟩

theorem headerField_spec (isRecord : Bool) {part : Nat × Nat} (hlt : part.1 < part.2)
    (hle : part.2 ≤ o.tokens.length) :
    Safe (o.headerField isRecord part) fun field => ∀ m ∈ field, Known o m := by
  rw [headerField]
  split
  · refine .pure fun m hm => ?_
    cases hm
  · refine (Safe.checkedSub (Q := (· = part.2 - 1)) (by omega) rfl).bind ?_
    rintro last rfl
    refine .pure fun m hm => ?_
    cases hm
    refine ⟨Nat.lt_of_lt_of_le hlt hle, Nat.lt_of_lt_of_le (Nat.sub_lt (by omega) (by omega)) hle,
      fun d hd => ?_⟩
    cases hd

theorem headerMembers_spec (h : Nested o.tokens o.closing) {m : Member} (hm : Known o m)
    {d : TypeDeclaration} (hd : m.kind = .type d) :
    Safe (o.headerMembers d m) fun members => ∀ m ∈ members, Known o m := by
  obtain ⟨start, stop, owner, isEnum, members, hs, hmembers, hmem⟩ := hm.type d hd
  obtain ⟨hrange, hat⟩ := hs.range h
  have houtlined := ((hrange.listed_scanMembers hat _ _).answer hmembers).mem m hmem
  rw [headerMembers]
  split
  · exact .pure nofun
  · rename_i opening close hp
    obtain ⟨hparameters, -⟩ := houtlined.2.2.header d hd _ hp
    have hclose : close < o.tokens.length := by
      have hend := o.groupEnd_lt hparameters.lt
      rw [← hparameters.close] at hend
      exact Nat.lt_of_lt_of_le hend hrange.stop_le
    have hfields : Safe (o.headerFields opening close d.isRecord)
        fun fields => ∀ m ∈ fields, Known o m := by
      have hparts : Safe ((o.splitList opening close).mapM (o.headerField d.isRecord))
          fun fields => ∀ field ∈ fields, ∀ m ∈ field, Known o m := by
        refine Safe.mapM fun part hpart => ?_
        obtain ⟨hlt, hle⟩ := splitList_bounds hpart
        exact headerField_spec d.isRecord hlt (by omega)
      refine hparts.map fun fields hfields field hfield => ?_
      obtain ⟨answer, hanswer, hsome⟩ := List.mem_filterMap.mp hfield
      exact hfields answer hanswer field hsome
    refine hfields.bind fun fields hfields => ?_
    split
    · exact .pure hfields
    · refine .pure fun field hfield => ?_
      cases hfield with
      | head => exact ⟨hm.start, hclose, nofun⟩
      | tail _ hfield => exact hfields field hfield

theorem membersOf_spec (h : Nested o.tokens o.closing) {m : Member} (hm : Known o m)
    {d : TypeDeclaration} (hd : m.kind = .type d) :
    Safe (o.membersOf d m) fun members => ∀ m ∈ members, Known o m := by
  refine (headerMembers_spec h hm hd).bind fun header hheader => ?_
  split
  · exact .pure hheader
  · rename_i opening close hbody
    obtain ⟨start, stop, owner, isEnum, members, hs, hmembers, hmem⟩ := hm.type d hd
    have hscope := Scanned.body hs hmembers hmem hd hbody
    refine (hscope.known h).bind fun inner hinner => .pure fun field hfield => ?_
    rcases List.mem_append.mp hfield with hfield | hfield
    · exact hheader field hfield
    · exact hinner field hfield

/-! ## 3. Locating -/

theorem safe_slice {start stop : Nat} (hstart : start < o.tokens.length)
    (hstop : stop < o.tokens.length) : Safe (o.slice start stop) fun _ => True := by
  refine (Safe.get hstart).bind fun first _ => (Safe.get hstop).bind fun last _ => ?_
  refine (Safe.checkedSub (Q := fun _ => True) (Nat.le_max_right _ _) trivial).bind fun _ _ => ?_
  exact .pure trivial

theorem safe_found {m : Member} (hm : Known o m) :
    Safe ((o.slice m.start m.stop).map SliceOutcome.found) fun _ => True :=
  (safe_slice hm.start hm.stop).map fun _ _ => trivial

theorem safe_memberLines {members : List Member} (h : ∀ m ∈ members, Known o m) :
    Safe (o.memberLines members) fun _ => True := by
  have hlines : Safe (members.mapM fun member => do
      let token ← o.tokens[member.start]?
      some (token.line + 1)) fun lines => ∀ line ∈ lines, True :=
    Safe.mapM fun m hm => (Safe.get (h m hm).start).bind fun _ _ => .pure trivial
  exact hlines.bind fun _ _ => .pure trivial

theorem safe_unresolvedMembers {members : List Member} (h : ∀ m ∈ members, Known o m) :
    Safe (o.unresolvedMembers members) fun _ => True := by
  rw [unresolvedMembers]
  split
  · exact .pure trivial
  · exact (safe_memberLines h).bind fun _ _ => .pure trivial

theorem safe_unproven {members : List Member} (h : ∀ m ∈ members, Known o m) :
    Safe ((o.memberLines members).map (SliceOutcome.unresolved .unproven)) fun _ => True :=
  (safe_memberLines h).map fun _ _ => trivial

theorem directOrCompanion_spec (hn : Nested o.tokens o.closing) {members : List Member}
    (h : ∀ m ∈ members, Known o m) (accept : Member → Bool) :
    Safe (o.directOrCompanion members accept) fun found => ∀ m ∈ found, Known o m := by
  rw [directOrCompanion]
  split
  · exact .pure fun m hm => h m (List.mem_filter.mp hm).1
  · have hcompanions : Safe (members.mapM o.companionMembers)
        fun lists => ∀ list ∈ lists, ∀ m ∈ list, Known o m := by
      refine Safe.mapM fun m hm => ?_
      rw [companionMembers]
      split
      · rename_i d hd
        split
        · exact membersOf_spec hn (h m hm) (Member.kind_of_type hd)
        · exact .pure nofun
      · exact .pure nofun
    refine hcompanions.bind fun lists hlists => .pure fun m hm => ?_
    obtain ⟨list, hlist, hmem⟩ := List.mem_flatten.mp (List.mem_filter.mp hm).1
    exact hlists list hlist m hmem

variable (u : Unicode)

theorem safe_locateField (hn : Nested o.tokens o.closing) {members : List Member}
    (h : ∀ m ∈ members, Known o m) (name : Str) :
    Safe (o.locateField members name) fun _ => True := by
  refine (directOrCompanion_spec hn h _).bind fun found hfound => ?_
  split
  · exact safe_found (hfound _ List.mem_cons_self)
  · exact safe_unresolvedMembers hfound

theorem safe_resolveOverload {found : List Member} (h : ∀ m ∈ found, Known o m) (owners : Owners)
    (expected : List ErasedType) :
    Safe (o.resolveOverload u owners expected found) fun _ => True := by
  have hfilter (p : Member → Bool) : ∀ m ∈ found.filter p, Known o m :=
    fun m hm => h m (List.mem_filter.mp hm).1
  rw [resolveOverload]
  split
  · rename_i member hproven _
    exact safe_found (hfilter _ member (by rw [hproven]; exact List.mem_cons_self))
  · exact safe_unproven h
  · refine safe_unresolvedMembers fun m hm => ?_
    rcases List.mem_append.mp hm with hm | hm
    · exact hfilter _ m hm
    · exact hfilter _ m hm

theorem safe_locateFunction (hn : Nested o.tokens o.closing) {members : List Member}
    (h : ∀ m ∈ members, Known o m) (owners : Owners) (candidate : DeclarationCandidate)
    (isCompilerGenerated : Bool) :
    Safe (o.locateFunction u members owners candidate isCompilerGenerated) fun _ => True := by
  refine (directOrCompanion_spec hn h _).bind fun found hfound => ?_
  split
  · exact .pure trivial
  · split
    · exact safe_unproven hfound
    · split
      · split
        · exact safe_found (hfound _ List.mem_cons_self)
        · exact safe_unresolvedMembers hfound
      · split
        · exact safe_unproven hfound
        · exact safe_resolveOverload u hfound owners _

theorem safe_locateIn (hn : Nested o.tokens o.closing) (candidate : DeclarationCandidate)
    (isCompilerGenerated : Bool) {path : List Str} {members : List Member} {owners : Owners}
    (h : ∀ m ∈ members, Known o m) (howners : ∀ owner ∈ owners, Known o owner.2) :
    Safe (o.locateIn u candidate isCompilerGenerated path members owners) fun _ => True := by
  induction path generalizing members owners with
  | nil =>
    rw [locateIn]
    split
    · exact .pure trivial
    · rename_i d owner howner
      split
      · exact safe_found (howners _ (List.mem_of_getLast? howner))
      · exact safe_locateField hn h _
      · exact safe_locateFunction u hn h owners candidate isCompilerGenerated
  | cons segment path ih =>
    have hfilter : ∀ m ∈ members.filter (Member.isTypeNamed segment), Known o m :=
      fun m hm => h m (List.mem_filter.mp hm).1
    rw [locateIn]
    split
    · rename_i member hmember
      have hknown := hfilter member (by rw [hmember]; exact List.mem_cons_self)
      split
      · exact .pure trivial
      · rename_i d hd
        have hkind := Member.kind_of_type hd
        refine (membersOf_spec hn hknown hkind).bind fun inner hinner => ih hinner ?_
        intro owner howner
        rcases List.mem_append.mp howner with howner | howner
        · exact howners owner howner
        · cases List.mem_singleton.mp howner
          exact hknown
    · exact safe_unresolvedMembers hfilter

/-- **`locate` never panics.** -/
theorem locate_safe (hn : Nested o.tokens o.closing) (className : Str)
    (candidate : DeclarationCandidate) (isCompilerGenerated : Bool) :
    Safe (o.locate u className candidate isCompilerGenerated) fun _ => True := by
  rw [locate]
  split
  · exact .pure trivial
  · refine (Scanned.file.known hn).bind fun members hmembers => ?_
    exact safe_locateIn u hn candidate isCompilerGenerated hmembers
      fun owner howner => absurd howner List.not_mem_nil

end SourceOutline

/-! ## 4. The outline of any text -/

/-- Members inside of a range, one behind the other. -/
structure Within (tokens start stop : Nat) (members : List Member) : Prop where
  inside : ∀ m ∈ members, start ≤ m.start ∧ m.start ≤ m.stop ∧ m.stop < stop ∧ m.stop < tokens
  disjoint : members.Pairwise fun m m' => m.stop < m'.start

/-- **The outline never fails**: on every text `locate` answers, and every scope is scanned to
members inside of it, one behind the other. -/
theorem outline_never_fails (u : Unicode) (source : Str) (language : SourceLanguage) :
    (∀ className candidate isCompilerGenerated,
      ((SourceOutline.parse u source language).locate u className candidate
        isCompilerGenerated).isSome = true) ∧
    ∀ start stop owner isEnum,
      SourceOutline.Scanned (SourceOutline.parse u source language) start stop owner isEnum →
      ∃ members, (SourceOutline.parse u source language).scanMembers start stop owner isEnum
          = some members ∧
        Within (SourceOutline.parse u source language).tokens.length start stop members := by
  have hn := SourceOutline.parse_nested u source language
  generalize SourceOutline.parse u source language = o at hn ⊢
  constructor
  · intro className candidate isCompilerGenerated
    exact (SourceOutline.locate_safe u hn className candidate isCompilerGenerated).isSome
  · intro start stop owner isEnum hs
    obtain ⟨hrange, hat⟩ := hs.range hn
    obtain ⟨members, hmembers, hlisted⟩ := hrange.listed_scanMembers hat owner isEnum
    refine ⟨members, hmembers, fun m hm => ?_, hlisted.pairwise⟩
    obtain ⟨hle, -, houtlined⟩ := hlisted.mem m hm
    exact ⟨hle, houtlined.last.le, houtlined.last.lt,
      Nat.lt_of_lt_of_le houtlined.last.lt hrange.stop_le⟩

end MavenMcp.DeclarationSource
