/-
# Parameter lists that are cut off

`function_matches` answers `Possible` when the parameter list of a function does not end with `)`.
For a parenthesis without a partner `group_end` answers the last token of the scope, and that may
be a `)` of its own: an argument list inside of the parameters.  So a cut-off list is seen as such
exactly when its scope does not end with `)` (`cut_off_iff`).
-/
import MavenMcp.DeclarationSource.Bounds
import MavenMcp.DeclarationSource.Slices

namespace MavenMcp.DeclarationSource

open Text

namespace SourceOutline

variable {o : SourceOutline}

/-- A function that `locate` may choose, from a scope that ends at `stop`: one of its members, or
the primary constructor of a type in it. -/
inductive Candidate (o : SourceOutline) (stop : Nat) : Member → FunctionDeclaration → Prop
  | function {start : Nat} {owner : Option Str} {isEnum : Bool} {members : List Member} {m : Member}
      {f : FunctionDeclaration} : Scanned o start stop owner isEnum →
      o.scanMembers start stop owner isEnum = some members → m ∈ members → m.kind = .function f →
      Candidate o stop m f
  | header {start : Nat} {owner : Option Str} {isEnum : Bool} {members header : List Member}
      {m m' : Member} {d : TypeDeclaration} {f : FunctionDeclaration} :
      Scanned o start stop owner isEnum → o.scanMembers start stop owner isEnum = some members →
      m ∈ members → m.kind = .type d → o.headerMembers d m = some header → m' ∈ header →
      m'.kind = .function f → Candidate o stop m' f

/-- The members of the type at the end of a path of names, as `locate` comes to them. -/
inductive Opened (o : SourceOutline) : List Str → List Member → Owners → Prop
  | file {members : List Member} : o.scanMembers 0 o.tokens.length none false = some members →
      Opened o [] members []
  | nested {path : List Str} {segment : Str} {members inner : List Member} {owners : Owners}
      {m : Member} {d : TypeDeclaration} : Opened o path members owners →
      members.filter (Member.isTypeNamed segment) = [m] → m.type? = some d →
      o.membersOf d m = some inner → Opened o (path ++ [segment]) inner (owners ++ [(d, m)])

/-- The parenthesis of a parameter list has no partner. -/
def isCutOff (o : SourceOutline) (f : FunctionDeclaration) : Prop :=
  o.closing f.parameters.1 = none

/-! ## 1. One candidate -/

theorem headerField_kind {isRecord : Bool} {part : Nat × Nat} {field : Option Member}
    (h : o.headerField isRecord part = some field) :
    ∀ m ∈ field, ∀ f, m.kind ≠ .function f := by
  rw [headerField] at h
  split at h
  · cases h
    intro m hm
    cases hm
  · obtain ⟨last, -, h⟩ := Option.bind_eq_some_iff.mp h
    cases h
    intro m hm f hf
    cases hm
    cases hf

/-- The only function of a header is the primary constructor. -/
theorem parameters_of_header {d : TypeDeclaration} {m m' : Member} {header : List Member}
    {f : FunctionDeclaration} (h : o.headerMembers d m = some header) (hm : m' ∈ header)
    (hf : m'.kind = .function f) : d.primaryParameters = some f.parameters := by
  rw [headerMembers] at h
  split at h
  · cases h
    cases hm
  · rename_i opening close hp
    obtain ⟨fields, hfields, h⟩ := Option.bind_eq_some_iff.mp h
    have hnot : ∀ field ∈ fields, ∀ f, field.kind ≠ .function f := by
      obtain ⟨answers, hanswers, rfl⟩ := Option.map_eq_some_iff.mp hfields
      intro field hfield
      obtain ⟨answer, hanswer, hsome⟩ := List.mem_filterMap.mp hfield
      obtain ⟨part, -, hpart⟩ := Safe.mem_of_mapM hanswers answer hanswer
      exact headerField_kind hpart field hsome
    split at h
    · cases h
      exact absurd hf (hnot m' hm f)
    · cases h
      cases hm with
      | head =>
        cases hf
        exact hp
      | tail _ hm => exact absurd hf (hnot m' hm f)

theorem Candidate.parameters (hn : Nested o.tokens o.closing) {stop : Nat} {m : Member}
    {f : FunctionDeclaration} (h : Candidate o stop m f) :
    m.kind = .function f ∧ Parameters o stop f.parameters := by
  cases h with
  | function hs hmembers hm hf =>
    obtain ⟨hrange, hat⟩ := hs.range hn
    have houtlined := ((hrange.listed_scanMembers hat _ _).answer hmembers).mem m hm
    exact ⟨hf, houtlined.2.2.function f hf⟩
  | @header _ _ _ _ _ m' _ d _ hs hmembers hm hd hheader hm' hf =>
    obtain ⟨hrange, hat⟩ := hs.range hn
    have houtlined := ((hrange.listed_scanMembers hat _ _).answer hmembers).mem m' hm
    have hp := parameters_of_header hheader hm' hf
    exact ⟨hf, (houtlined.2.2.header d hd _ hp).1⟩

/-- **A candidate that is cut off is possible exactly when its scope does not end with `)`.** -/
theorem possible_iff (hn : Nested o.tokens o.closing) {stop : Nat} {m : Member}
    {f : FunctionDeclaration} (h : Candidate o stop m f) (hcut : o.isCutOff f) (u : Unicode)
    (owners : Owners) (expected : List ErasedType) :
    o.functionMatches u m owners expected = .possible ↔ o.isPunct (stop - 1) [')'] = false := by
  obtain ⟨hf, hparameters⟩ := h.parameters hn
  have hopener : o.isOpener f.parameters.1 = true :=
    isPunctOf_iff.mpr ⟨['('], by decide, hparameters.parenthesis⟩
  have hend : f.parameters.2 = stop - 1 := by
    have hlt := hparameters.lt
    rw [hparameters.close, groupEnd, if_pos hopener, hcut, Option.filter_none, Option.getD_none,
      Nat.max_eq_left (by omega)]
  rw [functionMatches, hf]
  simp only [hend]
  cases o.isPunct (stop - 1) [')'] with
  | false => simp only [if_true]
  | true =>
    simp only [Bool.true_eq_false, if_false, iff_false]
    split
    · intro heq
      cases heq
    · intro heq
      cases heq

/-! ## 2. All candidates of a name -/

theorem function_of_isFunctionNamed {name : Str} {m : Member}
    (h : Member.isFunctionNamed name m = true) : ∃ f, m.kind = .function f := by
  rw [Member.isFunctionNamed] at h
  split at h
  · rename_i f hf
    exact ⟨f, hf⟩
  · cases h

/-- The functions of a type are candidates. -/
theorem candidate_of_membersOf {m : Member} (hm : Known o m) {d : TypeDeclaration}
    (hd : m.kind = .type d) {inner : List Member} (hinner : o.membersOf d m = some inner)
    {m' : Member} (hm' : m' ∈ inner) {f : FunctionDeclaration} (hf : m'.kind = .function f) :
    ∃ stop, Candidate o stop m' f := by
  obtain ⟨start, stop, owner, isEnum, members, hs, hmembers, hmem⟩ := hm.type d hd
  obtain ⟨header, hheader, h⟩ := Option.bind_eq_some_iff.mp hinner
  split at h
  · cases h
    exact ⟨stop, .header hs hmembers hmem hd hheader hm' hf⟩
  · rename_i opening close hbody
    obtain ⟨scanned, hscanned, h⟩ := Option.bind_eq_some_iff.mp h
    cases h
    rcases List.mem_append.mp hm' with hm' | hm'
    · exact ⟨stop, .header hs hmembers hmem hd hheader hm' hf⟩
    · exact ⟨close, .function (.body hs hmembers hmem hd hbody) hscanned hm' hf⟩

theorem Opened.known (hn : Nested o.tokens o.closing) {path : List Str} {members : List Member}
    {owners : Owners} (h : Opened o path members owners) : ∀ m ∈ members, Known o m := by
  induction h with
  | file hmembers => exact (Scanned.file.known hn).answer hmembers
  | nested _ hfilter hd hinner ih =>
    have hmem := List.mem_filter.mp (hfilter.symm ▸ List.mem_cons_self)
    exact (membersOf_spec hn (ih _ hmem.1) (Member.kind_of_type hd)).answer hinner

theorem Opened.candidate (hn : Nested o.tokens o.closing) {path : List Str}
    {members : List Member} {owners : Owners} (h : Opened o path members owners) :
    ∀ m ∈ members, ∀ f, m.kind = .function f → ∃ stop, Candidate o stop m f := by
  cases h with
  | file hmembers => exact fun m hm f hf => ⟨_, .function .file hmembers hm hf⟩
  | nested hopened hfilter hd hinner =>
    have hmem := List.mem_filter.mp (hfilter.symm ▸ List.mem_cons_self)
    exact fun m hm f hf => candidate_of_membersOf (hopened.known hn _ hmem.1)
      (Member.kind_of_type hd) hinner hm hf

/-- What `direct_or_companion` finds are candidates. -/
theorem candidate_of_found (hn : Nested o.tokens o.closing) {path : List Str}
    {members found : List Member} {owners : Owners} (h : Opened o path members owners)
    {name : Str} (hfound : o.directOrCompanion members (Member.isFunctionNamed name) = some found) :
    ∀ m ∈ found, ∃ stop f, Candidate o stop m f := by
  intro m hm
  rw [directOrCompanion] at hfound
  split at hfound
  · cases hfound
    obtain ⟨hmem, hname⟩ := List.mem_filter.mp hm
    obtain ⟨f, hf⟩ := function_of_isFunctionNamed hname
    obtain ⟨stop, hcandidate⟩ := h.candidate hn m hmem f hf
    exact ⟨stop, f, hcandidate⟩
  · obtain ⟨lists, hlists, hfound⟩ := Option.bind_eq_some_iff.mp hfound
    cases hfound
    obtain ⟨hmem, hname⟩ := List.mem_filter.mp hm
    obtain ⟨f, hf⟩ := function_of_isFunctionNamed hname
    obtain ⟨list, hlist, hmem⟩ := List.mem_flatten.mp hmem
    obtain ⟨companion, hcompanion, hlist⟩ := Safe.mem_of_mapM hlists list hlist
    rw [companionMembers] at hlist
    split at hlist
    · rename_i d hd
      split at hlist
      · obtain ⟨stop, hcandidate⟩ := candidate_of_membersOf (h.known hn companion hcompanion)
          (Member.kind_of_type hd) hlist hmem hf
        exact ⟨stop, f, hcandidate⟩
      · cases hlist
        cases hmem
    · cases hlist
      cases hmem

/-- The declarations of a name that `locate` looks at in a class. -/
def Considered (o : SourceOutline) (className name : Str) (found : List Member) : Prop :=
  ∃ path members owners, nestedTypePath className = some path ∧ Opened o path members owners ∧
    o.directOrCompanion members (Member.isFunctionNamed name) = some found

variable {u : Unicode}

/-- `locate` finds a method among the members of the type that the class name leads to. -/
theorem opened_of_locateIn {candidate : DeclarationCandidate} {isCompilerGenerated : Bool}
    (hkind : candidate.kind = .method) {s : SourceSlice} {before path : List Str}
    {members : List Member} {owners : Owners} (hopened : Opened o before members owners)
    (h : o.locateIn u candidate isCompilerGenerated path members owners = some (.found s)) :
    ∃ members owners, Opened o (before ++ path) members owners ∧
      o.locateFunction u members owners candidate isCompilerGenerated = some (.found s) := by
  induction path generalizing before members owners with
  | nil =>
    rw [locateIn] at h
    split at h
    · cases h
    · rw [hkind] at h
      exact ⟨members, owners, by rwa [List.append_nil], h⟩
  | cons segment path ih =>
    rw [locateIn] at h
    split at h
    · rename_i m hm
      split at h
      · cases h
      · rename_i d hd
        obtain ⟨inner, hinner, h⟩ := Option.bind_eq_some_iff.mp h
        obtain ⟨members', owners', hopened', hfunction⟩ := ih (hopened.nested hm hd hinner) h
        rw [List.append_assoc] at hopened'
        exact ⟨members', owners', hopened', hfunction⟩
    · exact absurd h not_found_of_unresolvedMembers

/-- **With a descriptor, `locate` finds nothing beside a declaration that may be meant.** -/
theorem none_possible_of_locate {className : Str} {candidate : DeclarationCandidate}
    {isCompilerGenerated : Bool} {s : SourceSlice} (hkind : candidate.kind = .method)
    (hdescriptor : candidate.descriptor.isSome = true)
    (h : o.locate u className candidate isCompilerGenerated = some (.found s)) :
    ∃ found owners expected, Considered o className candidate.name found ∧
      (∃ m ∈ found, o.slice m.start m.stop = some s) ∧
      ∀ m ∈ found, o.functionMatches u m owners expected ≠ .possible := by
  rw [locate] at h
  split at h
  · cases h
  · rename_i path hpath
    obtain ⟨members, hmembers, h⟩ := Option.bind_eq_some_iff.mp h
    obtain ⟨members, owners, hopened, h⟩ := opened_of_locateIn hkind (.file hmembers) h
    obtain ⟨found, hfound, h⟩ := Option.bind_eq_some_iff.mp h
    have hconsidered : Considered o className candidate.name found :=
      ⟨path, members, owners, hpath, hopened, hfound⟩
    split at h
    · cases h
    · split at h
      · exact absurd h not_found_of_unproven
      · split at h
        · rename_i hnone
          rw [hnone] at hdescriptor
          cases hdescriptor
        · split at h
          · exact absurd h not_found_of_unproven
          · rename_i expected _
            rw [resolveOverload] at h
            split at h
            · rename_i m hproven hpossible
              have hm := List.mem_filter.mp (hproven.symm ▸ List.mem_cons_self)
              refine ⟨found, owners, expected, hconsidered, ⟨m, hm.1, slice_of_found h⟩, ?_⟩
              intro m' hm' hmatches
              have hmem : m' ∈ found.filter fun member =>
                  o.functionMatches u member owners expected = .possible :=
                List.mem_filter.mpr ⟨hm', decide_eq_true hmatches⟩
              rw [hpossible] at hmem
              cases hmem
            · exact absurd h not_found_of_unproven
            · exact absurd h not_found_of_unresolvedMembers

/-- No scope that cuts off the parameters of a candidate ends with `)`. -/
def EndsOpen (o : SourceOutline) : Prop :=
  ∀ stop m f, Candidate o stop m f → o.isCutOff f → o.isPunct (stop - 1) [')'] = false

end SourceOutline

/-- **A declaration that is cut off proves nothing, exactly when no scope that cuts one off ends
with `)`**: then it is possible for every descriptor, and `locate` finds with a descriptor only
among declarations none of which is cut off. -/
theorem cut_off_iff (u : Unicode) (source : Str) (language : SourceLanguage) :
    ((∀ stop m f, SourceOutline.Candidate (SourceOutline.parse u source language) stop m f →
        (SourceOutline.parse u source language).isCutOff f → ∀ owners expected,
        (SourceOutline.parse u source language).functionMatches u m owners expected = .possible) ∧
      ∀ (className : Str) (candidate : DeclarationCandidate) (isCompilerGenerated : Bool)
        (s : SourceSlice), candidate.kind = .method → candidate.descriptor.isSome = true →
        (SourceOutline.parse u source language).locate u className candidate isCompilerGenerated
          = some (.found s) →
        ∃ found, (SourceOutline.parse u source language).Considered className candidate.name found ∧
          (∃ m ∈ found, (SourceOutline.parse u source language).slice m.start m.stop = some s) ∧
          ∀ m ∈ found, ∀ f, m.kind = .function f →
            ¬ (SourceOutline.parse u source language).isCutOff f) ↔
      (SourceOutline.parse u source language).EndsOpen := by
  have hn := SourceOutline.parse_nested u source language
  generalize SourceOutline.parse u source language = o at hn ⊢
  constructor
  · rintro ⟨hpossible, -⟩ stop m f hcandidate hcut
    exact (SourceOutline.possible_iff hn hcandidate hcut u [] []).mp
      (hpossible stop m f hcandidate hcut [] [])
  · intro hends
    have hpossible : ∀ stop m f, SourceOutline.Candidate o stop m f → o.isCutOff f →
        ∀ owners expected, o.functionMatches u m owners expected = .possible :=
      fun stop m f hcandidate hcut owners expected =>
        (SourceOutline.possible_iff hn hcandidate hcut u owners expected).mpr
          (hends stop m f hcandidate hcut)
    refine ⟨hpossible, fun className candidate isCompilerGenerated s hkind hdescriptor h => ?_⟩
    obtain ⟨found, owners, expected, hconsidered, hslice, hnone⟩ :=
      SourceOutline.none_possible_of_locate hkind hdescriptor h
    refine ⟨found, hconsidered, hslice, fun m hm f hf hcut => ?_⟩
    obtain ⟨path, members, owners', -, hopened, hfound⟩ := hconsidered
    obtain ⟨stop, f', hcandidate⟩ := SourceOutline.candidate_of_found hn hopened hfound m hm
    have hf' := (hcandidate.parameters hn).1
    rw [hf] at hf'
    cases hf'
    exact hnone m hm (hpossible stop m f hcandidate hcut owners expected)

/-- A text that is cut off behind the argument of an annotation, in the second of two overloads. -/
def cutOffText : Str := "class A\x7bvoid f(int a)\x7b\x7dvoid f(int a,@B(x)".toList

/-- The second overload of the text has no closing parenthesis, yet it is excluded, and the first
one is found as if it were the only one. -/
theorem cut_off_excluded :
    (SourceOutline.parse .asciiOnly cutOffText .java).closing 13 = none ∧
    ((SourceOutline.parse .asciiOnly cutOffText .java).scanMembers 3 22 (some ['A']) false).map
        (List.map fun m => (m.start,
          (SourceOutline.parse .asciiOnly cutOffText .java).functionMatches
          .asciiOnly m [] [{ name := "int".toList, dimensions := 0 }]))
      = some [(3, .proven), (11, .excluded)] ∧
    (SourceOutline.parse .asciiOnly cutOffText .java).locate .asciiOnly "A".toList
        { kind := .method, name := "f".toList, descriptor := some "(I)V".toList } false
      = some (.found { startLine := 1, endLine := 1, source := cutOffText }) := by
  decide +kernel

end MavenMcp.DeclarationSource
