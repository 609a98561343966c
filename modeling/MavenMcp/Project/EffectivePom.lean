/-
# Effective POMs

Before `parse_effective_pom` decodes what Maven wrote, `effective_pom_root` looks for the root
element among the events of the XML reader.  It keeps the root found so far and the number of open
elements.  `effectivePomRoot_ok_iff`: that is enough to accept the documents with one root element,
and no other sequence of events.

What is decoded is sorted, lists within lists.  `parseEffectivePom_canonical`: the answer does not
depend on the order in which Maven lists projects, dependencies, exclusions and plugins.
-/
import MavenMcp.Config
import MavenMcp.Lib.Orders
import MavenMcp.Paths
import MavenMcp.Redaction.Rules

namespace MavenMcp

/-! ## 1. The search -/

/-- The events of `quick_xml::Reader`, as far as they are told apart; names without a prefix. -/
inductive PomEvent
  | start (name : Str)
  | empty (name : Str)
  | ended
  | text (text : Str)
  /-- `CData` or `GeneralRef`. -/
  | content
  /-- A comment, a declaration, a processing instruction or a document type. -/
  | other
deriving DecidableEq, Repr

inductive PomRootError
  /-- An error of the reader. -/
  | malformed
  /-- `effective POM contains multiple root elements` -/
  | multipleRoots
  /-- `unexpected effective POM end tag` -/
  | unexpectedEnd
  /-- `effective POM contains text outside the root element` -/
  | textOutside
  /-- `effective POM contains content outside the root element` -/
  | contentOutside
  /-- `effective POM contains unclosed elements` -/
  | unclosed
  /-- `effective POM contains no root element` -/
  | noRoot
deriving DecidableEq, Repr

/-- The root found so far, and the elements that are open. -/
structure RootSearch where
  root : Option Str
  depth : Nat
deriving DecidableEq, Repr

def isXmlSpace (c : Char) : Bool := c = ' ' || c = '\t' || c = '\r' || c = '\n'

/-- An element begins. -/
def RootSearch.enter (s : RootSearch) (name : Str) : Except PomRootError RootSearch :=
  if s.depth = 0 then
    if s.root.isSome then .error .multipleRoots else .ok { s with root := some name }
  else .ok s

/-- One round of the loop; `none` is an error of the reader. -/
def RootSearch.round (s : RootSearch) : Option PomEvent → Except PomRootError RootSearch
  | none => .error .malformed
  | some (.start name) => (s.enter name).map fun s => { s with depth := s.depth + 1 }
  | some (.empty name) => s.enter name
  | some .ended =>
    if s.depth = 0 then .error .unexpectedEnd else .ok { s with depth := s.depth - 1 }
  | some (.text text) =>
    if s.depth = 0 ∧ !text.all isXmlSpace then .error .textOutside else .ok s
  | some .content => if s.depth = 0 then .error .contentOutside else .ok s
  | some .other => .ok s

/-- The end of the file. -/
def RootSearch.finish (s : RootSearch) : Except PomRootError Str :=
  if s.depth ≠ 0 then .error .unclosed
  else
    match s.root with
    | none => .error .noRoot
    | some root => .ok root

/-- `effective_pom_root`, on the events before the end of the file. -/
def effectivePomRoot (events : List (Option PomEvent)) : Except PomRootError Str :=
  (events.foldlM RootSearch.round { root := none, depth := 0 }).bind RootSearch.finish

/-! ## 2. Documents -/

/-- What may stand between the tags of an element. -/
inductive IsContent : List PomEvent → Prop
  | nil : IsContent []
  | empty {rest : List PomEvent} (name : Str) (hrest : IsContent rest) :
      IsContent (.empty name :: rest)
  | text {rest : List PomEvent} (text : Str) (hrest : IsContent rest) :
      IsContent (.text text :: rest)
  | content {rest : List PomEvent} (hrest : IsContent rest) : IsContent (.content :: rest)
  | other {rest : List PomEvent} (hrest : IsContent rest) : IsContent (.other :: rest)
  | element {inner rest : List PomEvent} (name : Str) (hinner : IsContent inner)
      (hrest : IsContent rest) : IsContent (.start name :: (inner ++ .ended :: rest))

inductive IsElement (name : Str) : List PomEvent → Prop
  | empty : IsElement name [.empty name]
  | tags {inner : List PomEvent} (hinner : IsContent inner) :
      IsElement name (.start name :: (inner ++ [.ended]))

/-- What may stand outside the root element. -/
def PomEvent.IsMisc : PomEvent → Prop
  | .text t => t.all isXmlSpace = true
  | .other => True
  | _ => False

/-- One root element of this name. -/
def IsDocument (name : Str) (events : List PomEvent) : Prop :=
  ∃ before element after, events = before ++ (element ++ after) ∧ (∀ e ∈ before, e.IsMisc) ∧
    IsElement name element ∧ ∀ e ∈ after, e.IsMisc

/-! ## 3. Documents are accepted -/

/-- The loop on a part of the events. -/
def RootSearch.run (s : RootSearch) (events : List (Option PomEvent)) :
    Except PomRootError RootSearch := events.foldlM RootSearch.round s

theorem run_cons {s s' : RootSearch} {event : Option PomEvent} (h : s.round event = .ok s')
    (events : List (Option PomEvent)) : s.run (event :: events) = s'.run events := by
  rw [RootSearch.run, List.foldlM_cons, h]
  rfl

theorem run_append {s s' : RootSearch} {a : List (Option PomEvent)} (h : s.run a = .ok s')
    (b : List (Option PomEvent)) : s.run (a ++ b) = s'.run b := by
  rw [RootSearch.run, List.foldlM_append, ← RootSearch.run, h]
  rfl

/-- Content leaves the state of an open element as it is. -/
theorem run_content {events : List PomEvent} (h : IsContent events) {s : RootSearch}
    (hopen : s.depth ≠ 0) : s.run (events.map some) = .ok s := by
  induction h generalizing s with
  | nil => rfl
  | empty name hrest ih =>
    have hround : s.round (some (.empty name)) = .ok s := if_neg hopen
    rw [List.map_cons, run_cons hround, ih hopen]
  | text text hrest ih =>
    have hround : s.round (some (.text text)) = .ok s := if_neg fun h => hopen h.1
    rw [List.map_cons, run_cons hround, ih hopen]
  | content hrest ih =>
    have hround : s.round (some .content) = .ok s := if_neg hopen
    rw [List.map_cons, run_cons hround, ih hopen]
  | other hrest ih =>
    have hround : s.round (some .other) = .ok s := rfl
    rw [List.map_cons, run_cons hround, ih hopen]
  | element name hinner hrest ihInner ihRest =>
    have hround : s.round (some (.start name)) = .ok { s with depth := s.depth + 1 } := by
      rw [RootSearch.round, RootSearch.enter, if_neg hopen]
      rfl
    have hended : ({ s with depth := s.depth + 1 } : RootSearch).round (some .ended) = .ok s := rfl
    rw [List.map_cons, run_cons hround, List.map_append,
      run_append (ihInner (Nat.succ_ne_zero _)), List.map_cons, run_cons hended, ihRest hopen]

theorem run_misc {events : List PomEvent} (h : ∀ e ∈ events, e.IsMisc) (s : RootSearch) :
    s.run (events.map some) = .ok s := by
  induction events with
  | nil => rfl
  | cons e events ih =>
    have hround : s.round (some e) = .ok s := by
      have hmisc := h e List.mem_cons_self
      cases e with
      | text t =>
        refine if_neg fun hcond => ?_
        rw [show t.all isXmlSpace = true from hmisc] at hcond
        exact Bool.noConfusion hcond.2
      | other => rfl
      | start name => cases hmisc
      | empty name => cases hmisc
      | ended => cases hmisc
      | content => cases hmisc
    rw [List.map_cons, run_cons hround, ih fun e he => h e (List.mem_cons_of_mem _ he)]

/-- The root element is found. -/
theorem run_element {name : Str} {events : List PomEvent} (h : IsElement name events) :
    RootSearch.run { root := none, depth := 0 } (events.map some)
      = .ok { root := some name, depth := 0 } := by
  cases h with
  | empty => rfl
  | tags hinner =>
    have hround : RootSearch.round { root := none, depth := 0 } (some (.start name))
        = .ok { root := some name, depth := 1 } := rfl
    rw [List.map_cons, run_cons hround, List.map_append,
      run_append (run_content hinner (Nat.succ_ne_zero 0))]
    rfl

/-! ## 4. Nothing else is accepted -/

theorem exists_of_run_cons {s t : RootSearch} {event : Option PomEvent}
    {events : List (Option PomEvent)} (h : s.run (event :: events) = .ok t) :
    ∃ s', s.round event = .ok s' ∧ s'.run events = .ok t := by
  rw [RootSearch.run, List.foldlM_cons] at h
  cases hround : s.round event with
  | error e =>
    rw [hround] at h
    cases h
  | ok s' =>
    rw [hround] at h
    exact ⟨s', rfl, h⟩

/-- What a run of an open element that ends with everything closed begins with: its content and its
end tag. -/
theorem closes {s t : RootSearch} {events : List (Option PomEvent)}
    (h : RootSearch.run { s with depth := s.depth + 1 } events = .ok t) (hclosed : t.depth = 0) :
    ∃ inner rest, events = inner.map some ++ some .ended :: rest ∧ IsContent inner ∧
      s.run rest = .ok t := by
  -- by the number of events: after a nested element the search goes on behind it
  obtain ⟨n, hn⟩ : ∃ n, events.length ≤ n := ⟨_, Nat.le_refl _⟩
  induction n generalizing s events with
  | zero =>
    obtain rfl := List.length_eq_zero_iff.mp (Nat.le_zero.mp hn)
    obtain rfl := Except.ok.inj h
    exact absurd hclosed (Nat.succ_ne_zero _)
  | succ n ih =>
    cases events with
    | nil =>
      obtain rfl := Except.ok.inj h
      exact absurd hclosed (Nat.succ_ne_zero _)
    | cons event events =>
      have hlength : events.length ≤ n := Nat.le_of_succ_le_succ hn
      obtain ⟨s', hround, hrun⟩ := exists_of_run_cons h
      have hleaf (e : PomEvent) (hcontent : ∀ rest, IsContent rest → IsContent (e :: rest))
          (hrun : RootSearch.run { s with depth := s.depth + 1 } events = .ok t) :
          ∃ inner rest, some e :: events = inner.map some ++ some .ended :: rest ∧
            IsContent inner ∧ s.run rest = .ok t := by
        obtain ⟨inner, rest, rfl, hinner, hrest⟩ := ih hrun hlength
        exact ⟨e :: inner, rest, rfl, hcontent inner hinner, hrest⟩
      cases event with
      | none => cases hround
      | some e =>
        cases e with
        | start name =>
          obtain rfl := Except.ok.inj hround
          obtain ⟨nested, after, rfl, hnested, hafter⟩ :=
            ih (s := { s with depth := s.depth + 1 }) hrun hlength
          have hshort : after.length ≤ n := by
            simp only [List.length_append, List.length_cons] at hlength
            omega
          obtain ⟨inner, rest, rfl, hinner, hrest⟩ := ih hafter hshort
          refine ⟨.start name :: (nested ++ .ended :: inner), rest, ?_,
            .element name hnested hinner, hrest⟩
          simp only [List.map_cons, List.map_append, List.cons_append, List.append_assoc]
        | empty name =>
          obtain rfl := Except.ok.inj hround
          exact hleaf _ (fun _ => .empty name) hrun
        | ended =>
          obtain rfl := Except.ok.inj hround
          exact ⟨[], events, rfl, .nil, hrun⟩
        | text t' =>
          have hsame : s' = { s with depth := s.depth + 1 } := by
            rw [RootSearch.round, if_neg fun h => Nat.succ_ne_zero _ h.1] at hround
            exact (Except.ok.inj hround).symm
          rw [hsame] at hrun
          exact hleaf _ (fun _ => .text t') hrun
        | content =>
          obtain rfl := Except.ok.inj hround
          exact hleaf _ (fun _ => .content) hrun
        | other =>
          obtain rfl := Except.ok.inj hround
          exact hleaf _ (fun _ => .other) hrun

/-- Outside the root element the search stays as it is, or the root element begins. -/
theorem round_outside {root : Option Str} {event : Option PomEvent} {s' : RootSearch}
    (h : RootSearch.round { root, depth := 0 } event = .ok s') :
    (∃ e, event = some e ∧ e.IsMisc ∧ s' = { root, depth := 0 }) ∨
      root = none ∧ ∃ name, (event = some (.empty name) ∧ s' = { root := some name, depth := 0 }) ∨
        (event = some (.start name) ∧ s' = { root := some name, depth := 1 }) := by
  cases event with
  | none => cases h
  | some e =>
    cases e with
    | start name =>
      cases root with
      | some root => cases h
      | none => exact .inr ⟨rfl, name, .inr ⟨rfl, (Except.ok.inj h).symm⟩⟩
    | empty name =>
      cases root with
      | some root => cases h
      | none => exact .inr ⟨rfl, name, .inl ⟨rfl, (Except.ok.inj h).symm⟩⟩
    | ended => cases h
    | text t =>
      by_cases hblank : t.all isXmlSpace = true
      · rw [RootSearch.round, if_neg (by simp [hblank])] at h
        exact .inl ⟨_, rfl, hblank, (Except.ok.inj h).symm⟩
      · rw [RootSearch.round, if_pos ⟨rfl, by simpa using hblank⟩] at h
        cases h
    | content => cases h
    | other => exact .inl ⟨_, rfl, trivial, (Except.ok.inj h).symm⟩

/-- Behind the root element. -/
theorem misc_of_run {name : Str} {t : RootSearch} {events : List (Option PomEvent)}
    (h : RootSearch.run { root := some name, depth := 0 } events = .ok t) :
    t = { root := some name, depth := 0 } ∧
      ∃ after : List PomEvent, events = after.map some ∧ ∀ e ∈ after, e.IsMisc := by
  induction events with
  | nil => exact ⟨(Except.ok.inj h).symm, [], rfl, nofun⟩
  | cons event events ih =>
    obtain ⟨s', hround, hrun⟩ := exists_of_run_cons h
    rcases round_outside hround with ⟨e, rfl, hmisc, rfl⟩ | ⟨hnone, -⟩
    · obtain ⟨hend, after, rfl, hafter⟩ := ih hrun
      exact ⟨hend, e :: after, rfl, List.forall_mem_cons.mpr ⟨hmisc, hafter⟩⟩
    · cases hnone

/-- The whole file. -/
theorem document_of_run {t : RootSearch} {events : List (Option PomEvent)} {name : Str}
    (h : RootSearch.run { root := none, depth := 0 } events = .ok t) (hclosed : t.depth = 0)
    (hroot : t.root = some name) : ∃ es, events = es.map some ∧ IsDocument name es := by
  induction events with
  | nil =>
    obtain rfl := Except.ok.inj h
    cases hroot
  | cons event events ih =>
    obtain ⟨s', hround, hrun⟩ := exists_of_run_cons h
    rcases round_outside hround with ⟨e, rfl, hmisc, rfl⟩ |
      ⟨-, root, ⟨rfl, rfl⟩ | ⟨rfl, rfl⟩⟩
    · obtain ⟨es, rfl, before, element, after, rfl, hbefore, helement, hafter⟩ := ih hrun
      exact ⟨_, rfl, e :: before, element, after, rfl,
        List.forall_mem_cons.mpr ⟨hmisc, hbefore⟩, helement, hafter⟩
    · obtain ⟨rfl, after, rfl, hafter⟩ := misc_of_run hrun
      obtain rfl := Option.some.inj hroot
      exact ⟨.empty root :: after, rfl, [], [.empty root], after, rfl, nofun, .empty, hafter⟩
    · obtain ⟨inner, rest, rfl, hinner, hrest⟩ :=
        closes (s := { root := some root, depth := 0 }) hrun hclosed
      obtain ⟨rfl, after, rfl, hafter⟩ := misc_of_run hrest
      obtain rfl := Option.some.inj hroot
      refine ⟨.start root :: (inner ++ .ended :: after), ?_, [],
        .start root :: (inner ++ [.ended]), after, ?_, nofun, .tags hinner, hafter⟩
      · simp only [List.map_cons, List.map_append]
      · simp only [List.nil_append, List.cons_append, List.append_assoc]

/-- **The root is found exactly in documents.**  `effective_pom_root` answers a name if and only if
the reader reports no error and the file is one root element of that name, closed, with nothing but
comments and white space around it. -/
theorem effectivePomRoot_ok_iff (events : List (Option PomEvent)) (name : Str) :
    effectivePomRoot events = .ok name ↔ ∃ es, events = es.map some ∧ IsDocument name es := by
  constructor
  · intro h
    unfold effectivePomRoot at h
    rw [← RootSearch.run] at h
    cases hrun : RootSearch.run { root := none, depth := 0 } events with
    | error e =>
      rw [hrun] at h
      cases h
    | ok t =>
      rw [hrun] at h
      change t.finish = .ok name at h
      unfold RootSearch.finish at h
      split at h
      · cases h
      · rename_i hclosed
        split at h
        · cases h
        · rename_i root hroot
          obtain rfl := Except.ok.inj h
          exact document_of_run hrun (not_not.mp hclosed) hroot
  · rintro ⟨es, rfl, before, element, after, rfl, hbefore, helement, hafter⟩
    have hrun : RootSearch.run { root := none, depth := 0 }
        ((before ++ (element ++ after)).map some) = .ok { root := some name, depth := 0 } := by
      rw [List.map_append, run_append (run_misc hbefore _), List.map_append,
        run_append (run_element helement), run_misc hafter]
    unfold effectivePomRoot
    rw [← RootSearch.run, hrun]
    rfl

/-! ## 5. Projects -/

open Orders

@[ext] structure EffectiveCoordinate where
  groupId : Option Str
  artifactId : Str
  version : Option Str
deriving DecidableEq, Repr

@[ext] structure EffectiveExclusion where
  groupId : Str
  artifactId : Str
deriving DecidableEq, Repr

/-- A dependency, raw or effective: only the order of the exclusions tells these apart. -/
@[ext] structure EffectiveDependency where
  groupId : Str
  artifactId : Str
  version : Option Str
  scope : Option Str
  type : Option Str
  classifier : Option Str
  exclusions : List EffectiveExclusion
deriving DecidableEq, Repr

@[ext] structure EffectivePlugin where
  groupId : Option Str
  artifactId : Str
  version : Option Str
deriving DecidableEq, Repr

/-- What is decoded of a project. -/
structure RawEffectiveProject where
  groupId : Option Str
  artifactId : Str
  version : Option Str
  packaging : Option Str
  parent : Option EffectiveCoordinate
  properties : List (Str × Str)
  dependencies : List EffectiveDependency
  dependencyManagement : List EffectiveDependency
  plugins : List EffectivePlugin
deriving DecidableEq, Repr

structure EffectiveProject where
  coordinate : EffectiveCoordinate
  packaging : Str
  parent : Option EffectiveCoordinate
  properties : List (Str × Str)
  dependencies : List EffectiveDependency
  dependencyManagement : List EffectiveDependency
  plugins : List EffectivePlugin
deriving DecidableEq, Repr

def strCompare : Str → Str → Ordering := List.compareLex charCompare

def EffectiveCoordinate.compare : EffectiveCoordinate → EffectiveCoordinate → Ordering :=
  compareLex (onField groupId (option strCompare))
    (compareLex (onField artifactId strCompare) (onField version (option strCompare)))

def EffectiveExclusion.compare : EffectiveExclusion → EffectiveExclusion → Ordering :=
  compareLex (onField groupId strCompare) (onField artifactId strCompare)

def EffectiveDependency.compare : EffectiveDependency → EffectiveDependency → Ordering :=
  compareLex (onField groupId strCompare) (compareLex (onField artifactId strCompare)
    (compareLex (onField version (option strCompare))
      (compareLex (onField scope (option strCompare)) (compareLex (onField type (option strCompare))
        (compareLex (onField classifier (option strCompare))
          (onField exclusions (List.compareLex EffectiveExclusion.compare)))))))

def EffectivePlugin.compare : EffectivePlugin → EffectivePlugin → Ordering :=
  compareLex (onField groupId (option strCompare))
    (compareLex (onField artifactId strCompare) (onField version (option strCompare)))

/-- The closure `map_dependency`. -/
def EffectiveDependency.sorted (d : EffectiveDependency) : EffectiveDependency :=
  { d with exclusions := sortBy EffectiveExclusion.compare d.exclusions }

def RawEffectiveProject.effective (u : Unicode) (raw : RawEffectiveProject) : EffectiveProject :=
  { coordinate := { groupId := raw.groupId, artifactId := raw.artifactId, version := raw.version }
    packaging := raw.packaging.getD "jar".toList
    parent := raw.parent
    properties := Redaction.redactProperties u raw.properties
    dependencies := sortBy EffectiveDependency.compare
      (raw.dependencies.map EffectiveDependency.sorted)
    dependencyManagement := sortBy EffectiveDependency.compare
      (raw.dependencyManagement.map EffectiveDependency.sorted)
    plugins := sortBy EffectivePlugin.compare raw.plugins }

inductive EffectivePomError
  | unreadable (error : XmlError)
  | root (error : PomRootError)
  /-- `unexpected effective POM root element {other}; expected project or projects` -/
  | unexpectedRoot (name : Str)
  /-- An error of `quick_xml::de`. -/
  | undecodable
  /-- `effective POM project has an empty artifactId` -/
  | emptyArtifactId
deriving DecidableEq, Repr

/-- What `quick_xml` makes of a text. -/
structure PomDecoder where
  events : Str → List (Option PomEvent)
  projects : Str → Option (List RawEffectiveProject)
  project : Str → Option RawEffectiveProject

/-- The projects of a text. -/
def PomDecoder.decode (decoder : PomDecoder) (xml : Str) :
    Except EffectivePomError (List RawEffectiveProject) :=
  match effectivePomRoot (decoder.events xml) with
  | .error e => .error (.root e)
  | .ok root =>
    if root = "projects".toList then
      match decoder.projects xml with
      | none => .error .undecodable
      | some projects => .ok projects
    else if root = "project".toList then
      match decoder.project xml with
      | none => .error .undecodable
      | some project => .ok [project]
    else .error (.unexpectedRoot root)

/-- The projects that are answered. -/
def effectiveProjects (u : Unicode) (raws : List RawEffectiveProject) :
    Except EffectivePomError (List EffectiveProject) :=
  if raws.any fun raw => decide (Text.trim raw.artifactId = []) then .error .emptyArtifactId
  else .ok (sortBy (onField EffectiveProject.coordinate EffectiveCoordinate.compare)
    (raws.map (RawEffectiveProject.effective u)))

def parseEffectivePom {P : Type} (u : Unicode) (files : XmlFiles P) (decoder : PomDecoder)
    (path : P) : Except EffectivePomError (List EffectiveProject) :=
  match files.readBoundedXmlWithLimit path files.maxXmlBytes with
  | .error e => .error (.unreadable e)
  | .ok xml =>
    match decoder.decode xml with
    | .error e => .error e
    | .ok raws => effectiveProjects u raws

/-! ## 6. The order of the lists -/

instance strCompare_trans : Std.TransCmp strCompare :=
  inferInstanceAs (Std.TransCmp (List.compareLex charCompare))

instance strCompare_lawful : Std.LawfulEqCmp strCompare :=
  inferInstanceAs (Std.LawfulEqCmp (List.compareLex charCompare))

instance coordinate_trans : Std.TransCmp EffectiveCoordinate.compare := by
  unfold EffectiveCoordinate.compare
  infer_instance

instance exclusion_trans : Std.TransCmp EffectiveExclusion.compare := by
  unfold EffectiveExclusion.compare
  infer_instance

instance dependency_trans : Std.TransCmp EffectiveDependency.compare := by
  unfold EffectiveDependency.compare
  infer_instance

instance plugin_trans : Std.TransCmp EffectivePlugin.compare := by
  unfold EffectivePlugin.compare
  infer_instance

theorem eq_of_compareCoordinate {a b : EffectiveCoordinate} (h : a.compare b = .eq) : a = b := by
  obtain ⟨hgroup, h⟩ := compareLex_eq_iff.mp h
  obtain ⟨hartifact, hversion⟩ := compareLex_eq_iff.mp h
  exact EffectiveCoordinate.ext (eq_of_onField hgroup) (eq_of_onField hartifact)
    (eq_of_onField hversion)

theorem eq_of_compareExclusion {a b : EffectiveExclusion} (h : a.compare b = .eq) : a = b := by
  obtain ⟨hgroup, hartifact⟩ := compareLex_eq_iff.mp h
  exact EffectiveExclusion.ext (eq_of_onField hgroup) (eq_of_onField hartifact)

instance exclusion_lawful : Std.LawfulEqCmp EffectiveExclusion.compare where
  eq_of_compare := eq_of_compareExclusion

theorem eq_of_comparePlugin {a b : EffectivePlugin} (h : a.compare b = .eq) : a = b := by
  obtain ⟨hgroup, h⟩ := compareLex_eq_iff.mp h
  obtain ⟨hartifact, hversion⟩ := compareLex_eq_iff.mp h
  exact EffectivePlugin.ext (eq_of_onField hgroup) (eq_of_onField hartifact)
    (eq_of_onField hversion)

theorem eq_of_compareDependency {a b : EffectiveDependency} (h : a.compare b = .eq) : a = b := by
  obtain ⟨hgroup, h⟩ := compareLex_eq_iff.mp h
  obtain ⟨hartifact, h⟩ := compareLex_eq_iff.mp h
  obtain ⟨hversion, h⟩ := compareLex_eq_iff.mp h
  obtain ⟨hscope, h⟩ := compareLex_eq_iff.mp h
  obtain ⟨htype, h⟩ := compareLex_eq_iff.mp h
  obtain ⟨hclassifier, hexclusions⟩ := compareLex_eq_iff.mp h
  exact EffectiveDependency.ext (eq_of_onField hgroup) (eq_of_onField hartifact)
    (eq_of_onField hversion) (eq_of_onField hscope) (eq_of_onField htype)
    (eq_of_onField hclassifier) (eq_of_onField hexclusions)

/-- The same dependency, its exclusions in another order. -/
def EffectiveDependency.Alike (a b : EffectiveDependency) : Prop :=
  ∃ exclusions, a.exclusions.Perm exclusions ∧ b = { a with exclusions }

/-- The same project, its lists in another order. -/
structure RawEffectiveProject.Alike (a b : RawEffectiveProject) : Prop where
  groupId : a.groupId = b.groupId
  artifactId : a.artifactId = b.artifactId
  version : a.version = b.version
  packaging : a.packaging = b.packaging
  parent : a.parent = b.parent
  properties : a.properties = b.properties
  dependencies : Reordered EffectiveDependency.Alike a.dependencies b.dependencies
  dependencyManagement :
    Reordered EffectiveDependency.Alike a.dependencyManagement b.dependencyManagement
  plugins : a.plugins.Perm b.plugins

/-- The coordinate of a project. -/
def RawEffectiveProject.coordinate (raw : RawEffectiveProject) : EffectiveCoordinate :=
  { groupId := raw.groupId, artifactId := raw.artifactId, version := raw.version }

theorem EffectiveDependency.Alike.sorted_eq {a b : EffectiveDependency} (h : a.Alike b) :
    a.sorted = b.sorted := by
  obtain ⟨exclusions, hperm, rfl⟩ := h
  have hsame := mergeSort_eq_of_perm hperm fun _ _ _ _ => eq_of_compareExclusion
  unfold EffectiveDependency.sorted
  rw [hsame]

theorem sortBy_dependencies {l l' : List EffectiveDependency}
    (h : Reordered EffectiveDependency.Alike l l') :
    sortBy EffectiveDependency.compare (l.map EffectiveDependency.sorted)
      = sortBy EffectiveDependency.compare (l'.map EffectiveDependency.sorted) :=
  mergeSort_eq_of_perm (h.map fun _ _ => EffectiveDependency.Alike.sorted_eq)
    fun _ _ _ _ => eq_of_compareDependency

theorem RawEffectiveProject.Alike.effective_eq (u : Unicode) {a b : RawEffectiveProject}
    (h : a.Alike b) : a.effective u = b.effective u := by
  have hplugins := mergeSort_eq_of_perm h.plugins fun _ _ _ _ => eq_of_comparePlugin
  unfold RawEffectiveProject.effective
  rw [h.groupId, h.artifactId, h.version, h.packaging, h.parent, h.properties,
    sortBy_dependencies h.dependencies, sortBy_dependencies h.dependencyManagement, hplugins]

/-- **The answer is canonical.**  Two files that list the same projects, with different coordinates,
are answered alike: in whatever order they list the projects, the dependencies and managed
dependencies of each, the exclusions of these, and the plugins. -/
theorem parseEffectivePom_canonical {P : Type} (u : Unicode) (files : XmlFiles P)
    (decoder : PomDecoder) {path path' : P} {xml xml' : Str}
    (hread : files.readBoundedXmlWithLimit path files.maxXmlBytes = .ok xml)
    (hread' : files.readBoundedXmlWithLimit path' files.maxXmlBytes = .ok xml')
    {raws raws' : List RawEffectiveProject} (hdecode : decoder.decode xml = .ok raws)
    (hdecode' : decoder.decode xml' = .ok raws')
    (halike : Reordered RawEffectiveProject.Alike raws raws')
    (hapart : (raws.map RawEffectiveProject.coordinate).Nodup) :
    parseEffectivePom u files decoder path = parseEffectivePom u files decoder path' := by
  have hperm := halike.map fun _ _ => RawEffectiveProject.Alike.effective_eq u
  have hany : (raws.any fun raw => decide (Text.trim raw.artifactId = []))
      = raws'.any fun raw => decide (Text.trim raw.artifactId = []) := by
    have hnames : (raws.map RawEffectiveProject.artifactId).Perm
        (raws'.map RawEffectiveProject.artifactId) := halike.map fun _ _ h => h.artifactId
    have hany : (raws.map RawEffectiveProject.artifactId).any (fun name => Text.trim name = [])
        = (raws'.map RawEffectiveProject.artifactId).any fun name => Text.trim name = [] :=
      hnames.any_eq
    rwa [List.any_map, List.any_map] at hany
  have hdistinct : ∀ a ∈ raws.map (RawEffectiveProject.effective u),
      ∀ b ∈ raws.map (RawEffectiveProject.effective u),
        onField EffectiveProject.coordinate EffectiveCoordinate.compare a b = .eq → a = b := by
    intro a ha b hb heq
    obtain ⟨raw, hraw, rfl⟩ := List.mem_map.mp ha
    obtain ⟨raw', hraw', rfl⟩ := List.mem_map.mp hb
    exact congrArg _ (List.inj_on_of_nodup_map hapart hraw hraw' (eq_of_compareCoordinate heq))
  have hsort := mergeSort_eq_of_perm hperm hdistinct
  unfold parseEffectivePom
  simp only [hread, hread', hdecode, hdecode']
  unfold effectiveProjects
  rw [hany, hsort]

/-- A dependency on `g:d` that excludes two artifacts. -/
def sampleDependency (first second : Str) : EffectiveDependency :=
  { groupId := ['g'], artifactId := ['d'], version := none, scope := none, type := none
    classifier := none
    exclusions := [{ groupId := ['x'], artifactId := first },
      { groupId := ['x'], artifactId := second }] }

def sampleProject (name : Str) (dependencies : List EffectiveDependency) : RawEffectiveProject :=
  { groupId := none, artifactId := name, version := none, packaging := none, parent := none
    properties := [], dependencies, dependencyManagement := [], plugins := [] }

/-- Two files with an empty root element; the decoder knows them by their text. -/
def sampleXmlFiles : XmlFiles Bool where
  bytes path := some [if path then 97 else 98]
  events _ := []
  maxXmlBytes := 1

def sampleDecoder : PomDecoder where
  events _ := [some (.empty "projects".toList)]
  projects xml :=
    some (if xml = ['a'] then
      [sampleProject ['p'] [sampleDependency ['a'] ['b']], sampleProject ['q'] []]
    else [sampleProject ['q'] [], sampleProject ['p'] [sampleDependency ['b'] ['a']]])
  project _ := none

theorem alike_of_empty (name : Str) : (sampleProject name []).Alike (sampleProject name []) :=
  ⟨rfl, rfl, rfl, rfl, rfl, rfl, ⟨[], .nil, .nil⟩, ⟨[], .nil, .nil⟩, .nil⟩

/-- Projects and exclusions in the other order. -/
theorem parseEffectivePom_canonical_two :
    sampleDecoder.decode ['a'] ≠ sampleDecoder.decode ['b'] ∧
      parseEffectivePom .asciiOnly sampleXmlFiles sampleDecoder true
        = parseEffectivePom .asciiOnly sampleXmlFiles sampleDecoder false := by
  have hdependency : (sampleDependency ['a'] ['b']).Alike (sampleDependency ['b'] ['a']) :=
    ⟨_, .swap _ _ _, rfl⟩
  have hproject : (sampleProject ['p'] [sampleDependency ['a'] ['b']]).Alike
      (sampleProject ['p'] [sampleDependency ['b'] ['a']]) :=
    ⟨rfl, rfl, rfl, rfl, rfl, rfl, ⟨_, .refl _, .cons hdependency .nil⟩, ⟨[], .nil, .nil⟩, .nil⟩
  have hread : sampleXmlFiles.readBoundedXmlWithLimit true 1 = .ok ['a'] := by decide +kernel
  have hread' : sampleXmlFiles.readBoundedXmlWithLimit false 1 = .ok ['b'] := by decide +kernel
  exact ⟨by decide, parseEffectivePom_canonical .asciiOnly sampleXmlFiles sampleDecoder hread hread'
    rfl rfl ⟨_, .swap _ _ _, .cons (alike_of_empty ['q']) (.cons hproject .nil)⟩ (by decide)⟩

end MavenMcp
