/-
# Artifacts below the repository

`contained_artifact_path` of `src/index.rs` resolves the path of an exact coordinate component by
component, and rejects what leaves the canonical root.  A component that is a dangling link is no
absent artifact yet: `ensure_dangling_symlink_contained` follows the chain of links to the directory
in which a name is missing.

It looks for the deepest existing ancestor of a target, and steps from a path to its parent without
the separator at its end.  Where the target of a link ends in a separator, what stands before it may
be a dangling link that is passed over (`Misled`).  `contained_iff` says that nothing else goes
wrong.
-/
import MavenMcp.Index.Record
import MavenMcp.Lib.FileTree
import MavenMcp.Lib.Utf8
import MavenMcp.Paths
import Mathlib.Data.List.DropRight

namespace MavenMcp
namespace Index

open FileTree
open Text

/-! ## 1. Coordinates -/

/-- A part of a coordinate that is no single name. -/
def isBadPart (part : Str) : Bool :=
  part = [] || part.any (fun c => c = '/' || c = '\\' || c = Char.ofNat 0) || part = ['.'] ||
    part = ['.', '.'] || contains ['.', '.'] part

def parseExactCoordinate (coordinate : Str) : Option ArtifactKey :=
  match (trim coordinate).splitOn ':' with
  | [groupId, artifactId, version] =>
    if [groupId, artifactId, version].any isBadPart || (groupId.splitOn '.').any (· = []) then none
    else some { groupId, artifactId, version }
  | _ => none

/-- What the callers look up of a coordinate. -/
inductive ArtifactFile
  | directory
  | pom
  | jar
deriving DecidableEq, Repr

def ArtifactFile.name (key : ArtifactKey) : ArtifactFile → Option Str
  | directory => none
  | pom => some (key.artifactId ++ '-' :: key.version ++ ".pom".toList)
  | jar => some (key.artifactId ++ '-' :: key.version ++ ".jar".toList)

def artifactComponents (key : ArtifactKey) (fileName : Option Str) : List Str :=
  key.groupId.splitOn '.' ++ [key.artifactId, key.version] ++ fileName.toList

/-! ## 2. Paths -/

abbrev FsName := List UInt8
abbrev FsPath := List (Step FsName)

/-- The steps of a path; a separator at the end stands for `.`. -/
def stepsOf (path : PathBuf) : FsPath :=
  let parts := path.splitOn 47
  let steps := (parts.filter (· ≠ [])).map fun part =>
    if part = [46] then .here else if part = [46, 46] then .up else .name part
  (if path.head? = some 47 then [.root] else []) ++ steps ++
    (if parts.getLast? = some [] && !steps.isEmpty then [.here] else [])

/-- `Path::join`. -/
def join (directory path : FsPath) : FsPath :=
  if path.head? = some .root then path else directory ++ path

/-- A path without the `.` at its end, as `Path` reads it. -/
def trimEnd (path : FsPath) : FsPath := path.rdropWhile (· = .here)

/-- `Path::parent`. -/
def parentPath (path : FsPath) : Option FsPath :=
  match trimEnd path with
  | [] | [.root] => none
  | steps => some (trimEnd steps.dropLast)

theorem trimEnd_eq_append (path : FsPath) :
    ∃ s, path = trimEnd path ++ s ∧ ∀ step ∈ s, step = .here := by
  refine ⟨path.rtakeWhile (· = .here), (List.rdropWhile_append_rtakeWhile ..).symm, ?_⟩
  intro step hstep
  have hhere := List.mem_rtakeWhile_imp hstep
  exact of_decide_eq_true hhere

theorem trimEnd_length_le (path : FsPath) : (trimEnd path).length ≤ path.length :=
  (List.rdropWhile_prefix _ path).length_le

theorem trimEnd_concat {path : FsPath} {step : Step FsName} (h : step ≠ .here) :
    trimEnd (path ++ [step]) = path ++ [step] :=
  List.rdropWhile_concat_neg _ _ _ (by simpa using h)

theorem trimEnd_append {path s : FsPath} (hs : ∀ step ∈ s, step = .here) :
    trimEnd (path ++ s) = trimEnd path := by
  induction s using List.reverseRecOn with
  | nil => rw [List.append_nil]
  | append_singleton s step ih =>
    obtain ⟨hinit, hstep⟩ := List.forall_mem_append.mp hs
    obtain rfl := hstep step (List.mem_singleton_self step)
    rw [← List.append_assoc, trimEnd, List.rdropWhile_concat_pos _ _ _ (by simp)]
    exact ih hinit

theorem exists_last_of_trimEnd {path : FsPath} (h : trimEnd path ≠ []) :
    ∃ a step, trimEnd path = a ++ [step] ∧ step ≠ .here := by
  have hnot := List.rdropWhile_last_not (fun step => decide (step = Step.here)) path h
  refine ⟨(trimEnd path).dropLast, (trimEnd path).getLast h,
    (List.dropLast_append_getLast h).symm, fun hlast => hnot (decide_eq_true hlast)⟩

/-- A path that is no root is its parent, a step and `.` around it. -/
theorem parentPath_eq_some_iff {path parent : FsPath} :
    parentPath path = some parent ↔
      ∃ a step, trimEnd path = a ++ [step] ∧ step ≠ .here ∧ a ++ [step] ≠ [.root] ∧
        parent = trimEnd a := by
  unfold parentPath
  split
  · rename_i hnil
    simp [hnil]
  · rename_i hroot
    constructor
    · intro h
      cases h
    · rintro ⟨a, step, htrim, -, hne, -⟩
      exact absurd (htrim.symm.trans hroot) hne
  · rename_i hnil hroot
    constructor
    · intro h
      obtain ⟨a, step, htrim, hstep⟩ := exists_last_of_trimEnd hnil
      rw [htrim, List.dropLast_concat] at h
      exact ⟨a, step, htrim, hstep, htrim ▸ hroot, (Option.some.inj h).symm⟩
    · rintro ⟨a, step, htrim, -, -, rfl⟩
      rw [htrim, List.dropLast_concat]

theorem parentPath_length_lt {path parent : FsPath} (h : parentPath path = some parent) :
    parent.length < path.length := by
  obtain ⟨a, step, htrim, -, -, rfl⟩ := parentPath_eq_some_iff.mp h
  have hle := trimEnd_length_le path
  have hparent := trimEnd_length_le a
  rw [htrim, List.length_append, List.length_singleton] at hle
  omega

theorem parentPath_prefix {path parent : FsPath} (h : parentPath path = some parent) :
    parent <+: path := by
  obtain ⟨a, step, htrim, -, -, rfl⟩ := parentPath_eq_some_iff.mp h
  have hsteps : a <+: trimEnd path := htrim ▸ List.prefix_append a [step]
  exact ((List.rdropWhile_prefix _ a).trans hsteps).trans (List.rdropWhile_prefix _ path)

/-- The steps of a path behind its parent: one more, and `.` around it. -/
theorem parentPath_steps {path parent : FsPath} (h : parentPath path = some parent) :
    ∃ s step t, path = parent ++ s ++ [step] ++ t ∧ (∀ step ∈ s, step = .here) ∧ step ≠ .here ∧
      ∀ step ∈ t, step = .here := by
  obtain ⟨a, step, htrim, hstep, -, rfl⟩ := parentPath_eq_some_iff.mp h
  obtain ⟨s, hs, hhere⟩ := trimEnd_eq_append a
  obtain ⟨t, ht, hdots⟩ := trimEnd_eq_append path
  exact ⟨s, step, t, by rw [← hs, ← htrim]; exact ht, hhere, hstep, hdots⟩

theorem trimEnd_parentPath {path parent : FsPath} (h : parentPath path = some parent) :
    trimEnd parent = parent := by
  obtain ⟨a, step, -, -, -, rfl⟩ := parentPath_eq_some_iff.mp h
  exact List.rdropWhile_idempotent _ a

/-! ## 3. The lookup -/

inductive PathError
  /-- `cannot access local Maven repository` -/
  | repository
  /-- `cannot inspect local artifact path` -/
  | inspect
  /-- `ArtifactOutsideRepository` -/
  | outside
deriving DecidableEq, Repr

def maxSymlinkHops : Nat := 40

section

variable (tree : FileTree.Tree FsName)

/-- `FileType::is_symlink` of what was found. -/
def isSymlink (file : List FsName) : Bool :=
  match tree.node file with
  | some (.link _) => true
  | _ => false

/-- `fs::read_link`. -/
def readLink (link : FsPath) : Option FsPath :=
  match tree.resolveNoFollow link with
  | .found file =>
    match tree.node file with
    | some (.link target) => some target
    | _ => none
  | _ => none

/-- The inner loop of `ensure_dangling_symlink_contained`: the deepest ancestor that exists, and
what it is. -/
def deepestExisting (path : FsPath) : Except PathError (FsPath × List FsName) :=
  match tree.resolveNoFollow path with
  | .found file => .ok (path, file)
  | .missing _ _ =>
    match _h : parentPath path with
    | none => .error .outside
    | some parent => deepestExisting parent
  | _ => .error .inspect
termination_by path.length
decreasing_by exact parentPath_length_lt _h

/-- The path that a link stands for. -/
def linkTarget (root : List FsName) (link target : FsPath) : FsPath :=
  join ((parentPath link).getD (fromRoot root)) target

def ensureDanglingSymlinkContained (root : List FsName) : Nat → FsPath → Except PathError Unit
  | 0, _ => .error .outside
  | hops + 1, link =>
    match readLink tree link with
    | none => .error .inspect
    | some target =>
      match deepestExisting tree (linkTarget root link target) with
      | .error error => .error error
      | .ok (existing, file) =>
        match tree.resolve existing with
        | .found resolved => if root.isPrefixOf resolved then .ok () else .error .outside
        | .missing _ _ =>
          if isSymlink tree file then ensureDanglingSymlinkContained root hops existing
          else .error .inspect
        | _ => .error .inspect

/-- The path of a component below what is resolved already. -/
def nextPath (current : List FsName) (component : Str) : FsPath :=
  join (fromRoot current) (stepsOf (Utf8.encode component))

/-- The loop over the components. -/
def containedFrom (root : List FsName) :
    List FsName → List Str → Except PathError (Option (List FsName))
  | current, [] => .ok (some current)
  | current, component :: rest =>
    match tree.resolveNoFollow (nextPath current component) with
    | .missing _ _ => .ok none
    | .found file =>
      match tree.resolve (nextPath current component) with
      | .found resolved =>
        if root.isPrefixOf resolved then containedFrom root resolved rest else .error .outside
      | .missing _ _ =>
        if isSymlink tree file then
          (ensureDanglingSymlinkContained tree root maxSymlinkHops
            (nextPath current component)).map fun _ => none
        else .ok none
      | _ => .error .inspect
    | _ => .error .inspect

def containedArtifactPath (root : FsPath) (key : ArtifactKey) (fileName : Option Str) :
    Except PathError (Option (List FsName)) :=
  match tree.resolve root with
  | .found canonicalRoot =>
    containedFrom tree canonicalRoot canonicalRoot (artifactComponents key fileName)
  | .missing _ _ => .ok none
  | _ => .error .repository

end

/-! ## 4. Links -/

section

variable {tree : FileTree.Tree FsName} {root : List FsName} {link : FsPath}

theorem parentPath_concat (a : FsPath) (x : FsName) :
    parentPath (a ++ [.name x]) = some (trimEnd a) := by
  have hname : Step.name x ≠ Step.here := by simp
  refine parentPath_eq_some_iff.mpr ⟨a, .name x, trimEnd_concat hname, hname, ?_, rfl⟩
  intro h
  have hlast := congrArg List.getLast? h
  simp at hlast

/-- A link is the last name of its path. -/
structure NamesLink (tree : FileTree.Tree FsName) (link a : FsPath) (x : FsName)
    (directory : List FsName)
    (target : FsPath) : Prop where
  path : link = a ++ [.name x]
  leads : tree.Leads true [] a (.found directory)
  isDirectory : tree.node directory = some .directory
  isLink : tree.node (directory ++ [x]) = some (.link target)

theorem namesLink_of_leads {file : List FsName} {target : FsPath}
    (h : tree.Leads false [] link (.found file)) (hfile : tree.node file = some (.link target)) :
    ∃ a x directory, NamesLink tree link a x directory target := by
  obtain ⟨a, x, directory, rfl, ha, hdirectory, rfl⟩ := h.exists_parent hfile tree.root
  exact ⟨a, x, directory, rfl, ha, hdirectory, hfile⟩

theorem namesLink_of_readLink {target : FsPath} (h : readLink tree link = some target) :
    ∃ a x directory, NamesLink tree link a x directory target := by
  cases hfile : tree.resolveNoFollow link with
  | found file =>
    simp only [readLink, hfile] at h
    split at h
    · rename_i htarget
      cases h
      exact namesLink_of_leads (Tree.leads_of_resolveNoFollow hfile (by simp)) htarget
    · cases h
  | _ => simp [readLink, hfile] at h

/-- **The target of a link leads where the link leads.** -/
theorem leads_linkTarget_iff {target : FsPath} {o : Outcome FsName}
    (h : readLink tree link = some target) :
    tree.Leads true [] (linkTarget root link target) o ↔ tree.Leads true [] link o := by
  obtain ⟨a, x, directory, rfl, ha, hdirectory, htarget⟩ := namesLink_of_readLink h
  have hlink : tree.Leads true [] (a ++ [.name x]) o ↔ tree.Leads true directory target o := by
    rw [Tree.leads_append_iff ha hdirectory (.inr rfl), Tree.leads_jump_iff htarget (.inr rfl),
      List.append_nil]
  rw [hlink, linkTarget, parentPath_concat, Option.getD_some, join]
  split
  · rename_i hroot
    obtain ⟨rest, rfl⟩ : ∃ rest, target = .root :: rest := by
      cases target with
      | nil => cases hroot
      | cons step rest => exact ⟨rest, by rw [Option.some.inj hroot]⟩
    rw [Tree.leads_root_iff, Tree.leads_root_iff]
  · obtain ⟨s, hs, hhere⟩ := trimEnd_eq_append a
    rw [hs] at ha
    exact Tree.leads_append_iff (ha.of_append_here hhere) hdirectory (.inr rfl)

/-! ## 5. The deepest ancestor that exists -/

theorem deepestExisting_found {path : FsPath} {file : List FsName}
    (h : tree.resolveNoFollow path = .found file) :
    deepestExisting tree path = .ok (path, file) := by
  unfold deepestExisting
  rw [h]

theorem deepestExisting_missing {path parent : FsPath} {d : List FsName} {n : FsName}
    (h : tree.resolveNoFollow path = .missing d n) (hparent : parentPath path = some parent) :
    deepestExisting tree path = deepestExisting tree parent := by
  rw [deepestExisting, h]
  simp only
  split
  · simp_all
  · simp_all

/-- What the deepest ancestor is, and the path above it that is missing. -/
theorem deepestExisting_spec {path existing : FsPath} {file : List FsName}
    (h : deepestExisting tree path = .ok (existing, file)) :
    tree.resolveNoFollow existing = .found file ∧
      (existing = path ∨ ∃ above s d n, path = above ++ s ∧ (s = [] ∨ trimEnd above = above) ∧
        tree.resolveNoFollow above = .missing d n ∧ parentPath above = some existing) := by
  fun_induction deepestExisting tree path with
  | case1 path file' hfile =>
    cases h
    exact ⟨hfile, .inl rfl⟩
  | case2 => cases h
  | case3 path d n hmissing parent hparent ih =>
    obtain ⟨hfile, hcase⟩ := ih h
    refine ⟨hfile, .inr ?_⟩
    rcases hcase with rfl | ⟨above, s, d', n', rfl, htrim, hmissing', habove⟩
    · exact ⟨path, [], d, n, (List.append_nil path).symm, .inl rfl, hmissing, hparent⟩
    · obtain ⟨t, ht⟩ := parentPath_prefix hparent
      refine ⟨above, s ++ t, d', n', by rw [← ht, List.append_assoc], .inr ?_, hmissing', habove⟩
      rcases htrim with rfl | htrim
      · rw [List.append_nil] at hparent
        exact trimEnd_parentPath hparent
      · exact htrim
  | case4 => cases h

theorem trimEnd_append_name {a t : FsPath} {x : FsName} :
    trimEnd (a ++ [.name x] ++ t) = a ++ [.name x] ++ trimEnd t := by
  induction t using List.reverseRecOn with
  | nil => exact (List.append_nil _).symm ▸ trimEnd_concat (by simp)
  | append_singleton t step ih =>
    by_cases hstep : step = .here
    · subst hstep
      have hhere : ∀ step ∈ [(Step.here : Step FsName)], step = .here := by simp
      rw [← List.append_assoc, trimEnd_append hhere, trimEnd_append hhere, ih]
    · rw [trimEnd_concat hstep, ← List.append_assoc, trimEnd_concat hstep]

/-- What stands behind a link only adds a separator to its path. -/
def PassesOver (rest : FsPath) : Prop := rest ≠ [] ∧ ∀ step ∈ rest, step = .here

theorem not_passesOver_trimEnd (t : FsPath) : ¬ PassesOver (trimEnd t) := by
  rintro ⟨hne, hhere⟩
  have hnil : trimEnd (trimEnd t) = [] :=
    List.rdropWhile_eq_nil_iff.mpr fun step hstep => decide_eq_true (hhere step hstep)
  rw [trimEnd, trimEnd, List.rdropWhile_idempotent] at hnil
  exact hne hnil

/-- **The deepest ancestor of a path through a dangling link is the link**, unless it is passed
over. -/
theorem deepestExisting_append {a rest : FsPath} {x : FsName} {file d : List FsName} {n : FsName}
    (hfile : tree.resolveNoFollow (a ++ [.name x]) = .found file)
    (hmissing : tree.resolve (a ++ [.name x]) = .missing d n) (hrest : ¬ PassesOver rest) :
    deepestExisting tree (a ++ [.name x] ++ rest) = .ok (a ++ [.name x], file) := by
  induction hlength : rest.length using Nat.strong_induction_on generalizing rest with
  | _ length ih =>
    by_cases hnil : rest = []
    · subst hnil
      rw [List.append_nil]
      exact deepestExisting_found hfile
    · have htrim : trimEnd rest ≠ [] := fun h => hrest
        ⟨hnil, fun step hstep => of_decide_eq_true (List.rdropWhile_eq_nil_iff.mp h step hstep)⟩
      obtain ⟨u, step, hu, hstep⟩ := exists_last_of_trimEnd htrim
      have hparent : parentPath (a ++ [.name x] ++ rest) = some (a ++ [.name x] ++ trimEnd u) := by
        refine parentPath_eq_some_iff.mpr ⟨a ++ [.name x] ++ u, step, ?_, hstep, ?_, ?_⟩
        · rw [trimEnd_append_name, hu, ← List.append_assoc]
        · intro h
          have hlen := congrArg List.length h
          simp at hlen
          omega
        · exact trimEnd_append_name.symm
      rw [deepestExisting_missing (Tree.resolveNoFollow_append_missing hmissing hnil) hparent]
      have hshorter : (trimEnd u).length < length := by
        have hle := trimEnd_length_le rest
        have hparent := trimEnd_length_le u
        rw [hu, List.length_append, List.length_singleton] at hle
        omega
      exact ih _ hshorter (not_passesOver_trimEnd u) rfl

/-! ## 6. Links that are passed over -/

/-- The target of `link` stops at a dangling link, and `rest` stands behind it. -/
structure StopsAt (tree : FileTree.Tree FsName) (root : List FsName) (link broken rest : FsPath) :
    Prop where
  target : ∃ target, readLink tree link = some target ∧
    linkTarget root link target = broken ++ rest
  isLink : ∃ file target, tree.resolveNoFollow broken = .found file ∧
    tree.node file = some (.link target)
  dangling : ∃ d n, tree.resolve broken = .missing d n

/-- On the way from `link`, a dangling link in a directory inside `root` is passed over. -/
inductive Misled (tree : FileTree.Tree FsName) (root : List FsName) : Nat → FsPath → Prop
  | passedOver {hops : Nat} {link broken rest parent : FsPath} {resolved : List FsName}
      (hstop : StopsAt tree root link broken rest) (hrest : PassesOver rest)
      (hparent : parentPath broken = some parent)
      (hresolved : tree.resolve parent = .found resolved)
      (hinside : root <+: resolved) : Misled tree root (hops + 1) link
  | hop {hops : Nat} {link broken rest : FsPath} (hstop : StopsAt tree root link broken rest)
      (hrest : ¬ PassesOver rest) (h : Misled tree root hops broken) :
      Misled tree root (hops + 1) link

theorem Misled.isLink {hops : Nat} (h : Misled tree root hops link) :
    ∃ file target, tree.resolveNoFollow link = .found file ∧
      tree.node file = some (.link target) := by
  obtain ⟨target, htarget, -⟩ : ∃ target, readLink tree link = some target ∧ True := by
    cases h with
    | passedOver hstop => exact hstop.target.imp fun _ h => ⟨h.1, trivial⟩
    | hop hstop => exact hstop.target.imp fun _ h => ⟨h.1, trivial⟩
  unfold readLink at htarget
  split at htarget
  · rename_i file hfile
    split at htarget
    · exact ⟨file, _, hfile, ‹_›⟩
    · cases htarget
  · cases htarget

theorem ensure_ok_of_misled {hops : Nat} (h : Misled tree root hops link) :
    ensureDanglingSymlinkContained tree root hops link = .ok () := by
  induction h with
  | @passedOver hops link broken rest parent resolved hstop hrest hparent hresolved hinside =>
    obtain ⟨⟨target, htarget, hpath⟩, ⟨file, next, hfile, hlink⟩, d, n, hdangling⟩ := hstop
    obtain ⟨a, x, directory, rfl, -, -, -⟩ :=
      namesLink_of_leads (Tree.leads_of_resolveNoFollow hfile (by simp)) hlink
    have habove : parentPath (a ++ [.name x] ++ rest) = some parent := by
      rw [← hparent, parentPath, parentPath, trimEnd_append hrest.2]
    obtain ⟨q, hq⟩ := Tree.exists_found_of_resolve hresolved
    have hdeepest : deepestExisting tree (a ++ [.name x] ++ rest) = .ok (parent, q) := by
      rw [deepestExisting_missing (Tree.resolveNoFollow_append_missing hdangling hrest.1) habove,
        deepestExisting_found hq]
    simp only [ensureDanglingSymlinkContained, htarget, hpath, hdeepest, hresolved,
      List.isPrefixOf_iff_prefix.mpr hinside, if_true]
  | @hop hops link broken rest hstop hrest _ ih =>
    obtain ⟨⟨target, htarget, hpath⟩, ⟨file, next, hfile, hlink⟩, d, n, hdangling⟩ := hstop
    obtain ⟨a, x, directory, rfl, -, -, -⟩ :=
      namesLink_of_leads (Tree.leads_of_resolveNoFollow hfile (by simp)) hlink
    have hdeepest := deepestExisting_append hfile hdangling hrest
    simp only [ensureDanglingSymlinkContained, htarget, hpath, hdeepest, hdangling, isSymlink,
      hlink, if_true, ih]

/-- **A path that leads to a missing name stops where its parent leads to**, or goes on through a
link behind it. -/
theorem missing_above {existing above : FsPath} {p d : List FsName} {n : FsName}
    (habove : parentPath above = some existing) (hfound : tree.Leads true [] existing (.found p))
    (hmissing : tree.Leads true [] above (.missing d n)) :
    d = p ∨ ∃ s x t target, above = existing ++ s ++ [.name x] ++ t ∧ (∀ step ∈ t, step = .here) ∧
      tree.Leads true [] (existing ++ s) (.found p) ∧ tree.node p = some .directory ∧
      tree.node (p ++ [x]) = some (.link target) := by
  obtain ⟨s, step, t, rfl, hs, hstep, ht⟩ := parentPath_steps habove
  have hp : tree.node p = some .directory := by
    refine (((hfound.nodes tree.root).1 p rfl).2 rfl).resolve_right fun hfile => ?_
    have hstop : tree.Leads true [] (existing ++ (s ++ [step] ++ t)) .notDirectory :=
      hfound.append_file tree.root hfile (by simp)
    rw [← List.append_assoc, ← List.append_assoc] at hstop
    cases hstop.det hmissing
  have hdots : tree.Leads true [] (existing ++ s) (.found p) :=
    (Tree.leads_append_iff hfound hp (.inr rfl)).mpr ((Tree.leads_append_here_iff hs).mpr rfl)
  rw [List.append_assoc, Tree.leads_append_iff hdots hp (.inr rfl), List.singleton_append]
    at hmissing
  cases hmissing with
  | root h => cases (Tree.leads_append_here_iff ht).mp h
  | here => exact absurd rfl hstep
  | up h => cases (Tree.leads_append_here_iff ht).mp h
  | missing => exact .inl rfl
  | enter _ h => cases (Tree.leads_append_here_iff ht).mp h
  | jump hnode => exact .inr ⟨s, _, t, _, rfl, ht, hdots, hp, hnode⟩

/-- Where the directory above a missing path is not where it stops, a link is passed over. -/
theorem inside_or_passedOver {hops : Nat} {target existing above s : FsPath} {p d d' : List FsName}
    {n n' : FsName} (htarget : readLink tree link = some target)
    (hpath : linkTarget root link target = above ++ s) (htrim : s = [] ∨ trimEnd above = above)
    (hmissing : tree.resolveNoFollow above = .missing d' n')
    (habove : parentPath above = some existing) (hresolve : tree.resolve existing = .found p)
    (hinside : root <+: p) (hlink : tree.Leads true [] (above ++ s) (.missing d n)) :
    root <+: d ∨ Misled tree root (hops + 1) link := by
  have hfound := Tree.leads_of_resolve hresolve (by simp)
  have hstops := Tree.leads_of_resolve (Tree.resolve_of_missing hmissing) (by simp)
  cases (hstops.append_missing (.inr rfl)).det hlink
  rcases missing_above habove hfound hstops with rfl | ⟨h, x, t, next, rfl, ht, hdots, hp, hnode⟩
  · exact .inl hinside
  have hstay : tree.Leads false [] (existing ++ h ++ [.name x]) (.found (p ++ [x])) :=
    (Tree.leads_append_iff hdots hp (.inl (List.cons_ne_nil _ _))).mpr (.stay hnode rfl)
  have hbroken := Tree.resolve_of_append_here ht (Tree.resolve_of_missing hmissing)
  have hne : t ≠ [] := by
    rintro rfl
    rw [List.append_nil] at hmissing
    cases (Tree.leads_of_resolveNoFollow hmissing (by simp)).det hstay
  have hs : s = [] := by
    refine htrim.resolve_right fun htrim => hne ?_
    rw [trimEnd_append ht, trimEnd_concat (by simp)] at htrim
    exact List.append_right_eq_self.mp htrim.symm
  subst hs
  rw [List.append_nil] at hpath
  refine .inr (.passedOver ⟨⟨target, htarget, hpath⟩, ?_, d, n, hbroken⟩ ⟨hne, ht⟩ ?_ hresolve
    hinside)
  · rcases Tree.resolveNoFollow_cases tree (existing ++ h ++ [.name x]) with heq | hfile
    · rw [hbroken] at heq
      cases (Tree.leads_of_resolveNoFollow heq (by simp)).det hstay
    · exact hfile
  · rw [← habove, parentPath, parentPath, trimEnd_append ht]

/-- **The loop on dangling links says that one ends inside** only if it does, or if it is misled. -/
theorem inside_or_misled {hops : Nat} {d : List FsName} {n : FsName}
    (h : ensureDanglingSymlinkContained tree root hops link = .ok ())
    (hlink : tree.Leads true [] link (.missing d n)) :
    root <+: d ∨ Misled tree root hops link := by
  induction hops generalizing link with
  | zero => cases h
  | succ hops ih =>
    rw [ensureDanglingSymlinkContained] at h
    cases htarget : readLink tree link with
    | none => simp [htarget] at h
    | some target =>
      simp only [htarget] at h
      have hpath : tree.Leads true [] (linkTarget root link target) (.missing d n) :=
        (leads_linkTarget_iff htarget).mpr hlink
      cases hdeepest : deepestExisting tree (linkTarget root link target) with
      | error error => simp [hdeepest] at h
      | ok found =>
        obtain ⟨existing, file⟩ := found
        simp only [hdeepest] at h
        obtain ⟨hfile, hcase⟩ := deepestExisting_spec hdeepest
        cases hresolve : tree.resolve existing with
        | found p =>
          simp only [hresolve] at h
          have hfound := Tree.leads_of_resolve hresolve (by simp)
          by_cases hinside : root <+: p
          · rcases hcase with rfl | ⟨above, s, d', n', hsteps, htrim, hmissing, habove⟩
            · cases hfound.det hpath
            · rw [hsteps] at hpath
              exact inside_or_passedOver htarget hsteps htrim hmissing habove hresolve hinside hpath
          · simp [mt List.isPrefixOf_iff_prefix.mp hinside] at h
        | missing d' n' =>
          simp only [hresolve] at h
          obtain ⟨rest, hrest, hover⟩ : ∃ rest, linkTarget root link target = existing ++ rest ∧
              ¬ PassesOver rest := by
            rcases hcase with rfl | ⟨above, s, d', n', hsteps, -, -, habove⟩
            · exact ⟨[], (List.append_nil _).symm, fun hover => hover.1 rfl⟩
            · obtain ⟨h, step, t, rfl, -, hstep, -⟩ := parentPath_steps habove
              refine ⟨h ++ [step] ++ t ++ s, by simp [hsteps], fun hover => hstep ?_⟩
              exact hover.2 step (by simp)
          have hmissing := Tree.leads_of_resolve hresolve (by simp)
          rw [hrest] at hpath
          cases (hmissing.append_missing (.inr rfl)).det hpath
          split at h
          · rename_i hsymlink
            obtain ⟨next, hnode⟩ : ∃ next, tree.node file = some (.link next) := by
              unfold isSymlink at hsymlink
              split at hsymlink
              · exact ⟨_, ‹_›⟩
              · cases hsymlink
            have hstop : StopsAt tree root link existing rest :=
              ⟨⟨target, htarget, hrest⟩, ⟨file, next, hfile, hnode⟩, d, n, hresolve⟩
            exact (ih h hmissing).imp_right fun hmisled => .hop hstop hover hmisled
          · cases h
        | notDirectory => simp [hresolve] at h
        | tooManyLinks => simp [hresolve] at h

end

/-! ## 7. Components -/

/-- The steps of components that are single names. -/
def namesOf (components : List Str) : FsPath := components.map fun c => .name (Utf8.encode c)

/-- A component that is a single name. -/
def IsSingleName (component : Str) : Prop :=
  stepsOf (Utf8.encode component) = [.name (Utf8.encode component)]

theorem stepsOf_name {bytes : List UInt8} (hnil : bytes ≠ []) (hslash : (47 : UInt8) ∉ bytes)
    (hdot : bytes ≠ [46]) (hdots : bytes ≠ [46, 46]) : stepsOf bytes = [.name bytes] := by
  have hsplit : bytes.splitOn 47 = [bytes] := by
    refine List.splitOnP_eq_singleton fun b hb => ?_
    exact beq_false_of_ne fun h => hslash (h ▸ hb)
  have hhead : bytes.head? ≠ some 47 := fun h => hslash (List.mem_of_head? h)
  simp [stepsOf, hsplit, hnil, hdot, hdots, hhead]

theorem isSingleName_of {component : Str} (hnil : component ≠ []) (hslash : '/' ∉ component)
    (hdot : component ≠ ['.']) (hdots : component ≠ ['.', '.']) : IsSingleName component := by
  refine stepsOf_name ?_ ?_ ?_ ?_
  · exact fun h => hnil (Utf8.encode_injective (b := []) h)
  · intro h
    exact hslash (Utf8.mem_encode_ascii (by decide) h)
  · exact fun h => hdot (Utf8.encode_injective (b := ['.']) h)
  · exact fun h => hdots (Utf8.encode_injective (b := ['.', '.']) h)

theorem slash_notMem_part {part : Str} (h : isBadPart part = false) : '/' ∉ part := by
  simp only [isBadPart, Bool.or_eq_false_iff, List.any_eq_false] at h
  exact fun hslash => h.1.1.1.2 _ hslash (by decide)

theorem isSingleName_of_part {part : Str} (h : isBadPart part = false) : IsSingleName part := by
  have hslash := slash_notMem_part h
  simp only [isBadPart, Bool.or_eq_false_iff, decide_eq_false_iff_not] at h
  obtain ⟨⟨⟨⟨hnil, -⟩, hdot⟩, hdots⟩, -⟩ := h
  exact isSingleName_of hnil hslash hdot hdots

theorem isSingleName_of_file {key : ArtifactKey} {ending : Str} (h : '/' ∉ key.artifactId)
    (h' : '/' ∉ key.version) (hending : '/' ∉ ending) :
    IsSingleName (key.artifactId ++ '-' :: key.version ++ ending) := by
  have hdash : '-' ∈ key.artifactId ++ '-' :: key.version ++ ending := by simp
  refine isSingleName_of (List.ne_nil_of_mem hdash) (by simp [h, h', hending]) ?_ ?_
  · intro heq
    simp [heq] at hdash
  · intro heq
    simp [heq] at hdash

/-- **The components of an accepted coordinate are single names.** -/
theorem isSingleName_of_mem {coordinate component : Str} {key : ArtifactKey} {file : ArtifactFile}
    (h : parseExactCoordinate coordinate = some key)
    (hmem : component ∈ artifactComponents key (file.name key)) : IsSingleName component := by
  unfold parseExactCoordinate at h
  split at h
  · rename_i groupId artifactId version _
    split at h
    · cases h
    · rename_i haccepted
      cases h
      simp only [List.any_cons, List.any_nil, Bool.or_false, Bool.or_eq_true, not_or,
        Bool.not_eq_true] at haccepted
      obtain ⟨⟨hgroup, hartifact, hversion⟩, hnames⟩ := haccepted
      simp only [artifactComponents, List.mem_append, List.mem_cons, List.not_mem_nil,
        or_false] at hmem
      rcases hmem with (hmem | rfl | rfl) | hmem
      · have hdot := not_mem_of_mem_splitOn hmem
        have hslash := fun h => slash_notMem_part hgroup ((infix_of_mem_splitOn hmem).subset h)
        refine isSingleName_of ?_ hslash ?_ ?_
        · rintro rfl
          exact Bool.false_ne_true (hnames.symm.trans (List.any_eq_true.mpr ⟨[], hmem, rfl⟩))
        · rintro rfl
          exact hdot List.mem_cons_self
        · rintro rfl
          exact hdot List.mem_cons_self
      · exact isSingleName_of_part hartifact
      · exact isSingleName_of_part hversion
      · cases file with
        | directory => cases hmem
        | pom =>
          obtain rfl := List.mem_singleton.mp hmem
          exact isSingleName_of_file (slash_notMem_part hartifact)
            (slash_notMem_part hversion) (by decide)
        | jar =>
          obtain rfl := List.mem_singleton.mp hmem
          exact isSingleName_of_file (slash_notMem_part hartifact)
            (slash_notMem_part hversion) (by decide)
  · cases h

/-! ## 8. The whole path -/

theorem nextPath_eq {component : Str} (h : IsSingleName component) (current : List FsName) :
    nextPath current component = fromRoot current ++ [.name (Utf8.encode component)] := by
  rw [nextPath, h, join, if_neg (by simp)]

section

variable {tree : FileTree.Tree FsName} {root : List FsName} {components : List Str}

/-- A component is resolved where the path in front of it leads to. -/
theorem leads_step {component : Str} (hname : IsSingleName component) {path : FsPath}
    {current : List FsName} (hpath : tree.Leads true [] path (.found current))
    {o : Outcome FsName} (h : tree.Leads true [] (nextPath current component) o) :
    tree.Leads true [] (path ++ [.name (Utf8.encode component)]) o := by
  have hnode := ((hpath.nodes tree.root).1 current rfl).2 rfl
  rw [nextPath_eq hname] at h
  exact (Tree.leads_append_congr tree.root hpath (Tree.leads_fromRoot hnode)).mpr h

/-- One component after the other resolves to a path inside `root`. -/
inductive Enters (tree : FileTree.Tree FsName) (root : List FsName) :
    List FsName → List Str → List FsName → Prop
  | nil (current : List FsName) : Enters tree root current [] current
  | cons {current next last : List FsName} {component : Str} {rest : List Str}
      (hnext : tree.resolve (nextPath current component) = .found next) (hinside : root <+: next)
      (hrest : Enters tree root next rest last) : Enters tree root current (component :: rest) last

/-- The component that is not entered: it is missing, or a dangling link. -/
structure Stops (tree : FileTree.Tree FsName) (root : List FsName) (first : List FsName)
    (components : List Str) (current : List FsName) (component : Str) (d : List FsName)
    (n : FsName) : Prop where
  enters : ∃ before after, components = before ++ component :: after ∧
    Enters tree root first before current
  missing : tree.resolve (nextPath current component) = .missing d n

theorem Enters.inside {current last : List FsName} (h : Enters tree root current components last)
    (hroot : root <+: current) : root <+: last := by
  induction h with
  | nil => exact hroot
  | cons _ hinside _ ih => exact ih hinside

/-- The loop goes on behind the components that are entered. -/
theorem Enters.containedFrom {current last : List FsName}
    (h : Enters tree root current components last) (rest : List Str) :
    containedFrom tree root current (components ++ rest) = containedFrom tree root last rest := by
  induction h with
  | nil => rfl
  | cons hnext hinside _ ih =>
    obtain ⟨file, hfile⟩ := Tree.exists_found_of_resolve hnext
    rw [List.cons_append, Index.containedFrom]
    simp only [hfile, hnext, List.isPrefixOf_iff_prefix.mpr hinside, if_true, ih]

/-- What an answer says about the components. -/
theorem containedFrom_ok {current : List FsName} {answer : Option (List FsName)}
    (h : containedFrom tree root current components = .ok answer) :
    (∃ last, answer = some last ∧ Enters tree root current components last) ∨
      answer = none ∧ ∃ last component d n, Stops tree root current components last component d n ∧
        (tree.resolveNoFollow (nextPath last component) = .missing d n ∨
          ensureDanglingSymlinkContained tree root maxSymlinkHops (nextPath last component)
            = .ok ()) := by
  induction components generalizing current with
  | nil =>
    cases h
    exact .inl ⟨current, rfl, .nil current⟩
  | cons component rest ih =>
    have hhere {d : List FsName} {n : FsName}
        (hmissing : tree.resolve (nextPath current component) = .missing d n) :
        Stops tree root current (component :: rest) current component d n :=
      ⟨⟨[], rest, rfl, .nil current⟩, hmissing⟩
    rw [containedFrom] at h
    split at h
    · rename_i d n hmissing
      cases h
      exact .inr ⟨rfl, current, component, d, n, hhere (Tree.resolve_of_missing hmissing),
        .inl hmissing⟩
    · rename_i file hfile
      split at h
      · rename_i next hnext
        split at h
        · rename_i hinside
          have hinside := List.isPrefixOf_iff_prefix.mp hinside
          rcases ih h with ⟨last, hlast, henters⟩ | ⟨hnone, last, c, d, n, hstops, hcase⟩
          · exact .inl ⟨last, hlast, .cons hnext hinside henters⟩
          · obtain ⟨⟨front, after, hsplit, henters⟩, hmissing⟩ := hstops
            exact .inr ⟨hnone, last, c, d, n, ⟨⟨component :: front, after, by rw [hsplit]; rfl,
              .cons hnext hinside henters⟩, hmissing⟩, hcase⟩
        · cases h
      · rename_i d n hmissing
        split at h
        · cases hensure : ensureDanglingSymlinkContained tree root maxSymlinkHops
            (nextPath current component) with
          | error error =>
            rw [hensure] at h
            cases h
          | ok =>
            rw [hensure] at h
            cases h
            exact .inr ⟨rfl, current, component, d, n, hhere hmissing, .inr hensure⟩
        · rename_i hlink
          -- only a link resolves differently from what it is
          rcases Tree.resolveNoFollow_cases tree (nextPath current component) with
            heq | ⟨file', target, hfile', htarget⟩
          · rw [hfile, hmissing] at heq
            cases heq
          · cases hfile.symm.trans hfile'
            exact absurd (by simp [isSymlink, htarget]) hlink
      · cases h
    · cases h

/-- **Entering the components is resolving the path.** -/
theorem Enters.leads {current last : List FsName} (h : Enters tree root current components last)
    (hnames : ∀ c ∈ components, IsSingleName c) {path : FsPath}
    (hpath : tree.Leads true [] path (.found current)) :
    tree.Leads true [] (path ++ namesOf components) (.found last) := by
  induction h generalizing path with
  | nil =>
    rw [namesOf, List.map_nil, List.append_nil]
    exact hpath
  | @cons current next last component rest hnext _ _ ih =>
    obtain ⟨hname, hrest⟩ := List.forall_mem_cons.mp hnames
    have hstep := leads_step hname hpath (Tree.leads_of_resolve hnext (by simp))
    rw [namesOf, List.map_cons, List.append_cons]
    exact ih hrest hstep

theorem Stops.leads {first current d : List FsName} {component : Str} {n : FsName}
    (h : Stops tree root first components current component d n)
    (hnames : ∀ c ∈ components, IsSingleName c) {path : FsPath}
    (hpath : tree.Leads true [] path (.found first)) :
    tree.Leads true [] (path ++ namesOf components) (.missing d n) := by
  obtain ⟨⟨before, after, rfl, henters⟩, hmissing⟩ := h
  obtain ⟨hbefore, hafter⟩ := List.forall_mem_append.mp hnames
  obtain ⟨hname, -⟩ := List.forall_mem_cons.mp hafter
  have hstop := leads_step hname (henters.leads hbefore hpath)
    (Tree.leads_of_resolve hmissing (by simp))
  have hall : path ++ namesOf (before ++ component :: after)
      = path ++ namesOf before ++ [.name (Utf8.encode component)] ++ namesOf after := by
    simp [namesOf]
  rw [hall]
  exact hstop.append_missing (.inr rfl)

/-- Where the component itself is missing, it is missing in the directory reached so far. -/
theorem eq_of_plainly_missing {current d : List FsName} {component : Str} {n : FsName}
    (hname : IsSingleName component)
    (hcurrent : tree.node current = some .directory ∨ tree.node current = some .file)
    (h : tree.resolveNoFollow (nextPath current component) = .missing d n) : d = current := by
  have hleads := Tree.leads_of_resolveNoFollow h (by simp)
  rw [nextPath_eq hname] at hleads
  rcases hcurrent with hdirectory | hfile
  · cases (Tree.leads_fromRoot_append_iff hdirectory (.inl (List.cons_ne_nil _ _))).mp hleads with
    | missing => rfl
    | jump _ hfollow => simp at hfollow
    | enter _ h => cases h
  · have hstop : tree.Leads false [] (fromRoot current ++ [.name (Utf8.encode component)])
        .notDirectory :=
      (Tree.leads_fromRoot (.inr hfile)).append_file tree.root hfile (List.cons_ne_nil _ _)
    cases hleads.det hstop

/-! ## 9. Containment -/

/-- What an answer for the components below a root promises. -/
structure Contained (tree : FileTree.Tree FsName) (rootPath : FsPath) (components : List Str)
    (answer : Except PathError (Option (List FsName))) : Prop where
  /-- What is found is the canonical path that root and components resolve to, below the root. -/
  inside : ∀ p, answer = .ok (some p) → ∃ root, tree.resolve rootPath = .found root ∧ root <+: p ∧
    (tree.node p = some .directory ∨ tree.node p = some .file) ∧
    tree.Leads true [] (rootPath ++ namesOf components) (.found p)
  outside : ∀ root before p, tree.resolve rootPath = .found root → before <+: components →
    tree.Leads true [] (rootPath ++ namesOf before) (.found p) → ¬ root <+: p →
    ∃ error, answer = .error error
  /-- What is absent is absent inside of the root. -/
  absent : answer = .ok none → ∃ d n,
    tree.Leads true [] (rootPath ++ namesOf components) (.missing d n) ∧
      ∀ root, tree.resolve rootPath = .found root → root <+: d

/-- The components come to a dangling link that ends outside of the root and misleads. -/
def Escapes (tree : FileTree.Tree FsName) (rootPath : FsPath) (components : List Str) : Prop :=
  ∃ root current component d n, tree.resolve rootPath = .found root ∧
    Stops tree root root components current component d n ∧
    Misled tree root maxSymlinkHops (nextPath current component) ∧ ¬ root <+: d

variable {rootPath : FsPath}

theorem enters_of_prefix {current last : List FsName} {before : List Str}
    (h : Enters tree root current components last) (hbefore : before <+: components) :
    ∃ next, Enters tree root current before next := by
  obtain ⟨after, rfl⟩ := hbefore
  induction before generalizing current with
  | nil => exact ⟨current, .nil current⟩
  | cons component before ih =>
    cases h with
    | cons hnext hinside hrest =>
      obtain ⟨next, henters⟩ := ih hrest
      exact ⟨next, .cons hnext hinside henters⟩

/-- A prefix that resolves outside is never behind an answer. -/
theorem inside_of_ok {before : List Str} {p : List FsName} {answer : Option (List FsName)}
    (hroot : tree.resolve rootPath = .found root) (hnames : ∀ c ∈ components, IsSingleName c)
    (h : containedFrom tree root root components = .ok answer) (hbefore : before <+: components)
    (hp : tree.Leads true [] (rootPath ++ namesOf before) (.found p)) : root <+: p := by
  have hpath := Tree.leads_of_resolve hroot (by simp)
  have hnames' : ∀ c ∈ before, IsSingleName c := fun c hc => hnames c (hbefore.subset hc)
  have hentered {next : List FsName} (henters : Enters tree root root before next) :
    root <+: p := by
    cases (henters.leads hnames' hpath).det hp
    exact henters.inside (List.prefix_refl root)
  rcases containedFrom_ok h with ⟨last, -, henters⟩ | ⟨-, last, component, d, n, hstops, -⟩
  · obtain ⟨next, henters⟩ := enters_of_prefix henters hbefore
    exact hentered henters
  · obtain ⟨front, after, rfl, henters⟩ := hstops.enters
    rcases List.prefix_or_prefix_of_prefix hbefore (List.prefix_append front _) with
      hshort | ⟨more, rfl⟩
    · obtain ⟨next, henters⟩ := enters_of_prefix henters hshort
      exact hentered henters
    · have hmore := (List.prefix_append_right_inj front).mp hbefore
      cases more with
      | nil =>
        rw [List.append_nil] at hentered
        exact hentered henters
      | cons component' more =>
        obtain ⟨rfl, -⟩ := List.cons_prefix_cons.mp hmore
        -- the path would have to go on behind the missing name
        have hstops' : Stops tree root root (front ++ component' :: more) last component' d n :=
          ⟨⟨front, more, rfl, henters⟩, hstops.missing⟩
        cases (hstops'.leads hnames' hpath).det hp

theorem contained_of_not_escapes (hnames : ∀ c ∈ components, IsSingleName c)
    (hroot : tree.resolve rootPath = .found root) (h : ¬ Escapes tree rootPath components) :
    Contained tree rootPath components (containedFrom tree root root components) := by
  have hpath := Tree.leads_of_resolve hroot (by simp)
  have hunique {root' : List FsName} (h : tree.resolve rootPath = .found root') : root' = root :=
    Outcome.found.inj (h.symm.trans hroot)
  constructor
  · intro p hp
    rcases containedFrom_ok hp with ⟨last, hlast, henters⟩ | ⟨hnone, -⟩
    · cases hlast
      have hleads := henters.leads hnames hpath
      exact ⟨root, hroot, henters.inside (List.prefix_refl root),
        ((hleads.nodes tree.root).1 p rfl).2 rfl, hleads⟩
    · cases hnone
  · intro root' before p hroot' hbefore hp houtside
    obtain rfl := hunique hroot'
    cases hanswer : containedFrom tree root' root' components with
    | error error => exact ⟨error, rfl⟩
    | ok answer => exact absurd (inside_of_ok hroot hnames hanswer hbefore hp) houtside
  · intro hnone
    rcases containedFrom_ok hnone with ⟨last, hlast, -⟩ | ⟨-, last, component, d, n, hstops, hcase⟩
    · cases hlast
    refine ⟨d, n, hstops.leads hnames hpath, fun root' hroot' => ?_⟩
    obtain rfl := hunique hroot'
    obtain ⟨before, after, rfl, henters⟩ := hstops.enters
    obtain ⟨hbefore, hafter⟩ := List.forall_mem_append.mp hnames
    obtain ⟨hname, -⟩ := List.forall_mem_cons.mp hafter
    rcases hcase with hplain | hensure
    · have hlast := henters.leads hbefore hpath
      rw [eq_of_plainly_missing hname (((hlast.nodes tree.root).1 last rfl).2 rfl) hplain]
      exact henters.inside (List.prefix_refl root')
    · have hlink := Tree.leads_of_resolve hstops.missing (by simp)
      rcases inside_or_misled hensure hlink with hinside | hmisled
      · exact hinside
      · by_contra houtside
        exact h ⟨root', last, component, d, n, hroot, hstops, hmisled, houtside⟩

theorem not_contained_of_escapes (hnames : ∀ c ∈ components, IsSingleName c)
    (hroot : tree.resolve rootPath = .found root) (h : Escapes tree rootPath components) :
    ¬ Contained tree rootPath components (containedFrom tree root root components) := by
  obtain ⟨root', last, component, d, n, hroot', hstops, hmisled, houtside⟩ := h
  obtain rfl : root' = root := Outcome.found.inj (hroot'.symm.trans hroot)
  intro hcontained
  have hleads := hstops.leads hnames (Tree.leads_of_resolve hroot (by simp))
  obtain ⟨before, after, rfl, henters⟩ := hstops.enters
  have hnone : containedFrom tree root' root' (before ++ component :: after) = .ok none := by
    obtain ⟨file, target, hfile, htarget⟩ := hmisled.isLink
    rw [henters.containedFrom, containedFrom]
    simp only [hfile, hstops.missing, isSymlink, htarget, if_true, ensure_ok_of_misled hmisled]
    rfl
  obtain ⟨d', n', hleads', hinside⟩ := hcontained.absent hnone
  cases hleads.det hleads'
  exact houtside (hinside root' hroot)

theorem not_escapes_of_no_root (h : ∀ root, tree.resolve rootPath ≠ .found root) :
    ¬ Escapes tree rootPath components := by
  rintro ⟨root, _, _, _, _, hroot, -⟩
  exact h root hroot

end

/-- **The lookup of an accepted coordinate stays below the repository** exactly where no dangling
link escapes. -/
theorem contained_iff (tree : FileTree.Tree FsName) (rootPath : FsPath) {coordinate : Str}
    {key : ArtifactKey}
    (h : parseExactCoordinate coordinate = some key) (file : ArtifactFile) :
    Contained tree rootPath (artifactComponents key (file.name key))
        (containedArtifactPath tree rootPath key (file.name key)) ↔
      ¬ Escapes tree rootPath (artifactComponents key (file.name key)) := by
  have hnames : ∀ c ∈ artifactComponents key (file.name key), IsSingleName c :=
    fun c hc => isSingleName_of_mem h hc
  unfold containedArtifactPath
  cases hroot : tree.resolve rootPath with
  | found root =>
    simp only
    exact ⟨fun hcontained hescapes => not_contained_of_escapes hnames hroot hescapes hcontained,
      contained_of_not_escapes hnames hroot⟩
  | missing d n =>
    simp only
    have hnone : ∀ root, tree.resolve rootPath ≠ .found root := by simp [hroot]
    refine iff_of_true ⟨nofun, fun root _ _ hroot' => absurd hroot' (hnone root), fun _ => ?_⟩
      (not_escapes_of_no_root hnone)
    exact ⟨d, n, (Tree.leads_of_resolve hroot (by simp)).append_missing (.inr rfl),
      fun root hroot' => absurd hroot' (hnone root)⟩
  | notDirectory =>
    exact iff_of_true ⟨nofun, fun _ _ _ _ _ _ _ => ⟨.repository, rfl⟩, nofun⟩
      (not_escapes_of_no_root (by simp [hroot]))
  | tooManyLinks =>
    exact iff_of_true ⟨nofun, fun _ _ _ _ _ _ _ => ⟨.repository, rfl⟩, nofun⟩
      (not_escapes_of_no_root (by simp [hroot]))

/-- In the repository `/r`, `g` is a link to `foo/`, and `foo` one to a name that is missing
outside. -/
def dottedEnd : FileTree.Tree FsName :=
  .ofEntries
    [([[114]], .directory), ([[111]], .directory),
      ([[114], [103]], .link [.name [102], .here]),
      ([[114], [102]], .link [.root, .name [111], .name [109]])]
    40 (by decide)

/-- A dangling link to the outside is plainly absent. -/
theorem escapes_dottedEnd :
    ∃ key, parseExactCoordinate "g:a:1".toList = some key ∧
      containedArtifactPath dottedEnd [.root, .name [114]] key none = .ok none ∧
      dottedEnd.resolve ([.root, .name [114]] ++ namesOf (artifactComponents key none))
        = .missing [[111]] [109] ∧
      ¬ Contained dottedEnd [.root, .name [114]] (artifactComponents key none)
        (containedArtifactPath dottedEnd [.root, .name [114]] key none) := by
  have hroot : dottedEnd.resolve [.root, .name [114]] = .found [[114]] := by decide +kernel
  have hanswer : containedArtifactPath dottedEnd [.root, .name [114]] ⟨['g'], ['a'], ['1']⟩ none
      = .ok none := by decide +kernel
  have hmissing : dottedEnd.resolve ([.root, .name [114]] ++
      namesOf (artifactComponents ⟨['g'], ['a'], ['1']⟩ none)) = .missing [[111]] [109] := by
    decide +kernel
  refine ⟨⟨['g'], ['a'], ['1']⟩, by decide +kernel, hanswer, hmissing, fun h => ?_⟩
  obtain ⟨d, n, hleads, hinside⟩ := h.absent hanswer
  cases (Tree.leads_of_resolve hmissing (by simp)).det hleads
  exact absurd (hinside [[114]] hroot) (by decide)

theorem contained_iff_dottedEnd :
    Contained dottedEnd [.root, .name [114]] (artifactComponents ⟨['h'], ['a'], ['1']⟩ none)
        (containedArtifactPath dottedEnd [.root, .name [114]] ⟨['h'], ['a'], ['1']⟩ none) ↔
      ¬ Escapes dottedEnd [.root, .name [114]] (artifactComponents ⟨['h'], ['a'], ['1']⟩ none) :=
  contained_iff dottedEnd _ (show parseExactCoordinate "h:a:1".toList = _ by decide +kernel)
    .directory

end Index
end MavenMcp
