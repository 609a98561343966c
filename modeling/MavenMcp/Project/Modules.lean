/-
# Module discovery

`discover_module` of `src/project.rs` reads the POM of a directory and goes on with the directories
of its modules.  The file system is a static graph: whatever the modules are called, what is visited
are canonical directories.

* `Declares` is the graph, an edge for each module a POM names.
* `Sound` holds of the state whatever the answer is; `Traversal.Extends` is what a part of the
  discovery that succeeds leaves behind.
* `discovery_bounded`: each directory is read at most once, all are inside the root, and where
  discovery succeeds it has found everything within the depth limit, and there is nothing deeper.
-/
import MavenMcp.Config
import MavenMcp.Lib.Attempt
import MavenMcp.Lib.Table
import MavenMcp.Lib.Traversal
import MavenMcp.Paths

namespace MavenMcp
namespace Project

open Traversal (Chain Extends)

/-! ## 1. Discovery -/

structure RawProject where
  artifactId : Str
  packaging : Option Str
  modules : List Str
deriving DecidableEq, Repr

structure MavenModule where
  selector : Str
  artifactId : Str
  packaging : Str
  modules : List Str
deriving DecidableEq, Repr

/-- The file system, and the XML parser. -/
structure PomFiles extends XmlFiles PathBuf where
  canonicalize : PathBuf → Option PathBuf
  /-- `quick_xml::de::from_str`. -/
  parse : Str → Option RawProject
  /-- A canonical path stands for itself. -/
  canonical : ∀ path directory, canonicalize path = some directory →
    canonicalize directory = some directory

inductive DiscoveryError
  /-- `module discovery exceeds MAX_XML_DEPTH` -/
  | tooDeep
  /-- The directory itself cannot be made canonical. -/
  | noCanonicalPath
  /-- `module path escapes project_path` -/
  | escapes
  /-- `module {selector} has no readable pom.xml: {error:#}` -/
  | noPom (selector : Str) (error : XmlError)
  /-- `cannot parse module POM for {selector}` -/
  | unparsable (selector : Str)
  /-- `module selector must remain inside project_path` -/
  | selectorOutside
  /-- `module {child_selector} is not a readable directory` -/
  | noDirectory (childSelector : Str)
deriving DecidableEq, Repr

/-- A module, and the canonical directory it was read from. -/
structure Discovered where
  directory : PathBuf
  module : MavenModule
deriving DecidableEq, Repr

structure Discovery where
  /-- By selector. -/
  discovered : Table Str Discovered
  /-- Canonical paths, which are equal when their bytes are. -/
  visited : List PathBuf
  budget : XmlBudget
  /-- The directories whose POM was opened so far. -/
  reads : List PathBuf

/-- The state in which `discover_project` begins. -/
def Discovery.start : Discovery := ⟨∅, [], .empty, []⟩

abbrev Discover := Attempt DiscoveryError Discovery

def pomXml : PathBuf := Utf8.encode "pom.xml".toList

def normalizeModuleSelector (parent module : Str) : Except DiscoveryError Str :=
  let path := Utf8.encode module
  if isAbsolute path || (pathComponents path).contains .parentDir then .error .selectorOutside
  else
    let normalized := if parent = ['.'] then module else parent ++ '/' :: module
    .ok (normalized.map fun c => if c = '\\' then '/' else c)

/-- `Option::ok_or`. -/
def okOr {α : Type} (x : Option α) (error : DiscoveryError) : Except DiscoveryError α :=
  match x with
  | some a => .ok a
  | none => .error error

section

variable (files : PomFiles) (root : PathBuf)

def readPom (directory : PathBuf) (selector : Str) : Discover Str :=
  .of fun s =>
    match s.budget.read files.toXmlFiles (joinPath directory pomXml) with
    | .ok (xml, budget) => (.ok xml, { s with budget, reads := directory :: s.reads })
    | .error error => (.error (.noPom selector error), { s with reads := directory :: s.reads })

/-- One round of the loop over the modules of a POM. -/
def visitChild (descend : PathBuf → Str → Discover Unit) (directory : PathBuf)
    (module childSelector : Str) : Discover Unit := do
  let child ← Attempt.lift (okOr (files.canonicalize (joinPath directory (Utf8.encode module)))
    (.noDirectory childSelector))
  if pathStartsWith child root = false then throw .escapes
  else descend child childSelector

/-- The rest of `discover_module`, from the first visit of a canonical directory on. -/
def visitModule (descend : PathBuf → Str → Discover Unit) (directory : PathBuf)
    (selector : Str) : Discover Unit := do
  modify fun s => { s with visited := directory :: s.visited }
  let xml ← readPom files directory selector
  let raw ← Attempt.lift (okOr (files.parse xml) (.unparsable selector))
  let childSelectors ← Attempt.lift (raw.modules.mapM (normalizeModuleSelector selector))
  modify fun s => { s with
    discovered := s.discovered.insert selector
      { directory
        module :=
          { selector
            artifactId := raw.artifactId
            packaging := raw.packaging.getD "jar".toList
            modules := childSelectors } } }
  (raw.modules.zip childSelectors).foldlM
    (fun _ child => visitChild files root descend directory child.1 child.2) ()

/-- `left` is `MAX_XML_DEPTH + 1 - depth`. -/
def discoverModule : (left : Nat) → PathBuf → Str → Discover Unit
  | 0, _, _ => throw .tooDeep
  | left + 1, path, selector => do
    let directory ← Attempt.lift (okOr (files.canonicalize path) .noCanonicalPath)
    if pathStartsWith directory root = false then throw .escapes
    else do
      let s ← get
      if directory ∈ s.visited then pure ()
      else visitModule files root (discoverModule left) directory selector

/-- The call of `discover_project`. -/
def discoverRoot : Except DiscoveryError Unit × Discovery :=
  (discoverModule files root (maxXmlDepth + 1) root ['.']).answer .start

end

/-! ## 2. The graph -/

section

variable (files : PomFiles)

/-- The POM of a directory. -/
def PomFiles.pom (directory : PathBuf) : Option RawProject :=
  (files.text (joinPath directory pomXml)).bind files.parse

/-- The canonical directories of its modules. -/
def PomFiles.children (directory : PathBuf) : List PathBuf :=
  match files.pom directory with
  | none => []
  | some raw => raw.modules.filterMap fun module =>
      files.canonicalize (joinPath directory (Utf8.encode module))

/-- The POM of `a` has a module in `b`. -/
def Declares (a b : PathBuf) : Prop := b ∈ files.children a

end

section

variable {files : PomFiles} {root home directory : PathBuf} {selector : Str}
  {descend : PathBuf → Str → Discover Unit} {raw : RawProject}

theorem declares_of_pom (hpom : files.pom directory = some raw) {module : Str}
    (hmodule : module ∈ raw.modules) {child : PathBuf}
    (hchild : files.canonicalize (joinPath directory (Utf8.encode module)) = some child) :
    Declares files directory child := by
  unfold Declares PomFiles.children
  rw [hpom]
  exact List.mem_filterMap.mpr ⟨module, hmodule, hchild⟩

theorem exists_module_of_declares (hpom : files.pom directory = some raw) {child : PathBuf}
    (h : Declares files directory child) : ∃ module ∈ raw.modules,
      files.canonicalize (joinPath directory (Utf8.encode module)) = some child := by
  unfold Declares PomFiles.children at h
  rw [hpom] at h
  exact List.mem_filterMap.mp h

theorem canonical_of_declares {child : PathBuf} (h : Declares files directory child) :
    files.canonicalize child = some child := by
  cases hpom : files.pom directory with
  | none => simp [Declares, PomFiles.children, hpom] at h
  | some raw =>
    obtain ⟨module, -, hmodule⟩ := exists_module_of_declares hpom h
    exact files.canonical _ _ hmodule

theorem okOr_eq_ok {α : Type} {x : Option α} {error : DiscoveryError} {a : α} :
    okOr x error = .ok a ↔ x = some a := by
  cases x <;> simp [okOr]

/-- The selectors of a POM's modules, in their order. -/
theorem length_of_selectors {modules childSelectors : List Str}
    (h : modules.mapM (normalizeModuleSelector selector) = .ok childSelectors) :
    childSelectors.length = modules.length := by
  induction modules generalizing childSelectors with
  | nil =>
    cases h
    rfl
  | cons module modules ih =>
    rw [List.mapM_cons] at h
    cases hfirst : normalizeModuleSelector selector module with
    | error e =>
      rw [hfirst] at h
      cases h
    | ok first =>
      cases hrest : modules.mapM (normalizeModuleSelector selector) with
      | error e =>
        rw [hfirst, hrest] at h
        cases h
      | ok rest =>
        rw [hfirst, hrest] at h
        cases h
        exact congrArg (· + 1) (ih hrest)

/-! ## 3. What holds whatever the answer is -/

/-- What is known of the state, when discovery began in `home`. -/
structure Sound (files : PomFiles) (root home : PathBuf) (s : Discovery) : Prop where
  /-- The POM of each visited directory was opened, once. -/
  reads : s.reads = s.visited
  visited : s.visited.Nodup
  inside : ∀ d ∈ s.visited, pathStartsWith d root = true
  near : ∀ d ∈ s.visited, ∃ n ≤ maxXmlDepth, Chain (Declares files) n home d
  found : ∀ e ∈ s.discovered.values, e.directory ∈ s.visited
  once : (s.discovered.values.map Discovered.directory).Nodup

theorem sound_start (files : PomFiles) (root home : PathBuf) : Sound files root home .start where
  reads := rfl
  visited := List.nodup_nil
  inside := nofun
  near := nofun
  found := nofun
  once := List.nodup_nil

/-- The directory was just read, and no module stands for it yet. -/
def Fresh (directory : PathBuf) (s : Discovery) : Prop :=
  directory ∈ s.visited ∧ ∀ e ∈ s.discovered.values, e.directory ≠ directory

/-- A directory is visited. -/
theorem Sound.visit {s : Discovery} (h : Sound files root home s)
    (hinside : pathStartsWith directory root = true)
    (hnear : ∃ n ≤ maxXmlDepth, Chain (Declares files) n home directory)
    (hnew : directory ∉ s.visited) (budget : XmlBudget) :
    Sound files root home { s with
      visited := directory :: s.visited, budget, reads := directory :: s.reads } where
  reads := congrArg _ h.reads
  visited := List.nodup_cons.mpr ⟨hnew, h.visited⟩
  inside := List.forall_mem_cons.mpr ⟨hinside, h.inside⟩
  near := List.forall_mem_cons.mpr ⟨hnear, h.near⟩
  found := fun e he => List.mem_cons_of_mem _ (h.found e he)
  once := h.once

/-- Its module is entered. -/
theorem Sound.insert {s : Discovery} (h : Sound files root home s) (hfresh : Fresh directory s)
    (selector : Str) (module : MavenModule) :
    Sound files root home { s with
      discovered := s.discovered.insert selector ⟨directory, module⟩ } := by
  have hsub : ∀ e ∈ (s.discovered.erase selector).values, e ∈ s.discovered.values :=
    fun e he => (AList.sublist_values_erase s.discovered selector).subset he
  have hvalues : (s.discovered.insert selector ⟨directory, module⟩).values =
      ⟨directory, module⟩ :: (s.discovered.erase selector).values := rfl
  refine ⟨h.reads, h.visited, h.inside, h.near, ?_, ?_⟩
  · rw [hvalues]
    exact List.forall_mem_cons.mpr ⟨hfresh.1, fun e he => h.found e (hsub e he)⟩
  · rw [hvalues, List.map_cons, List.nodup_cons]
    refine ⟨fun hmem => ?_, ?_⟩
    · obtain ⟨e, he, hdir⟩ := List.mem_map.mp hmem
      exact hfresh.2 e (hsub e he) hdir
    · exact h.once.sublist ((AList.sublist_values_erase s.discovered selector).map _)

variable (files root home) in
/-- A triple for attempts that keep the state sound. -/
abbrev Keeps (x : Discover Unit) : Prop :=
  Attempt.Triple (Sound files root home) x (fun _ => Sound files root home)
    (Sound files root home)

theorem keeps_visitChild (hpom : files.pom directory = some raw) {module childSelector : Str}
    (hmodule : module ∈ raw.modules)
    (hdescend : ∀ child, Declares files directory child → ∀ selector,
      Keeps files root home (descend child selector)) :
    Keeps files root home (visitChild files root descend directory module childSelector) := by
  unfold visitChild
  refine Attempt.Triple.bind (Q := fun child s =>
    files.canonicalize (joinPath directory (Utf8.encode module)) = some child ∧
      Sound files root home s) (.lift (fun s child hs h => ⟨okOr_eq_ok.mp h, hs⟩) fun s hs => hs) ?_
  intro child
  refine .assume fun hchild => .ite (fun _ => .throw fun s hs => hs) fun _ => ?_
  exact hdescend child (declares_of_pom hpom hmodule hchild) childSelector

/-- **One directory.**  What is done for its modules keeps the state sound. -/
theorem keeps_visitModule (hinside : pathStartsWith directory root = true)
    (hnear : ∃ n ≤ maxXmlDepth, Chain (Declares files) n home directory)
    (hdescend : ∀ child, Declares files directory child → ∀ selector,
      Keeps files root home (descend child selector)) :
    Attempt.Triple (fun s => Sound files root home s ∧ directory ∉ s.visited)
      (visitModule files root descend directory selector) (fun _ => Sound files root home)
      (Sound files root home) := by
  unfold visitModule
  -- the directory is marked before its POM is read
  refine .bind (Q := fun _ s => ∃ s₀, Sound files root home s₀ ∧ directory ∉ s₀.visited ∧
    s = { s₀ with visited := directory :: s₀.visited })
    (.modify fun s hs => ⟨s, hs.1, hs.2, rfl⟩) fun _ => ?_
  refine .bind (Q := fun xml s => files.text (joinPath directory pomXml) = some xml ∧
    Sound files root home s ∧ Fresh directory s) (.intro ?_ ?_) fun xml => .assume fun hxml => ?_
  · rintro _ xml s' ⟨s, hs, hnew, rfl⟩ hread
    simp only [readPom, Attempt.answer_of] at hread
    split at hread
    · rename_i hbudget
      cases hread
      refine ⟨(XmlBudget.read_eq_ok hbudget).1, hs.visit hinside hnear hnew _,
        List.mem_cons_self, fun e he hdir => hnew ?_⟩
      rw [← hdir]
      exact hs.found e he
    · cases hread
  · rintro _ e s' ⟨s, hs, hnew, rfl⟩ hread
    simp only [readPom, Attempt.answer_of] at hread
    split at hread
    · cases hread
    · cases hread
      exact hs.visit hinside hnear hnew _
  refine .bind (Q := fun raw s => files.pom directory = some raw ∧
    Sound files root home s ∧ Fresh directory s) (.lift ?_ fun s hs => hs.1)
    fun raw => .assume fun hpom => ?_
  · intro s raw hs hraw
    refine ⟨?_, hs⟩
    rw [PomFiles.pom, hxml]
    exact okOr_eq_ok.mp hraw
  refine .bind (Q := fun childSelectors s => Sound files root home s ∧ Fresh directory s)
    (.lift (fun s _ hs _ => hs) fun s hs => hs.1) fun childSelectors => ?_
  refine .bind (Q := fun _ s => Sound files root home s)
    (.modify fun s hs => hs.1.insert hs.2 _ _) fun _ => ?_
  refine .foldlM (I := fun _ => Sound files root home) (fun child hchild _ => ?_) ()
  exact keeps_visitChild hpom (List.of_mem_zip hchild).1 hdescend

/-- **Discovery keeps the state sound**, whatever it answers.  A call for a directory that `n`
edges lead to has `MAX_XML_DEPTH + 1 - n` rounds left. -/
theorem keeps_discoverModule (left : Nat) (path : PathBuf) (selector : Str)
    (hnear : ∀ directory, files.canonicalize path = some directory →
      ∃ n, n + left = maxXmlDepth + 1 ∧ Chain (Declares files) n home directory) :
    Keeps files root home (discoverModule files root left path selector) := by
  induction left generalizing path selector with
  | zero => exact .throw fun s hs => hs
  | succ left ih =>
    unfold discoverModule
    refine Attempt.Triple.bind (Q := fun directory s =>
      files.canonicalize path = some directory ∧ Sound files root home s)
      (.lift (fun s directory hs h => ⟨okOr_eq_ok.mp h, hs⟩) fun s hs => hs) ?_
    intro directory
    refine .assume fun hdirectory => .ite (fun _ => .throw fun s hs => hs) fun hinside => ?_
    rw [Bool.not_eq_false] at hinside
    obtain ⟨n, hn, hchain⟩ := hnear directory hdirectory
    refine .bind (Q := fun s₀ s => s₀ = s ∧ Sound files root home s)
      (.get fun s hs => ⟨rfl, hs⟩) fun s₀ => ?_
    refine .ite (fun _ => .pure fun s hs => hs.2) fun hnew => ?_
    have hdescend : ∀ child, Declares files directory child → ∀ selector,
        Keeps files root home (discoverModule files root left child selector) := by
      intro child hchild selector
      refine ih child selector fun canonical hcanonical => ?_
      -- a child is canonical already
      obtain rfl := Option.some.inj ((canonical_of_declares hchild).symm.trans hcanonical)
      exact ⟨n + 1, by omega, hchain.tail hchild⟩
    exact (keeps_visitModule hinside ⟨n, by omega, hchain⟩ hdescend).weaken
      fun s hs => ⟨hs.2, hs.1 ▸ hnew⟩

/-! ## 4. What holds where discovery succeeds -/

/-- From the state `s₀`, what was visited before is extended, and `Q` holds of it. -/
abbrev Grows (files : PomFiles) (s₀ : Discovery) (x : Discover Unit)
    (Q : List PathBuf → Prop) : Prop :=
  Attempt.Triple (· = s₀) x
    (fun _ s => Extends (Declares files) s₀.visited s.visited ∧ Q s.visited) fun _ => True

theorem grows_visitChild {s₀ : Discovery} {module childSelector : Str}
    (hdescend : ∀ s₀ child selector, files.canonicalize child = some child →
      Grows files s₀ (descend child selector) (child ∈ ·)) :
    Grows files s₀ (visitChild files root descend directory module childSelector)
      fun visited => ∀ child,
        files.canonicalize (joinPath directory (Utf8.encode module)) = some child →
          child ∈ visited := by
  unfold visitChild
  refine .bind (Q := fun child s =>
    files.canonicalize (joinPath directory (Utf8.encode module)) = some child ∧ s = s₀)
    (.lift (fun s child hs h => ⟨okOr_eq_ok.mp h, hs⟩) fun s hs => trivial) fun child => ?_
  refine .assume fun hchild => .ite (fun _ => .throw fun s hs => trivial) fun _ => ?_
  refine (hdescend s₀ child childSelector (files.canonical _ _ hchild)).conseq (fun _ => id) ?_
    fun _ => id
  rintro - s ⟨hext, hmem⟩
  refine ⟨hext, fun child' hchild' => ?_⟩
  obtain rfl := Option.some.inj (hchild.symm.trans hchild')
  exact hmem

/-- The loop over the modules of a POM visits them all. -/
theorem grows_children (s₀ : Discovery) (children : List (Str × Str))
    (hdescend : ∀ s₀ child selector, files.canonicalize child = some child →
      Grows files s₀ (descend child selector) (child ∈ ·)) :
    Grows files s₀
      (children.foldlM
        (fun _ child => visitChild files root descend directory child.1 child.2) ())
      fun visited => ∀ p ∈ children, ∀ child,
        files.canonicalize (joinPath directory (Utf8.encode p.1)) = some child →
          child ∈ visited := by
  induction children generalizing s₀ with
  | nil => exact .pure fun s hs => ⟨hs ▸ .refl _ _, nofun⟩
  | cons p children ih =>
    rw [List.foldlM_cons]
    refine .bind (grows_visitChild hdescend) fun _ => .each fun s₁ ⟨hext, hfirst⟩ => ?_
    refine (ih s₁).conseq (fun _ => id) ?_ fun _ => id
    rintro - s ⟨hext', hrest⟩
    refine ⟨hext.trans hext', List.forall_mem_cons.mpr ⟨fun child hchild => ?_, hrest⟩⟩
    exact hext'.subset (hfirst child hchild)

theorem grows_visitModule {s₀ : Discovery}
    (hdescend : ∀ s₀ child selector, files.canonicalize child = some child →
      Grows files s₀ (descend child selector) (child ∈ ·)) :
    Grows files s₀ (visitModule files root descend directory selector) (directory ∈ ·) := by
  unfold visitModule
  refine .bind (Q := fun _ s => s.visited = directory :: s₀.visited)
    (.modify fun s hs => by rw [hs]) fun _ => ?_
  refine .bind (Q := fun xml s => files.text (joinPath directory pomXml) = some xml ∧
    s.visited = directory :: s₀.visited) (.intro ?_ fun _ _ _ _ _ => trivial)
    fun xml => .assume fun hxml => ?_
  · intro s xml s' hs hread
    simp only [readPom, Attempt.answer_of] at hread
    split at hread
    · rename_i hbudget
      cases hread
      exact ⟨(XmlBudget.read_eq_ok hbudget).1, hs⟩
    · cases hread
  refine .bind (Q := fun raw s => files.pom directory = some raw ∧
    s.visited = directory :: s₀.visited) (.lift ?_ fun _ _ => trivial)
    fun raw => .assume fun hpom => ?_
  · intro s raw hs hraw
    refine ⟨?_, hs⟩
    rw [PomFiles.pom, hxml]
    exact okOr_eq_ok.mp hraw
  refine .bind (Q := fun childSelectors s => childSelectors.length = raw.modules.length ∧
    s.visited = directory :: s₀.visited)
    (.lift (fun s _ hs h => ⟨length_of_selectors h, hs⟩) fun _ _ => trivial)
    fun childSelectors => .assume fun hlength => ?_
  refine .bind (Q := fun _ s => s.visited = directory :: s₀.visited) (.modify fun s hs => hs)
    fun _ => .each fun s₁ hs₁ => ?_
  refine (grows_children _ _ hdescend).conseq (fun _ => id) ?_ fun _ => id
  rintro - s ⟨hext, hall⟩
  rw [hs₁] at hext
  refine ⟨hext.visit fun child hchild => ?_, hext.subset List.mem_cons_self⟩
  obtain ⟨module, hmodule, hcanonical⟩ := exists_module_of_declares hpom hchild
  rw [← List.map_fst_zip hlength.ge] at hmodule
  obtain ⟨p, hp, rfl⟩ := List.mem_map.mp hmodule
  exact hall p hp child hcanonical

/-- **A call that succeeds** has visited its directory, and what it added is closed. -/
theorem grows_discoverModule (left : Nat) (s₀ : Discovery) (path : PathBuf) (selector : Str) :
    Grows files s₀ (discoverModule files root left path selector) fun visited =>
      ∀ directory, files.canonicalize path = some directory → directory ∈ visited := by
  induction left generalizing path selector s₀ with
  | zero => exact .throw fun s hs => trivial
  | succ left ih =>
    unfold discoverModule
    refine .bind (Q := fun directory s => files.canonicalize path = some directory ∧ s = s₀)
      (.lift (fun s directory hs h => ⟨okOr_eq_ok.mp h, hs⟩) fun s hs => trivial) ?_
    intro directory
    refine .assume fun hdirectory => .ite (fun _ => .throw fun s hs => trivial) fun _ => ?_
    have hgoal : ∀ visited : List PathBuf, directory ∈ visited →
        ∀ directory', files.canonicalize path = some directory' → directory' ∈ visited := by
      intro visited hmem directory' hdirectory'
      obtain rfl := Option.some.inj (hdirectory.symm.trans hdirectory')
      exact hmem
    refine .bind (Q := fun s₁ s => s₁ = s₀ ∧ s = s₀) (.get fun s hs => ⟨hs, hs⟩) fun s₁ =>
      .assume fun hs₁ => ?_
    refine .ite (fun hseen => .pure fun s hs => ?_) fun _ => ?_
    · rw [hs₁] at hseen
      rw [hs]
      exact ⟨.refl _ _, hgoal _ hseen⟩
    · have hdescend : ∀ s₀ child selector, files.canonicalize child = some child →
          Grows files s₀ (discoverModule files root left child selector) (child ∈ ·) := by
        intro s₀ child selector hcanonical
        exact (ih s₀ child selector).conseq (fun _ => id)
          (fun _ s hs => ⟨hs.1, hs.2 child hcanonical⟩) fun _ => id
      exact (grows_visitModule hdescend).conseq (fun _ => id)
        (fun _ s hs => ⟨hs.1, hgoal _ hs.2⟩) fun _ => id

/-! ## 5. Bounded discovery -/

/-- **Discovery is bounded.**  Whatever the answer, no directory is read twice or found twice, and
all are inside the root.  Where it succeeds, each directory that modules lead to was read, and no
more than `MAX_XML_DEPTH` modules lead there: a project with a module further away is an error. -/
theorem discovery_bounded (files : PomFiles) (root : PathBuf) {home : PathBuf}
    {answer : Except DiscoveryError Unit} {s : Discovery}
    (hhome : files.canonicalize root = some home)
    (h : discoverRoot files root = (answer, s)) :
    s.reads.Nodup ∧ (s.discovered.values.map Discovered.directory).Nodup ∧
      (∀ d ∈ s.reads, pathStartsWith d root = true) ∧
      (∀ e ∈ s.discovered.values, pathStartsWith e.directory root = true) ∧
      (answer = .ok () → ∀ d, Relation.ReflTransGen (Declares files) home d →
        d ∈ s.reads ∧ ∃ n ≤ maxXmlDepth, Chain (Declares files) n home d) ∧
      (∀ d, Relation.ReflTransGen (Declares files) home d →
        (∀ n ≤ maxXmlDepth, ¬ Chain (Declares files) n home d) → ∃ e, answer = .error e) := by
  have hkeeps : Keeps files root home (discoverModule files root (maxXmlDepth + 1) root ['.']) := by
    refine keeps_discoverModule _ _ _ fun directory hdirectory => ?_
    obtain rfl := Option.some.inj (hhome.symm.trans hdirectory)
    exact ⟨0, by omega, .refl _⟩
  have hsound : Sound files root home s := by
    cases answer with
    | ok u => exact hkeeps.ok (sound_start files root home) h
    | error e => exact hkeeps.error (sound_start files root home) h
  have hnear : answer = .ok () → ∀ d, Relation.ReflTransGen (Declares files) home d →
      d ∈ s.reads ∧ ∃ n ≤ maxXmlDepth, Chain (Declares files) n home d := by
    rintro rfl d hd
    have hgrown := (grows_discoverModule (maxXmlDepth + 1) .start root ['.']).ok rfl h
    have hmem : d ∈ s.visited := hgrown.1.reachable (hgrown.2 home hhome) hd
    exact ⟨hsound.reads ▸ hmem, hsound.near d hmem⟩
  refine ⟨hsound.reads ▸ hsound.visited, hsound.once, ?_, ?_, hnear, ?_⟩
  · rw [hsound.reads]
    exact hsound.inside
  · exact fun e he => hsound.inside _ (hsound.found e he)
  · intro d hd hfar
    cases answer with
    | ok u =>
      obtain ⟨-, n, hn, hchain⟩ := hnear rfl d hd
      exact absurd hchain (hfar n hn)
    | error e => exact ⟨e, rfl⟩

end

/-! ## 6. A line of modules with shortcuts -/

/-- The root. -/
def lineRoot : PathBuf := Utf8.encode "/r".toList

/-- Module `k` is called by one character of two bytes. -/
def lineName (k : Nat) : Str := [Char.ofNat (200 + k)]

def lineDirectory (k : Nat) : PathBuf := lineRoot ++ 47 :: Utf8.encode (lineName k)

/-- Below the root, the name of a module leads to its directory from everywhere. -/
def lineCanonicalize (path : PathBuf) : Option PathBuf :=
  if path.length = 2 then some lineRoot
  else
    match path.reverse with
    | b :: a :: _ => if 128 ≤ a.toNat then some (lineRoot ++ [47, a, b]) else none
    | _ => none

theorem lineCanonicalize_canonical (path directory : PathBuf)
    (h : lineCanonicalize path = some directory) :
    lineCanonicalize directory = some directory := by
  unfold lineCanonicalize at h
  split at h
  · cases h
    rfl
  · split at h
    · rename_i b a _ _
      split at h
      · rename_i ha
        cases h
        simp [lineCanonicalize, lineRoot, ha, Utf8.encode, Utf8.encodeChar]
      · cases h
    · cases h

/-- A root that names its modules, the last one first; each of them names the next one. -/
def lineFiles (count : Nat) : PomFiles where
  bytes path := some ((path.take (path.length - 8)).drop 3)
  events _ := []
  maxXmlBytes := 10
  canonicalize := lineCanonicalize
  parse xml := some
    { artifactId := xml
      packaging := none
      modules :=
        match xml with
        | [] => (List.range count).reverse.map fun k => lineName (k + 1)
        | c :: _ => if c.toNat < 200 + count then [[Char.ofNat (c.toNat + 1)]] else [] }
  canonical := lineCanonicalize_canonical

/-- A root with two modules. -/
theorem discovery_bounded_line :
    ((discoverRoot (lineFiles 2) lineRoot).2.reads.length = 3) ∧
      (discoverRoot (lineFiles 2) lineRoot).2.reads.Nodup ∧
      ∀ d, Relation.ReflTransGen (Declares (lineFiles 2)) lineRoot d →
        d ∈ (discoverRoot (lineFiles 2) lineRoot).2.reads := by
  have hbounded := discovery_bounded (lineFiles 2) lineRoot (rfl : _ = some lineRoot) rfl
  have hok : (discoverRoot (lineFiles 2) lineRoot).1 = .ok () := by decide +kernel
  refine ⟨by decide +kernel, hbounded.1, fun d hd => ?_⟩
  exact (hbounded.2.2.2.2.1 hok d hd).1

/-- **Modules in a line deeper than the limit** are no error when shorter ways lead to them. -/
theorem deep_line_discovered : ∃ line : List PathBuf,
    line.head? = some lineRoot ∧ line.length = maxXmlDepth + 2 ∧ line.Nodup ∧
      line.IsChain (fun a b => b ∈ (lineFiles (maxXmlDepth + 1)).children a) ∧
      (discoverRoot (lineFiles (maxXmlDepth + 1)) lineRoot).1 = .ok () := by
  refine ⟨lineRoot :: (List.range 129).map fun k => lineDirectory (k + 1), rfl, rfl, ?_, ?_, ?_⟩
  · refine List.nodup_cons.mpr ⟨fun hmem => ?_, List.Nodup.map_on ?_ List.nodup_range⟩
    · obtain ⟨k, -, hk⟩ := List.mem_map.mp hmem
      simp [lineDirectory] at hk
    · intro k hk j hj h
      have hname := Utf8.encode_injective (List.cons.inj (List.append_cancel_left h)).2
      have hchar : Char.ofNat (200 + (k + 1)) = Char.ofNat (200 + (j + 1)) := by
        simpa [lineName] using hname
      rw [List.mem_range] at hk hj
      have hcode := congrArg Char.toNat hchar
      rw [Text.toNat_ofNat_of_valid (by omega), Text.toNat_ofNat_of_valid (by omega)] at hcode
      omega
  · decide +kernel
  · decide +kernel

end Project
end MavenMcp
