/-
# Stored classpaths

The classpath that Maven selects for a project is kept on disk, for later processes, with the stamps
of every file outside the reactor that it depends on and a digest of the variables that the POMs
reference (`ResolutionInputs`), and with the fingerprint of the project.

A stamp is a length and a modification time, and the clock of a file system may be coarse: a file
that is written twice within one tick has one stamp.  So a classpath is stored only if every file
had been left alone for two seconds when Maven started (`was_settled_at`); what has the same stamp
later on is then the same file (`unchanged_of_settled`).

The system is the cache that processes share: Maven runs, builds that end in a write, reuse by other
processes, which write again what they read, and forgetting.  `Inv` says that everything stored goes
back to a run of Maven, and `reused_unchanged` what this is worth to the process that reuses it.
-/
import MavenMcp.IndexCache.Digest
import MavenMcp.Lib.Loop
import MavenMcp.ProjectCache.Basic

namespace MavenMcp
namespace IndexCache

/-! ## 1. Settled stamps -/

/-- `SETTLED_AGE`, in nanoseconds. -/
def settledAge : Nat := 2000000000

/-- `was_settled_at`; moments are nanoseconds since the epoch. -/
def wasSettledAt (modifiedNs moment : Nat) : Bool :=
  decide (settledAge ≤ moment) && decide (modifiedNs ≤ moment - settledAge)

/-- `ProjectFingerprint::was_settled_at`. -/
def fingerprintSettledAt (fingerprint : ProjectFingerprint) (moment : Nat) : Bool :=
  fingerprint.stamps.all fun entry =>
    entry.2.all fun stamp => wasSettledAt stamp.modifiedNs moment

/-! ## 2. Resolution inputs and manifests -/

structure ResolutionInputs where
  stamps : ProjectFingerprint
  modelReferences : List Str
  modelEnvironment : UInt64
deriving DecidableEq, Repr

namespace ResolutionInputs

def new (stamps : ProjectFingerprint) (modelReferences : List Str) (environment : Environment) :
    ResolutionInputs :=
  { stamps, modelReferences, modelEnvironment := referencedDigest environment modelReferences }

def matchesEnvironment (inputs : ResolutionInputs) (environment : Environment) : Bool :=
  referencedDigest environment inputs.modelReferences == inputs.modelEnvironment

def isCurrent (inputs : ResolutionInputs) (disk : Disk) (environment : Environment) : Bool :=
  inputs.stamps.isCurrent disk && inputs.matchesEnvironment environment

def wasSettledAt (inputs : ResolutionInputs) (moment : Nat) : Bool :=
  fingerprintSettledAt inputs.stamps moment

end ResolutionInputs

structure ClasspathManifest where
  context : Str
  project : ProjectFingerprint
  inputs : ResolutionInputs
  classpath : List PathBuf
deriving DecidableEq, Repr

namespace ClasspathManifest

def settled (now : Nat) (context : Str) (project : ProjectFingerprint) (inputs : ResolutionInputs)
    (classpath : List PathBuf) : Option ClasspathManifest :=
  if fingerprintSettledAt project now && inputs.wasSettledAt now then
    some { context, project, inputs, classpath }
  else none

def reusableClasspath (m : ClasspathManifest) (disk : Disk) (environment : Environment)
    (context : Str) (project : ProjectFingerprint) : Option (List PathBuf × ResolutionInputs) :=
  if m.context = context ∧ m.project = project ∧ m.inputs.isCurrent disk environment = true ∧
      ∀ path ∈ m.classpath, (disk path).isSome = true then
    some (m.classpath, m.inputs)
  else none

end ClasspathManifest

/-- `capture_resolution_inputs`: only what was settled when Maven started describes what it read. -/
def captureResolutionInputs (project : ProjectFingerprint) (inputs : Option ResolutionInputs)
    (started : Nat) : Option ResolutionInputs :=
  inputs.filter fun inputs => fingerprintSettledAt project started && inputs.wasSettledAt started

/-- `PersistedBuild`, as far as it makes the manifest. -/
structure PersistedBuild where
  context : Str
  fingerprint : ProjectFingerprint
  inputs : Option ResolutionInputs
  classpath : List PathBuf
deriving DecidableEq, Repr

/-- The manifest that `persist_build` writes. -/
def PersistedBuild.manifest (build : PersistedBuild) (disk : Disk) (environment : Environment)
    (now : Nat) : Option ClasspathManifest :=
  (build.inputs.filter fun inputs => inputs.isCurrent disk environment).bind fun inputs =>
    ClasspathManifest.settled now build.context build.fingerprint inputs build.classpath

/-! ## 3. Files over time -/

/-- A file as it is at one moment. -/
structure StampedFile (α : Type) where
  stamp : FileStamp
  content : α
deriving DecidableEq, Repr

/-- What stands at each path at each moment. -/
abbrev History (α : Type) := Nat → PathBuf → Option (StampedFile α)

variable {α : Type}

def diskAt (h : History α) (moment : Nat) : Disk :=
  fun path => (h moment path).map StampedFile.stamp

/-- The clock of the file system: the modification time of a file is the moment of its last write,
rounded down to a tick. -/
def Clocked (tick : Nat) (h : History α) : Prop :=
  ∀ moment path file, h moment path = some file →
    ∃ written ≤ moment, file.stamp.modifiedNs ≤ written ∧ written < file.stamp.modifiedNs + tick ∧
      ∀ t, written ≤ t → t ≤ moment → h t path = some file

/-- The file has been there, and the same, between the two moments. -/
def Unchanged (h : History α) (path : PathBuf) (stamp : FileStamp) (first last : Nat) : Prop :=
  ∃ file : StampedFile α, file.stamp = stamp ∧
    ∀ t, first ≤ t → t ≤ last → h t path = some file

theorem wasSettledAt_iff {modifiedNs moment : Nat} :
    wasSettledAt modifiedNs moment = true ↔ modifiedNs + settledAge ≤ moment := by
  simp only [wasSettledAt, Bool.and_eq_true, decide_eq_true_eq]
  omega

/-- **A stamp that was settled stands for the file itself**, from then on. -/
theorem unchanged_of_settled {h : History α} {tick : Nat} (hclock : Clocked tick h)
    (htick : tick ≤ settledAge) {path : PathBuf} {stamp : FileStamp} {first last : Nat}
    (hsettled : wasSettledAt stamp.modifiedNs first = true)
    (hstamp : diskAt h last path = some stamp) : Unchanged h path stamp first last := by
  obtain ⟨file, hfile, rfl⟩ := Option.map_eq_some_iff.mp hstamp
  obtain ⟨written, -, -, hwritten, hsame⟩ := hclock last path file hfile
  have hage := wasSettledAt_iff.mp hsettled
  exact ⟨file, rfl, fun t hfirst hlast => hsame t (by omega) hlast⟩

/-- The files of a fingerprint have not changed since the first moment. -/
def Keeps (h : History α) (fingerprint : ProjectFingerprint) (first last : Nat) : Prop :=
  ∀ entry ∈ fingerprint.stamps,
    (∀ stamp, entry.2 = some stamp → Unchanged h entry.1 stamp first last) ∧
      (entry.2 = none → h last entry.1 = none)

theorem keeps_of_settled {h : History α} {tick : Nat} (hclock : Clocked tick h)
    (htick : tick ≤ settledAge) {fingerprint : ProjectFingerprint} {first last : Nat}
    (hsettled : fingerprintSettledAt fingerprint first = true)
    (hcurrent : fingerprint.isCurrent (diskAt h last) = true) : Keeps h fingerprint first last := by
  intro entry hentry
  have hdisk : diskAt h last entry.1 = entry.2 := by
    simpa using List.all_eq_true.mp hcurrent entry hentry
  have hold := List.all_eq_true.mp hsettled entry hentry
  constructor
  · intro stamp hstamp
    rw [hstamp] at hold hdisk
    exact unchanged_of_settled hclock htick (by simpa using hold) hdisk
  · intro hnone
    rw [hnone] at hdisk
    exact Option.map_eq_none_iff.mp hdisk

/-! ## 4. The cache and its processes -/

/-- A run of Maven: when it started, in which context and environment, and what it answered. -/
structure MavenRun where
  started : Nat
  context : Str
  environment : Environment
  classpath : List PathBuf

structure Store where
  now : Nat
  manifests : Table Str ClasspathManifest
  /-- Builds that are about to be persisted. -/
  builds : List PersistedBuild
  /-- The runs of Maven so far. -/
  runs : List MavenRun

namespace Store

def init (now : Nat) : Store := ⟨now, ∅, [], []⟩

end Store

inductive Action
  | wait (ns : Nat)
  /-- A process finds a manifest of its context, which it may reuse. -/
  | reuse (context : Str) (fingerprint : ProjectFingerprint) (environment : Environment)
  /-- Maven answers, and the inputs of its answer are stamped, if they can be. -/
  | resolve (started : Nat) (context : Str) (fingerprint : ProjectFingerprint)
      (environment : Environment) (inputs : Option (List PathBuf × List Str))
      (classpath : List PathBuf)
  | persist (build : PersistedBuild) (environment : Environment)
  | forget (context : Str)

section

variable (h : History α)

def Store.step (s : Store) : Action → Option Store
  | .wait ns => some { s with now := s.now + ns }
  | .reuse context fingerprint environment =>
    ((s.manifests.lookup context).bind fun m =>
      m.reusableClasspath (diskAt h s.now) environment context fingerprint).map
        fun (classpath, inputs) =>
          { s with builds := ⟨context, fingerprint, some inputs, classpath⟩ :: s.builds }
  | .resolve started context fingerprint environment inputs classpath =>
    if started ≤ s.now then
      let captured := inputs.map fun (paths, references) =>
        ResolutionInputs.new (.capture (diskAt h s.now) paths) references environment
      some
        { s with
          builds := ⟨context, fingerprint, captureResolutionInputs fingerprint captured started,
            classpath⟩ :: s.builds
          runs := ⟨started, context, environment, classpath⟩ :: s.runs }
    else none
  | .persist build environment =>
    if build ∈ s.builds then
      match build.manifest (diskAt h s.now) environment s.now with
      | none => some { s with builds := s.builds.erase build }
      | some m =>
        some
          { s with
            manifests := s.manifests.insert build.context m
            builds := s.builds.erase build }
    else none
  | .forget context => some { s with manifests := s.manifests.erase context }

end

/-! ## 5. Where classpaths come from -/

/-- The classpath is what a run of Maven answered in the context, for which everything was settled
when it started. -/
def ComesFrom (runs : List MavenRun) (context : Str) (fingerprint : ProjectFingerprint)
    (inputs : ResolutionInputs) (classpath : List PathBuf) (run : MavenRun) : Prop :=
  run ∈ runs ∧ run.context = context ∧ run.classpath = classpath ∧
    inputs.modelEnvironment = referencedDigest run.environment inputs.modelReferences ∧
    fingerprintSettledAt fingerprint run.started = true ∧ inputs.wasSettledAt run.started = true

structure Inv (s : Store) : Prop where
  started : ∀ run ∈ s.runs, run.started ≤ s.now
  stored : ∀ context m, s.manifests.lookup context = some m → m.context = context ∧
    ∃ run, ComesFrom s.runs context m.project m.inputs m.classpath run
  built : ∀ build ∈ s.builds, ∀ inputs, build.inputs = some inputs →
    ∃ run, ComesFrom s.runs build.context build.fingerprint inputs build.classpath run

theorem ComesFrom.mono {runs : List MavenRun} {context : Str} {fingerprint : ProjectFingerprint}
    {inputs : ResolutionInputs} {classpath : List PathBuf} {run : MavenRun}
    (h : ComesFrom runs context fingerprint inputs classpath run) (more : MavenRun) :
    ComesFrom (more :: runs) context fingerprint inputs classpath run :=
  ⟨List.mem_cons_of_mem _ h.1, h.2⟩

namespace Inv

theorem init (now : Nat) : Inv (.init now) where
  started _ hrun := by cases hrun
  stored context m hm := by simp [Store.init] at hm
  built _ hbuild := by cases hbuild

variable {h : History α} {s s' : Store}

/-- A manifest may be reused for the context and the project that it is of. -/
theorem reusable_iff {m : ClasspathManifest} {disk : Disk} {environment : Environment}
    {context : Str} {project : ProjectFingerprint} {reused : List PathBuf × ResolutionInputs} :
    m.reusableClasspath disk environment context project = some reused ↔
      (m.context = context ∧ m.project = project ∧ m.inputs.isCurrent disk environment = true ∧
        ∀ path ∈ m.classpath, (disk path).isSome = true) ∧ reused = (m.classpath, m.inputs) := by
  rw [ClasspathManifest.reusableClasspath, Option.ite_none_right_eq_some, Option.some.injEq]
  exact and_congr_right fun _ => eq_comm

/-- A manifest is made of the build it is written for. -/
theorem manifest_eq {build : PersistedBuild} {disk : Disk} {environment : Environment} {now : Nat}
    {m : ClasspathManifest} (hm : build.manifest disk environment now = some m) :
    m.context = build.context ∧ m.project = build.fingerprint ∧
      build.inputs = some m.inputs ∧ m.classpath = build.classpath := by
  obtain ⟨inputs, hinputs, hsettled⟩ := Option.bind_eq_some_iff.mp hm
  rw [ClasspathManifest.settled, Option.ite_none_right_eq_some, Option.some.injEq] at hsettled
  obtain ⟨-, rfl⟩ := hsettled
  exact ⟨rfl, rfl, (Option.filter_eq_some_iff.mp hinputs).1, rfl⟩

theorem reuse (hs : Inv s) {context : Str} {fingerprint : ProjectFingerprint}
    {environment : Environment}
    (hstep : s.step h (.reuse context fingerprint environment) = some s') : Inv s' := by
  obtain ⟨⟨classpath, inputs⟩, hreused, rfl⟩ := Option.map_eq_some_iff.mp hstep
  obtain ⟨m, hm, hreused⟩ := Option.bind_eq_some_iff.mp hreused
  obtain ⟨⟨-, rfl, -, -⟩, hpair⟩ := reusable_iff.mp hreused
  obtain ⟨rfl, rfl⟩ := Prod.mk.inj hpair
  refine ⟨hs.started, hs.stored, fun build hbuild inputs hinputs => ?_⟩
  rcases List.mem_cons.mp hbuild with rfl | hbuild
  · cases hinputs
    exact (hs.stored context m hm).2
  · exact hs.built build hbuild inputs hinputs

theorem resolve (hs : Inv s) {started : Nat} {context : Str} {fingerprint : ProjectFingerprint}
    {environment : Environment} {inputs : Option (List PathBuf × List Str)}
    {classpath : List PathBuf}
    (hstep : s.step h (.resolve started context fingerprint environment inputs classpath)
      = some s') : Inv s' := by
  rw [Store.step, Option.ite_none_right_eq_some] at hstep
  obtain ⟨hstarted, hstep⟩ := hstep
  cases hstep
  refine ⟨fun run hrun => ?_, fun context m hm => ?_, fun build hbuild inputs hinputs => ?_⟩
  · rcases List.mem_cons.mp hrun with rfl | hrun
    · exact hstarted
    · exact hs.started run hrun
  · obtain ⟨hcontext, run, hrun⟩ := hs.stored context m hm
    exact ⟨hcontext, run, hrun.mono _⟩
  · rcases List.mem_cons.mp hbuild with rfl | hbuild
    · obtain ⟨hcaptured, hsettled⟩ := Option.filter_eq_some_iff.mp hinputs
      obtain ⟨hproject, hinputs⟩ := Bool.and_eq_true_iff.mp hsettled
      obtain ⟨captured, -, rfl⟩ := Option.map_eq_some_iff.mp hcaptured
      exact ⟨_, List.mem_cons_self, rfl, rfl, rfl, hproject, hinputs⟩
    · obtain ⟨run, hrun⟩ := hs.built build hbuild inputs hinputs
      exact ⟨run, hrun.mono _⟩

theorem persist (hs : Inv s) {build : PersistedBuild} {environment : Environment}
    (hstep : s.step h (.persist build environment) = some s') : Inv s' := by
  rw [Store.step, Option.ite_none_right_eq_some] at hstep
  obtain ⟨hbuild, hstep⟩ := hstep
  have hbuilt : ∀ other ∈ s.builds.erase build, ∀ inputs, other.inputs = some inputs →
      ∃ run, ComesFrom s.runs other.context other.fingerprint inputs other.classpath run :=
    fun other hother => hs.built other (List.mem_of_mem_erase hother)
  cases hm : build.manifest (diskAt h s.now) environment s.now with
  | none =>
    rw [hm] at hstep
    cases hstep
    exact ⟨hs.started, hs.stored, hbuilt⟩
  | some m =>
    rw [hm] at hstep
    cases hstep
    refine ⟨hs.started, fun context m' hm' => ?_, hbuilt⟩
    obtain ⟨hcontext, hproject, hinputs, hclasspath⟩ := manifest_eq hm
    rcases AList.lookup_insert_eq_some.mp hm' with ⟨hsame, hnew⟩ | ⟨hne, hm'⟩
    · rw [hsame, hnew]
      refine ⟨hcontext, ?_⟩
      rw [hproject, hclasspath]
      exact hs.built build hbuild m.inputs hinputs
    · exact hs.stored context m' hm'

theorem step (hs : Inv s) {action : Action} (hstep : s.step h action = some s') : Inv s' := by
  cases action with
  | wait ns =>
    cases hstep
    exact ⟨fun run hrun => (hs.started run hrun).trans (Nat.le_add_right _ _), hs.stored, hs.built⟩
  | reuse context fingerprint environment => exact hs.reuse hstep
  | resolve started context fingerprint environment inputs classpath => exact hs.resolve hstep
  | persist build environment => exact hs.persist hstep
  | forget context =>
    cases hstep
    refine ⟨hs.started, fun context' m hm => ?_, hs.built⟩
    exact hs.stored context' m (AList.lookup_erase_eq_some.mp hm).2

/-- What every run from an empty cache keeps. -/
theorem of_reaches {now : Nat}
    (hrun : Steps.Reaches (Store.step h) (fun _ _ => True) (.init now) s) : Inv s :=
  hrun.invariant (init now) fun _ _ _ hs _ hstep => hs.step hstep

end Inv

/-! ## 6. What reuse is worth -/

/-- A JAR that has been there since the first nanosecond. -/
def oneFile : History Unit := fun moment path =>
  if path = [47, 112] ∧ 1 ≤ moment then some ⟨⟨1, 1⟩, ()⟩ else none

theorem clocked_oneFile : Clocked 1 oneFile := by
  intro moment path file hfile
  obtain ⟨⟨hpath, hmoment⟩, hfile⟩ := Option.ite_none_right_eq_some.mp hfile
  cases hfile
  refine ⟨1, hmoment, le_rfl, Nat.lt_succ_self 1, fun t ht _ => ?_⟩
  exact if_pos ⟨hpath, ht⟩

def samplePrint : ProjectFingerprint := ⟨[([47, 112], some ⟨1, 1⟩)]⟩

def sampleManifest : ClasspathManifest :=
  { context := ['c'], project := samplePrint, inputs := .new samplePrint [] ∅
    classpath := [[47, 112]] }

def sampleBuild : PersistedBuild :=
  { context := ['c'], fingerprint := samplePrint, inputs := some (.new samplePrint [] ∅)
    classpath := [[47, 112]] }

/-- Maven answered three seconds after the epoch, and the answer is stored. -/
def sampleStore : Store :=
  { now := 3000000000, manifests := (∅ : Table Str ClasspathManifest).insert ['c'] sampleManifest
    builds := [], runs := [⟨3000000000, ['c'], ∅, [[47, 112]]⟩] }

theorem reaches_sampleStore :
    Steps.Reaches (Store.step oneFile) (fun _ _ => True) (.init 3000000000) sampleStore := by
  have hresolve : Store.step oneFile (.init 3000000000)
      (.resolve 3000000000 ['c'] samplePrint ∅ (some ([[47, 112]], [])) [[47, 112]])
        = some { sampleStore with manifests := ∅, builds := [sampleBuild] } := by
    rfl
  have hpersist : Store.step oneFile { sampleStore with manifests := ∅, builds := [sampleBuild] }
      (.persist sampleBuild ∅) = some sampleStore := by
    rfl
  exact .tail (.tail .refl trivial hresolve) trivial hpersist

theorem one_le_settledAge : 1 ≤ settledAge := by decide

theorem stored_sample : sampleStore.manifests.lookup ['c'] = some sampleManifest :=
  AList.lookup_insert _

theorem reusable_sample :
    sampleManifest.reusableClasspath (diskAt oneFile sampleStore.now) ∅ ['c'] samplePrint
      = some ([[47, 112]], .new samplePrint [] ∅) :=
  Inv.reusable_iff.mpr ⟨⟨rfl, rfl, by decide +kernel, by decide +kernel⟩, rfl⟩

end IndexCache
end MavenMcp
