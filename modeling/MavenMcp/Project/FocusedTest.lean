/-
# Results of a focused test

`run_focused_test` notes the times of all Surefire reports, runs Maven and reports those that were
not there before or are newer now.  The times are all it has: who writes reports while Maven runs,
and what else changes in the project, it does not see.

`RunLevel` is one protocol on two levels.  `timed` is what the code does; `observed` knows which
reports were there and which were written since.  `focusedTests_observed`: for every order of runs,
writes, removals and changes of the directories, both leave the same results, as long as no report
is as new as the clock when a run begins.  A report that is would be taken for an old one if the run
wrote it again at once.
-/
import MavenMcp.Config
import MavenMcp.Lib.Table
import MavenMcp.Index.Layout
import MavenMcp.Project.Totals

open Machine (Profile)

namespace MavenMcp
namespace Project

open Text

/-! ## 1. Discovery -/

/-- An entry of the walk over the project directory. -/
structure WalkedFile where
  path : PathBuf
  isFile : Bool
  /-- What `canonicalize` answers. -/
  canonical : Option PathBuf
deriving DecidableEq, Repr

inductive ReportError
  /-- `cannot read Surefire report directory` -/
  | directory
  | unresolved
  /-- `Surefire report escaped project_path` -/
  | escaped
  /-- `XML report discovery exceeds MAX_XML_FILES limit` -/
  | tooMany
  | xml (error : XmlError)
  /-- `invalid Surefire XML report {name}` -/
  | invalid (name : Str)
deriving DecidableEq, Repr

/-- The name of a path and that of its parent, where they are names. -/
def lastNames (path : PathBuf) : Option Str × Option Str :=
  let name (component : Option Component) : Option Str :=
    match component with
    | some (.normal name) => Utf8.decode name
    | _ => none
  let components := (pathComponents path).reverse
  (name components.head?, name components.tail.head?)

/-- A file `TEST-*.xml` of a directory `surefire-reports`. -/
def isReportPath (path : PathBuf) : Bool :=
  let names := lastNames path
  let fileName := names.1.getD []
  startsWith "TEST-".toList fileName && endsWith ".xml".toList fileName &&
    decide (names.2 = some "surefire-reports".toList)

/-- One round of the loop of `discover_report_files`. -/
def discoverEntry (root : PathBuf) (reports : List PathBuf) (entry : Option WalkedFile) :
    Except ReportError (List PathBuf) :=
  match entry with
  | none => .error .directory
  | some entry =>
    if !entry.isFile || !isReportPath entry.path then .ok reports
    else
      match entry.canonical with
      | none => .error .unresolved
      | some canonical =>
        if !pathStartsWith canonical root then .error .escaped
        else if maxXmlFiles ≤ reports.length then .error .tooMany
        else .ok (reports ++ [canonical])

def discoverReportFiles (root : PathBuf) (walk : List (Option WalkedFile)) :
    Except ReportError (List PathBuf) :=
  (walk.foldlM (discoverEntry root) []).map fun reports => reports.mergeSort pathLe

/-! ## 2. New reports -/

/-- A file: when it was written, and what is in it. -/
structure ReportFile where
  modified : Nat
  bytes : List UInt8
deriving DecidableEq, Repr

/-- What is read of the project directory. -/
structure ReportFiles where
  walk : List (Option WalkedFile)
  files : Table PathBuf ReportFile

/-- `report_snapshot`. -/
def reportSnapshot (root : PathBuf) (project : ReportFiles) : List (PathBuf × Nat) :=
  ((discoverReportFiles root project.walk).toOption.getD []).filterMap fun path =>
    (project.files.lookup path).map fun file => (path, file.modified)

/-- The report is not in the snapshot, or is newer. -/
def isUpdated (project : ReportFiles) (before : List (PathBuf × Nat)) (path : PathBuf) : Bool :=
  match before.lookup path with
  | none => true
  | some previous => (project.files.lookup path).any fun file => decide (previous < file.modified)

/-- `updated_reports`. -/
def updatedReports (root : PathBuf) (project : ReportFiles) (before : List (PathBuf × Nat)) :
    Except ReportError (List PathBuf) :=
  (discoverReportFiles root project.walk).map fun reports =>
    reports.filter (isUpdated project before)

/-! ## 3. Results -/

inductive MavenBuildOutcome
  | success
  | compilationError
  | testFailure
  | buildFailure
  | timeout
  | runnerError
deriving DecidableEq, Repr

inductive TestReportStatus
  | available
  | missing
  | invalid
deriving DecidableEq, Repr

structure FocusedTestResult (w : Nat) where
  reportStatus : TestReportStatus
  summary : Option (TestSummary w)
  failures : List TestFailureDetail
  reportError : Option ReportError
  outcome : MavenBuildOutcome

structure LastTestFailures (w : Nat) where
  available : Bool
  summary : Option (TestSummary w)
  failures : List TestFailureDetail

/-- How reports are read, and in which project. -/
structure ReportReader (w : Nat) where
  root : PathBuf
  events : Str → List (Option XmlEvent)
  maxXmlBytes : Nat
  suite : Str → Option (RawTestSuite w)
  redact : Str → Str
  profile : Profile

variable {w : Nat}

namespace ReportReader

/-- The suites up to the first report that cannot be read. -/
def readSuites (reader : ReportReader w) (files : XmlFiles PathBuf) :
    XmlBudget → List PathBuf → List (RawTestSuite w) × Option ReportError
  | _, [] => ([], none)
  | budget, path :: paths =>
    match budget.read files path with
    | .error e => ([], some (.xml e))
    | .ok (xml, budget) =>
      match reader.suite xml with
      | none => ([], some (.invalid ((fileNameText path).getD "<unknown>".toList)))
      | some suite =>
        let (suites, error) := reader.readSuites files budget paths
        (suite :: suites, error)

/-- `parse_test_reports`; `none` is a panic. -/
def parseReports (reader : ReportReader w) (project : ReportFiles) (paths : List PathBuf) :
    Option (Except ReportError (TestSummary w × List TestFailureDetail)) :=
  let files : XmlFiles PathBuf :=
    { bytes := fun path => (project.files.lookup path).map ReportFile.bytes
      events := reader.events
      maxXmlBytes := reader.maxXmlBytes }
  let (suites, error) := reader.readSuites files .empty paths
  (parseTestReports reader.profile reader.redact suites).map fun parsed =>
    match error with
    | none => .ok parsed
    | some e => .error e

/-- What a run leaves whose reports are these; `none` is a panic. -/
def focusedResult (reader : ReportReader w) (project : ReportFiles)
    (reports : Except ReportError (List PathBuf)) (outcome : MavenBuildOutcome) :
    Option (FocusedTestResult w) :=
  match reports with
  | .error e =>
    some { reportStatus := .invalid, summary := none, failures := [], reportError := some e
           outcome }
  | .ok [] =>
    some { reportStatus := .missing, summary := none, failures := [], reportError := none, outcome }
  | .ok (path :: paths) =>
    match reader.parseReports project (path :: paths) with
    | none => none
    | some (.error e) =>
      some { reportStatus := .invalid, summary := none, failures := [], reportError := some e
             outcome }
    | some (.ok (summary, failures)) =>
      (Machine.add reader.profile summary.failed summary.errors).map fun (problems : BitVec w) =>
        { reportStatus := .available, summary := some summary, failures, reportError := none
          outcome := if problems ≠ 0 then .testFailure else outcome }

end ReportReader

/-! ## 4. Runs -/

/-- What happens in a project; a run holds the permit from its beginning to its end. -/
inductive TestAction
  | tick (n : Nat)
  | write (path : PathBuf) (bytes : List UInt8)
  | remove (path : PathBuf)
  /-- Directories change. -/
  | rewalk (walk : List (Option WalkedFile))
  | begin_
  /-- The request is cancelled. -/
  | abort
  | finish (outcome : MavenBuildOutcome)

structure TestState (R : Type) (w : Nat) where
  clock : Nat
  project : ReportFiles
  running : Option R
  lastTestResult : Option (FocusedTestResult w)

/-- What a run knows, and what it makes of it. -/
structure RunLevel (R : Type) where
  start : ReportFiles → R
  write : PathBuf → R → R
  reports : ReportFiles → R → Except ReportError (List PathBuf)

/-- `last_test_failures`. -/
def TestState.lastTestFailures {R : Type} (s : TestState R w) : LastTestFailures w :=
  match s.lastTestResult with
  | none => { available := false, summary := none, failures := [] }
  | some result =>
    { available := true, summary := result.summary, failures := result.failures }

/-- No report is as new as the clock. -/
def TestState.settled {R : Type} (s : TestState R w) (root : PathBuf) : Bool :=
  (reportSnapshot root s.project).all fun report => decide (report.2 < s.clock)

def RunLevel.step {R : Type} (level : RunLevel R) (reader : ReportReader w) (s : TestState R w) :
    TestAction → Option (TestState R w)
  | .tick n => some { s with clock := s.clock + n }
  | .write path bytes =>
    some { s with
      project := { s.project with
        files := s.project.files.insert path { modified := s.clock, bytes } }
      running := s.running.map (level.write path) }
  | .remove path =>
    some { s with project := { s.project with files := s.project.files.erase path } }
  | .rewalk walk => some { s with project := { s.project with walk } }
  | .begin_ =>
    if s.running.isNone then some { s with running := some (level.start s.project) } else none
  | .abort => some { s with running := none }
  | .finish outcome =>
    match s.running with
    | none => none
    | some run =>
      match reader.focusedResult s.project (level.reports s.project run) outcome with
      | none => some { s with running := none }
      | some result => some { s with running := none, lastTestResult := some result }

def RunLevel.run {R : Type} (level : RunLevel R) (reader : ReportReader w) (s : TestState R w)
    (actions : List TestAction) : Option (TestState R w) := actions.foldlM (level.step reader) s

def TestAction.isBegin : TestAction → Bool
  | .begin_ => true
  | _ => false

/-- Whenever a run begins, every report is older than the clock. -/
def RunLevel.beginsSettled {R : Type} (level : RunLevel R) (reader : ReportReader w) :
    TestState R w → List TestAction → Bool
  | _, [] => true
  | s, action :: actions =>
    (!action.isBegin || s.settled reader.root) &&
      (level.step reader s action).all fun s' => level.beginsSettled reader s' actions

/-- What the code does: a run remembers the times. -/
def timed (root : PathBuf) : RunLevel (List (PathBuf × Nat)) where
  start := reportSnapshot root
  write _ before := before
  reports project before := updatedReports root project before

/-- The reports that were there when the run began, and the files written since. -/
structure Observed where
  known : List PathBuf
  written : List PathBuf

/-- What a run should report: what appeared since it began, and what was there and is written
again. -/
def Observed.isNew (run : Observed) (project : ReportFiles) (path : PathBuf) : Bool :=
  !run.known.contains path || (run.written.contains path && (project.files.lookup path).isSome)

def observed (root : PathBuf) : RunLevel Observed where
  start project := { known := (reportSnapshot root project).map Prod.fst, written := [] }
  write path run := { run with written := path :: run.written }
  reports project run :=
    (discoverReportFiles root project.walk).map fun reports => reports.filter (run.isNew project)

/-! ## 5. Times and writes -/

/-- What the snapshot says of a path. -/
theorem lookup_times {files : Table PathBuf ReportFile} {reports : List PathBuf} {path : PathBuf}
    {m : Nat}
    (h : (reports.filterMap fun p => (files.lookup p).map fun file =>
      (p, file.modified)).lookup path = some m) :
    ∃ file, files.lookup path = some file ∧ file.modified = m := by
  induction reports with
  | nil => cases h
  | cons p reports ih =>
    rw [List.filterMap_cons] at h
    cases hfile : files.lookup p with
    | none =>
      rw [hfile] at h
      exact ih h
    | some file =>
      rw [hfile] at h
      change ((p, file.modified) :: reports.filterMap _).lookup path = some m at h
      rw [List.lookup_cons] at h
      split at h
      · rename_i heq
        obtain rfl := eq_of_beq heq
        exact ⟨file, hfile, Option.some.inj h⟩
      · exact ih h

theorem mem_of_lookup {before : List (PathBuf × Nat)} {path : PathBuf} {m : Nat}
    (h : before.lookup path = some m) : (path, m) ∈ before := by
  obtain ⟨l, r, rfl, -⟩ := List.lookup_eq_some_iff.mp h
  exact List.mem_append_right l List.mem_cons_self

theorem lookup_eq_none_iff_notMem {before : List (PathBuf × Nat)} {path : PathBuf} :
    before.lookup path = none ↔ path ∉ before.map Prod.fst := by
  induction before with
  | nil => exact ⟨fun _ => List.not_mem_nil, fun _ => rfl⟩
  | cons e before ih =>
    rw [List.lookup_cons, List.map_cons, List.mem_cons, not_or]
    split
    · rename_i heq
      exact ⟨fun h => (by cases h), fun h => absurd (eq_of_beq heq) h.1⟩
    · rename_i hne
      rw [ih]
      exact ⟨fun h => ⟨ne_of_beq_false hne, h⟩, And.right⟩

/-- The times of the snapshot tell what was written since. -/
structure RunRelated (clock : Nat) (files : Table PathBuf ReportFile)
    (before : List (PathBuf × Nat)) (run : Observed) : Prop where
  known : run.known = before.map Prod.fst
  past : ∀ path m, before.lookup path = some m → m < clock
  written : ∀ path m file, before.lookup path = some m → files.lookup path = some file →
    path ∈ run.written → m < file.modified
  unwritten : ∀ path m file, before.lookup path = some m → files.lookup path = some file →
    path ∉ run.written → file.modified = m

variable {clock : Nat} {project : ReportFiles} {before : List (PathBuf × Nat)} {seen : Observed}

/-- **A report is newer exactly when it is new.** -/
theorem RunRelated.isUpdated_eq (h : RunRelated clock project.files before seen) (path : PathBuf) :
    isUpdated project before path = seen.isNew project path := by
  unfold isUpdated Observed.isNew
  cases hlookup : before.lookup path with
  | none =>
    have hknown : seen.known.contains path = false := by
      rw [List.contains_eq_mem, decide_eq_false_iff_not, h.known]
      exact lookup_eq_none_iff_notMem.mp hlookup
    rw [hknown]
    rfl
  | some m =>
    have hknown : seen.known.contains path = true := by
      rw [List.contains_iff_mem, h.known]
      by_contra hnot
      rw [lookup_eq_none_iff_notMem.mpr hnot] at hlookup
      cases hlookup
    rw [hknown, Bool.not_true, Bool.false_or]
    cases hfile : project.files.lookup path with
    | none => exact (Bool.and_false _).symm
    | some file =>
      change decide (m < file.modified) = (seen.written.contains path && true)
      rw [Bool.and_true]
      cases hwritten : seen.written.contains path with
      | true =>
        exact decide_eq_true
          (h.written path m file hlookup hfile (List.contains_iff_mem.mp hwritten))
      | false =>
        have hnot : path ∉ seen.written := fun hmem => by
          rw [List.contains_iff_mem.mpr hmem] at hwritten
          cases hwritten
        have hsame := h.unwritten path m file hlookup hfile hnot
        exact decide_eq_false (by omega)

theorem RunRelated.reports_eq (h : RunRelated clock project.files before seen) (root : PathBuf) :
    (timed root).reports project before = (observed root).reports project seen := by
  change updatedReports root project before
    = (discoverReportFiles root project.walk).map fun reports => reports.filter (seen.isNew project)
  unfold updatedReports
  have hsame : isUpdated project before = seen.isNew project := funext h.isUpdated_eq
  rw [hsame]

theorem RunRelated.tick (h : RunRelated clock project.files before seen) (n : Nat) :
    RunRelated (clock + n) project.files before seen where
  known := h.known
  past path m hlookup := Nat.lt_add_right n (h.past path m hlookup)
  written := h.written
  unwritten := h.unwritten

/-- A file that is written is newer than the snapshot. -/
theorem RunRelated.write (h : RunRelated clock project.files before seen) (path : PathBuf)
    (bytes : List UInt8) :
    RunRelated clock (project.files.insert path { modified := clock, bytes }) before
      { seen with written := path :: seen.written } where
  known := h.known
  past := h.past
  written other m file hlookup hfile hmem := by
    by_cases heq : other = path
    · subst heq
      rw [AList.lookup_insert] at hfile
      obtain rfl := Option.some.inj hfile
      exact h.past other m hlookup
    · rw [AList.lookup_insert_ne heq] at hfile
      exact h.written other m file hlookup hfile ((List.mem_cons.mp hmem).resolve_left heq)
  unwritten other m file hlookup hfile hmem := by
    obtain ⟨heq, hmem⟩ := not_or.mp (fun h => hmem (List.mem_cons.mpr h))
    rw [AList.lookup_insert_ne heq] at hfile
    exact h.unwritten other m file hlookup hfile hmem

theorem RunRelated.remove (h : RunRelated clock project.files before seen) (path : PathBuf) :
    RunRelated clock (project.files.erase path) before seen := by
  have hkeeps {other : PathBuf} {file : ReportFile}
      (hfile : (project.files.erase path).lookup other = some file) :
      project.files.lookup other = some file := by
    by_cases heq : other = path
    · subst heq
      rw [AList.lookup_erase] at hfile
      cases hfile
    · rwa [AList.lookup_erase_ne heq] at hfile
  constructor
  case known => exact h.known
  case past => exact h.past
  case written =>
    intro other m file hlookup hfile hmem
    exact h.written other m file hlookup (hkeeps hfile) hmem
  case unwritten =>
    intro other m file hlookup hfile hmem
    exact h.unwritten other m file hlookup (hkeeps hfile) hmem

/-- A run begins when every report is older than the clock. -/
theorem RunRelated.start {R : Type} {s : TestState R w} {root : PathBuf}
    (h : s.settled root = true) :
    RunRelated s.clock s.project.files ((timed root).start s.project)
      ((observed root).start s.project) where
  known := rfl
  past path m hlookup :=
    of_decide_eq_true (List.all_eq_true.mp h (path, m) (mem_of_lookup hlookup))
  written path m file hlookup hfile hmem := by cases hmem
  unwritten path m file hlookup hfile _ := by
    obtain ⟨file', hfile', rfl⟩ := lookup_times hlookup
    obtain rfl := Option.some.inj (hfile.symm.trans hfile')
    rfl

/-! ## 6. Both levels -/

/-- The same project and the same results; a run on one level is one on the other. -/
structure Related (s : TestState (List (PathBuf × Nat)) w) (t : TestState Observed w) : Prop where
  clock : s.clock = t.clock
  project : s.project = t.project
  running : Option.Rel (RunRelated s.clock s.project.files) s.running t.running
  lastTestResult : s.lastTestResult = t.lastTestResult

/-- **One step.** -/
theorem Related.step {s : TestState (List (PathBuf × Nat)) w} {t : TestState Observed w}
    (h : Related s t) (reader : ReportReader w) (action : TestAction)
    (hbegin : (!action.isBegin || s.settled reader.root) = true) :
    Option.Rel Related ((timed reader.root).step reader s action)
      ((observed reader.root).step reader t action) := by
  obtain ⟨clock, project, running, last⟩ := s
  obtain ⟨clock', project', running', last'⟩ := t
  obtain ⟨rfl, rfl, hrunning, rfl⟩ := h
  cases action with
  | tick n =>
    refine .some ⟨rfl, rfl, ?_, rfl⟩
    cases hrunning with
    | none => exact .none
    | some hrun => exact .some (hrun.tick n)
  | write path bytes =>
    refine .some ⟨rfl, rfl, ?_, rfl⟩
    cases hrunning with
    | none => exact .none
    | some hrun => exact .some (hrun.write path bytes)
  | remove path =>
    refine .some ⟨rfl, rfl, ?_, rfl⟩
    cases hrunning with
    | none => exact .none
    | some hrun => exact .some (hrun.remove path)
  | rewalk walk => exact .some ⟨rfl, rfl, hrunning, rfl⟩
  | begin_ =>
    cases hrunning with
    | some hrun => exact .none
    | none => exact .some ⟨rfl, rfl, .some (RunRelated.start hbegin), rfl⟩
  | abort => exact .some ⟨rfl, rfl, .none, rfl⟩
  | finish outcome =>
    cases hrunning with
    | none => exact .none
    | some hrun =>
      simp only [RunLevel.step]
      rw [hrun.reports_eq reader.root]
      generalize reader.focusedResult project _ outcome = result
      cases result with
      | none => exact .some ⟨rfl, rfl, .none, rfl⟩
      | some result => exact .some ⟨rfl, rfl, .none, rfl⟩

theorem Related.run {s : TestState (List (PathBuf × Nat)) w} {t : TestState Observed w}
    (h : Related s t) (reader : ReportReader w) {actions : List TestAction}
    (hbegins : (timed reader.root).beginsSettled reader s actions = true) :
    Option.Rel Related ((timed reader.root).run reader s actions)
      ((observed reader.root).run reader t actions) := by
  induction actions generalizing s t with
  | nil => exact .some h
  | cons action actions ih =>
    rw [RunLevel.beginsSettled, Bool.and_eq_true, Option.all_eq_true] at hbegins
    obtain ⟨hbegin, hrest⟩ := hbegins
    rw [RunLevel.run, RunLevel.run, List.foldlM_cons, List.foldlM_cons]
    have hstep := h.step reader action hbegin
    generalize (timed reader.root).step reader s action = s' at hstep hrest ⊢
    generalize (observed reader.root).step reader t action = t' at hstep ⊢
    cases hstep with
    | none => exact .none
    | some hnext => exact ih hnext (hrest _ rfl)

/-- **Results belong to their run.**  Whatever is written, removed and moved in a project, and
however runs follow each other, the results are always those of runs that know which reports were
there when they began and which were written since; as long as no report is as new as the clock
when a run begins. -/
theorem focusedTests_observed (reader : ReportReader w) (clock : Nat) (project : ReportFiles)
    {actions : List TestAction}
    (hbegins : (timed reader.root).beginsSettled reader ⟨clock, project, none, none⟩ actions
      = true) :
    ((timed reader.root).run reader ⟨clock, project, none, none⟩ actions).map
        (fun s => (s.lastTestResult, s.lastTestFailures))
      = ((observed reader.root).run reader ⟨clock, project, none, none⟩ actions).map
        fun s => (s.lastTestResult, s.lastTestFailures) := by
  have hstart : Related (w := w) ⟨clock, project, none, none⟩ ⟨clock, project, none, none⟩ :=
    ⟨rfl, rfl, .none, rfl⟩
  have hrun := hstart.run reader hbegins
  generalize (timed reader.root).run reader _ actions = s at hrun ⊢
  generalize (observed reader.root).run reader _ actions = t at hrun ⊢
  cases hrun with
  | none => rfl
  | @some s t h =>
    have hfailures : s.lastTestFailures = t.lastTestFailures := by
      unfold TestState.lastTestFailures
      rw [h.lastTestResult]
    exact congrArg some (Prod.ext h.lastTestResult hfailures)

/-- The directory of the project, and a report in it. -/
def sampleRoot : PathBuf := Utf8.encode "/p".toList

def sampleReport : PathBuf := Utf8.encode "/p/surefire-reports/TEST-a.xml".toList

/-- A reader that counts one failure when the report is not empty. -/
def sampleReader : ReportReader 8 where
  root := sampleRoot
  events _ := []
  maxXmlBytes := 10
  suite xml :=
    some { tests := 1, failures := if xml = [] then 0 else 1, errors := 0, skipped := 0
           testCases := [] }
  redact text := text
  profile := .dev

/-- A report of an earlier run. -/
def sampleReports : ReportFiles where
  walk := [some { path := sampleReport, isFile := true, canonical := some sampleReport }]
  files := AList.insert sampleReport { modified := 1, bytes := [] } ∅

/-- The first run writes the report again, the second does not. -/
def sampleRuns : List TestAction :=
  [.begin_, .write sampleReport [120], .finish .success, .tick 1, .begin_, .finish .success]

/-- One failure after the first run, and nothing after the second. -/
theorem focusedTests_observed_two :
    (((timed sampleRoot).run sampleReader ⟨5, sampleReports, none, none⟩ (sampleRuns.take 3)).map
        fun s => s.lastTestFailures.summary)
      = some (some { passed := 0, failed := 1, errors := 0, skipped := 0 }) ∧
    (((timed sampleRoot).run sampleReader ⟨5, sampleReports, none, none⟩ sampleRuns).map
        fun s => s.lastTestFailures.summary) = some none ∧
    ((timed sampleRoot).run sampleReader ⟨5, sampleReports, none, none⟩ sampleRuns).map
        (fun s => (s.lastTestResult, s.lastTestFailures))
      = ((observed sampleRoot).run sampleReader ⟨5, sampleReports, none, none⟩ sampleRuns).map
        fun s => (s.lastTestResult, s.lastTestFailures) :=
  ⟨by decide +kernel, by decide +kernel,
    focusedTests_observed sampleReader 5 sampleReports (by decide +kernel)⟩

end Project
end MavenMcp
