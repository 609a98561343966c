/-
# The totals of test and coverage reports

The runner adds up the counters of the reports Maven wrote: the tests of all suites, and for each
kind of counter the missed and covered parts of all modules.  Counters are words of any value, and
most sums are plain, so they may leave their type; `coverage_basis_points`, by which classes are
ranked, multiplies with saturation.

* `parseTestReports_exactly`, `jacocoCoverage_exactly`, `jacocoCoverageGaps_exactly`: what each
  report computes, and the sums that have to fit for it.
* `totals_right_iff`: the reports are right, in every build, exactly where these sums and the
  products of the ranked counters fit.
-/
import MavenMcp.Lib.Machine
import MavenMcp.Lib.Text
import MavenMcp.Paths

open Machine (Profile Exactly)

namespace MavenMcp
namespace Project

/-! ## 1. Test reports -/

structure RawTestProblem where
  message : Option Str
  text : Option Str

structure RawTestCase where
  className : Str
  name : Str
  failure : Option RawTestProblem
  error : Option RawTestProblem

/-- A suite of a Surefire report; the counters have the width of `usize`. -/
structure RawTestSuite (w : Nat) where
  tests : BitVec w
  failures : BitVec w
  errors : BitVec w
  skipped : BitVec w
  testCases : List RawTestCase

structure TestSummary (w : Nat) where
  passed : BitVec w
  failed : BitVec w
  errors : BitVec w
  skipped : BitVec w
deriving DecidableEq

inductive TestFailureKind where
  | failure
  | error
deriving DecidableEq

structure TestFailureDetail where
  className : Str
  testName : Str
  kind : TestFailureKind
  message : Str

def testFailureDetail (redact : Str → Str) (className testName : Str) (kind : TestFailureKind)
    (problem : RawTestProblem) : TestFailureDetail where
  className := redact className
  testName := redact testName
  kind := kind
  message := (redact ((problem.message.or problem.text).getD
    "test failed without a message".toList)).take 2000

def RawTestCase.detail (redact : Str → Str) (testCase : RawTestCase) : Option TestFailureDetail :=
  match testCase.failure, testCase.error with
  | some problem, _ => testFailureDetail redact testCase.className testCase.name .failure problem
  | none, some problem => testFailureDetail redact testCase.className testCase.name .error problem
  | none, none => none

variable {w : Nat}

/-- The counters of one more suite. -/
def TestSummary.add (profile : Profile) (summary : TestSummary w) (suite : RawTestSuite w) :
    Option (TestSummary w) := do
  let failed ← Machine.add profile summary.failed suite.failures
  let errors ← Machine.add profile summary.errors suite.errors
  let skipped ← Machine.add profile summary.skipped suite.skipped
  let unsuccessful ← Machine.add profile suite.failures suite.errors
  let unsuccessful ← Machine.add profile unsuccessful suite.skipped
  let passed ← Machine.add profile summary.passed (Machine.saturatingSub suite.tests unsuccessful)
  return { passed, failed, errors, skipped }

def detailLe (a b : TestFailureDetail) : Bool :=
  if a.className = b.className then strLe a.testName b.testName else strLe a.className b.className

/-- The suites of the reports, once they are parsed; `none` is a panic. -/
def parseTestReports (profile : Profile) (redact : Str → Str) (suites : List (RawTestSuite w)) :
    Option (TestSummary w × List TestFailureDetail) := do
  let summary ← suites.foldlM (TestSummary.add profile)
    { passed := 0, failed := 0, errors := 0, skipped := 0 }
  let failures := suites.flatMap fun suite => suite.testCases.filterMap (RawTestCase.detail redact)
  return (summary, failures.mergeSort detailLe)

/-! ## 2. Coverage reports -/

structure RawJacocoCounter where
  kind : Str
  missed : BitVec 64
  covered : BitVec 64

structure RawJacocoClass where
  name : Str
  counters : List RawJacocoCounter

structure RawJacocoPackage where
  name : Str
  classes : List RawJacocoClass

structure RawJacocoReport where
  packages : List RawJacocoPackage
  counters : List RawJacocoCounter

/-- The operands of `covered as f64 * 100.0 / total as f64`. -/
structure Percent where
  covered : BitVec 64
  total : BitVec 64
deriving DecidableEq

structure CoverageCounter where
  missed : BitVec 64
  covered : BitVec 64
  percent : Option Percent
deriving DecidableEq

structure CoverageMetrics where
  instructions : Option CoverageCounter
  branches : Option CoverageCounter
  lines : Option CoverageCounter
  methods : Option CoverageCounter
  classes : Option CoverageCounter
deriving DecidableEq

/-- The counters that are reported. -/
inductive CounterKind where
  | instructions
  | branches
  | lines
  | methods
  | classes
deriving DecidableEq

/-- The type of a counter in a JaCoCo report. -/
def CounterKind.name : CounterKind → Str
  | .instructions => "INSTRUCTION".toList
  | .branches => "BRANCH".toList
  | .lines => "LINE".toList
  | .methods => "METHOD".toList
  | .classes => "CLASS".toList

def CoverageMetrics.select (metrics : CoverageMetrics) : CounterKind → Option CoverageCounter
  | .instructions => metrics.instructions
  | .branches => metrics.branches
  | .lines => metrics.lines
  | .methods => metrics.methods
  | .classes => metrics.classes

/-- Metrics from a counter of each kind. -/
def CoverageMetrics.build (counter : CounterKind → Option (Option CoverageCounter)) :
    Option CoverageMetrics := do
  let instructions ← counter .instructions
  let branches ← counter .branches
  let lines ← counter .lines
  let methods ← counter .methods
  let classes ← counter .classes
  return { instructions, branches, lines, methods, classes }

/-- A counter whose parts have this sum. -/
def counterOf (missed covered total : BitVec 64) : CoverageCounter where
  missed := missed
  covered := covered
  percent := if total = 0 then none else some { covered, total }

def coverageCounter (profile : Profile) (counter : RawJacocoCounter) : Option CoverageCounter := do
  let total ← Machine.add profile counter.missed counter.covered
  return counterOf counter.missed counter.covered total

/-- Both parts of a counter. -/
def RawJacocoCounter.total (counter : RawJacocoCounter) : Nat :=
  counter.missed.toNat + counter.covered.toNat

/-- The counter of a kind in a report: the first one counts. -/
def findCounter (counters : List RawJacocoCounter) (kind : CounterKind) : Option RawJacocoCounter :=
  counters.find? fun counter => counter.kind = kind.name

def coverageMetrics (profile : Profile) (counters : List RawJacocoCounter) :
    Option CoverageMetrics :=
  CoverageMetrics.build fun kind => (findCounter counters kind).mapM (coverageCounter profile)

/-- A report file that was read. -/
structure JacocoFile where
  module : Str
  report : RawJacocoReport
  stale : Bool

structure ParsedCoverageReport where
  module : Str
  metrics : CoverageMetrics
  packages : List RawJacocoPackage
  stale : Bool

structure ParsedCoverageReports where
  reports : List ParsedCoverageReport
  missingModules : List Str

/-- The reports of the modules; `expected` are the names of the modules that should have one. -/
def readJacocoReports (profile : Profile) (expected : List Str) (files : List JacocoFile) :
    Option ParsedCoverageReports := do
  let reports ← files.mapM fun file => do
    let metrics ← coverageMetrics profile file.report.counters
    return { module := file.module, metrics, packages := file.report.packages, stale := file.stale
             : ParsedCoverageReport }
  return { reports := reports.mergeSort fun a b => strLe a.module b.module
           missingModules := expected.filter fun module => files.all (·.module != module) }

inductive CoverageStatus where
  | missing
  | stale
  | available
deriving DecidableEq

def coverageStatus (reports : List ParsedCoverageReport) : CoverageStatus :=
  if reports.isEmpty then .missing
  else if reports.any (·.stale) then .stale
  else .available

/-- The counters of one kind, added up. -/
def sumCounters (profile : Profile) (counters : List CoverageCounter) :
    Option (Option CoverageCounter) :=
  if counters.isEmpty then some none
  else do
    let missed ← Machine.sum profile (counters.map (·.missed))
    let covered ← Machine.sum profile (counters.map (·.covered))
    let total ← Machine.add profile missed covered
    return some (counterOf missed covered total)

def aggregateCoverageMetrics (profile : Profile) (metrics : List CoverageMetrics) :
    Option CoverageMetrics :=
  CoverageMetrics.build fun kind => sumCounters profile (metrics.filterMap (·.select kind))

structure ModuleCoverage where
  module : Str
  metrics : CoverageMetrics
  stale : Bool

structure CoverageSummaryResult where
  status : CoverageStatus
  projectMetrics : CoverageMetrics
  reports : List ModuleCoverage
  missingModules : List Str

def coverageSummary (profile : Profile) (parsed : ParsedCoverageReports) :
    Option CoverageSummaryResult := do
  let projectMetrics ← aggregateCoverageMetrics profile (parsed.reports.map (·.metrics))
  return {
    status := coverageStatus parsed.reports
    projectMetrics
    reports := parsed.reports.map fun report =>
      { module := report.module, metrics := report.metrics, stale := report.stale }
    missingModules := parsed.missingModules }

def jacocoCoverage (profile : Profile) (expected : List Str) (files : List JacocoFile) :
    Option CoverageSummaryResult := do
  coverageSummary profile (← readJacocoReports profile expected files)

def u64Max : BitVec 64 := BitVec.allOnes 64

def coverageBasisPoints (profile : Profile) (counter : CoverageCounter) : Option (BitVec 64) := do
  let total ← Machine.add profile counter.missed counter.covered
  return (Machine.checkedDiv (Machine.saturatingMul counter.covered 10000) total).getD u64Max

structure CoverageGap where
  module : Str
  packageName : Str
  className : Str
  line : Option CoverageCounter
  branch : Option CoverageCounter
  instruction : Option CoverageCounter

/-- The counter a class is ranked by. -/
def CoverageMetrics.ranked (metrics : CoverageMetrics) : Option CoverageCounter :=
  metrics.lines.or metrics.instructions

structure RankedGap where
  score : BitVec 64
  missed : BitVec 64
  gap : CoverageGap

/-- Ascending by score, then descending by what is missed, then by the names. -/
def RankedGap.le (a b : RankedGap) : Bool :=
  if a.score ≠ b.score then a.score < b.score
  else if a.missed ≠ b.missed then b.missed < a.missed
  else if a.gap.module ≠ b.gap.module then strLe a.gap.module b.gap.module
  else strLe a.gap.className b.gap.className

def dots (name : Str) : Str := name.map fun c => if c = '/' then '.' else c

def rankClass (profile : Profile) (module package : Str) (cls : RawJacocoClass) :
    Option RankedGap := do
  let metrics ← coverageMetrics profile cls.counters
  let score ← metrics.ranked.mapM (coverageBasisPoints profile)
  return {
    score := score.getD u64Max
    missed := (metrics.ranked.map (·.missed)).getD 0
    gap := {
      module
      packageName := dots package
      className := dots cls.name
      line := metrics.lines
      branch := metrics.branches
      instruction := metrics.instructions } }

structure CoverageGapResult where
  status : CoverageStatus
  gaps : List CoverageGap
  missingModules : List Str
  incomplete : Bool

/-- The classes of the reports, with the names of their modules and packages. -/
def ParsedCoverageReports.classes (parsed : ParsedCoverageReports) :
    List (Str × Str × RawJacocoClass) :=
  parsed.reports.flatMap fun report => report.packages.flatMap fun package =>
    package.classes.map fun cls => (report.module, package.name, cls)

def coverageGaps (profile : Profile) (limit : Nat) (parsed : ParsedCoverageReports) :
    Option CoverageGapResult := do
  let ranked ← parsed.classes.mapM fun (module, package, cls) =>
    rankClass profile module package cls
  let ranked := ranked.mergeSort RankedGap.le
  return {
    status := coverageStatus parsed.reports
    gaps := (ranked.take limit).map (·.gap)
    missingModules := parsed.missingModules
    incomplete := limit < ranked.length }

def jacocoCoverageGaps (profile : Profile) (limit : Nat) (expected : List Str)
    (files : List JacocoFile) : Option CoverageGapResult := do
  coverageGaps profile limit (← readJacocoReports profile expected files)

/-! ## 3. Tests -/

/-- The tests of a suite that did not pass. -/
def RawTestSuite.unsuccessful (suite : RawTestSuite w) : Nat :=
  suite.failures.toNat + suite.errors.toNat + suite.skipped.toNat

/-- The tests of a suite that passed. -/
def RawTestSuite.passed (suite : RawTestSuite w) : Nat := suite.tests.toNat - suite.unsuccessful

/-- The sums of these suites stay in their type, from a summary so far. -/
structure SummaryFits (summary : TestSummary w) (suites : List (RawTestSuite w)) : Prop where
  failed : summary.failed.toNat + Machine.total (suites.map (·.failures)) < 2 ^ w
  errors : summary.errors.toNat + Machine.total (suites.map (·.errors)) < 2 ^ w
  skipped : summary.skipped.toNat + Machine.total (suites.map (·.skipped)) < 2 ^ w
  unsuccessful : ∀ suite ∈ suites, suite.unsuccessful < 2 ^ w
  passed : summary.passed.toNat + (suites.map (·.passed)).sum < 2 ^ w

/-- The summary after one more suite, as far as the sums fit. -/
def TestSummary.plus (summary : TestSummary w) (suite : RawTestSuite w) : TestSummary w where
  passed := summary.passed
    + Machine.saturatingSub suite.tests (suite.failures + suite.errors + suite.skipped)
  failed := summary.failed + suite.failures
  errors := summary.errors + suite.errors
  skipped := summary.skipped + suite.skipped

theorem RawTestSuite.unsuccessful_fits_iff (suite : RawTestSuite w) :
    (suite.failures.toNat + suite.errors.toNat < 2 ^ w ∧
      (suite.failures + suite.errors).toNat + suite.skipped.toNat < 2 ^ w) ↔
      suite.unsuccessful < 2 ^ w := by
  unfold RawTestSuite.unsuccessful
  constructor
  · rintro ⟨htwo, hthree⟩
    rwa [Machine.toNat_add_of_fits htwo] at hthree
  · intro h
    have htwo : suite.failures.toNat + suite.errors.toNat < 2 ^ w := by omega
    rw [Machine.toNat_add_of_fits htwo]
    exact ⟨htwo, h⟩

theorem RawTestSuite.toNat_passed {suite : RawTestSuite w} (h : suite.unsuccessful < 2 ^ w) :
    (Machine.saturatingSub suite.tests (suite.failures + suite.errors + suite.skipped)).toNat
      = suite.passed := by
  obtain ⟨htwo, hthree⟩ := suite.unsuccessful_fits_iff.mpr h
  rw [Machine.toNat_saturatingSub, Machine.toNat_add_of_fits hthree, Machine.toNat_add_of_fits htwo]
  rfl

/-- The sums of one more suite stay in their type. -/
structure StepFits (summary : TestSummary w) (suite : RawTestSuite w) : Prop where
  failed : summary.failed.toNat + suite.failures.toNat < 2 ^ w
  errors : summary.errors.toNat + suite.errors.toNat < 2 ^ w
  skipped : summary.skipped.toNat + suite.skipped.toNat < 2 ^ w
  unsuccessful : suite.unsuccessful < 2 ^ w
  passed : summary.passed.toNat + suite.passed < 2 ^ w

/-- One suite. -/
theorem TestSummary.add_exactly (summary : TestSummary w) (suite : RawTestSuite w) :
    Exactly (fun profile => summary.add profile suite) (StepFits summary suite)
      (summary.plus suite) := by
  refine ((Exactly.add _ _).bind ((Exactly.add _ _).bind ((Exactly.add _ _).bind
    ((Exactly.add _ _).bind ((Exactly.add _ _).bind
      ((Exactly.add _ _).bind_pure _)))))).congr ?_
  constructor
  · rintro ⟨hfailed, herrors, hskipped, htwo, hthree, hpassed⟩
    have h := suite.unsuccessful_fits_iff.mp ⟨htwo, hthree⟩
    rw [RawTestSuite.toNat_passed h] at hpassed
    exact ⟨hfailed, herrors, hskipped, h, hpassed⟩
  · intro h
    obtain ⟨htwo, hthree⟩ := suite.unsuccessful_fits_iff.mpr h.unsuccessful
    refine ⟨h.failed, h.errors, h.skipped, htwo, hthree, ?_⟩
    rw [RawTestSuite.toNat_passed h.unsuccessful]
    exact h.passed

/-- The summary with these sums. -/
def TestSummary.ofNats (w passed failed errors skipped : Nat) : TestSummary w where
  passed := BitVec.ofNat w passed
  failed := BitVec.ofNat w failed
  errors := BitVec.ofNat w errors
  skipped := BitVec.ofNat w skipped

section

variable {summary : TestSummary w} {suite : RawTestSuite w}

theorem StepFits.toNat_failed (h : StepFits summary suite) :
    (summary.plus suite).failed.toNat = summary.failed.toNat + suite.failures.toNat :=
  Machine.toNat_add_of_fits h.failed

theorem StepFits.toNat_errors (h : StepFits summary suite) :
    (summary.plus suite).errors.toNat = summary.errors.toNat + suite.errors.toNat :=
  Machine.toNat_add_of_fits h.errors

theorem StepFits.toNat_skipped (h : StepFits summary suite) :
    (summary.plus suite).skipped.toNat = summary.skipped.toNat + suite.skipped.toNat :=
  Machine.toNat_add_of_fits h.skipped

theorem StepFits.toNat_passed (h : StepFits summary suite) :
    (summary.plus suite).passed.toNat = summary.passed.toNat + suite.passed := by
  rw [TestSummary.plus, Machine.toNat_add_of_fits, RawTestSuite.toNat_passed h.unsuccessful]
  rw [RawTestSuite.toNat_passed h.unsuccessful]
  exact h.passed

end

/-- The sums of more suites fit when those of the first one do, and then those of the others. -/
theorem summaryFits_cons_iff {summary : TestSummary w} {suite : RawTestSuite w}
    {suites : List (RawTestSuite w)} :
    StepFits summary suite ∧ SummaryFits (summary.plus suite) suites ↔
      SummaryFits summary (suite :: suites) := by
  constructor
  · rintro ⟨hstep, hrest⟩
    have hfailed := hrest.failed
    have herrors := hrest.errors
    have hskipped := hrest.skipped
    have hpassed := hrest.passed
    rw [hstep.toNat_failed] at hfailed
    rw [hstep.toNat_errors] at herrors
    rw [hstep.toNat_skipped] at hskipped
    rw [hstep.toNat_passed] at hpassed
    refine ⟨?_, ?_, ?_, List.forall_mem_cons.mpr ⟨hstep.unsuccessful, hrest.unsuccessful⟩, ?_⟩
    · simpa [← Nat.add_assoc] using hfailed
    · simpa [← Nat.add_assoc] using herrors
    · simpa [← Nat.add_assoc] using hskipped
    · simpa [← Nat.add_assoc] using hpassed
  · rintro ⟨hfailed, herrors, hskipped, hunsuccessful, hpassed⟩
    simp only [List.map_cons, Machine.total_cons, List.sum_cons, ← Nat.add_assoc]
      at hfailed herrors hskipped hpassed
    obtain ⟨hsuite, hsuites⟩ := List.forall_mem_cons.mp hunsuccessful
    have hstep : StepFits summary suite :=
      ⟨Nat.lt_of_add_right_lt hfailed, Nat.lt_of_add_right_lt herrors,
        Nat.lt_of_add_right_lt hskipped, hsuite, Nat.lt_of_add_right_lt hpassed⟩
    refine ⟨hstep, ?_⟩
    constructor
    · rwa [hstep.toNat_failed]
    · rwa [hstep.toNat_errors]
    · rwa [hstep.toNat_skipped]
    · exact hsuites
    · rwa [hstep.toNat_passed]

/-- All suites, by one suite after another. -/
theorem foldlM_add_exactly (suites : List (RawTestSuite w)) (summary : TestSummary w) :
    Exactly (fun profile => suites.foldlM (TestSummary.add profile) summary)
      (SummaryFits summary suites)
      (.ofNats w (summary.passed.toNat + (suites.map (·.passed)).sum)
        (summary.failed.toNat + Machine.total (suites.map (·.failures)))
        (summary.errors.toNat + Machine.total (suites.map (·.errors)))
        (summary.skipped.toNat + Machine.total (suites.map (·.skipped)))) := by
  induction suites generalizing summary with
  | nil =>
    have hsummary : TestSummary.ofNats w summary.passed.toNat summary.failed.toNat
        summary.errors.toNat summary.skipped.toNat = summary := by
      simp [TestSummary.ofNats]
    have hfits : True ↔ SummaryFits summary ([] : List (RawTestSuite w)) :=
      iff_of_true trivial ⟨summary.failed.isLt, summary.errors.isLt, summary.skipped.isLt, nofun,
        summary.passed.isLt⟩
    simpa [hsummary] using (Exactly.pure summary).congr hfits
  | cons suite suites ih =>
    refine (((summary.add_exactly suite).bind (ih (summary.plus suite))).congrAnswer ?_).congr
      summaryFits_cons_iff
    rintro ⟨hstep, -⟩
    simp [hstep.toNat_failed, hstep.toNat_errors, hstep.toNat_skipped, hstep.toNat_passed,
      Nat.add_assoc]

/-- **Test reports**: the summary, and the sums that have to fit for it. -/
structure TestsFit (suites : List (RawTestSuite w)) : Prop where
  failed : Machine.total (suites.map (·.failures)) < 2 ^ w
  errors : Machine.total (suites.map (·.errors)) < 2 ^ w
  skipped : Machine.total (suites.map (·.skipped)) < 2 ^ w
  unsuccessful : ∀ suite ∈ suites, suite.unsuccessful < 2 ^ w
  passed : (suites.map (·.passed)).sum < 2 ^ w

theorem parseTestReports_exactly (redact : Str → Str) (suites : List (RawTestSuite w)) :
    Exactly (fun profile => parseTestReports profile redact suites) (TestsFit suites)
      (.ofNats w (suites.map (·.passed)).sum (Machine.total (suites.map (·.failures)))
          (Machine.total (suites.map (·.errors))) (Machine.total (suites.map (·.skipped))),
        (suites.flatMap fun suite => suite.testCases.filterMap
          (RawTestCase.detail redact)).mergeSort
          detailLe) := by
  have hfold := foldlM_add_exactly suites
    { passed := 0#w, failed := 0#w, errors := 0#w, skipped := 0#w }
  simp only [BitVec.toNat_zero, Nat.zero_add] at hfold
  refine (hfold.bind_pure _).congr ?_
  constructor
  · rintro ⟨hfailed, herrors, hskipped, hunsuccessful, hpassed⟩
    simp at hfailed herrors hskipped hpassed
    exact ⟨hfailed, herrors, hskipped, hunsuccessful, hpassed⟩
  · rintro ⟨hfailed, herrors, hskipped, hunsuccessful, hpassed⟩
    constructor <;> simpa

/-! ## 4. Coverage -/

/-- Each counter that a report or a class is read for has a sum in its type. -/
def CountersFit (counters : List RawJacocoCounter) : Prop :=
  ∀ kind, ∀ counter ∈ findCounter counters kind, counter.total < 2 ^ 64

theorem coverageCounter_exactly (counter : RawJacocoCounter) :
    Exactly (fun profile => coverageCounter profile counter) (counter.total < 2 ^ 64)
      (counterOf counter.missed counter.covered (counter.missed + counter.covered)) :=
  (Exactly.add _ _).bind_pure _

/-- Metrics with these counters. -/
def CoverageMetrics.of (counter : CounterKind → Option CoverageCounter) : CoverageMetrics where
  instructions := counter .instructions
  branches := counter .branches
  lines := counter .lines
  methods := counter .methods
  classes := counter .classes

@[simp] theorem CoverageMetrics.select_of (counter : CounterKind → Option CoverageCounter)
    (kind : CounterKind) : (CoverageMetrics.of counter).select kind = counter kind := by
  cases kind <;> rfl

theorem CounterKind.forall_iff {P : CounterKind → Prop} :
    (P .instructions ∧ P .branches ∧ P .lines ∧ P .methods ∧ P .classes) ↔ ∀ kind, P kind :=
  ⟨fun ⟨hi, hb, hl, hm, hc⟩ kind => by cases kind <;> assumption,
    fun h => ⟨h _, h _, h _, h _, h _⟩⟩

theorem CoverageMetrics.build_exactly
    {counter : Profile → CounterKind → Option (Option CoverageCounter)}
    {F : CounterKind → Prop} {g : CounterKind → Option CoverageCounter}
    (h : ∀ kind, Exactly (fun profile => counter profile kind) (F kind) (g kind)) :
    Exactly (fun profile => CoverageMetrics.build (counter profile)) (∀ kind, F kind) (.of g) :=
  ((h .instructions).bind ((h .branches).bind ((h .lines).bind ((h .methods).bind
    ((h .classes).bind_pure _))))).congr CounterKind.forall_iff

/-- The metrics of a report, as far as the sums fit. -/
def metricsOf (counters : List RawJacocoCounter) : CoverageMetrics :=
  .of fun kind => (findCounter counters kind).map fun counter =>
    counterOf counter.missed counter.covered (counter.missed + counter.covered)

theorem coverageMetrics_exactly (counters : List RawJacocoCounter) :
    Exactly (fun profile => coverageMetrics profile counters)
      (CountersFit counters) (metricsOf counters) :=
  CoverageMetrics.build_exactly fun _ => Exactly.optionMapM coverageCounter_exactly _

/-- A report file, once its metrics are computed. -/
def JacocoFile.parsed (file : JacocoFile) : ParsedCoverageReport where
  module := file.module
  metrics := metricsOf file.report.counters
  packages := file.report.packages
  stale := file.stale

/-- The reports in the order they are kept in. -/
def sortedReports (files : List JacocoFile) : List ParsedCoverageReport :=
  (files.map JacocoFile.parsed).mergeSort fun a b => strLe a.module b.module

/-- What is kept of the reports. -/
def parsedReports (expected : List Str) (files : List JacocoFile) : ParsedCoverageReports where
  reports := sortedReports files
  missingModules := expected.filter fun module => files.all (·.module != module)

theorem readJacocoReports_exactly (expected : List Str) (files : List JacocoFile) :
    Exactly (fun profile => readJacocoReports profile expected files)
      (∀ file ∈ files, CountersFit file.report.counters)
      (parsedReports expected files) :=
  (Exactly.mapM (fun file : JacocoFile =>
    (coverageMetrics_exactly file.report.counters).bind_pure _) files).bind_pure _

/-- The counters of a kind that the reports have. -/
def counted (files : List JacocoFile) (kind : CounterKind) : List RawJacocoCounter :=
  files.filterMap fun file => findCounter file.report.counters kind

/-- The counters of a kind among the metrics are those of the reports, in some order. -/
theorem perm_counted (files : List JacocoFile) (kind : CounterKind) :
    (((sortedReports files).map (·.metrics)).filterMap (·.select kind)).Perm
      ((counted files kind).map fun counter =>
        counterOf counter.missed counter.covered (counter.missed + counter.covered)) := by
  have hsort : (sortedReports files).Perm (files.map JacocoFile.parsed) := List.mergeSort_perm _ _
  refine ((hsort.map (·.metrics)).filterMap (·.select kind)).trans (.of_eq ?_)
  rw [counted, List.map_filterMap, List.map_map, List.filterMap_map]
  refine List.filterMap_congr fun file _ => ?_
  simp [JacocoFile.parsed, metricsOf]

/-- The missed parts of the counters of a kind. -/
def missedTotal (files : List JacocoFile) (kind : CounterKind) : Nat :=
  Machine.total ((counted files kind).map (·.missed))

/-- The covered parts of the counters of a kind. -/
def coveredTotal (files : List JacocoFile) (kind : CounterKind) : Nat :=
  Machine.total ((counted files kind).map (·.covered))

theorem sumCounters_exactly (counters : List CoverageCounter) :
    Exactly (fun profile => sumCounters profile counters)
      (Machine.total (counters.map (·.missed)) + Machine.total (counters.map (·.covered)) < 2 ^ 64)
      (if counters = [] then none else
        let missed := BitVec.ofNat 64 (Machine.total (counters.map (·.missed)))
        let covered := BitVec.ofNat 64 (Machine.total (counters.map (·.covered)))
        some (counterOf missed covered (missed + covered))) := by
  cases counters with
  | nil => exact (Exactly.pure none).congr (iff_of_true trivial (by simp))
  | cons counter counters =>
    simp only [sumCounters, List.isEmpty_cons, Bool.false_eq_true, if_false, reduceCtorEq]
    refine ((Exactly.sum _).bind ((Exactly.sum _).bind ((Exactly.add _ _).bind_pure _))).congr ?_
    constructor
    · rintro ⟨hmissed, hcovered, htotal⟩
      rwa [Machine.toNat_ofNat_total hmissed, Machine.toNat_ofNat_total hcovered] at htotal
    · intro h
      have hmissed := Nat.lt_of_add_right_lt h
      have hcovered := Nat.lt_of_add_left_lt h
      rw [Machine.toNat_ofNat_total hmissed, Machine.toNat_ofNat_total hcovered]
      exact ⟨hmissed, hcovered, h⟩

/-- The total of a kind, as far as the sums fit. -/
def aggregated (files : List JacocoFile) (kind : CounterKind) : Option CoverageCounter :=
  if counted files kind = [] then none
  else some (counterOf (BitVec.ofNat 64 (missedTotal files kind))
    (BitVec.ofNat 64 (coveredTotal files kind))
    (BitVec.ofNat 64 (missedTotal files kind) + BitVec.ofNat 64 (coveredTotal files kind)))

theorem aggregateCoverageMetrics_exactly (files : List JacocoFile) :
    Exactly (fun profile =>
        aggregateCoverageMetrics profile ((sortedReports files).map (·.metrics)))
      (∀ kind, missedTotal files kind + coveredTotal files kind < 2 ^ 64)
      (.of (aggregated files)) := by
  refine CoverageMetrics.build_exactly fun kind => ?_
  have hperm := perm_counted files kind
  have hmissed : Machine.total ((((sortedReports files).map (·.metrics)).filterMap
      (·.select kind)).map (·.missed)) = missedTotal files kind := by
    rw [Machine.total_perm (hperm.map (·.missed)), List.map_map]
    rfl
  have hcovered : Machine.total ((((sortedReports files).map (·.metrics)).filterMap
      (·.select kind)).map (·.covered)) = coveredTotal files kind := by
    rw [Machine.total_perm (hperm.map (·.covered)), List.map_map]
    rfl
  have hnil : ((sortedReports files).map (·.metrics)).filterMap (·.select kind) = []
      ↔ counted files kind = [] := by
    rw [← List.length_eq_zero_iff, hperm.length_eq, List.length_map, List.length_eq_zero_iff]
  have h := sumCounters_exactly (((sortedReports files).map (·.metrics)).filterMap (·.select kind))
  simp only [hmissed, hcovered, hnil] at h
  exact h

/-- The sums of the coverage report stay in their type. -/
def CoverageFits (files : List JacocoFile) : Prop :=
  ∀ kind, missedTotal files kind + coveredTotal files kind < 2 ^ 64

theorem mem_counted {files : List JacocoFile} {kind : CounterKind} {counter : RawJacocoCounter} :
    counter ∈ counted files kind ↔
      ∃ file ∈ files, counter ∈ findCounter file.report.counters kind :=
  List.mem_filterMap

/-- A counter that is added up is no more than the sum. -/
theorem total_le_of_mem_counted {files : List JacocoFile} {kind : CounterKind}
    {counter : RawJacocoCounter} (h : counter ∈ counted files kind) :
    counter.total ≤ missedTotal files kind + coveredTotal files kind :=
  Nat.add_le_add (Machine.toNat_le_total (List.mem_map_of_mem h))
    (Machine.toNat_le_total (List.mem_map_of_mem h))

theorem CoverageFits.counters {files : List JacocoFile} (h : CoverageFits files) {file : JacocoFile}
    (hfile : file ∈ files) : CountersFit file.report.counters := by
  intro kind counter hcounter
  exact (total_le_of_mem_counted (mem_counted.mpr ⟨file, hfile, hcounter⟩)).trans_lt (h kind)

/-- What is reported of the modules. -/
def summaryOf (expected : List Str) (files : List JacocoFile) : CoverageSummaryResult where
  status := coverageStatus (sortedReports files)
  projectMetrics := .of (aggregated files)
  reports := (sortedReports files).map fun report =>
    { module := report.module, metrics := report.metrics, stale := report.stale }
  missingModules := (parsedReports expected files).missingModules

/-- **The coverage report**, and the sums that have to fit for it. -/
theorem jacocoCoverage_exactly (expected : List Str) (files : List JacocoFile) :
    Exactly (fun profile => jacocoCoverage profile expected files) (CoverageFits files)
      (summaryOf expected files) := by
  exact ((readJacocoReports_exactly expected files).bind
    ((aggregateCoverageMetrics_exactly files).bind_pure _)).congr
      (and_iff_right_of_imp fun h _ hfile => h.counters hfile)

/-! ## 5. Ranking -/

/-- The counter a class is ranked by. -/
def rankedCounter (counters : List RawJacocoCounter) : Option RawJacocoCounter :=
  (findCounter counters .lines).or (findCounter counters .instructions)

/-- The score of a counter. -/
def scoreOf (missed covered : BitVec 64) : BitVec 64 :=
  (Machine.checkedDiv (Machine.saturatingMul covered 10000) (missed + covered)).getD u64Max

theorem coverageBasisPoints_exactly (counter : CoverageCounter) :
    Exactly (fun profile => coverageBasisPoints profile counter)
      (counter.missed.toNat + counter.covered.toNat < 2 ^ 64)
      (scoreOf counter.missed counter.covered) :=
  (Exactly.add _ _).bind_pure _

/-- **The score is exact** where the product and the sum fit. -/
theorem toNat_scoreOf {missed covered : BitVec 64} (hpos : 0 < missed.toNat + covered.toNat)
    (hsum : missed.toNat + covered.toNat < 2 ^ 64) (hproduct : covered.toNat * 10000 < 2 ^ 64) :
    (scoreOf missed covered).toNat = covered.toNat * 10000 / (missed.toNat + covered.toNat) := by
  have htotal : (missed + covered).toNat = missed.toNat + covered.toNat :=
    Machine.toNat_add_of_fits hsum
  have hne : missed + covered ≠ 0 := by
    intro h
    rw [h] at htotal
    exact absurd htotal (Nat.ne_of_lt hpos)
  rw [scoreOf, Machine.checkedDiv, if_neg hne, Option.getD_some, BitVec.toNat_udiv, htotal,
    Machine.toNat_saturatingMul_of_fits hproduct]
  rfl

theorem basisPoints_le (missed covered : Nat) : covered * 10000 / (missed + covered) ≤ 10000 := by
  refine Nat.div_le_of_le_mul ?_
  omega

theorem ranked_metricsOf (counters : List RawJacocoCounter) :
    (metricsOf counters).ranked = (rankedCounter counters).map fun counter =>
      counterOf counter.missed counter.covered (counter.missed + counter.covered) := by
  rw [CoverageMetrics.ranked, rankedCounter, Option.map_or]
  rfl

theorem findCounter_of_ranked {counters : List RawJacocoCounter} {counter : RawJacocoCounter}
    (h : counter ∈ rankedCounter counters) : ∃ kind, counter ∈ findCounter counters kind := by
  rcases Option.or_eq_some_iff.mp h with h | ⟨-, h⟩
  · exact ⟨_, h⟩
  · exact ⟨_, h⟩

/-- How a class is ranked, as far as its sums fit. -/
def rankedClass (module package : Str) (cls : RawJacocoClass) : RankedGap where
  score := ((rankedCounter cls.counters).map fun counter =>
    scoreOf counter.missed counter.covered).getD u64Max
  missed := ((rankedCounter cls.counters).map (·.missed)).getD 0
  gap := {
    module
    packageName := dots package
    className := dots cls.name
    line := (metricsOf cls.counters).lines
    branch := (metricsOf cls.counters).branches
    instruction := (metricsOf cls.counters).instructions }

theorem rankClass_exactly (module package : Str) (cls : RawJacocoClass) :
    Exactly (fun profile => rankClass profile module package cls)
      (CountersFit cls.counters)
      (rankedClass module package cls) := by
  refine (((coverageMetrics_exactly cls.counters).bind
    ((Exactly.optionMapM coverageBasisPoints_exactly _).bind_pure _)).congr
      (and_iff_left_of_imp ?_)).congrAnswer fun _ => ?_
  · intro h counter hcounter
    rw [ranked_metricsOf] at hcounter
    obtain ⟨raw, hraw, rfl⟩ := Option.map_eq_some_iff.mp hcounter
    obtain ⟨kind, hkind⟩ := findCounter_of_ranked hraw
    exact h kind raw hkind
  · rw [ranked_metricsOf]
    simp [rankedClass, Option.map_map, Function.comp_def, counterOf]

/-- The classes of the reports, with the names of their modules and packages. -/
def JacocoFile.classes (file : JacocoFile) : List (Str × Str × RawJacocoClass) :=
  file.report.packages.flatMap fun package =>
    package.classes.map fun cls => (file.module, package.name, cls)

theorem perm_classes (expected : List Str) (files : List JacocoFile) :
    (parsedReports expected files).classes.Perm (files.flatMap JacocoFile.classes) := by
  have hsort : (sortedReports files).Perm (files.map JacocoFile.parsed) := List.mergeSort_perm _ _
  refine (hsort.flatMap_right _).trans (.of_eq ?_)
  rw [List.flatMap_map]
  rfl

/-- The sums of the report of gaps stay in their type. -/
structure GapsFit (files : List JacocoFile) : Prop where
  reports : ∀ file ∈ files, CountersFit file.report.counters
  classes : ∀ entry ∈ files.flatMap JacocoFile.classes, CountersFit entry.2.2.counters

/-- All classes, in the order of their ranks. -/
def rankedClasses (expected : List Str) (files : List JacocoFile) : List RankedGap :=
  ((parsedReports expected files).classes.map fun (module, package, cls) =>
    rankedClass module package cls).mergeSort RankedGap.le

/-- What is reported of the classes. -/
def gapsOf (limit : Nat) (expected : List Str) (files : List JacocoFile) : CoverageGapResult where
  status := coverageStatus (sortedReports files)
  gaps := ((rankedClasses expected files).take limit).map (·.gap)
  missingModules := (parsedReports expected files).missingModules
  incomplete := limit < (rankedClasses expected files).length

/-- **The report of gaps**, and the sums that have to fit for it. -/
theorem jacocoCoverageGaps_exactly (limit : Nat) (expected : List Str) (files : List JacocoFile) :
    Exactly (fun profile => jacocoCoverageGaps profile limit expected files) (GapsFit files)
      (gapsOf limit expected files) := by
  have hrank := Exactly.mapM (fun entry : Str × Str × RawJacocoClass =>
    rankClass_exactly entry.1 entry.2.1 entry.2.2) (parsedReports expected files).classes
  refine ((readJacocoReports_exactly expected files).bind (hrank.bind_pure _)).congr ?_
  simp only [(perm_classes expected files).mem_iff]
  exact ⟨fun ⟨h, h'⟩ => ⟨h, h'⟩, fun h => ⟨h.reports, h.classes⟩⟩

/-! ## 6. Right totals -/

/-- The counter has these parts, and its percentage is that of their sum. -/
structure CoverageCounter.Counts (counter : CoverageCounter) (missed covered : Nat) : Prop where
  missed_eq : counter.missed.toNat = missed
  covered_eq : counter.covered.toNat = covered
  percent_eq : counter.percent.map (fun percent => (percent.covered.toNat, percent.total.toNat))
    = if missed + covered = 0 then none else some (covered, missed + covered)

/-- What is reported is the sum of these counters. -/
def Reported (reported : Option CoverageCounter) (counters : List RawJacocoCounter) : Prop :=
  match reported with
  | none => counters = []
  | some counter => counters ≠ [] ∧ counter.Counts (Machine.total (counters.map (·.missed)))
      (Machine.total (counters.map (·.covered)))

theorem counts_counterOf {missed covered : BitVec 64}
    (h : missed.toNat + covered.toNat < 2 ^ 64) :
    (counterOf missed covered (missed + covered)).Counts missed.toNat covered.toNat where
  missed_eq := rfl
  covered_eq := rfl
  percent_eq := by
    have htotal : (missed + covered).toNat = missed.toNat + covered.toNat :=
      Machine.toNat_add_of_fits h
    have hzero : missed + covered = 0 ↔ missed.toNat + covered.toNat = 0 := by
      rw [← htotal, ← BitVec.toNat_inj]
      rfl
    unfold counterOf
    simp only [hzero]
    split
    · rfl
    · rw [Option.map_some, htotal]

theorem reported_metricsOf {counters : List RawJacocoCounter} (h : CountersFit counters)
    (kind : CounterKind) :
    Reported ((metricsOf counters).select kind) (findCounter counters kind).toList := by
  rw [metricsOf, CoverageMetrics.select_of]
  cases hfind : findCounter counters kind with
  | none => rfl
  | some counter =>
    exact ⟨List.cons_ne_nil _ _, by simpa using counts_counterOf (h kind counter hfind)⟩

theorem reported_aggregated {files : List JacocoFile} (h : CoverageFits files)
    (kind : CounterKind) : Reported (aggregated files kind) (counted files kind) := by
  unfold aggregated
  split
  next hnone => exact hnone
  next hnone =>
    have hmissed : (BitVec.ofNat 64 (missedTotal files kind)).toNat = missedTotal files kind :=
      Machine.toNat_ofNat_total (Nat.lt_of_add_right_lt (h kind))
    have hcovered : (BitVec.ofNat 64 (coveredTotal files kind)).toNat = coveredTotal files kind :=
      Machine.toNat_ofNat_total (Nat.lt_of_add_left_lt (h kind))
    have hfits := h kind
    rw [← hmissed, ← hcovered] at hfits
    have hcounts := counts_counterOf hfits
    rw [hmissed, hcovered] at hcounts
    exact ⟨hnone, hcounts⟩

/-- The test report adds up what the suites have. -/
def TestsRight (profile : Profile) (redact : Str → Str) (suites : List (RawTestSuite w)) : Prop :=
  ∃ report, parseTestReports profile redact suites = some report ∧
    report.1.passed.toNat = (suites.map (·.passed)).sum ∧
    report.1.failed.toNat = (suites.map (·.failures.toNat)).sum ∧
    report.1.errors.toNat = (suites.map (·.errors.toNat)).sum ∧
    report.1.skipped.toNat = (suites.map (·.skipped.toNat)).sum

/-- The coverage report adds up what the files have, and says of each module what its file has. -/
def CoverageRight (profile : Profile) (expected : List Str) (files : List JacocoFile) : Prop :=
  ∃ result, jacocoCoverage profile expected files = some result ∧
    (∀ kind, Reported (result.projectMetrics.select kind) (counted files kind)) ∧
    ∀ report ∈ result.reports, ∃ file ∈ files, report.module = file.module ∧
      ∀ kind, Reported (report.metrics.select kind) (findCounter file.report.counters kind).toList

/-- The class is reported as its counters are, and ranked by the exact quotient, whose product is
computed in its type. -/
def RankedRight (profile : Profile) (entry : Str × Str × RawJacocoClass) : Prop :=
  ∃ ranked, rankClass profile entry.1 entry.2.1 entry.2.2 = some ranked ∧
    Reported ranked.gap.line (findCounter entry.2.2.counters .lines).toList ∧
    Reported ranked.gap.branch (findCounter entry.2.2.counters .branches).toList ∧
    Reported ranked.gap.instruction (findCounter entry.2.2.counters .instructions).toList ∧
    ∀ counter ∈ rankedCounter entry.2.2.counters, counter.covered.toNat * 10000 < 2 ^ 64 ∧
      (0 < counter.total → ranked.score.toNat = counter.covered.toNat * 10000 / counter.total ∧
        ranked.score.toNat ≤ 10000)

/-- The report of gaps is computed, and from classes ranked right. -/
def GapsRight (profile : Profile) (limit : Nat) (expected : List Str) (files : List JacocoFile) :
    Prop :=
  (∃ result, jacocoCoverageGaps profile limit expected files = some result) ∧
    ∀ entry ∈ files.flatMap JacocoFile.classes, RankedRight profile entry

/-- The products of the counters that classes are ranked by stay in their type. -/
def ProductsFit (files : List JacocoFile) : Prop :=
  ∀ entry ∈ files.flatMap JacocoFile.classes, ∀ counter ∈ rankedCounter entry.2.2.counters,
    counter.covered.toNat * 10000 < 2 ^ 64

theorem testsRight_iff (redact : Str → Str) (suites : List (RawTestSuite w)) :
    (∀ profile, TestsRight profile redact suites) ↔ TestsFit suites := by
  refine (parseTestReports_exactly redact suites).iff fun h => ?_
  simp only [TestSummary.ofNats, BitVec.toNat_ofNat, Nat.mod_eq_of_lt h.passed,
    Nat.mod_eq_of_lt h.failed, Nat.mod_eq_of_lt h.errors, Nat.mod_eq_of_lt h.skipped]
  simp [Machine.total, Function.comp_def]

theorem coverageRight_iff (expected : List Str) (files : List JacocoFile) :
    (∀ profile, CoverageRight profile expected files) ↔ CoverageFits files := by
  refine (jacocoCoverage_exactly expected files).iff fun h => ⟨fun kind => ?_, ?_⟩
  · simpa [summaryOf] using reported_aggregated h kind
  · intro report hreport
    obtain ⟨parsed, hparsed, rfl⟩ := List.mem_map.mp hreport
    obtain ⟨file, hfile, rfl⟩ := List.mem_map.mp ((List.mergeSort_perm _ _).mem_iff.mp hparsed)
    exact ⟨file, hfile, rfl, reported_metricsOf (h.counters hfile)⟩

theorem rankedRight_iff (entry : Str × Str × RawJacocoClass) :
    (∀ profile, RankedRight profile entry) ↔ CountersFit entry.2.2.counters ∧
      ∀ counter ∈ rankedCounter entry.2.2.counters, counter.covered.toNat * 10000 < 2 ^ 64 := by
  have hrank := rankClass_exactly entry.1 entry.2.1 entry.2.2
  constructor
  · intro h
    obtain ⟨ranked, hranked, -, -, -, hscore⟩ := h .dev
    exact ⟨hrank.fits_of_dev ranked hranked, fun counter hcounter => (hscore counter hcounter).1⟩
  · rintro ⟨hfits, hproducts⟩ profile
    refine ⟨_, hrank.answers hfits profile, reported_metricsOf hfits .lines,
      reported_metricsOf hfits .branches, reported_metricsOf hfits .instructions, ?_⟩
    intro counter hcounter
    refine ⟨hproducts counter hcounter, fun hpos => ?_⟩
    obtain ⟨kind, hkind⟩ := findCounter_of_ranked hcounter
    have hscore : (rankedClass entry.1 entry.2.1 entry.2.2).score.toNat
        = counter.covered.toNat * 10000 / counter.total := by
      rw [rankedClass, Option.mem_def.mp hcounter]
      exact toNat_scoreOf hpos (hfits kind counter hkind) (hproducts counter hcounter)
    exact ⟨hscore, hscore.trans_le (basisPoints_le _ _)⟩

theorem gapsRight_iff (limit : Nat) (expected : List Str) (files : List JacocoFile) :
    (∀ profile, GapsRight profile limit expected files) ↔ GapsFit files ∧ ProductsFit files := by
  have hgaps := jacocoCoverageGaps_exactly limit expected files
  constructor
  · intro h
    obtain ⟨result, hresult⟩ := (h .dev).1
    refine ⟨hgaps.fits_of_dev result hresult, fun entry hentry => ?_⟩
    exact ((rankedRight_iff entry).mp fun profile => (h profile).2 entry hentry).2
  · rintro ⟨hfits, hproducts⟩ profile
    refine ⟨⟨_, hgaps.answers hfits profile⟩, fun entry hentry => ?_⟩
    exact (rankedRight_iff entry).mpr ⟨hfits.classes entry hentry, hproducts entry hentry⟩ profile

/-- **The reports are right**, in every build, exactly where the sums and the products fit. -/
theorem totals_right_iff (redact : Str → Str) (suites : List (RawTestSuite w)) (limit : Nat)
    (expected : List Str) (files : List JacocoFile) :
    (∀ profile, TestsRight profile redact suites ∧ CoverageRight profile expected files ∧
        GapsRight profile limit expected files) ↔
      TestsFit suites ∧ CoverageFits files ∧
        (∀ entry ∈ files.flatMap JacocoFile.classes, CountersFit entry.2.2.counters) ∧
        ProductsFit files := by
  simp only [forall_and, testsRight_iff, coverageRight_iff, gapsRight_iff]
  refine and_congr_right fun _ => and_congr_right fun hcoverage => ?_
  constructor
  · exact fun ⟨hgaps, hproducts⟩ => ⟨hgaps.classes, hproducts⟩
  · exact fun ⟨hclasses, hproducts⟩ =>
      ⟨⟨fun _ hfile => hcoverage.counters hfile, hclasses⟩, hproducts⟩

/-! ## 7. Reports that are wrong -/

/-- A report of one module with one class. -/
def oneClass (counter : RawJacocoCounter) : JacocoFile where
  module := "app".toList
  report := {
    packages := [{ name := "p".toList
                   classes := [{ name := "p/C".toList, counters := [counter] }] }]
    counters := [counter] }
  stale := false

/-- A counter of lines. -/
def lines (missed covered : Nat) : RawJacocoCounter where
  kind := "LINE".toList
  missed := BitVec.ofNat 64 missed
  covered := BitVec.ofNat 64 covered

/-- A suite of tests that all failed. -/
def failing (n : Nat) : RawTestSuite 64 where
  tests := BitVec.ofNat 64 n
  failures := BitVec.ofNat 64 n
  errors := 0
  skipped := 0
  testCases := []

/-- **Sums leave their type**: a checked build panics over one counter, the other one reports no
percentage for it; a fully covered class is ranked as if it were not; and failed tests are lost. -/
theorem totals_wrong :
    jacocoCoverage .dev [] [oneClass (lines (2 ^ 64 - 1) 1)] = none ∧
      (jacocoCoverage .release [] [oneClass (lines (2 ^ 64 - 1) 1)]).map (·.projectMetrics.lines)
        = some (some { missed := 18446744073709551615, covered := 1, percent := none }) ∧
      (rankClass .release [] [] { name := [], counters := [lines 0 1844674407370956] }).map
        (·.score)
        = some 9999 ∧
      (parseTestReports .release id [failing (2 ^ 64 - 1), failing 1]).map (·.1.failed)
        = some 0 := by
  decide +kernel

end Project
end MavenMcp
