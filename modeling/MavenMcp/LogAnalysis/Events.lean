/-
# Recorded commands

What the analysis of agent logs keeps of a recorded shell command, how large that is estimated to
be, and the budget that the estimates are charged to.  Provenance is shared between the events of a
source and is not counted.

The order in which events are reported, and their filter, are here too.
-/
import Mathlib.Data.List.Sort
import MavenMcp.Lib.Attempt
import MavenMcp.Lib.Text
import MavenMcp.Paths

namespace MavenMcp.LogAnalysis

open Text

/-! ## 1. Events -/

inductive CommandCategory
  | maven
  | jarInspection
  | classInspection
  | pomInspection
  | resourceInspection
  | shell
deriving DecidableEq, Repr

structure MavenCommand where
  executable : Str
  lifecycleGoals : List Str
  pluginGoals : List Str
  modules : List Str
  alsoMake : Bool
  alsoMakeDependents : Bool
  resumeFrom : Option Str
  pomFile : Option Str
  tests : List Str
  profiles : List Str
  /-- The entries of the map, in the order of their keys. -/
  properties : List (Str × Str)
deriving DecidableEq, Repr

/-- An entry of a map that keeps its keys in order. -/
def insertEntry (entry : Str × Str) : List (Str × Str) → List (Str × Str)
  | [] => [entry]
  | other :: entries =>
    if entry.1 = other.1 then entry :: entries
    else if strLe entry.1 other.1 then entry :: other :: entries
    else other :: insertEntry entry entries

structure CommandEvent where
  timestamp : Option Str
  ide : Str
  agent : Option Str
  project : Option Str
  session : Option Str
  tool : Str
  cwd : Option Str
  command : Str
  category : CommandCategory
  callId : Option Str
  maven : Option MavenCommand
  provenance : Str
deriving DecidableEq, Repr

/-! ## 2. Sizes -/

/-- What `size_of` answers for the types whose values are counted. -/
structure Sizes where
  commandEvent : Nat
  mavenCommand : Nat
  dedupKey : Nat
  metadata : Nat
  optionalString : Nat
deriving DecidableEq, Repr

/-- `ENTRY_OVERHEAD_BYTES`. -/
def entryOverheadBytes : Nat := 48

def optionalLen (value : Option Str) : Nat := (value.map byteLen).getD 0

variable (sizes : Sizes)

def MavenCommand.retainedBytes (maven : MavenCommand) : Nat :=
  sizes.mavenCommand + byteLen maven.executable + optionalLen maven.resumeFrom
    + optionalLen maven.pomFile
    + (([maven.lifecycleGoals, maven.pluginGoals, maven.modules, maven.tests,
        maven.profiles].flatten).map
        fun text => byteLen text + entryOverheadBytes).sum
    + (maven.properties.map fun (key, value) =>
        byteLen key + byteLen value + entryOverheadBytes).sum

namespace CommandEvent

/-- `CommandEvent::retained_bytes`. -/
def retainedBytes (event : CommandEvent) : Nat :=
  sizes.commandEvent + byteLen event.ide + byteLen event.tool + byteLen event.command
    + ([event.timestamp, event.agent, event.project, event.session, event.cwd, event.callId].map
        optionalLen).sum
    + ((event.maven.map (·.retainedBytes sizes)).getD 0)

end CommandEvent

/-- `retained_bytes` of a list of events. -/
def retainedBytes (events : List CommandEvent) : Nat :=
  (events.map (·.retainedBytes sizes)).sum

@[simp] theorem retainedBytes_nil : retainedBytes sizes [] = 0 := rfl

@[simp] theorem retainedBytes_cons (event : CommandEvent) (events : List CommandEvent) :
    retainedBytes sizes (event :: events)
      = event.retainedBytes sizes + retainedBytes sizes events := rfl

@[simp] theorem retainedBytes_append (a b : List CommandEvent) :
    retainedBytes sizes (a ++ b) = retainedBytes sizes a + retainedBytes sizes b := by
  rw [retainedBytes, List.map_append, List.sum_append]
  rfl

theorem retainedBytes_perm {a b : List CommandEvent} (h : a.Perm b) :
    retainedBytes sizes a = retainedBytes sizes b :=
  (h.map _).sum_eq

/-- Only the length of the timestamp counts. -/
theorem CommandEvent.retainedBytes_timestamp (event : CommandEvent) (timestamp : Option Str) :
    { event with timestamp }.retainedBytes sizes + optionalLen event.timestamp
      = event.retainedBytes sizes + optionalLen timestamp := by
  simp only [CommandEvent.retainedBytes, List.map_cons, List.sum_cons]
  omega

/-! ## 3. The budget -/

inductive LimitExceeded
  | input
  | state
deriving DecidableEq, Repr

/-- The budget of the retained state; `none` is the limit `usize::MAX`, which no state in memory
exceeds. -/
structure StateBudget where
  limit : Option Nat
  used : Nat
  /-- Whether more was given back than was charged at that moment.  The code does not record this;
  it stops at zero. -/
  overdrawn : Bool
deriving DecidableEq, Repr

namespace StateBudget

def new (limit : Nat) : StateBudget := { limit := some limit, used := 0, overdrawn := false }

def unlimited : StateBudget := { limit := none, used := 0, overdrawn := false }

def charge (budget : StateBudget) (bytes : Nat) : Except LimitExceeded Unit × StateBudget :=
  if budget.limit.all (budget.used + bytes ≤ ·) then
    (.ok (), { budget with used := budget.used + bytes })
  else (.error .state, budget)

def release (budget : StateBudget) (bytes : Nat) : StateBudget :=
  { budget with
    used := budget.used - bytes
    overdrawn := budget.overdrawn || decide (budget.used < bytes) }

def restore (budget : StateBudget) (used : Nat) : StateBudget := { budget with used }

end StateBudget

/-- `budget.charge(bytes)?` -/
def charge (bytes : Nat) : Attempt LimitExceeded StateBudget Unit := .of (·.charge bytes)

def release {ε : Type} (bytes : Nat) : Attempt ε StateBudget Unit :=
  .of fun budget => (.ok (), budget.release bytes)

/-- `budget.used()` -/
def usedBytes {ε : Type} : Attempt ε StateBudget Nat := .of fun budget => (.ok budget.used, budget)

/-! ## 4. Order and filter -/

/-- The order of texts. -/
def strCompare : Str → Str → Ordering := List.compareLex charCompare

/-- The order of optional texts: `None` first. -/
def optionCompare : Option Str → Option Str → Ordering
  | none, none => .eq
  | none, some _ => .lt
  | some _, none => .gt
  | some a, some b => strCompare a b

/-- What `sort_events` compares, from the left. -/
def CommandEvent.sortKey (event : CommandEvent) : List (Option Str) :=
  [event.timestamp, some event.ide, event.agent, event.project, event.session, some event.tool,
    event.cwd, some event.command, event.callId]

def eventLe (a b : CommandEvent) : Bool :=
  (List.compareLex optionCompare a.sortKey b.sortKey).isLE

def sortEvents (events : List CommandEvent) : List CommandEvent := events.mergeSort eventLe

structure EventFilter where
  since : Option Str
  until_ : Option Str
  ide : Option Str
  agent : Option Str
  project : Option Str
  session : Option Str
  category : Option CommandCategory
deriving DecidableEq, Repr

def matchesFilter (expected actual : Option Str) : Bool :=
  expected.all fun expected =>
    actual.any fun actual => eqIgnoreAsciiCase actual expected

/-- What `filter_events` keeps. -/
def EventFilter.keeps (filter : EventFilter) (event : CommandEvent) : Bool :=
  (filter.since.all fun since => event.timestamp.any fun t => strLe since t)
    && (filter.until_.all fun until_ => event.timestamp.any fun t => strLe t until_)
    && matchesFilter filter.ide (some event.ide)
    && matchesFilter filter.agent event.agent
    && matchesFilter filter.project event.project
    && matchesFilter filter.session event.session
    && filter.category.all (event.category = ·)

def filterEvents (events : List CommandEvent) (filter : EventFilter) : List CommandEvent :=
  events.filter filter.keeps

def filterEventsWithin (events : List CommandEvent) (filter : EventFilter) (budget : StateBudget) :
    List CommandEvent × StateBudget :=
  let kept := filterEvents events filter
  (kept, budget.release (retainedBytes sizes events - retainedBytes sizes kept))

/-! ## 5. Sorting -/

instance : Std.TransCmp strCompare :=
  inferInstanceAs (Std.TransCmp (List.compareLex charCompare))

instance lawfulEqStrCompare : Std.LawfulEqCmp strCompare :=
  inferInstanceAs (Std.LawfulEqCmp (List.compareLex charCompare))

instance : Std.TransCmp optionCompare where
  eq_swap {a b} := by
    cases a with
    | none => cases b <;> rfl
    | some a =>
      cases b with
      | none => rfl
      | some b =>
        change strCompare a b = (strCompare b a).swap
        exact Std.OrientedCmp.eq_swap
  isLE_trans {a b c} h h' := by
    cases a with
    | none => cases c <;> rfl
    | some a =>
      cases b with
      | none => exact (Bool.false_ne_true h).elim
      | some b =>
        cases c with
        | none => exact (Bool.false_ne_true h').elim
        | some c =>
          change (strCompare a c).isLE = true
          exact Std.TransCmp.isLE_trans h h'

theorem eventLe_trans (a b c : CommandEvent) (h : eventLe a b = true) (h' : eventLe b c = true) :
    eventLe a c = true := by
  change (List.compareLex optionCompare a.sortKey c.sortKey).isLE = true
  exact Std.TransCmp.isLE_trans h h'

theorem eventLe_total (a b : CommandEvent) : (eventLe a b || eventLe b a) = true := by
  have hswap : List.compareLex optionCompare a.sortKey b.sortKey
      = (List.compareLex optionCompare b.sortKey a.sortKey).swap := Std.OrientedCmp.eq_swap
  rw [eventLe, eventLe, hswap]
  cases List.compareLex optionCompare b.sortKey a.sortKey with
  | lt => rfl
  | eq => rfl
  | gt => rfl

theorem sortEvents_perm (events : List CommandEvent) : (sortEvents events).Perm events :=
  List.mergeSort_perm events eventLe

/-- What is in order stays as it is. -/
theorem sortEvents_sortEvents (events : List CommandEvent) :
    sortEvents (sortEvents events) = sortEvents events :=
  List.mergeSort_of_pairwise (List.pairwise_mergeSort eventLe_trans eventLe_total events)

end MavenMcp.LogAnalysis
