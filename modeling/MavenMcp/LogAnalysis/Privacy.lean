/-
# Redaction of events

What `privacy.rs` makes of the texts of an event before it is exported: the values of secrets are
masked by a scan for their prefixes, then credentials in URLs, tokens, the paths and names of users
and the texts that the caller names.  The tables of paths and names are discovered in the events
themselves and are charged to the budget while they exist.
-/
import MavenMcp.Lib.Utf8
import MavenMcp.LogAnalysis.Events
import MavenMcp.Redaction.Rules

namespace MavenMcp.LogAnalysis

open Text
open Redaction (caseless exact oneOf noneOf joint keyChar isLetter knownToken captured)
open Regex (opt plus seqs alts)

def redacted : Str := "<REDACTED>".toList

/-! ## 1. Expressions -/

section

variable (u : Unicode)

/-- `\s` -/
def space : Regex := .char isWhitespace

/-- `\s*` -/
def spaces : Regex := .star space

/-- `^`, where something follows: a character on the right side alone. -/
def textStart : Regex := .boundary fun _ => true

/-- The words that make a key sensitive. -/
def secretWord : Regex :=
  alts (caseless "password".toList) [caseless "passwd".toList, caseless "token".toList,
    caseless "secret".toList, caseless "credential".toList,
    seqs [caseless "api".toList, joint, caseless "key".toList],
    seqs [caseless "access".toList, joint, caseless "key".toList],
    seqs [caseless "private".toList, joint, caseless "key".toList]]

/-- A key with a sensitive word in it. -/
def secretKey : Regex := seqs [.star (keyChar u), secretWord, .star (keyChar u)]

/-- The options whose argument is a secret. -/
def secretOption : Regex :=
  alts (caseless "password".toList) [caseless "passwd".toList, caseless "token".toList,
    caseless "secret".toList, seqs [caseless "api".toList, joint, caseless "key".toList],
    seqs [caseless "access".toList, joint, caseless "key".toList]]

def keyPrefix : Regex := seqs [secretKey u, spaces, oneOf ['=', ':'], spaces]

def optionPrefix : Regex := seqs [exact ['-'], opt (exact ['-']), secretOption, plus space]

def headerPrefix : Regex :=
  seqs [caseless "authorization".toList, spaces, oneOf [':', '='], spaces,
    opt (.alt (seqs [caseless "bearer".toList, plus space])
      (seqs [caseless "basic".toList, plus space]))]

/-- `--user` and `-u`, behind what stands in front of an option. -/
def userOption : Regex :=
  .alt
    (seqs [exact ['-', '-'], opt (caseless "proxy-".toList), caseless "user".toList,
      .alt (exact ['=']) (plus space)])
    (seqs [exact ['-'], oneOf ['u', 'U'], spaces])

def userPrefix : Regex :=
  .seq (.alt textStart (.char fun c => isWhitespace c || [';', '|', '&'].contains c)) userOption

/-- `SECRET_PREFIX`. -/
def secretPrefix : Regex := alts (keyPrefix u) [optionPrefix, headerPrefix, userPrefix]

/-- `HOME_PATH`. -/
def homePath : Regex :=
  .seq
    (.alt
      (seqs [exact ['/'], .alt (caseless "home".toList) (caseless "users".toList), exact ['/']])
      (seqs [.char isLetter, exact [':'], oneOf ['\\', '/'], caseless "users".toList,
        oneOf ['\\', '/']]))
    (.group 1 (plus (.char fun c =>
      !isWhitespace c && !(['/', '\\', '\'', '"', '<', '>'].contains c))))

/-- `URL`. -/
def url : Regex :=
  seqs [.group 1 (.seq (plus (.char u.word)) (exact "://".toList)),
    plus (.char fun c => !isWhitespace c && !(['/', '@', '\'', '"', '<', '>'].contains c)),
    exact ['@']]

/-- A user's name as a word. -/
def username (user : Str) : Regex := seqs [.boundary u.word, exact user, .boundary u.word]

end

/-! ## 2. Secret values -/

/-- Where a shell is in its words. -/
structure Scan where
  quote : Option Char
  escaped : Bool
deriving DecidableEq, Repr

namespace Scan

def start : Scan := { quote := none, escaped := false }

def next (s : Scan) (c : Char) : Scan :=
  if s.escaped then { s with escaped := false }
  else if c = '\\' ∧ s.quote ≠ some '\'' then { s with escaped := true }
  else if some c = s.quote then { s with quote := none }
  else if s.quote = none ∧ (c = '\'' ∨ c = '"') then { s with quote := some c }
  else s

/-- The character ends a value. -/
def ends (s : Scan) (c : Char) : Bool :=
  !s.escaped && s.quote.isNone && (isWhitespace c || [';', '&', '|', '<', '>'].contains c)

end Scan

def scanFrom (s : Scan) (text : Str) : Scan := text.foldl Scan.next s

def quoteBefore (text : Str) : Option Char := (scanFrom .start text).quote

/-- The characters of a value, from a state. -/
def valueLength : Str → Scan → Nat
  | [], _ => 0
  | c :: text, s => if s.ends c then 0 else valueLength text (s.next c) + 1

def secretValueEnd (text : Str) (initialQuote : Option Char) : Nat :=
  valueLength text { quote := initialQuote, escaped := false }

/-- One match; `copied` characters are in the output. -/
def secretStep (text : Str) (acc : Str × Nat) (found : Str × Regex.State) : Str × Nat :=
  let (output, copied) := acc
  let start := text.length - found.1.length
  let stop := text.length - found.2.ahead.length
  if start < copied then acc
  else
    let outerQuote := quoteBefore (text.take stop)
    (output ++ (text.take stop).drop copied ++ redacted ++ outerQuote.toList,
      stop + secretValueEnd (text.drop stop) outerQuote)

def redactSecretValues (u : Unicode) (text : Str) : Str :=
  let (output, copied) := ((secretPrefix u).allMatches text).foldl (secretStep text) ([], 0)
  output ++ text.drop copied

/-! ## 3. Texts -/

/-- `str::replace` of a text that is not empty. -/
def replaceText (pattern replacement : Str) : Nat → Str → Str
  | 0, text => text
  | n + 1, text =>
    match find pattern text with
    | none => text
    | some (front, rest) =>
      front ++ replacement ++ replaceText pattern replacement n (rest.drop pattern.length)

/-- `char::is_control`. -/
def isControl (c : Char) : Bool :=
  decide (c.toNat < 0x20) || decide (0x7F ≤ c.toNat ∧ c.toNat ≤ 0x9F)

/-- A character as reports show it. -/
def shown (c : Char) : Str :=
  if c = '\n' then ['\\', 'n']
  else if c = '\r' then ['\\', 'r']
  else if c = '\t' then ['\\', 't']
  else if isControl c then
    '\\' :: 'u' :: Char.ofNat 123 :: (Nat.toDigits 16 c.toNat ++ [Char.ofNat 125])
  else [c]

/-- What was discovered, and the bytes it was charged with. -/
structure Tables where
  replacements : List (Str × Str)
  users : List Str
  charged : Nat
deriving DecidableEq, Repr

/-- The longest pattern first. -/
def replacementLe (a b : Str × Str) : Bool :=
  if byteLen a.1 = byteLen b.1 then
    if a.1 = b.1 then strLe a.2 b.2 else strLe a.1 b.1
  else decide (byteLen b.1 < byteLen a.1)

def redact (u : Unicode) (tables : Tables) (text : Str) : Str :=
  -- credentials before paths, so that quoted secrets are removed whole
  let text := redactSecretValues u text
  let text := ((url u).replaceAll (fun _ m => (captured m 1 ++ "<CREDENTIALS>@".toList, 0)) text).1
  let text := ((knownToken u).replaceAll (fun _ _ => (redacted, 0)) text).1
  let text := (tables.replacements.mergeSort replacementLe).foldl
    (fun text (pattern, replacement) =>
    if pattern = [] then text else replaceText pattern replacement text.length text) text
  let text := (homePath.replaceAll (fun _ _ => ("<HOME>".toList, 0)) text).1
  let text := (tables.users.mergeSort strLe).foldl (fun text user =>
    ((username u user).replaceAll (fun _ _ => ("<USER>".toList, 0)) text).1) text
  text.flatMap shown

/-! ## 4. Events -/

/-- The parts of a key that make its value a secret. -/
def secretKeyParts : List Str :=
  ["password".toList, "passwd".toList, "token".toList, "secret".toList, "credential".toList,
    "authorization".toList, "apikey".toList, "accesskey".toList, "privatekey".toList]

def isSecretKey (key : Str) : Bool :=
  let normalized := (toAsciiLowercase key).filter fun c => c ≠ '_' && c ≠ '-'
  secretKeyParts.any fun part => Text.contains part normalized

def redactProperty (u : Unicode) (tables : Tables) (property : Str × Str) : Str × Str :=
  (redact u tables property.1,
    if isSecretKey property.1 then redacted else redact u tables property.2)

def redactMaven (u : Unicode) (tables : Tables) (maven : MavenCommand) : MavenCommand :=
  { maven with
    executable := redact u tables maven.executable
    lifecycleGoals := maven.lifecycleGoals.map (redact u tables)
    pluginGoals := maven.pluginGoals.map (redact u tables)
    modules := maven.modules.map (redact u tables)
    tests := maven.tests.map (redact u tables)
    profiles := maven.profiles.map (redact u tables)
    resumeFrom := maven.resumeFrom.map (redact u tables)
    pomFile := maven.pomFile.map (redact u tables)
    properties := (maven.properties.map (redactProperty u tables)).foldl
      (fun entries entry => insertEntry entry entries) [] }

def redactEvent (u : Unicode) (tables : Tables) (event : CommandEvent) : CommandEvent :=
  { event with
    ide := redact u tables event.ide
    tool := redact u tables event.tool
    command := redact u tables event.command
    timestamp := event.timestamp.map (redact u tables)
    agent := event.agent.map (redact u tables)
    project := event.project.map (redact u tables)
    session := event.session.map (redact u tables)
    cwd := event.cwd.map (redact u tables)
    callId := event.callId.map (redact u tables)
    maven := event.maven.map (redactMaven u tables) }

/-! ## 5. Discovery -/

/-- The tables while they are discovered, and the budget that they are charged to. -/
structure Discovery where
  tables : Tables
  budget : StateBudget

/-- Attempts to discover; what was charged before a failure is known afterwards. -/
abbrev Discovering := Attempt LimitExceeded Discovery Unit

def Tables.empty : Tables := { replacements := [], users := [], charged := 0 }

/-- Charge an entry before it is kept. -/
def chargeEntry (bytes : Nat) : Discovering :=
  .of fun s =>
    match s.budget.charge bytes with
    | (.error e, budget) => (.error e, { s with budget })
    | (.ok (), budget) =>
      (.ok (), { tables := { s.tables with charged := s.tables.charged + bytes }, budget })

def addReplacement (pattern replacement : Str) : Discovering := do
  let s ← get
  if (pattern, replacement) ∈ s.tables.replacements then pure ()
  else do
    chargeEntry (byteLen pattern + byteLen replacement + entryOverheadBytes)
    modify fun s =>
      { s with tables := { s.tables with
          replacements := s.tables.replacements ++ [(pattern, replacement)] } }

def addUser (user : Str) : Discovering := do
  let s ← get
  if user ∈ s.tables.users then pure ()
  else do
    chargeEntry (byteLen user + entryOverheadBytes)
    modify fun s => { s with tables := { s.tables with users := s.tables.users ++ [user] } }

/-- One attempt for each of these. -/
def each {α : Type} (items : List α) (f : α → Discovering) : Discovering :=
  items.foldlM (fun _ item => f item) ()

/-- The users whose home directories a text names. -/
def homeUsers (text : Str) : List Str :=
  (homePath.allMatches text).map fun found => captured found.2 1

def isPath (value : Str) : Bool :=
  let bytes := Utf8.encode value
  startsWith ['/'] value || startsWith "file://".toList value
    || (bytes[1]? = some 58 && (bytes[2]? = some 47 || bytes[2]? = some 92))

/-- The users and the directories of an event; `found` is what was found before. -/
def discoverEvent (found : List Str) (event : CommandEvent) : Discovering := do
  each (found ++ homeUsers event.command ++ homeUsers (event.cwd.getD [])
    ++ homeUsers (event.project.getD [])) addUser
  each (([event.project, event.cwd].filterMap id).filter
    fun path => isPath path && 1 < byteLen path)
    fun path => addReplacement path "<WORKSPACE>".toList

def discoverEvents (found : List Str) : List CommandEvent → Discovering
  | [] => pure ()
  | event :: events => do
    discoverEvent found event
    each events (discoverEvent [])

/-- What the caller of a redaction gives. -/
structure RedactionSettings where
  /-- `std::env::var`. -/
  env : String → Option Str
  workspace : Option PathBuf
  extraPatterns : List Str

/-- The values of these variables that are longer than `low` bytes. -/
def RedactionSettings.variables (settings : RedactionSettings) (low : Nat) (names : List String) :
    List Str :=
  (names.filterMap settings.env).filter (low < byteLen ·)

def discover (settings : RedactionSettings) (events : List CommandEvent) : Discovering := do
  each (settings.variables 1 ["HOME", "USERPROFILE"]) fun home =>
    addReplacement home "<HOME>".toList
  discoverEvents (settings.variables 0 ["USER", "USERNAME"]) events
  each settings.workspace.toList fun workspace =>
    addReplacement (Utf8.decodeLossy workspace) "<WORKSPACE>".toList
  each (settings.extraPatterns.filter (· ≠ [])) fun pattern => addReplacement pattern redacted

/-- The growth of an event is charged, and its shrinkage given back. -/
def adjust (before after : Nat) : Attempt LimitExceeded StateBudget Unit :=
  if before < after then charge (after - before) else release (before - after)

def redactEach (sizes : Sizes) (u : Unicode) (tables : Tables) :
    List CommandEvent → Attempt LimitExceeded StateBudget (List CommandEvent)
  | [] => pure []
  | event :: events => do
    let event' := redactEvent u tables event
    adjust (event.retainedBytes sizes) (event'.retainedBytes sizes)
    let events ← redactEach sizes u tables events
    pure (event' :: events)

def redactEventsWithin (sizes : Sizes) (u : Unicode) (settings : RedactionSettings)
    (events : List CommandEvent) : Attempt LimitExceeded StateBudget (List CommandEvent) :=
  .of fun budget =>
    match (discover settings events).answer { tables := .empty, budget } with
    | (.error e, s) => (.error e, s.budget.release s.tables.charged)
    | (.ok (), s) =>
      match (redactEach sizes u s.tables events).answer s.budget with
      | (result, budget) => (result, budget.release s.tables.charged)

end MavenMcp.LogAnalysis
