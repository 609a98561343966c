/-
# Reading logs

`sources.rs` finds the shell calls in the logs of five tools: a JSON document of VS Code, the lines
of Codex and IntelliJ, the database of Kilo.  Every event is charged to the budget before it is
kept, and so is what a reader keeps besides events while it reads; a read that fails gives all of it
back.

Files, databases and the JSON parser are outside: `LogFile` is what they answer for one path, and
`Decoding` the parser and the digits of regular expressions.
-/
import MavenMcp.Index.Layout
import MavenMcp.Lib.Json
import MavenMcp.LogAnalysis.Maven
import MavenMcp.LogAnalysis.Time

namespace MavenMcp.LogAnalysis

open Text
open Redaction (exact oneOf noneOf captured)
open Regex (opt plus exactly seqs alts)

/-! ## 1. What is read -/

inductive LogSource
  | auto
  | vsCode
  | vsCodeInsiders
  | codex
  | kilo
  | intelliJ
deriving DecidableEq, Repr

structure ResourceLimits where
  maxInputBytes : Nat
  maxRecordBytes : Nat
  maxStateBytes : Nat
deriving DecidableEq, Repr

structure EventLog where
  events : List CommandEvent
  skippedRecords : Nat
  oversizedRecords : Nat
deriving DecidableEq, Repr

def EventLog.empty : EventLog := { events := [], skippedRecords := 0, oversizedRecords := 0 }

inductive ReadError
  | limit (e : LimitExceeded)
  | message (text : Str)
  /-- A failure of the operating system, the database or the JSON parser. -/
  | outside
deriving DecidableEq, Repr

/-- Attempts to read, on the budget. -/
abbrev Reading (α : Type) := Attempt ReadError StateBudget α

/-- An answer of the outside. -/
def answered {α : Type} : Option α → Reading α
  | none => throw .outside
  | some a => pure a

def require (p : Bool) (e : ReadError) : Reading Unit := if p then pure () else throw e

/-- A value of a database row. -/
inductive RowValue
  | text (bytes : List UInt8)
  | integer (n : Int)
  | other

/-- A row of a guarded query: the size first. -/
structure Row where
  size : Int
  values : List RowValue

structure DatabaseTable where
  columns : List Str
  /-- `none` where the next row cannot be read. -/
  rows : List (Option Row)

structure Database where
  /-- The names of the tables, in order. -/
  names : List Str
  /-- `none` where the query of a table cannot be prepared. -/
  table : Str → Option DatabaseTable

/-- What reading a file to its end answers: its bytes, and whether an error follows them. -/
structure Content where
  bytes : List UInt8
  failed : Bool

/-- What is found at a path. -/
structure LogFile where
  path : PathBuf
  /-- The length; `none` where the file cannot be opened. -/
  length : Option Nat
  /-- What `serde_json::from_reader` answers. -/
  document : Option Json
  /-- The length and the value of each `workspace.json` that can be opened, for the path and its
  ancestors. -/
  workspaces : List (Option (Nat × Option Json))
  content : Option Content
  database : Option Database

structure Decoding where
  /-- `serde_json::from_str`. -/
  parseJson : Str → Option Json
  /-- `\d` of regular expressions. -/
  digit : Char → Bool

def usizeMax : Nat := 2 ^ 64 - 1

/-! ## 2. Metadata -/

/-- The names under which an object of an object is looked up. -/
def innerNames : List String := ["fsPath", "path", "id", "name"]

mutual

/-- What `field` takes from a value. -/
def valueText : Json → Option Str
  | .string text => some text
  | .number text => some text
  | .object fields =>
    innerNames.findSome? fun name => ((fieldTexts fields).lookup name.toList).join
  | _ => none

def fieldTexts : List (Str × Json) → List (Str × Option Str)
  | [] => []
  | field :: fields => fieldText field :: fieldTexts fields

def fieldText : Str × Json → Str × Option Str
  | (name, value) => (name, valueText value)

end

def field (object : Json.Object) (names : List String) : Option Str :=
  names.findSome? fun name => (object.get name).bind valueText

structure Metadata where
  timestamp : Option Str
  agent : Option Str
  project : Option Str
  session : Option Str
  cwd : Option Str
deriving DecidableEq, Repr

namespace Metadata

def empty : Metadata :=
  { timestamp := none, agent := none, project := none, session := none, cwd := none }

def retainedBytes (sizes : Sizes) (metadata : Metadata) : Nat :=
  sizes.metadata + ([metadata.timestamp, metadata.agent, metadata.project, metadata.session,
    metadata.cwd].map optionalLen).sum

def merge (metadata : Metadata) (object : Json.Object) : Metadata where
  timestamp :=
    ((field object ["timestamp", "created_at", "createdAt", "time_created", "ts", "time"]).bind
      normalizeTimestamp).or metadata.timestamp
  agent := (field object ["agent"]).or metadata.agent
  project :=
    (field object ["project", "workspace", "workspaceFolder", "directory"]).or metadata.project
  session :=
    (field object ["session", "session_id", "sessionId", "sessionID"]).or metadata.session
  cwd :=
    (field object ["cwd", "workdir", "working_directory", "workingDirectory", "directory"]).or
      metadata.cwd

end Metadata

/-! ## 3. Calls -/

def excludedRoles : List Str :=
  ["user", "system", "developer", "tool", "function"].map String.toList

def excludedKinds : List Str :=
  ["function_call_output", "custom_tool_call_output", "tool_result", "tool_output", "text",
    "input_text", "output_text", "markdownContent", "textEdit", "patch"].map String.toList

def excludedRecord (object : Json.Object) : Bool :=
  (object.str "role").any (· ∈ excludedRoles)
    || ["type", "kind"].any fun key => (object.str key).any (· ∈ excludedKinds)

def invocationKinds : List Str :=
  ["function_call", "tool_call", "tool_use", "tool", "toolInvocation",
    "toolInvocationSerialized", "function"].map String.toList

/-- The object is a call of a tool. -/
def isInvocation (bare : Bool) (object : Json.Object) : Bool :=
  (field object ["type", "kind"]).getD [] ∈ invocationKinds || object.has "toolId"
    || object.has "toolName" || (bare && (object.has "tool" || object.has "tool_name"))

def shellTools : List Str :=
  ["shell", "bash", "terminal", "exec_command", "shell_command", "execute_command",
    "run_in_terminal", "runinterminal", "computer_terminal"].map String.toList

def isShellTool (tool : Str) : Bool :=
  toAsciiLowercase ((tool.splitOn '.').getLast?.getD tool) ∈ shellTools

def makeEvent (ide tool command : Str) (metadata : Metadata) (callId : Option Str) :
    CommandEvent :=
  let maven := parseMavenCommand command
  { timestamp := metadata.timestamp, ide, agent := metadata.agent, project := metadata.project
    session := metadata.session, tool, cwd := metadata.cwd, command
    category := if maven.isSome then .maven else repositoryCategory command
    callId, maven, provenance := [] }

/-- What an object says of a call. -/
inductive Invocation
  | ignored
  /-- A call without a command. -/
  | incomplete
  | event (event : CommandEvent)

section

variable (decoding : Decoding)

def arguments (object : Json.Object) : Option Json.Object :=
  ["arguments", "input", "params", "parameters"].findSome? fun key => do
    let value ← object.get key
    value.asObject.or ((value.asStr.bind decoding.parseJson).bind Json.asObject)

/-- The command that a terminal was given. -/
def terminalCommand (terminal : Json) : Option Str :=
  let line := terminal.get "commandLine"
  (((line.bind (·.get "toolEdited")).or (line.bind (·.get "original"))).or line).bind Json.asStr

/-- A call that did not run. -/
def isCancelled (object : Json.Object) (state : Option Json.Object) : Bool :=
  ["isCanceled", "isCancelled"].any (fun key =>
    match object.get key with
    | some (.bool true) => true
    | _ => false)
    || (state.bind (·.str "status")).any
      (· ∈ ["pending", "cancelled", "rejected"].map String.toList)

/-- The branch of `extract` for a call. -/
def invocation (ide : Str) (object : Json.Object) (metadata : Metadata) : Invocation :=
  let function := (object.get "function").bind Json.asObject
  let tool := (field object ["tool", "tool_name", "toolName", "toolId", "name"]).or
    (function.bind (field · ["name"]))
  -- the arguments and the output of another tool are never looked into
  match tool.filter isShellTool with
  | none => .ignored
  | some tool =>
    let state := (object.get "state").bind Json.asObject
    if isCancelled object state then .ignored
    else
      let arguments := (arguments decoding (function.getD object)).or
        (state.bind (arguments decoding))
      let terminal := (object.get "toolSpecificData").filter fun value =>
        (value.get "kind").bind Json.asStr = some "terminal".toList
      let command := ((terminal.bind terminalCommand).or
        (arguments.bind (field · ["command", "cmd"]))).or (field object ["command", "cmd"])
      match command.filter (trim · ≠ []) with
      | none => .incomplete
      | some command =>
        let metadata := (arguments.map metadata.merge).getD metadata
        let metadata := ((terminal.bind Json.asObject).map metadata.merge).getD metadata
        let metadata :=
          match (state.bind (·.get "time")).bind Json.asObject with
          | none => metadata
          | some time =>
            { metadata with
              timestamp := ((field time ["start"]).bind normalizeTimestamp).or metadata.timestamp }
        let callId := field object ["call_id", "toolCallId", "tool_call_id", "callID", "id"]
        .event (makeEvent ide tool command metadata callId)

/-- Schema containers; texts, documents, patches and outputs of tools are not among them. -/
def containers : List Str :=
  ["requests", "messages", "response", "responses", "payload", "parts", "tool_calls",
    "content"].map String.toList

end

/-! ## 4. Documents -/

variable (sizes : Sizes) (decoding : Decoding)

def pushEvent (log : EventLog) (event : CommandEvent) : Reading EventLog := do
  (charge (event.retainedBytes sizes)).mapError .limit
  pure { log with events := log.events ++ [event] }

mutual

def extract (ide : Str) : Json → Metadata → Bool → EventLog → Reading EventLog
  | .array items, inherited, bare, log => extractAll ide items inherited bare log
  | .object object, inherited, bare, log =>
    if excludedRecord object then pure log
    else if isInvocation bare object then
      match invocation decoding ide object (inherited.merge object) with
      | .ignored => pure log
      | .incomplete => pure { log with skippedRecords := log.skippedRecords + 1 }
      | .event event => pushEvent sizes log event
    else
      containers.foldlM (fun log key => extractField ide object key (inherited.merge object) log)
        log
  | _, _, _, log => pure log

def extractAll (ide : Str) : List Json → Metadata → Bool → EventLog → Reading EventLog
  | [], _, _, log => pure log
  | child :: items, inherited, bare, log => do
    let log ← extract ide child inherited bare log
    extractAll ide items inherited bare log

/-- The field of a container, if there is one. -/
def extractField (ide : Str) : List (Str × Json) → Str → Metadata → EventLog → Reading EventLog
  | [], _, _, log => pure log
  | field :: fields, key, metadata, log =>
    if field.1 = key then extractChild ide field metadata log
    else extractField ide fields key metadata log

def extractChild (ide : Str) : Str × Json → Metadata → EventLog → Reading EventLog
  | (_, child), metadata, log => extract ide child metadata false log

end

/-- `workspace_metadata`: the project, and whether a file beside it was too large. -/
def workspaceMetadata (file : LogFile) (limits : ResourceLimits) : Metadata × Bool :=
  let candidates := file.workspaces.take 4
  let project := candidates.findSome? fun candidate => do
    let (length, value) ← candidate
    if limits.maxRecordBytes < length then none
    let folder ← ((← value).get "folder").bind Json.asStr
    some ((stripPrefix "file://".toList folder).getD folder)
  let oversized := candidates.any fun candidate =>
    candidate.any fun (length, _) => limits.maxRecordBytes < length
  ({ Metadata.empty with project }, oversized && project.isNone)

def readDocument (file : LogFile) (source : LogSource) (limits : ResourceLimits) :
    Reading EventLog := do
  let length ← answered file.length
  require (length ≤ limits.maxInputBytes) (.limit .input)
  -- the parsed tree is kept while it is looked through, and is several times as large as the text
  let treeBytes := min (min length usizeMax * 8) usizeMax
  (charge treeBytes).mapError .limit
  let value ← answered file.document
  let workspace := workspaceMetadata file limits
  let log ← extract sizes decoding
    (if source = .vsCode then "vscode".toList else "vscode-insiders".toList) value workspace.1 true
    { EventLog.empty with oversizedRecords := if workspace.2 then 1 else 0 }
  release treeBytes
  pure log

/-! ## 5. Lines -/

/-- What `for_each_line` makes of a part of the content. -/
inductive LineRecord
  | line (text : Str)
  | oversized
  | invalid
  | failed

/-- A record that was read as a whole. -/
def wholeRecord (maxRecordBytes : Nat) (buffer : List UInt8) : LineRecord :=
  let line :=
    if buffer.getLast? = some 10 then
      if buffer.dropLast.getLast? = some 13 then buffer.dropLast.dropLast else buffer.dropLast
    else buffer
  if maxRecordBytes < line.length then .oversized
  else
    match Utf8.decode line with
    | some text => .line text
    | none => .invalid

/-- The records of a content behind what is in the buffer; `none` while a record that has filled
the buffer is skipped. -/
def lineRecords (maxRecordBytes : Nat) (failed : Bool) :
    List UInt8 → Option (List UInt8) → List LineRecord
  | [], some [] => if failed then [.failed] else []
  | [], some buffer => if failed then [.failed] else [wholeRecord maxRecordBytes buffer]
  | [], none => if failed then [.failed] else [.oversized]
  | b :: bytes, some buffer =>
    if b = 10 then
      wholeRecord maxRecordBytes (buffer ++ [b]) :: lineRecords maxRecordBytes failed bytes
        (some [])
    else if buffer.length + 1 = maxRecordBytes + 3 then
      lineRecords maxRecordBytes failed bytes none
    else lineRecords maxRecordBytes failed bytes (some (buffer ++ [b]))
  | b :: bytes, none =>
    if b = 10 then .oversized :: lineRecords maxRecordBytes failed bytes (some [])
    else lineRecords maxRecordBytes failed bytes none

section

variable {σ : Type}

def visitLine (visit : σ → Str → Reading σ) (s : σ × Nat) : LineRecord → Reading (σ × Nat)
  | .line text => do pure (← visit s.1 text, s.2)
  | .oversized => pure (s.1, s.2 + 1)
  | .invalid => throw (.message "input is not valid UTF-8".toList)
  | .failed => throw .outside

/-- Visit the lines of a file; the number of those that are too large is counted. -/
def forEachLine (file : LogFile) (maxRecordBytes : Nat) (visit : σ → Str → Reading σ) (s : σ) :
    Reading (σ × Nat) :=
  do
    let content ← answered file.content
    (lineRecords maxRecordBytes content.failed content.bytes (some [])).foldlM (visitLine visit)
      (s, 0)

end

/-- What a line of Codex says of the calls behind it. -/
def codexContext (context : Metadata) (value : Json) : Option Metadata :=
  let kind := (value.get "type").bind Json.asStr
  if kind = some "session_meta".toList ∨ kind = some "turn_context".toList then
    match (value.get "payload").bind Json.asObject with
    | none => some context
    | some payload =>
      let context := context.merge payload
      let context :=
        if kind = some "session_meta".toList then
          { context with
            session := (field payload ["id"]).or context.session
            project := context.project.or context.cwd }
        else context
      some { context with timestamp := none }
  else none

def codexLine (s : EventLog × Metadata) (line : Str) : Reading (EventLog × Metadata) :=
  let (log, context) := s
  if trim line = [] then pure s
  else
    match decoding.parseJson line with
    | none => pure ({ log with skippedRecords := log.skippedRecords + 1 }, context)
    | some value =>
      match codexContext context value with
      | some context => pure (log, context)
      | none => do pure (← extract sizes decoding "codex".toList value context true log, context)

def readCodex (file : LogFile) (limits : ResourceLimits) : Reading EventLog := do
  let s ← forEachLine file limits.maxRecordBytes (codexLine sizes decoding)
    (.empty, { Metadata.empty with agent := some "codex".toList })
  pure { s.1.1 with oversizedRecords := s.2 }

/-- The header of a log line, between its anchors. -/
def header (digit : Char → Bool) : Regex :=
  let digits := fun n => exactly n (.char digit)
  seqs [.group 1 (seqs [digits 4, exact ['-'], digits 2, exact ['-'], digits 2,
      oneOf ['T', ' '], plus (.char fun c => isAsciiDigit c || [':', '.', ','].contains c),
      opt (.alt (exact ['Z']) (seqs [oneOf ['+', '-'], digits 2, exact [':'], digits 2]))]),
    plus (.char isWhitespace),
    opt (seqs [exact ['['], .star (noneOf [']']), exact [']'], plus (.char isWhitespace)]),
    alts (exact "INFO".toList) [exact "DEBUG".toList, exact "TRACE".toList],
    plus (.char isWhitespace),
    opt (seqs [exact ['-'], plus (.char isWhitespace), plus (.char (!isWhitespace ·)),
      plus (.char isWhitespace), exact ['-'], plus (.char isWhitespace)]),
    .group 2 (.star (noneOf ['\n']))]

/-- `[agent=... project=...]` in front of a message. -/
def bracketFields (text : Str) : Json.Object :=
  ((text.splitOnP isWhitespace).filter (· ≠ [])).foldl
    (fun fields part =>
      match splitOnce '=' part with
      | none => fields
      | some (key, value) => fields.insert key (.string value)) []

/-- The event that a line of IntelliJ records. -/
def intellijEvent (line : Str) : Option CommandEvent := do
  let captures ← captures (header decoding.digit) line
  let rest := captured captures 2
  let metadata := { Metadata.empty with timestamp := normalizeTimestamp (captured captures 1) }
  let (metadata, rest) :=
    match stripPrefix ['['] rest with
    | none => (metadata, rest)
    | some inside =>
      match splitOnce ']' inside with
      | none => (metadata, rest)
      | some (inside, rest) =>
        (metadata.merge (bracketFields inside), trimStartMatches isWhitespace rest)
  let command ← ["Executing command:", "Terminal command:", "Shell command:"].findSome?
    fun marker => stripPrefix marker.toList rest
  if trim command = [] then none
  else makeEvent "intellij".toList "terminal".toList (trim command) metadata none

def intellijLine (log : EventLog) (line : Str) : Reading EventLog :=
  match intellijEvent decoding line with
  | none => pure log
  | some event => pushEvent sizes log event

def readIntellij (file : LogFile) (limits : ResourceLimits) : Reading EventLog := do
  let s ← forEachLine file limits.maxRecordBytes (intellijLine sizes decoding) .empty
  pure { s.1 with oversizedRecords := s.2 }

/-! ## 6. Databases -/

def quotedColumns : List Str :=
  ["payload", "data", "json", "content", "value"].map String.toList

/-- The JSON of a value of a row. -/
def rowValue (column : Str) : RowValue → Json
  | .text bytes =>
    let text := Utf8.decodeLossy bytes
    if column ∈ quotedColumns then (decoding.parseJson text).getD (.string text)
    else .string text
  | .integer n => .number (toString n).toList
  | .other => .null

def rowObject (columns : List Str) (maxRecordBytes : Nat) (row : Row) : Option Json.Object :=
  let size := if row.size < 0 then usizeMax else row.size.toNat
  if maxRecordBytes < size then none
  else
    some ((columns.zip row.values).foldl
      (fun object (column, value) => object.insert column (rowValue decoding column value)) [])

section

variable {σ : Type}

def visitRow (columns : List Str) (limits : ResourceLimits) (visit : σ → Json.Object → Reading σ)
    (s : σ × Nat) (row : Option Row) : Reading (σ × Nat) := do
  match rowObject decoding columns limits.maxRecordBytes (← answered row) with
  | none => pure (s.1, s.2 + 1)
  | some object => do pure (← visit s.1 object, s.2)

def forEachDatabaseRow (database : Database) (name : Str) (limits : ResourceLimits)
    (visit : σ → Json.Object → Reading σ) (s : σ) : Reading (σ × Nat) :=
  do
    let table ← answered (database.table name)
    table.rows.foldlM (visitRow decoding table.columns limits visit) (s, 0)

end

/-- What an entry is charged with. -/
def entryBytes {V : Type} (size : V → Nat) (id : Str) (value : V) : Nat :=
  byteLen id + size value + entryOverheadBytes

/-- The charge of an entry that was replaced is given back. -/
def forget {V : Type} (size : V → Nat) (id : Str) : Option V → Reading Unit
  | none => pure ()
  | some previous => release (entryBytes size id previous)

/-- Insert an entry after charging it; the charge of the entry that it replaces is given back. -/
def remember {V : Type} (size : V → Nat) (map : Table Str V) (id : Str) (value : V) :
    Reading (Table Str V) := do
  (charge (entryBytes size id value)).mapError .limit
  forget size id (map.lookup id)
  pure (map.insert id value)

def agentBytes (agent : Option Str) : Nat := sizes.optionalString + optionalLen agent

/-- The sessions, and the agents of the messages. -/
structure KiloTables where
  sessions : Table Str Metadata
  messages : Table Str (Option Str)

def kilo : Metadata := { Metadata.empty with agent := some "kilo".toList }

def isMetadataTable (name : Str) : Bool :=
  name ∈ ["session", "sessions", "message", "messages"].map String.toList

def kiloMetadataRow (name : Str) (tables : KiloTables) (row : Json.Object) :
    Reading KiloTables :=
  let metadata := kilo.merge row
  let metadata := (((row.get "data").bind Json.asObject).map metadata.merge).getD metadata
  match field row ["id"] with
  | none => pure tables
  | some id => do
    if startsWith "session".toList name then
      let sessions ← remember (Metadata.retainedBytes sizes) tables.sessions id
        { metadata with session := some id }
      pure { tables with sessions }
    else
      let messages ← remember (agentBytes sizes) tables.messages id metadata.agent
      pure { tables with messages }

def kiloMetadataTable (database : Database) (limits : ResourceLimits) (s : KiloTables × Nat)
    (name : Str) : Reading (KiloTables × Nat) :=
  if isMetadataTable name then do
    let visited ← forEachDatabaseRow decoding database name limits (kiloMetadataRow sizes name) s.1
    pure (visited.1, s.2 + visited.2)
  else pure s

/-- What is known of the calls of a row. -/
def kiloMetadata (tables : KiloTables) (row : Json.Object) : Metadata :=
  let session := (field row ["session_id", "sessionID"]).bind tables.sessions.lookup
  let metadata := session.getD kilo
  let message := (field row ["message_id", "messageID"]).bind tables.messages.lookup
  let metadata :=
    match message with
    | none => metadata
    | some agent => { metadata with agent := agent.or metadata.agent }
  { metadata with timestamp := none }.merge row

/-- A text where a record is expected. -/
def isEmbedded (value : Json) : Bool :=
  value.asStr.any fun text => text.head? = some '{' || text.head? = some '['

/-- A column of a row that may hold records. -/
def kiloColumn (row : Json.Object) (metadata : Metadata) (log : EventLog) (key : Str) :
    Reading EventLog :=
  match row.lookup key with
  | none => pure log
  | some (.object fields) =>
    extract sizes decoding "kilo".toList (.object fields) metadata true log
  | some (.array items) =>
    extract sizes decoding "kilo".toList (.array items) metadata true log
  | some value =>
    if isEmbedded value then pure { log with skippedRecords := log.skippedRecords + 1 }
    else pure log

/-- The call of the row itself; a bare command column is no evidence that a tool ran. -/
def kiloCall (row : Json.Object) (metadata : Metadata) (log : EventLog) : Reading EventLog :=
  if ["tool", "tool_name", "toolName", "toolId"].any row.has then
    extract sizes decoding "kilo".toList (.object row) metadata true log
  else pure log

def kiloRow (tables : KiloTables) (log : EventLog) (row : Json.Object) : Reading EventLog :=
  if excludedRecord row then pure log
  else do
    let log ← kiloCall sizes decoding row (kiloMetadata tables row) log
    quotedColumns.foldlM (kiloColumn sizes decoding row (kiloMetadata tables row)) log

def kiloTable (database : Database) (limits : ResourceLimits) (tables : KiloTables)
    (log : EventLog) (name : Str) : Reading EventLog := do
  let visited ← forEachDatabaseRow decoding database name limits (kiloRow sizes decoding tables) log
  pure { visited.1 with oversizedRecords := visited.1.oversizedRecords + visited.2 }

def readKilo (file : LogFile) (limits : ResourceLimits) : Reading EventLog := do
  let database ← answered file.database
  let chargedBefore ← usedBytes
  let tables ← database.names.foldlM (kiloMetadataTable sizes decoding database limits)
    (⟨∅, ∅⟩, 0)
  let charged ← usedBytes
  let log ← database.names.foldlM (kiloTable sizes decoding database limits tables.1)
    { EventLog.empty with oversizedRecords := tables.2 }
  -- the tables are dropped; the events keep their charges
  release (charged - chargedBefore)
  pure log

/-! ## 7. Sources -/

/-- `Path::file_name`. -/
def fileName (path : PathBuf) : Option (List UInt8) :=
  match (pathComponents path).getLast? with
  | some (.normal name) => some name
  | _ => none

/-- `Path::extension`, when it is a text. -/
def extensionText (path : PathBuf) : Option Str := do
  let name ← fileName path
  let stem := (name.reverse.dropWhile (· ≠ 46)).drop 1
  if stem = [] then none
  else Utf8.decode (name.reverse.takeWhile (· ≠ 46)).reverse

def inferSource (path : PathBuf) : Except ReadError LogSource :=
  let lower := toAsciiLowercase (Utf8.decodeLossy path)
  let name := (fileNameText path).getD []
  let extension := extensionText path
  let is := fun names : List String => extension.any (· ∈ names.map String.toList)
  if is ["db", "sqlite", "sqlite3", "vscdb"] then .ok .kilo
  else if is ["jsonl"] then .ok .codex
  else if is ["json"] then
    .ok (if Text.contains "insiders".toList lower then .vsCodeInsiders else .vsCode)
  else if is ["log", "txt"] then .ok .intelliJ
  else if Text.contains ".log.".toList name then .ok .intelliJ
  else .error (.message "cannot infer log source; pass --source explicitly".toList)

/-- Only numeric rotations of IntelliJ share an identity. -/
def sourceIdentity (path : PathBuf) (source : LogSource) : Str :=
  let rotated := do
    let name ← if source = LogSource.intelliJ then fileNameText path else none
    let (base, rotation) ← rsplitOnceStr ".log.".toList name
    if rotation ≠ [] ∧ rotation.all isAsciiDigit then
      some (Utf8.decodeLossy (withFileName path (base ++ ".log".toList)))
    else none
  rotated.getD (Utf8.decodeLossy path)

def resolveSource (path : PathBuf) : LogSource → Reading LogSource
  | .auto => .of fun budget => (inferSource path, budget)
  | source => pure source

/-- The reader of a source that was resolved. -/
def readResolved (file : LogFile) (source : LogSource) (limits : ResourceLimits) :
    Reading EventLog :=
  match source with
  | .kilo => readKilo sizes decoding file limits
  | .intelliJ => readIntellij sizes decoding file limits
  | .codex => readCodex sizes decoding file limits
  | .vsCode | .vsCodeInsiders | .auto => readDocument sizes decoding file source limits

def readSource (file : LogFile) (source : LogSource) (limits : ResourceLimits) :
    Reading EventLog := do
  let source ← resolveSource file.path source
  let log ← readResolved sizes decoding file source limits
  let provenance := sourceIdentity file.path source
  pure { log with events := log.events.map fun event => { event with provenance } }

/-- `read`: a file that fails contributes no events, and keeps no charges. -/
def readEventLog (file : LogFile) (source : LogSource) (limits : ResourceLimits) :
    Reading EventLog :=
  .of fun budget =>
    match (readSource sizes decoding file source limits).answer budget with
    | (.error e, after) => (.error e, after.restore budget.used)
    | (.ok log, after) => (.ok log, after)

end MavenMcp.LogAnalysis
