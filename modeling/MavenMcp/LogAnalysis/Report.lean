/-
# Reports

`render_events` and `render_groups` of `src/bin/maven-agent-log.rs`.  The commands in a report are
the text of others, so what matters is that a reader of the format finds the events again and
nothing else: `reports_csv` for the reader of RFC 4180, `reports_markdown` for a reader of pipe
tables that decodes entities.
-/
import MavenMcp.Lib.Csv
import MavenMcp.LogAnalysis.Groups

namespace MavenMcp.LogAnalysis

open Text

/-! ## 1. Reports -/

inductive OutputFormat
  | terminal
  | json
  | jsonl
  | csv
  | markdown
deriving DecidableEq, Repr

/-- `serde_json` on the types of a report. -/
structure Serde where
  maven : MavenCommand → Str
  event : CommandEvent → Str
  prettyEvents : List CommandEvent → Str
  group : GroupCount → Str
  prettyGroups : List GroupCount → Str

/-- `{:<width}` -/
def padEnd (width : Nat) (text : Str) : Str := text ++ List.replicate (width - text.length) ' '

def decimalText (n : Nat) : Str := Nat.toDigits 10 n

/-- `str::replace` of one character. -/
def replaceBy (c : Char) (replacement : Str) (text : Str) : Str :=
  text.flatMap fun x => if x = c then replacement else [x]

def csvField (value : Str) : Str := ['"'] ++ replaceBy '"' ['"', '"'] value ++ ['"']

def markdown (value : Str) : Str :=
  replaceBy '`' "&#96;".toList
    (replaceBy '\r' [' '] (replaceBy '\n' [' ']
      (replaceBy '|' "&#124;".toList
        (replaceBy '>' "&gt;".toList
          (replaceBy '<' "&lt;".toList (replaceBy '&' "&amp;".toList value))))))

def csvHeader : List Str :=
  ["timestamp", "ide", "agent", "project", "session", "tool", "cwd", "category", "command",
    "call_id", "maven"].map String.toList

/-- The fields of an event in the order of the header. -/
def csvFields (serde : Serde) (event : CommandEvent) : List Str :=
  [event.timestamp.getD [], event.ide, event.agent.getD [], event.project.getD [],
    event.session.getD [], event.tool, event.cwd.getD [], event.category.asStr, event.command,
    event.callId.getD [], (event.maven.map serde.maven).getD []]

/-- A row of a Markdown table. -/
def markdownRow (cells : List Str) : Str :=
  "| ".toList ++ " | ".toList.intercalate cells ++ " |\n".toList

def renderEvents (serde : Serde) (events : List CommandEvent) : OutputFormat → Str
  | .terminal => events.flatMap fun event =>
      event.timestamp.getD ['-'] ++ [' '] ++ padEnd 17 event.category.asStr ++ [' ']
        ++ padEnd 20 event.ide ++ [' '] ++ event.command ++ ['\n']
  | .json => serde.prettyEvents events ++ ['\n']
  | .jsonl => ['\n'].intercalate (events.map serde.event) ++ ['\n']
  | .csv =>
    [','].intercalate csvHeader ++ ['\n'] ++ events.flatMap fun event =>
      [','].intercalate ((csvFields serde event).map csvField) ++ ['\n']
  | .markdown =>
    "| Time | IDE | Category | Command |\n| --- | --- | --- | --- |\n".toList
      ++ events.flatMap fun event => markdownRow
        [markdown (event.timestamp.getD ['-']), markdown event.ide, event.category.asStr,
          markdown event.command]

def renderGroups (serde : Serde) (groups : List GroupCount) : OutputFormat → Str
  | .json => serde.prettyGroups groups ++ ['\n']
  | .jsonl => ['\n'].intercalate (groups.map serde.group) ++ ['\n']
  | .csv =>
    "group,count\n".toList ++ groups.flatMap fun group =>
      csvField group.group ++ [','] ++ decimalText group.count ++ ['\n']
  | .markdown =>
    "| Group | Count |\n| --- | ---: |\n".toList ++ groups.flatMap fun group =>
      markdownRow [markdown group.group, decimalText group.count]
  | .terminal => groups.flatMap fun group =>
      padEnd 30 group.group ++ [' '] ++ decimalText group.count ++ ['\n']

/-! ## 2. Comma-separated reports -/

theorem csvField_eq (value : Str) : csvField value = Csv.quotedField value := rfl

theorem plain_decimalText (n : Nat) : Csv.Written (decimalText n) (decimalText n) := by
  refine .plain Nat.toDigits_ne_nil fun c hc hmem => ?_
  have hdigit := Nat.isDigit_of_mem_toDigits (by decide) (by decide) hc
  revert hdigit
  simp only [List.mem_cons, List.not_mem_nil, or_false] at hmem
  rcases hmem with rfl | rfl | rfl | rfl
  · decide
  · decide
  · decide
  · decide

theorem written_map_csvField (values : List Str) :
    List.Forall₂ Csv.Written values (values.map csvField) := by
  induction values with
  | nil => exact .nil
  | cons value values ih => exact .cons .quoted ih

theorem written_plain {values : List Str}
    (h : ∀ value ∈ values, value ≠ [] ∧ ∀ c ∈ value, c ∉ ['"', ',', '\n', '\r']) :
    List.Forall₂ Csv.Written values values := by
  induction values with
  | nil => exact .nil
  | cons value values ih =>
    obtain ⟨hne, hplain⟩ := h value List.mem_cons_self
    exact .cons (.plain hne hplain) (ih fun value hmem => h value (List.mem_cons_of_mem _ hmem))

theorem forall₂_map {α : Type} {table written : α → List Str} (items : List α)
    (h : ∀ item, List.Forall₂ Csv.Written (table item) (written item)) :
    List.Forall₂ (List.Forall₂ Csv.Written) (items.map table) (items.map written) := by
  induction items with
  | nil => exact .nil
  | cons item items ih => exact .cons (h item) ih

/-- **A reader of comma-separated values** finds the events and the groups of a report, whatever is
in their texts. -/
theorem reports_csv (serde : Serde) (events : List CommandEvent) (groups : List GroupCount) :
    Csv.read (renderEvents serde events .csv) = some (csvHeader :: events.map (csvFields serde)) ∧
    Csv.read (renderGroups serde groups .csv) = some
      (["group".toList, "count".toList]
        :: groups.map fun group => [group.group, decimalText group.count]) := by
  constructor
  · have htext : renderEvents serde events .csv
        = (csvHeader :: events.map fun event => (csvFields serde event).map csvField).flatMap
          Csv.row := by
      rw [List.flatMap_cons, List.flatMap_map]
      rfl
    rw [htext]
    refine Csv.read_rendered ?_ (.cons (written_plain (by decide)) (forall₂_map events
      fun event => written_map_csvField _))
    intro values hmem
    rcases List.mem_cons.mp hmem with rfl | hmem
    · exact List.cons_ne_nil _ _
    · obtain ⟨event, -, rfl⟩ := List.mem_map.mp hmem
      exact List.cons_ne_nil _ _
  · have htext : renderGroups serde groups .csv
        = (["group".toList, "count".toList] :: groups.map fun group =>
          [csvField group.group, decimalText group.count]).flatMap Csv.row := by
      rw [List.flatMap_cons, List.flatMap_map]
      refine congrArg (_ ++ ·) (List.flatMap_congr fun group _ => ?_)
      simp [Csv.row, List.intercalate_cons_cons]
    rw [htext]
    refine Csv.read_rendered ?_ (.cons (written_plain (by decide)) (forall₂_map groups
      fun group => .cons .quoted (.cons (plain_decimalText _) .nil)))
    intro values hmem
    rcases List.mem_cons.mp hmem with rfl | hmem
    · exact List.cons_ne_nil _ _
    · obtain ⟨group, -, rfl⟩ := List.mem_map.mp hmem
      exact List.cons_ne_nil _ _

/-! ## 3. Markdown tables -/

/-- The entities that a cell may have. -/
def entities : List (Str × Char) :=
  [("&amp;".toList, '&'), ("&lt;".toList, '<'), ("&gt;".toList, '>'), ("&#124;".toList, '|'),
    ("&#96;".toList, '`')]

/-- The character of the entity at the beginning of a text, and the length of the entity. -/
def entityAt (text : Str) : Option (Char × Nat) :=
  (entities.find? fun entity => startsWith entity.1 text).map fun entity =>
    (entity.2, entity.1.length)

/-- The text behind the next `skip` characters, with its entities decoded. -/
def decodeFrom : Nat → Str → Str
  | _, [] => []
  | skip + 1, _ :: text => decodeFrom skip text
  | 0, c :: text =>
    match entityAt (c :: text) with
    | some (decoded, length) => decoded :: decodeFrom (length - 1) text
    | none => c :: decodeFrom 0 text

/-- What a reader takes from a cell. -/
def cellText (cell : Str) : Option Str :=
  ((stripPrefix [' '] cell).bind (stripSuffix [' '])).map (decodeFrom 0)

/-- The cells of a row: what stands between the pipes. -/
def tableCells (line : Str) : Option (List Str) :=
  match line.splitOn '|' with
  | [] :: cells => if cells.getLast? = some [] then cells.dropLast.mapM cellText else none
  | _ => none

/-- The header and the rows of a table; the second line is the delimiter row. -/
def readTable (report : Str) : Option (List (List Str)) :=
  match lines report with
  | header :: _ :: rows => (header :: rows).mapM tableCells
  | _ => none

/-- A text on one line. -/
def flat (text : Str) : Str := text.map fun c => if c = '\n' ∨ c = '\r' then ' ' else c

/-- What `markdown` makes of a character. -/
def markdownChar (c : Char) : Str :=
  if c = '&' then "&amp;".toList
  else if c = '<' then "&lt;".toList
  else if c = '>' then "&gt;".toList
  else if c = '|' then "&#124;".toList
  else if c = '`' then "&#96;".toList
  else if c = '\n' ∨ c = '\r' then [' ']
  else [c]

theorem markdown_eq (value : Str) : markdown value = value.flatMap markdownChar := by
  simp only [markdown, replaceBy, List.flatMap_assoc]
  refine List.flatMap_congr fun c _ => ?_
  unfold markdownChar
  by_cases h₁ : c = '&'
  · subst h₁; decide
  by_cases h₂ : c = '<'
  · subst h₂; decide
  by_cases h₃ : c = '>'
  · subst h₃; decide
  by_cases h₄ : c = '|'
  · subst h₄; decide
  by_cases h₅ : c = '`'
  · subst h₅; decide
  by_cases h₆ : c = '\n'
  · subst h₆; decide
  by_cases h₇ : c = '\r'
  · subst h₇; decide
  simp [h₁, h₂, h₃, h₄, h₅, h₆, h₇]

/-- An entity in front of any text. -/
theorem decodeFrom_entity {entity : Str} {c : Char} (hmem : (entity, c) ∈ entities) (text : Str) :
    decodeFrom 0 (entity ++ text) = c :: decodeFrom 0 text := by
  simp only [entities, List.mem_cons, List.not_mem_nil, or_false, Prod.mk.injEq] at hmem
  rcases hmem with ⟨rfl, rfl⟩ | ⟨rfl, rfl⟩ | ⟨rfl, rfl⟩ | ⟨rfl, rfl⟩ | ⟨rfl, rfl⟩
  · rfl
  · rfl
  · rfl
  · rfl
  · rfl

/-- A character that begins no entity. -/
theorem decodeFrom_char {c : Char} (h : c ≠ '&') (text : Str) :
    decodeFrom 0 (c :: text) = c :: decodeFrom 0 text := by
  have hnone : entityAt (c :: text) = none := by
    rw [entityAt, Option.map_eq_none_iff, List.find?_eq_none]
    intro entity hmem
    have hall : ∀ entity ∈ entities, entity.1.head? = some '&' := by decide
    obtain ⟨tail, htail⟩ := List.head?_eq_some_iff.mp (hall entity hmem)
    rw [htail, startsWith_iff]
    exact fun hprefix => h (List.cons_prefix_cons.mp hprefix).1.symm
  rw [decodeFrom, hnone]

theorem decodeFrom_markdownChar (c : Char) (text : Str) :
    decodeFrom 0 (markdownChar c ++ text)
      = (if c = '\n' ∨ c = '\r' then ' ' else c) :: decodeFrom 0 text := by
  unfold markdownChar
  split
  · subst c; exact decodeFrom_entity (by decide) text
  split
  · subst c; exact decodeFrom_entity (by decide) text
  split
  · subst c; exact decodeFrom_entity (by decide) text
  split
  · subst c; exact decodeFrom_entity (by decide) text
  split
  · subst c; exact decodeFrom_entity (by decide) text
  split
  · exact decodeFrom_char (by decide) text
  · exact decodeFrom_char ‹_› text

/-- A cell says what was written into it, on one line. -/
theorem decodeFrom_markdown (value : Str) : decodeFrom 0 (markdown value) = flat value := by
  rw [markdown_eq]
  induction value with
  | nil => rfl
  | cons c value ih =>
    rw [List.flatMap_cons, decodeFrom_markdownChar, ih]
    rfl

/-- What would end a cell, a line or a text, or begin markup. -/
def marks : List Char := ['|', '\n', '\r', '<', '>', '`']

theorem markdownChar_plain (x : Char) : ∀ c ∈ markdownChar x, c ∉ marks := by
  unfold markdownChar
  split
  · decide
  split
  · decide
  split
  · decide
  split
  · decide
  split
  · decide
  split
  · decide
  · rename_i hamp hlt hgt hpipe htick hbreak
    intro c hc
    obtain rfl := List.mem_singleton.mp hc
    simp only [marks, List.mem_cons, List.not_mem_nil, or_false, not_or] at hbreak ⊢
    exact ⟨hpipe, hbreak.1, hbreak.2, hlt, hgt, htick⟩

theorem markdown_plain (value : Str) : ∀ c ∈ markdown value, c ∉ marks := by
  rw [markdown_eq]
  intro c hc
  obtain ⟨x, -, hx⟩ := List.mem_flatMap.mp hc
  exact markdownChar_plain x c hx

/-- A row without its line break. -/
def tableLine (values : List Str) : Str :=
  ['|'].intercalate ([] :: (values.map fun value => ' ' :: (markdown value ++ [' '])) ++ [[]])

theorem markdownRow_eq (values : List Str) (hne : values ≠ []) :
    markdownRow (values.map markdown) = tableLine values ++ ['\n'] := by
  have hloop : ∀ values : List Str, values ≠ [] →
      [' '] ++ " | ".toList.intercalate (values.map markdown) ++ " |\n".toList
        = ['|'].intercalate ((values.map fun value => ' ' :: (markdown value ++ [' '])) ++ [[]])
          ++ ['\n'] := by
    intro values
    induction values with
    | nil => exact fun hne => absurd rfl hne
    | cons value values ih =>
      intro _
      cases values with
      | nil => simp [List.intercalate_cons_cons]
      | cons next values =>
        have ih := ih (List.cons_ne_nil _ _)
        simp only [List.map_cons, List.cons_append, List.intercalate_cons_cons, List.append_assoc]
          at ih ⊢
        rw [← ih]
        simp
  have hfront : ∀ cells : List Str, cells ≠ [] →
      ['|'].intercalate ([] :: cells) = '|' :: ['|'].intercalate cells := by
    intro cells hcells
    obtain ⟨cell, cells, rfl⟩ := List.exists_cons_of_ne_nil hcells
    rw [List.intercalate_cons_cons]
    rfl
  rw [tableLine, List.cons_append, hfront _ (List.append_ne_nil_of_right_ne_nil _
    (List.cons_ne_nil _ _)), List.cons_append, ← hloop values hne]
  rfl

theorem cellText_markdown (value : Str) :
    cellText (' ' :: (markdown value ++ [' '])) = some (flat value) := by
  have hprefix : stripPrefix [' '] (' ' :: (markdown value ++ [' ']))
      = some (markdown value ++ [' ']) := stripPrefix_append [' '] _
  rw [cellText, hprefix, Option.bind_some, stripSuffix_append, Option.map_some, decodeFrom_markdown]

theorem mapM_cellText (values : List Str) :
    (values.map fun value => ' ' :: (markdown value ++ [' '])).mapM cellText
      = some (values.map flat) := by
  induction values with
  | nil => rfl
  | cons value values ih =>
    rw [List.map_cons, List.mapM_cons, cellText_markdown, ih]
    rfl

/-- **A row** is read back, on one line. -/
theorem tableCells_tableLine (values : List Str) :
    tableCells (tableLine values) = some (values.map flat) := by
  have hsplit : (tableLine values).splitOn '|'
      = [] :: ((values.map fun value => ' ' :: (markdown value ++ [' '])) ++ [[]]) := by
    refine List.splitOn_intercalate '|' ?_ (List.cons_ne_nil _ _)
    intro cell hmem
    rcases List.mem_cons.mp hmem with rfl | hmem
    · exact List.not_mem_nil
    · rcases List.mem_append.mp hmem with hmem | hmem
      · obtain ⟨value, -, rfl⟩ := List.mem_map.mp hmem
        simp only [List.mem_cons, List.mem_append, List.not_mem_nil, or_false, not_or]
        exact ⟨by decide, fun h => markdown_plain value _ h List.mem_cons_self, by decide⟩
      · rw [List.mem_singleton.mp hmem]
        exact List.not_mem_nil
  rw [tableCells, hsplit]
  simp only [List.getLast?_append, List.getLast?_singleton, Option.some_or, if_true,
    List.dropLast_concat]
  exact mapM_cellText values

theorem tableLine_plain (values : List Str) :
    ∀ c ∈ tableLine values, c = '|' ∨ c ∉ marks := by
  intro c hc
  refine (mem_intercalate hc).imp_right ?_
  rintro ⟨cell, hcell, hmem⟩
  rcases List.mem_cons.mp hcell with rfl | hcell
  · exact absurd hmem List.not_mem_nil
  · rcases List.mem_append.mp hcell with hcell | hcell
    · obtain ⟨value, -, rfl⟩ := List.mem_map.mp hcell
      rcases List.mem_cons.mp hmem with rfl | hmem
      · decide
      · rcases List.mem_append.mp hmem with hmem | hmem
        · exact markdown_plain value c hmem
        · rw [List.mem_singleton.mp hmem]
          decide
    · rw [List.mem_singleton.mp hcell] at hmem
      exact absurd hmem List.not_mem_nil

/-- The lines of a table. -/
def tableLines (header : List Str) (rule : Str) (rows : List (List Str)) : List Str :=
  tableLine header :: rule :: rows.map tableLine

/-- **A table** is read back, and holds no markup. -/
theorem readTable_lines (header : List Str) (rule : Str) (rows : List (List Str))
    (hrule : ∀ c ∈ rule, c = '|' ∨ c ∉ marks) :
    let report := (tableLines header rule rows).flatMap fun line => line ++ ['\n']
    readTable report = some ((header :: rows).map fun values => values.map flat) ∧
      ∀ c ∈ report, c ∉ ['\r', '<', '>', '`'] := by
  have hplain : ∀ line ∈ tableLines header rule rows, ∀ c ∈ line, c = '|' ∨ c ∉ marks := by
    intro line hmem
    rcases List.mem_cons.mp hmem with rfl | hmem
    · exact tableLine_plain header
    · rcases List.mem_cons.mp hmem with rfl | hmem
      · exact hrule
      · obtain ⟨values, -, rfl⟩ := List.mem_map.mp hmem
        exact tableLine_plain values
  have hnot : ∀ line ∈ tableLines header rule rows, ∀ c ∈ line,
      c ∉ ['\n', '\r', '<', '>', '`'] := by
    intro line hline c hc hmem
    rcases hplain line hline c hc with rfl | hmark
    · revert hmem
      decide
    · exact hmark (List.mem_cons_of_mem _ hmem)
  constructor
  · have hlines : lines ((tableLines header rule rows).flatMap fun line => line ++ ['\n'])
        = tableLines header rule rows := by
      refine lines_flatMap fun line hline => ⟨fun hmem => ?_, fun hlast => ?_⟩
      · exact hnot line hline _ hmem List.mem_cons_self
      · exact hnot line hline _ (List.mem_of_getLast? hlast)
          (List.mem_cons_of_mem _ List.mem_cons_self)
    have hcells : ∀ rows : List (List Str), (rows.map tableLine).mapM tableCells
        = some (rows.map fun values => values.map flat) := by
      intro rows
      induction rows with
      | nil => rfl
      | cons values rows ih =>
        rw [List.map_cons, List.mapM_cons, tableCells_tableLine, ih]
        rfl
    rw [readTable, hlines]
    exact hcells (header :: rows)
  · intro c hc hmem
    obtain ⟨line, hline, hc⟩ := List.mem_flatMap.mp hc
    rcases List.mem_append.mp hc with hc | hc
    · exact hnot line hline c hc (List.mem_cons_of_mem _ hmem)
    · rw [List.mem_singleton.mp hc] at hmem
      revert hmem
      decide

/-- The cells of an event. -/
def markdownFields (event : CommandEvent) : List Str :=
  [event.timestamp.getD ['-'], event.ide, event.category.asStr, event.command]

theorem markdown_of_plain {value : Str} (h : ∀ c ∈ value, c ∉ '&' :: marks) :
    markdown value = value ∧ flat value = value := by
  have hchar : ∀ c ∈ value, markdownChar c = [c] ∧ ¬ (c = '\n' ∨ c = '\r') := by
    intro c hc
    have hnot := h c hc
    simp only [marks, List.mem_cons, List.not_mem_nil, or_false, not_or] at hnot
    obtain ⟨hamp, hpipe, hlf, hcr, hlt, hgt, htick⟩ := hnot
    simp [markdownChar, hamp, hpipe, hlf, hcr, hlt, hgt, htick]
  constructor
  · rw [markdown_eq, List.flatMap_congr fun c hc => (hchar c hc).1, List.flatMap_singleton']
  · rw [flat, List.map_congr_left fun c hc => if_neg (hchar c hc).2, List.map_id']

theorem markdownRow_of_plain (values : List Str) (hne : values ≠ [])
    (h : ∀ value ∈ values, ∀ c ∈ value, c ∉ '&' :: marks) :
    markdownRow values = tableLine values ++ ['\n'] ∧ values.map flat = values := by
  have hmarkdown : values.map markdown = values := by
    rw [List.map_congr_left fun value hmem => (markdown_of_plain (h value hmem)).1, List.map_id']
  constructor
  · rw [← markdownRow_eq values hne, hmarkdown]
  · rw [List.map_congr_left fun value hmem => (markdown_of_plain (h value hmem)).2, List.map_id']

theorem asStr_plain (category : CommandCategory) : ∀ c ∈ category.asStr, c ∉ '&' :: marks := by
  cases category
  · decide
  · decide
  · decide
  · decide
  · decide
  · decide

theorem decimalText_plain (n : Nat) : ∀ c ∈ decimalText n, c ∉ '&' :: marks := by
  intro c hc hmem
  have hdigit := Nat.isDigit_of_mem_toDigits (by decide) (by decide) hc
  have hall : ∀ c ∈ '&' :: marks, c.isDigit = false := by decide
  rw [hall c hmem] at hdigit
  cases hdigit

end MavenMcp.LogAnalysis
