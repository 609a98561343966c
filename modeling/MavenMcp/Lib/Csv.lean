/-
# Comma-separated values

A reader of RFC 4180: fields stand between commas, records between line breaks (`\n` or `\r\n`), and
a field in quotes may have all of these in it, where a quote is doubled.  The reader goes through
the text character by character and gives up where a quote stands in a field without quotes or
something follows the closing quote.

`read_rendered`: what is written with quotes around fields is read back, whatever is in the fields.
-/
import MavenMcp.Lib.Text

namespace Csv

open Text

/-! ## 1. The reader -/

/-- Where in a field the reader is. -/
inductive Mode
  | start
  | plain
  | quoted
  /-- Behind a quote in a field with quotes: the field ends, or the quote is doubled. -/
  | quote
  /-- Behind a carriage return that ends a record. -/
  | carriageReturn
deriving DecidableEq, Repr

structure Reader where
  mode : Mode
  field : Str
  record : List Str
  records : List (List Str)
deriving DecidableEq, Repr

namespace Reader

def fresh (record : List Str) (records : List (List Str)) : Reader :=
  { mode := .start, field := [], record, records }

def endField (r : Reader) : Reader := fresh (r.record ++ [r.field]) r.records

def endRecord (r : Reader) : Reader := fresh [] (r.records ++ [r.record ++ [r.field]])

/-- What may stand behind a field. -/
def behindField (r : Reader) (c : Char) : Option Reader :=
  if c = ',' then some r.endField
  else if c = '\n' then some r.endRecord
  else if c = '\r' then some { r with mode := .carriageReturn }
  else none

def feed (r : Reader) (c : Char) : Option Reader :=
  match r.mode with
  | .start =>
    if c = '"' then some { r with mode := .quoted }
    else (r.behindField c).or (some { r with mode := .plain, field := [c] })
  | .plain =>
    if c = '"' then none
    else (r.behindField c).or (some { r with field := r.field ++ [c] })
  | .quoted =>
    if c = '"' then some { r with mode := .quote }
    else some { r with field := r.field ++ [c] }
  | .quote =>
    if c = '"' then some { r with mode := .quoted, field := r.field ++ [c] }
    else r.behindField c
  | .carriageReturn => if c = '\n' then some r.endRecord else none

/-- The records at the end of the text; the last one needs no line break. -/
def finish (r : Reader) : Option (List (List Str)) :=
  match r.mode with
  | .start => some (if r.record = [] then r.records else r.endRecord.records)
  | .plain => some r.endRecord.records
  | .quote => some r.endRecord.records
  | .quoted => none
  | .carriageReturn => none

end Reader

def read (text : Str) : Option (List (List Str)) :=
  (text.foldlM Reader.feed (.fresh [] [])).bind Reader.finish

/-! ## 2. The writer -/

/-- A field in quotes. -/
def quotedField (value : Str) : Str :=
  '"' :: ((value.flatMap fun c => if c = '"' then ['"', '"'] else [c]) ++ ['"'])

/-- A way to write a field, in quotes or not. -/
inductive Written (value : Str) : Str → Prop
  | quoted : Written value (quotedField value)
  | plain (hne : value ≠ []) (h : ∀ c ∈ value, c ∉ ['"', ',', '\n', '\r']) : Written value value

/-- A row from its written fields. -/
def row (fields : List Str) : Str := [','].intercalate fields ++ ['\n']

/-! ## 3. Round trip -/

section

variable {record : List Str} {records : List (List Str)} {value text : Str}

/-- The reader in a field with quotes. -/
theorem foldlM_quoted (value : Str) (field : Str) :
    (value.flatMap fun c => if c = '"' then ['"', '"'] else [c]).foldlM Reader.feed
        { mode := .quoted, field, record, records }
      = some { mode := .quoted, field := field ++ value, record, records } := by
  induction value generalizing field with
  | nil => rw [List.append_nil]; rfl
  | cons c value ih =>
    rw [List.flatMap_cons, List.foldlM_append]
    by_cases hquote : c = '"'
    · subst hquote
      exact (ih (field ++ ['"'])).trans (by rw [List.append_assoc]; rfl)
    · rw [if_neg hquote]
      have hfeed : Reader.feed { mode := .quoted, field, record, records } c
          = some { mode := .quoted, field := field ++ [c], record, records } := if_neg hquote
      rw [List.foldlM_cons, hfeed]
      exact (ih (field ++ [c])).trans (by rw [List.append_assoc]; rfl)

/-- The reader in a field without quotes. -/
theorem foldlM_plain (h : ∀ c ∈ value, c ∉ ['"', ',', '\n', '\r']) (field : Str) :
    value.foldlM Reader.feed { mode := .plain, field, record, records }
      = some { mode := .plain, field := field ++ value, record, records } := by
  induction value generalizing field with
  | nil => rw [List.append_nil]; rfl
  | cons c value ih =>
    have hc := h c List.mem_cons_self
    simp only [List.mem_cons, List.not_mem_nil, or_false, not_or] at hc
    have hfeed : Reader.feed { mode := .plain, field, record, records } c
        = some { mode := .plain, field := field ++ [c], record, records } := by
      simp [Reader.feed, Reader.behindField, hc]
    rw [List.foldlM_cons, hfeed]
    exact (ih (fun c hc => h c (List.mem_cons_of_mem _ hc)) _).trans
      (by rw [List.append_assoc]; rfl)

/-- Behind a written field. -/
theorem foldlM_field (h : Written value text) :
    ∃ r : Reader, text.foldlM Reader.feed (.fresh record records) = some r ∧
      r.field = value ∧ r.record = record ∧ r.records = records ∧
      (r.mode = .plain ∨ r.mode = .quote) := by
  cases h with
  | quoted =>
    refine ⟨{ mode := .quote, field := value, record, records }, ?_, rfl, rfl, rfl, .inr rfl⟩
    have hopen : Reader.feed (.fresh record records) '"'
        = some { mode := .quoted, field := [], record, records } := rfl
    rw [quotedField, List.foldlM_cons, hopen]
    change ((value.flatMap fun c => if c = '"' then ['"', '"'] else [c]) ++ ['"']).foldlM
      Reader.feed { mode := .quoted, field := [], record, records } = _
    rw [List.foldlM_append, foldlM_quoted]
    rfl
  | plain hne h =>
    refine ⟨{ mode := .plain, field := value, record, records }, ?_, rfl, rfl, rfl, .inl rfl⟩
    cases value with
    | nil => exact absurd rfl hne
    | cons c value =>
      have hc := h c List.mem_cons_self
      simp only [List.mem_cons, List.not_mem_nil, or_false, not_or] at hc
      have hfeed : Reader.feed (.fresh record records) c
          = some { mode := .plain, field := [c], record, records } := by
        simp [Reader.feed, Reader.behindField, Reader.fresh, hc]
      rw [List.foldlM_cons, hfeed]
      exact foldlM_plain (fun c hc => h c (List.mem_cons_of_mem _ hc)) [c]

theorem feed_behind {r : Reader} (h : r.mode = .plain ∨ r.mode = .quote) {c : Char}
    (hc : c = ',' ∨ c = '\n') : r.feed c = r.behindField c := by
  have hquote : c ≠ '"' := by
    rintro rfl
    exact hc.elim (fun h => absurd h (by decide)) fun h => absurd h (by decide)
  obtain ⟨r', hr'⟩ : ∃ r', r.behindField c = some r' := by
    rcases hc with rfl | rfl
    · exact ⟨_, rfl⟩
    · exact ⟨_, rfl⟩
  rcases h with h | h
  · rw [Reader.feed, h, hr']
    exact if_neg hquote
  · rw [Reader.feed, h]
    exact if_neg hquote

/-- A row is a record. -/
theorem foldlM_row {values texts : List Str} (hne : values ≠ [])
    (h : List.Forall₂ Written values texts) :
    (row texts).foldlM Reader.feed (.fresh record records)
      = some (.fresh [] (records ++ [record ++ values])) := by
  induction h generalizing record with
  | nil => exact absurd rfl hne
  | @cons value text values texts hfield hrest ih =>
    obtain ⟨r, hr, hvalue, hrecord, hrecords, hmode⟩ :=
      @foldlM_field record records _ _ hfield
    cases hrest with
    | nil =>
      rw [row, List.intercalate_singleton, List.foldlM_append, hr]
      change r.feed '\n' >>= pure = _
      rw [feed_behind hmode (.inr rfl)]
      simp [Reader.behindField, Reader.endRecord, hvalue, hrecord, hrecords]
    | @cons value' text' values texts hfield' hrest =>
      rw [row, List.intercalate_cons_cons, List.append_assoc, List.append_assoc, List.foldlM_append,
        hr]
      change (r.feed ',' >>= fun r => (row (text' :: texts)).foldlM Reader.feed r) = _
      rw [feed_behind hmode (.inl rfl)]
      have hcomma : r.behindField ',' = some (.fresh (record ++ [value]) records) := by
        simp [Reader.behindField, Reader.endField, hvalue, hrecord, hrecords]
      rw [hcomma]
      refine (ih (List.cons_ne_nil _ _)).trans ?_
      rw [List.append_assoc, List.singleton_append]

/-- **A table** is read back. -/
theorem read_rendered {table written : List (List Str)} (hne : ∀ values ∈ table, values ≠ [])
    (h : List.Forall₂ (List.Forall₂ Written) table written) :
    read (written.flatMap row) = some table := by
  have hloop : ∀ records, (written.flatMap row).foldlM Reader.feed (.fresh [] records)
      = some (.fresh [] (records ++ table)) := by
    induction h with
    | nil => intro records; rw [List.append_nil]; rfl
    | cons hrow _ ih =>
      intro records
      rw [List.flatMap_cons, List.foldlM_append, foldlM_row (hne _ List.mem_cons_self) hrow]
      refine (ih (fun values hmem => hne values (List.mem_cons_of_mem _ hmem)) _).trans ?_
      rw [List.append_assoc]
      rfl
  rw [read, hloop]
  rfl

end

end Csv
