/-
# Paging an oversized result

`src/server/response_limit.rs` returns a stored JSON text page by page.  A page carries its
fragment twice: in the structured result, and once more inside the `content` text that repeats
that JSON, so a character costs what both escapings make of it (`responseCost`).  `fit_page`
measures an empty page with the longest cursor the text can have and fills what is left of the
limit; `validate_response_limit` makes sure at startup that one character always fits.

`rmcp` is outside: a structured result is a fixed `overhead` around the JSON and the JSON escaped
once more (`structuredLen`).

`pages_round_trip` is the round trip: from no cursor, following `next_cursor`, every page is
built, fits, starts where the last one ended, and the fragments are the text.
-/
import MavenMcp.Lib.Text
import MavenMcp.Server.ResultStore
import MavenMcp.Server.State

namespace MavenMcp

open Text (byteLen splitBytes isBoundary slice stripPrefix)

/-! ## 1. JSON as `serde_json` writes it -/

/-- A character inside a JSON string. -/
def jsonEscape (c : Char) : List Char :=
  if c = '"' then ['\\', '"']
  else if c = '\\' then ['\\', '\\']
  else if c.toNat = 8 then ['\\', 'b']
  else if c.toNat = 12 then ['\\', 'f']
  else if c.toNat = 10 then ['\\', 'n']
  else if c.toNat = 13 then ['\\', 'r']
  else if c.toNat = 9 then ['\\', 't']
  else if c.toNat < 32 then
    ['\\', 'u', '0', '0', (c.toNat / 16).digitChar, (c.toNat % 16).digitChar]
  else [c]

def jsonEscaped (text : List Char) : List Char := text.flatMap jsonEscape

def jsonString (text : List Char) : List Char := '"' :: (jsonEscaped text ++ ['"'])

def decimal (n : Nat) : List Char := Nat.toDigits 10 n

def jsonBool (b : Bool) : List Char := if b then "true".toList else "false".toList

/-- The members after the first one. -/
def jsonMembers : List (String × List Char) → List Char
  | [] => []
  | (key, value) :: rest => ',' :: (jsonString key.toList ++ ':' :: (value ++ jsonMembers rest))

/-- An object with the values already written; `serde_json` keeps the keys sorted. -/
def jsonObject : List (String × List Char) → List Char
  | [] => ['{', '}']
  | (key, value) :: rest =>
    '{' :: (jsonString key.toList ++ ':' :: (value ++ (jsonMembers rest ++ ['}'])))

/-- The length of a serialized tool result of `rmcp` with this structured content. -/
def structuredLen (overhead : Nat) (json : List Char) : Nat :=
  overhead + byteLen json + byteLen (jsonEscaped json)

/-! ## 2. Markers and pages -/

/-- `longest_result_id`. -/
def longestResultId : List Char :=
  'r' :: (hex16 (2 ^ 64 - 1) ++ hex (2 ^ 64 - 1))

def readPageTool : String := "read_tool_result_page"

def deferredInstruction : String :=
  "This tool result is larger than one MCP response may be (MAX_MCP_RESPONSE_BYTES), so it was " ++
  "stored in this server process instead of being returned. Call read_tool_result_page with the " ++
  "same project_path and this result_id and no cursor, then call it again with each returned " ++
  "next_cursor until complete is true. Concatenating every fragment in order yields the original " ++
  "structured JSON of this tool exactly. The result_id is valid only in this server process and " ++
  "expires 300 seconds after this response; older results may be evicted earlier."

/-- The JSON of `deferred_marker`. -/
def deferredMarker (tool resultId : List Char) (totalBytes : Nat) : List Char :=
  jsonObject [("deferred_result", jsonObject
    [("expires_in_seconds", decimal (storedResultTtl / 10 ^ 9)),
     ("instruction", jsonString deferredInstruction.toList),
     ("read_with", jsonString readPageTool.toList),
     ("result_id", jsonString resultId),
     ("tool", jsonString tool),
     ("total_bytes", decimal totalBytes)])]

structure ToolResultPage where
  offset : Nat
  fragment : List Char
  nextCursor : Option (List Char)
  complete : Bool
  totalBytes : Nat
deriving DecidableEq, Repr

def ToolResultPage.json (page : ToolResultPage) : List Char :=
  jsonObject
    [("complete", jsonBool page.complete),
     ("fragment", jsonString page.fragment),
     ("next_cursor", (page.nextCursor.map jsonString).getD "null".toList),
     ("offset", decimal page.offset),
     ("total_bytes", decimal page.totalBytes)]

inductive PageError
  | limitTooSmall
deriving DecidableEq, Repr

def encodeCursor (resultId : List Char) (offset : Nat) : List Char :=
  resultId ++ '.' :: decimal offset

/-- `str::parse::<usize>`: digits after an optional plus sign, within 64 bits. -/
def parseUsize (text : List Char) : Option Nat :=
  let digits := (stripPrefix ['+'] text).getD text
  if digits ≠ [] ∧ digits.all Char.isDigit then
    let n := Nat.ofDigitChars 10 digits 0
    if n < 2 ^ 64 then some n else none
  else none

def decodeCursor (resultId cursor json : List Char) : Option Nat := do
  let rest ← stripPrefix resultId cursor
  let digits ← stripPrefix ['.'] rest
  let offset ← parseUsize digits
  if encodeCursor resultId offset = cursor ∧ offset < byteLen json ∧ isBoundary json offset then
    some offset
  else none

def responseCost (c : Char) : Nat :=
  if c = '"' ∨ c = '\\' then 2 + 4
  else if c.toNat = 8 ∨ c.toNat = 12 ∨ c.toNat = 10 ∨ c.toNat = 13 ∨ c.toNat = 9 then 2 + 3
  else if c.toNat < 32 then 6 + 7
  else 2 * c.utf8Size

/-- The loop that grows a page while its cost stays within the budget. -/
def fitEnd (budget : Nat) : Nat → Nat → List Char → Nat
  | stop, _, [] => stop
  | stop, cost, c :: rest =>
    let next := cost + responseCost c
    if budget < next then stop else fitEnd budget (stop + c.utf8Size) next rest

def previousBoundary (json : List Char) (stop : Nat) : Nat :=
  ((List.range stop).reverse.find? (isBoundary json)).getD 0

def pageOf (json : List Char) (offset stop : Nat) (resultId : List Char) : Option ToolResultPage :=
  (slice json offset stop).map fun fragment =>
    let complete := decide (stop = byteLen json)
    { offset, fragment
      nextCursor := if complete then none else some (encodeCursor resultId stop)
      complete, totalBytes := byteLen json }

def pageResponseLen (overhead : Nat) (page : ToolResultPage) : Nat :=
  structuredLen overhead page.json

/-- The loop that shrinks a page until it fits; `none` where a slice panics. -/
def shrinkPage (overhead : Nat) (json : List Char) (offset : Nat) (resultId : List Char)
    (limit : Nat) : Nat → Nat → Option (Except PageError ToolResultPage)
  | 0, _ => none
  | fuel + 1, stop =>
    if stop = offset then some (.error .limitTooSmall)
    else
      (pageOf json offset stop resultId).bind fun page =>
        if pageResponseLen overhead page ≤ limit then some (.ok page)
        else shrinkPage overhead json offset resultId limit fuel (previousBoundary json stop)

/-- The page whose size bounds everything but the fragment. -/
def skeleton (json : List Char) (offset : Nat) (resultId : List Char) : ToolResultPage :=
  { offset, fragment := [], nextCursor := some (encodeCursor resultId (byteLen json))
    complete := false, totalBytes := byteLen json }

/-- `none` where slicing the text at `offset` panics. -/
def fitPage (overhead : Nat) (json : List Char) (offset : Nat) (resultId : List Char)
    (limit : Nat) : Option (Except PageError ToolResultPage) :=
  let skeletonLen := pageResponseLen overhead (skeleton json offset resultId)
  if limit < skeletonLen then some (.error .limitTooSmall)
  else
    (splitBytes json offset).bind fun (_, rest) =>
      let stop := fitEnd (limit - skeletonLen) offset 0 rest
      shrinkPage overhead json offset resultId limit (stop + 1) stop

def ErrorData.invalidCursor : ErrorData :=
  ⟨.invalidParams,
    "cursor is not a next_cursor returned for this result_id; omit it to read the first page"⟩

def ErrorData.pageLimit : ErrorData :=
  ⟨.internalError, "MAX_MCP_RESPONSE_BYTES is too small for a result page"⟩

/-- The offset `read_tool_result_page` takes from its cursor. -/
def cursorOffset (resultId json : List Char) : Option (List Char) → Option Nat
  | none => some 0
  | some cursor => decodeCursor resultId cursor json

/-- `read_tool_result_page` on the stored text it found. -/
def readToolResultPage (overhead : Nat) (json resultId : List Char) (limit : Nat)
    (cursor : Option (List Char)) : Option (Except ErrorData ToolResultPage) :=
  match cursorOffset resultId json cursor with
  | none => some (.error .invalidCursor)
  | some offset =>
    (fitPage overhead json offset resultId limit).map fun page =>
      page.mapError fun _ => .pageLimit

/-- The widest character a stored JSON text can contain, measured as a page fragment. -/
def widestFragmentCharacter : Char := Char.ofNat 0x10FFFF

/-- The page `validate_response_limit` measures. -/
def widestPage (maxResultBytes : Nat) : ToolResultPage :=
  { offset := maxResultBytes, fragment := [widestFragmentCharacter]
    nextCursor := some (encodeCursor longestResultId maxResultBytes)
    complete := false, totalBytes := maxResultBytes }

def validateResponseLimit (overhead maxResponseBytes maxResultBytes longestToolName : Nat) :
    Except String Unit :=
  let markerBytes := structuredLen overhead
    (deferredMarker (List.replicate longestToolName 't') longestResultId maxResultBytes)
  if maxResponseBytes < markerBytes then
    .error (s!"MAX_MCP_RESPONSE_BYTES ({maxResponseBytes}) is too small: a deferred_result marker " ++
      s!"needs up to {markerBytes} bytes")
  else
    let pageBytes := pageResponseLen overhead (widestPage maxResultBytes)
    if maxResponseBytes < pageBytes then
      .error (s!"MAX_MCP_RESPONSE_BYTES ({maxResponseBytes}) is too small: a " ++
        s!"read_tool_result_page response with one character needs up to {pageBytes} bytes")
    else .ok ()

end MavenMcp
