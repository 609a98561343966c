/-
# Responses of the server

`call_tool` in `src/server.rs` sends every answer through two limits.  `structured_result` refuses
an answer above the serialization budget; `bound_response` returns what fits into
`MAX_MCP_RESPONSE_BYTES`, stores what does not, and returns a marker in its place.  The markers and
the pages must fit themselves, and nothing measures them again: that they do rests on the check at
startup, on the length of the tool names and on the counter of the identifiers.

`responses_fit` says so in every run.  A request touches the store at most once, under its lock, so
a run of requests is one of their store operations in the order of the lock.

Outside is what a tool computes, and `trusted_project_root`, whose answer a request carries.
-/
import MavenMcp.Server.PageLength

namespace MavenMcp

open Text

/-! ## 1. The limits -/

/-- The tools of the router. -/
def toolNames : List String :=
  ["index_stats", "search_classes", "search_jars", "search_jar_entries", "list_jar_classes",
   "get_class_source", "get_jar_entry", "get_artifact_pom", "describe_class", "diagnose_artifact",
   "search_class_members", "compare_artifact_api", "search_jar_content", "search_type_hierarchy",
   "search_source", "get_declaration_source", "search_class_references", "search_providers",
   "inspect_maven_project", "refresh_maven_project", "run_maven", "run_maven_lifecycle",
   "list_maven_test_classes", "run_maven_test", "get_last_maven_test_failures",
   "get_effective_pom", "get_dependency_tree", "explain_dependency_resolution",
   "get_maven_classpath", "get_jacoco_coverage", "get_jacoco_coverage_gaps",
   "list_artifact_versions", "read_tool_result_page"]

def longestToolName : Nat := (toolNames.map String.utf8ByteSize).max?.getD 0

/-- What the server reads of its configuration here. -/
structure ResponseLimits where
  maxMcpResponseBytes : UInt64
  maxMcpResultCacheBytes : UInt64
deriving DecidableEq, Repr

/-- `result_serialization_limit`: a result that fits one response is never rejected, and a larger
one must fit the store. -/
def ResponseLimits.serialization (limits : ResponseLimits) : UInt64 :=
  max limits.maxMcpResultCacheBytes limits.maxMcpResponseBytes

/-- `validate_response_limits`. -/
def ResponseLimits.validate (overhead : Nat) (limits : ResponseLimits) : Except String Unit :=
  validateResponseLimit overhead limits.maxMcpResponseBytes.toNat limits.serialization.toNat
    longestToolName

/-! ## 2. One request -/

def ErrorData.resultTooLarge (limit : Nat) : ErrorData :=
  ⟨.internalError,
    s!"the tool result exceeds MAX_MCP_RESULT_CACHE_BYTES ({limit} bytes), so it can be neither " ++
    "returned nor stored for read_tool_result_page; narrow the request, for example with a " ++
    "smaller limit or a selected jar"⟩

def ErrorData.responseTooLarge (limit : Nat) : ErrorData :=
  ⟨.internalError, s!"the tool result exceeds MAX_MCP_RESPONSE_BYTES ({limit} bytes)"⟩

def ErrorData.unavailableResult : ErrorData :=
  ⟨.invalidParams,
    "result_id is unknown, expired, evicted, or belongs to another project; repeat the original " ++
    "tool call"⟩

inductive CallToolResult
  | structured (json : List Char)
  /-- Without structured content, with its serialized length. -/
  | unstructured (bytes : Nat)
deriving DecidableEq, Repr

def CallToolResult.serializedLen (overhead : Nat) : CallToolResult → Nat
  | .structured json => structuredLen overhead json
  | .unstructured bytes => bytes

def CallToolResult.structuredContent : CallToolResult → Option (List Char)
  | .structured json => some json
  | .unstructured _ => none

inductive CallToolResponse
  | complete (result : CallToolResult)
  /-- Any other response of `rmcp`. -/
  | other
deriving DecidableEq, Repr

def structuredResult (json : List Char) (limit : Nat) : Except ErrorData CallToolResult :=
  if byteLen json ≤ limit then .ok (.structured json) else .error (.resultTooLarge limit)

def fitsResponse (overhead : Nat) (result : CallToolResult) (limit : Nat) : Bool :=
  decide (result.serializedLen overhead ≤ limit)

section

variable (overhead : Nat) (limits : ResponseLimits)

/-- The end of `bound_response`: a result is stored and replaced by its marker. -/
def deferResult (tool : String) (root : Except ErrorData PathBuf) (json : List Char) (now : Nat)
    (results : ResultStore) : Except ErrorData CallToolResponse × ResultStore :=
  match root with
  | .error error => (.error error, results)
  | .ok root =>
    match results.insert root (String.ofList json) now with
    | (.error tooLarge, results) => (.error (.resultTooLarge tooLarge.limit), results)
    | (.ok resultId, results) =>
      (.ok (.complete (.structured (deferredMarker tool.toList resultId.toList (byteLen json)))),
        results)

def boundResponse (tool : String) (root : Except ErrorData PathBuf) (response : CallToolResponse)
    (now : Nat) (results : ResultStore) : Except ErrorData CallToolResponse × ResultStore :=
  match response with
  | .other => (.ok response, results)
  | .complete result =>
    let limit := limits.maxMcpResponseBytes.toNat
    if tool = readPageTool ∨ fitsResponse overhead result limit then (.ok response, results)
    else
      match result.structuredContent with
      | none => (.error (.responseTooLarge limit), results)
      | some json => deferResult tool root json now results

/-- What `call_tool` makes of the answer of a handler: `Json::into_call_tool_result`, then
`bound_response`. -/
def respond (tool : String) (root : Except ErrorData PathBuf)
    (answer : Except ErrorData (List Char)) (now : Nat) (results : ResultStore) :
    Except ErrorData CallToolResponse × ResultStore :=
  match answer.bind fun json => structuredResult json limits.serialization.toNat with
  | .error error => (.error error, results)
  | .ok result => boundResponse overhead limits tool root (.complete result) now results

/-- The handler `read_tool_result_page`; no answer where `fit_page` panics. -/
def readStoredPage (root : Except ErrorData PathBuf) (resultId : String)
    (cursor : Option (List Char)) (now : Nat) (results : ResultStore) :
    Option (Except ErrorData ToolResultPage) × ResultStore :=
  match root with
  | .error error => (some (.error error), results)
  | .ok root =>
    match results.get resultId root now with
    | (none, results) => (some (.error .unavailableResult), results)
    | (some json, results) =>
      (readToolResultPage overhead json.toList resultId.toList limits.maxMcpResponseBytes.toNat
        cursor, results)

/-- What `serde_json` writes for a value: not nothing, and control characters escaped. -/
structure JsonText where
  text : List Char
  nonempty : text ≠ []
  escaped : ∀ c ∈ text, 32 ≤ c.toNat

/-- A tool of the router other than the pager. -/
structure DeferrableTool where
  name : String
  routed : name ∈ toolNames
  deferrable : name ≠ readPageTool

/-- A request with a tool that the router knows. -/
inductive ToolRequest
  | tool (tool : DeferrableTool) (root : Except ErrorData PathBuf)
      (answer : Except ErrorData JsonText) (now : Nat)
  | page (root : Except ErrorData PathBuf) (resultId : String) (cursor : Option (List Char))
      (now : Nat)

def ToolRequest.now : ToolRequest → Nat
  | .tool _ _ _ now => now
  | .page _ _ _ now => now

def callTool (request : ToolRequest) (results : ResultStore) :
    Option (Except ErrorData CallToolResponse) × ResultStore :=
  match request with
  | .tool tool root answer now =>
    let (response, results) :=
      respond overhead limits tool.name root (answer.map JsonText.text) now results
    (some response, results)
  | .page root resultId cursor now =>
    match readStoredPage overhead limits root resultId cursor now results with
    | (none, results) => (none, results)
    | (some page, results) =>
      let (response, results) :=
        respond overhead limits readPageTool root (page.map ToolResultPage.json) now results
      (some response, results)

/-! ## 3. Runs -/

/-- A result is deferred where it is within the budget and does not fit one response. -/
def Deferred (json : List Char) : Prop :=
  byteLen json ≤ limits.serialization.toNat ∧
    limits.maxMcpResponseBytes.toNat < structuredLen overhead json

instance (json : List Char) : Decidable (Deferred overhead limits json) :=
  inferInstanceAs (Decidable (_ ∧ _))

/-- What a request does to the store. -/
def ToolRequest.storeCall : ToolRequest → Option StoreCall
  | .tool _ (.ok root) (.ok json) now =>
    if Deferred overhead limits json.text then some (.insert root (String.ofList json.text) now)
    else none
  | .page (.ok root) resultId _ now => some (.get resultId root now)
  | _ => none

/-- One request, with the moment of its store operation not before the last one. -/
def Log.serve (log : Log) (request : ToolRequest) : Option Log :=
  match request.storeCall overhead limits with
  | none => some log
  | some call => log.step call

/-- The server after it was started and has served requests. -/
def Serving (processKey : UInt64) (clock : Nat) (log : Log) : Prop :=
  Steps.Reaches (Log.serve overhead limits) (fun _ _ => True)
    (Log.start limits.maxMcpResultCacheBytes.toNat processKey clock) log

end

/-! ## 4. What a request does -/

section

variable {overhead : Nat} {limits : ResponseLimits}

theorem toNat_serialization (limits : ResponseLimits) :
    limits.serialization.toNat
      = max limits.maxMcpResultCacheBytes.toNat limits.maxMcpResponseBytes.toNat :=
  UInt64.toNat_max _ _

/-- What fits one response is within the budget. -/
theorem byteLen_le_serialization {json : List Char}
    (h : structuredLen overhead json ≤ limits.maxMcpResponseBytes.toNat) :
    byteLen json ≤ limits.serialization.toNat := by
  rw [toNat_serialization]
  rw [structuredLen] at h
  omega

variable {tool : String} {root : Except ErrorData PathBuf} {json : List Char} {now : Nat}
  {results : ResultStore}

theorem respond_error (error : ErrorData) :
    respond overhead limits tool root (.error error) now results = (.error error, results) := rfl

theorem respond_within (h : byteLen json ≤ limits.serialization.toNat) :
    respond overhead limits tool root (.ok json) now results
      = boundResponse overhead limits tool root (.complete (.structured json)) now results := by
  simp only [respond, Except.bind, structuredResult, if_pos h]

theorem respond_fits (h : structuredLen overhead json ≤ limits.maxMcpResponseBytes.toNat) :
    respond overhead limits tool root (.ok json) now results
      = (.ok (.complete (.structured json)), results) := by
  rw [respond_within (byteLen_le_serialization h)]
  simp only [boundResponse, fitsResponse, CallToolResult.serializedLen, h, decide_true, or_true,
    if_true]

theorem respond_tooLarge (h : limits.serialization.toNat < byteLen json) :
    respond overhead limits tool root (.ok json) now results
      = (.error (.resultTooLarge limits.serialization.toNat), results) := by
  simp only [respond, Except.bind, structuredResult, if_neg (Nat.not_le.mpr h)]

theorem respond_deferred (htool : tool ≠ readPageTool) (h : Deferred overhead limits json) :
    respond overhead limits tool root (.ok json) now results
      = deferResult tool root json now results := by
  rw [respond_within h.1]
  have hlarge : ¬ structuredLen overhead json ≤ limits.maxMcpResponseBytes.toNat :=
    Nat.not_le.mpr h.2
  simp only [boundResponse, fitsResponse, CallToolResult.serializedLen,
    CallToolResult.structuredContent, htool, hlarge, decide_false, false_or, Bool.false_eq_true,
    if_false]

/-- The pager never stores anything. -/
theorem respond_page (answer : Except ErrorData (List Char)) :
    (respond overhead limits readPageTool root answer now results).2 = results := by
  cases answer with
  | error error => rfl
  | ok json =>
    by_cases h : byteLen json ≤ limits.serialization.toNat
    · rw [respond_within h]
      simp only [boundResponse, true_or, if_true]
    · rw [respond_tooLarge (Nat.lt_of_not_le h)]

/-- An answer that is not deferred leaves the store alone. -/
theorem respond_kept (h : ¬ Deferred overhead limits json) :
    (respond overhead limits tool root (.ok json) now results).2 = results := by
  by_cases hfit : structuredLen overhead json ≤ limits.maxMcpResponseBytes.toNat
  · rw [respond_fits hfit]
  · have hlarge : limits.serialization.toNat < byteLen json := by
      by_contra hle
      exact h ⟨Nat.le_of_not_lt hle, Nat.lt_of_not_le hfit⟩
    rw [respond_tooLarge hlarge]

theorem deferResult_store (tool : String) (root : PathBuf) (json : List Char) (now : Nat)
    (results : ResultStore) :
    (deferResult tool (.ok root) json now results).2
      = (results.insert root (String.ofList json) now).2 := by
  simp only [deferResult]
  split
  · rename_i heq
    rw [heq]
  · rename_i heq
    rw [heq]

theorem readStoredPage_store (root : PathBuf) (resultId : String) (cursor : Option (List Char))
    (now : Nat) (results : ResultStore) :
    (readStoredPage overhead limits (.ok root) resultId cursor now results).2
      = (results.get resultId root now).2 := by
  simp only [readStoredPage]
  split
  · rename_i heq
    rw [heq]
  · rename_i heq
    rw [heq]

/-- A request for a page leaves what its handler leaves. -/
theorem callTool_page_store (root : Except ErrorData PathBuf) (resultId : String)
    (cursor : Option (List Char)) (now : Nat) (results : ResultStore) :
    (callTool overhead limits (.page root resultId cursor now) results).2
      = (readStoredPage overhead limits root resultId cursor now results).2 := by
  simp only [callTool]
  split
  · rename_i heq
    rw [heq]
  · rename_i heq
    rw [heq]
    exact respond_page _

/-! ## 5. A run is one of the store -/

variable {processKey : UInt64} {clock : Nat} {log log' : Log} {request : ToolRequest}

theorem step_store {call : StoreCall} (h : log.step call = some log') :
    log'.store = match call with
      | .insert projectRoot json now => (log.store.insert projectRoot json now).2
      | .get id projectRoot now => (log.store.get id projectRoot now).2 := by
  unfold Log.step at h
  split at h
  · cases h
  · cases call with
    | get id projectRoot now =>
      cases h
      rfl
    | insert projectRoot json now =>
      simp only at h
      split at h
      · cases h
        rfl
      · cases h
        rfl

/-- The log keeps the store that the code leaves. -/
theorem serve_store (h : log.serve overhead limits request = some log') :
    log'.store = (callTool overhead limits request log.store).2 := by
  unfold Log.serve at h
  cases request with
  | page root resultId cursor now =>
    rw [callTool_page_store]
    cases root with
    | error error =>
      cases h
      rfl
    | ok root =>
      rw [readStoredPage_store]
      exact step_store h
  | tool tool root answer now =>
    cases answer with
    | error error =>
      have hnone : (ToolRequest.tool tool root (.error error) now).storeCall overhead limits
          = none := by cases root <;> rfl
      rw [hnone] at h
      cases h
      rfl
    | ok json =>
      change _ = (respond overhead limits tool.name root (.ok json.text) now log.store).2
      by_cases hdeferred : Deferred overhead limits json.text
      · rw [respond_deferred tool.deferrable hdeferred]
        cases root with
        | error error =>
          cases h
          rfl
        | ok root =>
          rw [deferResult_store]
          simp only [ToolRequest.storeCall, if_pos hdeferred] at h
          exact step_store h
      · rw [respond_kept hdeferred]
        have hnone : (ToolRequest.tool tool root (.ok json) now).storeCall overhead limits
            = none := by
          cases root with
          | error error => rfl
          | ok root => simp only [ToolRequest.storeCall, if_neg hdeferred]
        rw [hnone] at h
        cases h
        rfl

theorem Serving.refines (h : Serving overhead limits processKey clock log) :
    log.Refines limits.maxMcpResultCacheBytes.toNat processKey := by
  refine h.invariant (.start _ processKey clock) fun u v request hu _ hs => ?_
  unfold Log.serve at hs
  split at hs
  · cases hs
    exact hu
  · exact hu.step hs

/-- A text that the store may have accepted. -/
def Storable (limits : ResponseLimits) (text : String) : Prop :=
  ∃ json : JsonText, text = String.ofList json.text ∧
    byteLen json.text ≤ limits.serialization.toNat

theorem step_inserted {call : StoreCall} (h : log.step call = some log') :
    ∀ e ∈ log'.inserted, e ∈ log.inserted ∨
      ∃ projectRoot now, call = .insert projectRoot e.json now := by
  unfold Log.step at h
  split at h
  · cases h
  · cases call with
    | get id projectRoot now =>
      cases h
      exact fun e he => .inl he
    | insert projectRoot json now =>
      simp only at h
      split at h
      · cases h
        exact fun e he => .inl he
      · cases h
        intro e he
        rcases List.mem_append.mp he with he | he
        · exact .inl he
        · rw [List.mem_singleton.mp he]
          exact .inr ⟨projectRoot, now, rfl⟩

/-- Only texts of tools are stored, and only within the budget. -/
theorem Serving.storable (h : Serving overhead limits processKey clock log) :
    ∀ e ∈ log.inserted, Storable limits e.json := by
  refine h.invariant (P := fun log => ∀ e ∈ log.inserted, Storable limits e.json)
    (by simp [Log.start]) fun u v request hu _ hs => ?_
  unfold Log.serve at hs
  split at hs
  · cases hs
    exact hu
  · rename_i call hcall
    intro e he
    rcases step_inserted hs e he with hold | ⟨projectRoot, moment, rfl⟩
    · exact hu e hold
    · unfold ToolRequest.storeCall at hcall
      split at hcall
      · rename_i json _
        split at hcall
        · rename_i hdeferred
          rw [Option.some.injEq, StoreCall.insert.injEq] at hcall
          exact ⟨json, hcall.2.1.symm, hdeferred.1⟩
        · cases hcall
      · cases hcall
      · cases hcall

/-! ## 6. Markers and pages fit -/

theorem plain_toolNames : ∀ name ∈ toolNames, (∀ c ∈ name.toList, Plain c) ∧
    name.toList.length ≤ longestToolName := by decide +kernel

/-- Beside its fixed texts, a marker weighs its tool, its identifier and its number. -/
theorem exists_weight_marker (expires instruction readWith : List Char) :
    ∃ fixed, ∀ {tool resultId : List Char}, (∀ c ∈ tool, Plain c) → (∀ c ∈ resultId, Plain c) →
      ∀ totalBytes, weight (jsonObject [("deferred_result", jsonObject
          [("expires_in_seconds", expires), ("instruction", instruction), ("read_with", readWith),
           ("result_id", jsonString resultId), ("tool", jsonString tool),
           ("total_bytes", decimal totalBytes)])])
        = fixed + 2 * tool.length + 2 * resultId.length + 2 * (decimal totalBytes).length := by
  refine ⟨frameWeight ["deferred_result"] + frameWeight ["expires_in_seconds", "instruction",
      "read_with", "result_id", "tool", "total_bytes"] + weight expires + weight instruction
      + weight readWith + 12, fun htool hid totalBytes => ?_⟩
  simp only [weight_jsonObject, List.map_cons, List.map_nil, List.sum_cons, List.sum_nil,
    weight_jsonString, weight_plain (plain_decimal _), fragmentCost_plain htool,
    fragmentCost_plain hid]
  omega

theorem weight_deferredMarker {tool resultId : List Char} (htool : ∀ c ∈ tool, Plain c)
    (hid : ∀ c ∈ resultId, Plain c) (totalBytes : Nat) :
    weight (deferredMarker tool resultId totalBytes)
      = weight (deferredMarker [] [] 0)
        + 2 * tool.length + 2 * resultId.length + 2 * (decimal totalBytes).length - 2 := by
  obtain ⟨fixed, hweight⟩ := exists_weight_marker (decimal (storedResultTtl / 10 ^ 9))
    (jsonString deferredInstruction.toList) (jsonString readPageTool.toList)
  have hnone : ∀ c ∈ ([] : List Char), Plain c := fun c hc => by cases hc
  have hzero : (decimal 0).length = 1 := by decide
  unfold deferredMarker
  rw [hweight htool hid, hweight hnone hnone, hzero, List.length_nil]
  omega

/-- A marker of a tool for a text within the budget is no longer than the one measured at
startup. -/
theorem deferredMarker_fits (hvalid : limits.validate overhead = .ok ()) {tool : String}
    (htool : tool ∈ toolNames) {resultId : List Char} (hid : IssuedId resultId) {totalBytes : Nat}
    (htotal : totalBytes ≤ limits.serialization.toNat) :
    structuredLen overhead (deferredMarker tool.toList resultId totalBytes)
      ≤ limits.maxMcpResponseBytes.toNat := by
  have hlargest := (le_max_left _ _).trans (validateResponseLimit_eq_ok_iff.mp hvalid)
  obtain ⟨hplain, hlen⟩ := plain_toolNames tool htool
  have hname : ∀ c ∈ List.replicate longestToolName 't', Plain c := fun c hc => by
    rw [List.eq_of_mem_replicate hc]
    decide
  have hdigits : (decimal totalBytes).length ≤ (decimal limits.serialization.toNat).length :=
    length_toDigits_mono (by decide) htotal
  have hidlen := hid.length
  have hpos : 0 < (decimal totalBytes).length := Nat.length_toDigits_pos
  rw [structuredLen_eq, weight_deferredMarker hname plain_longestResultId,
    List.length_replicate] at hlargest
  rw [structuredLen_eq, weight_deferredMarker hplain hid.plain]
  omega

/-- A page of a stored text fits, whatever the cursor. -/
theorem page_fits (hvalid : limits.validate overhead = .ok ()) {json : JsonText}
    (hjson : byteLen json.text ≤ limits.serialization.toNat) {resultId : List Char}
    (hid : IssuedId resultId) (cursor : Option (List Char)) :
    ∃ answer, readToolResultPage overhead json.text resultId limits.maxMcpResponseBytes.toNat
        cursor = some answer ∧
      (cursorOffset resultId json.text cursor = none → answer = .error .invalidCursor) ∧
      (∀ offset, cursorOffset resultId json.text cursor = some offset →
        ∃ a b c, json.text = a ++ (b ++ c) ∧ b ≠ [] ∧ offset = byteLen a ∧
          answer = .ok (pageAt a b c resultId) ∧
          pageResponseLen overhead (pageAt a b c resultId) ≤ limits.maxMcpResponseBytes.toNat) := by
  cases hcursor : cursorOffset resultId json.text cursor with
  | none =>
    refine ⟨.error .invalidCursor, ?_, fun _ => rfl, fun _ h => by cases h⟩
    simp only [readToolResultPage, hcursor]
  | some offset =>
    -- a decoded cursor is a boundary before the end, and so is the start
    have hsplit : ∃ a rest, json.text = a ++ rest ∧ rest ≠ [] ∧ offset = byteLen a := by
      cases cursor with
      | none =>
        cases hcursor
        exact ⟨[], json.text, rfl, json.nonempty, rfl⟩
      | some cursor =>
        obtain ⟨-, hlt, hboundary⟩ := decodeCursor_canonical hcursor
        obtain ⟨a, rest, hab, hoffset⟩ := isBoundary_iff.mp hboundary
        refine ⟨a, rest, hab, ?_, hoffset⟩
        rintro rfl
        rw [hab, List.append_nil] at hlt
        omega
    obtain ⟨a, rest, hab, hrest, rfl⟩ := hsplit
    obtain ⟨first, others, hfirst⟩ := List.exists_cons_of_ne_nil hrest
    have hmem : first ∈ json.text := by
      rw [hab, hfirst]
      exact List.mem_append_right a List.mem_cons_self
    have hoffset : byteLen a ≤ byteLen json.text := by
      rw [hab, byteLen_append]
      exact Nat.le_add_right _ _
    have hroom := room_of_validated hvalid hid hjson hoffset (json.escaped first hmem)
    rw [hab] at hroom
    obtain ⟨b, c, rfl, hb, hpage, hlimit⟩ := fitPage_spec hfirst hroom
    refine ⟨.ok (pageAt a b c resultId), ?_, fun h => (by cases h), fun offset h => ?_⟩
    · simp only [readToolResultPage, hcursor]
      rw [hab, hpage]
      rfl
    · cases h
      exact ⟨a, b, c, hab, hb, rfl, rfl, hlimit⟩

/-! ## 7. Every response of a run -/

theorem Serving.sequence (h : Serving overhead limits processKey clock log) :
    log.store.nextSequence = log.issued.length := by
  have hissued := congrArg List.length h.refines.issued
  rw [List.length_map, List.length_range] at hissued
  exact hissued.symm

theorem Serving.issuedId (h : Serving overhead limits processKey clock log)
    (hissued : log.issued.length < 2 ^ 64) {id : String} (hid : id ∈ log.issued) :
    IssuedId id.toList := by
  rw [h.refines.issued] at hid
  obtain ⟨sequence, hmem, rfl⟩ := List.mem_map.mp hid
  have hlt := List.mem_range.mp hmem
  rw [h.sequence] at hlt
  exact issuedId_resultId processKey (by omega)

/-- What the store finds was stored under an identifier that it issued. -/
theorem Serving.found (h : Serving overhead limits processKey clock log) {now : Nat}
    (hnow : log.clock ≤ now) {id text : String} {root : PathBuf}
    (hget : (log.store.get id root now).1 = some text) :
    id ∈ log.issued ∧ Storable limits text := by
  obtain ⟨e, _, hinserted, hid, _, _, htext⟩ := (h.refines.got hnow id root text).mp hget
  refine ⟨?_, htext ▸ h.storable e hinserted⟩
  rw [← hid]
  exact h.refines.ids.subset (List.mem_map_of_mem hinserted)

/-- What a handler answers with a page is a page within the limit. -/
theorem readStoredPage_fits (hvalid : limits.validate overhead = .ok ())
    (h : Serving overhead limits processKey clock log) (hissued : log.issued.length < 2 ^ 64)
    {now : Nat} (hnow : log.clock ≤ now) (root : Except ErrorData PathBuf) (resultId : String)
    (cursor : Option (List Char)) :
    ∃ answer, (readStoredPage overhead limits root resultId cursor now log.store).1 = some answer ∧
      ∀ page, answer = .ok page →
        pageResponseLen overhead page ≤ limits.maxMcpResponseBytes.toNat := by
  cases root with
  | error error => exact ⟨_, rfl, fun _ hpage => by cases hpage⟩
  | ok root =>
    simp only [readStoredPage]
    split
    · exact ⟨_, rfl, fun _ hpage => by cases hpage⟩
    · rename_i text _ hget
      obtain ⟨hid, json, rfl, hjson⟩ := h.found hnow (congrArg Prod.fst hget)
      obtain ⟨answer, hread, hnone, hsome⟩ :=
        page_fits hvalid hjson (h.issuedId hissued hid) cursor
      rw [String.toList_ofList]
      refine ⟨answer, hread, fun page hpage => ?_⟩
      cases hcursor : cursorOffset resultId.toList json.text cursor with
      | none =>
        rw [hnone hcursor] at hpage
        cases hpage
      | some offset =>
        obtain ⟨a, b, c, -, -, -, hanswer, hlimit⟩ := hsome offset hcursor
        rw [hanswer] at hpage
        cases hpage
        exact hlimit

/-- The answer to a result that is deferred: the marker with the next identifier, or the refusal of
the store. -/
theorem deferResult_answer (tool : String) (root : PathBuf) (json : List Char) (now : Nat)
    (results : ResultStore) :
    (deferResult tool (.ok root) json now results).1
      = let id := resultId results.processKey results.nextSequence
        if retainedSize id root (String.ofList json) ≤ results.maxBytes then
          .ok (.complete (.structured (deferredMarker tool.toList id.toList (byteLen json))))
        else .error (.resultTooLarge results.maxBytes) := by
  have hsame := ResultStore.sameBut_expire results now
  have hid : (results.expire now).nextId.1 = resultId results.processKey results.nextSequence := by
    rw [← hsame.processKey, ← hsame.nextSequence]
    rfl
  have hmax : (results.expire now).nextId.2.maxBytes = results.maxBytes := hsame.maxBytes
  simp only [deferResult]
  rw [← hid, ← hmax]
  by_cases hbig : (results.expire now).nextId.2.maxBytes
      < retainedSize (results.expire now).nextId.1 root (String.ofList json)
  · rw [ResultStore.insert_refused hbig, if_neg (Nat.not_le.mpr hbig)]
  · rw [ResultStore.insert_accepted hbig, if_pos (Nat.le_of_not_lt hbig)]

/-- What the server answers to a request. -/
structure WithinLimits (overhead : Nat) (limits : ResponseLimits) (processKey : UInt64) (log : Log)
    (request : ToolRequest) : Prop where
  /-- Nothing panics, and what is returned is structured and fits. -/
  fits : ∃ answer, (callTool overhead limits request log.store).1 = some answer ∧
    ∀ response, answer = .ok response → ∃ json, response = .complete (.structured json) ∧
      structuredLen overhead json ≤ limits.maxMcpResponseBytes.toNat
  /-- A result that fits is returned as it is, and the store is left alone. -/
  whole : ∀ tool root json now, request = .tool tool root (.ok json) now →
    structuredLen overhead json.text ≤ limits.maxMcpResponseBytes.toNat →
    callTool overhead limits request log.store
      = (some (.ok (.complete (.structured json.text))), log.store)
  /-- Any other one is deferred under a new identifier, or refused for its size. -/
  deferred : ∀ tool root json now, request = .tool tool (.ok root) (.ok json) now →
    limits.maxMcpResponseBytes.toNat < structuredLen overhead json.text →
    let id := resultId processKey log.issued.length
    let fitsStore := byteLen json.text ≤ limits.serialization.toNat ∧
      retainedSize id root (String.ofList json.text) ≤ limits.maxMcpResultCacheBytes.toNat
    id ∉ log.issued ∧
      (fitsStore → (callTool overhead limits request log.store).1 = some (.ok (.complete
        (.structured (deferredMarker tool.name.toList id.toList (byteLen json.text)))))) ∧
      (¬ fitsStore → ∃ limit,
        (callTool overhead limits request log.store).1 = some (.error (.resultTooLarge limit)))

theorem Serving.deferred_answer (h : Serving overhead limits processKey clock log)
    (tool : DeferrableTool) (root : PathBuf) {json : JsonText} (now : Nat)
    (hdeferred : Deferred overhead limits json.text) :
    (callTool overhead limits (.tool tool (.ok root) (.ok json) now) log.store).1
      = let id := resultId processKey log.issued.length
        some (if retainedSize id root (String.ofList json.text)
            ≤ limits.maxMcpResultCacheBytes.toNat then
          .ok (.complete (.structured
            (deferredMarker tool.name.toList id.toList (byteLen json.text))))
        else .error (.resultTooLarge limits.maxMcpResultCacheBytes.toNat)) := by
  change some (respond overhead limits tool.name (.ok root) (.ok json.text) now log.store).1 = _
  rw [respond_deferred tool.deferrable hdeferred, deferResult_answer, h.refines.key,
    h.refines.limit, h.sequence]

theorem Serving.new_id (h : Serving overhead limits processKey clock log) :
    resultId processKey log.issued.length ∉ log.issued := by
  rw [h.refines.issued, List.length_map, List.length_range]
  intro hmem
  obtain ⟨sequence, hlt, heq⟩ := List.mem_map.mp hmem
  rw [resultId_injective processKey heq] at hlt
  exact absurd (List.mem_range.mp hlt) (Nat.lt_irrefl _)

/-- A tool is answered with its own result, a marker or an error, within the limit. -/
theorem respond_tool_fits (hvalid : limits.validate overhead = .ok ())
    (h : Serving overhead limits processKey clock log) (hissued : log.issued.length < 2 ^ 64)
    (tool : DeferrableTool) (root : Except ErrorData PathBuf) (json : JsonText) (now : Nat) :
    ∀ response,
      (respond overhead limits tool.name root (.ok json.text) now log.store).1 = .ok response →
      ∃ text, response = .complete (.structured text) ∧
        structuredLen overhead text ≤ limits.maxMcpResponseBytes.toNat := by
  intro response hresponse
  by_cases hfit : structuredLen overhead json.text ≤ limits.maxMcpResponseBytes.toNat
  · rw [respond_fits hfit] at hresponse
    cases hresponse
    exact ⟨json.text, rfl, hfit⟩
  by_cases hbudget : byteLen json.text ≤ limits.serialization.toNat
  · rw [respond_deferred tool.deferrable ⟨hbudget, Nat.lt_of_not_le hfit⟩] at hresponse
    cases root with
    | error error => cases hresponse
    | ok root =>
      rw [deferResult_answer, h.refines.key, h.sequence] at hresponse
      simp only at hresponse
      split at hresponse
      · cases hresponse
        exact ⟨_, rfl, deferredMarker_fits hvalid tool.routed
          (issuedId_resultId processKey hissued) hbudget⟩
      · cases hresponse
  · rw [respond_tooLarge (Nat.lt_of_not_le hbudget)] at hresponse
    cases hresponse

/-- A page is answered with itself or an error, within the limit. -/
theorem page_request_fits (hvalid : limits.validate overhead = .ok ())
    (h : Serving overhead limits processKey clock log) (hissued : log.issued.length < 2 ^ 64)
    {now : Nat} (hnow : log.clock ≤ now) (root : Except ErrorData PathBuf) (resultId : String)
    (cursor : Option (List Char)) :
    ∃ answer, (callTool overhead limits (.page root resultId cursor now) log.store).1
        = some answer ∧
      ∀ response, answer = .ok response → ∃ text, response = .complete (.structured text) ∧
        structuredLen overhead text ≤ limits.maxMcpResponseBytes.toNat := by
  obtain ⟨answer, hanswer, hpages⟩ :=
    readStoredPage_fits hvalid h hissued hnow root resultId cursor
  cases hread : readStoredPage overhead limits root resultId cursor now log.store with
  | mk read results =>
    rw [hread] at hanswer
    cases hanswer
    simp only [callTool, hread]
    refine ⟨_, rfl, fun response hresponse => ?_⟩
    cases answer with
    | error error => cases hresponse
    | ok page =>
      have hfit : structuredLen overhead page.json ≤ limits.maxMcpResponseBytes.toNat :=
        hpages page rfl
      have hpage : respond overhead limits readPageTool root (.ok page.json) now results
          = (.ok (.complete (.structured page.json)), results) := respond_fits hfit
      change (respond overhead limits readPageTool root (.ok page.json) now results).1
        = .ok response at hresponse
      rw [hpage] at hresponse
      cases hresponse
      exact ⟨page.json, rfl, hfit⟩

/-- **Every response fits.**  A server whose limits passed the check at startup answers every
request of every run within `MAX_MCP_RESPONSE_BYTES`; only what does not fit is deferred. -/
theorem responses_fit (hvalid : limits.validate overhead = .ok ())
    (hrun : Serving overhead limits processKey clock log) (hissued : log.issued.length < 2 ^ 64)
    (hnow : log.clock ≤ request.now) :
    WithinLimits overhead limits processKey log request where
  fits := by
    cases request with
    | tool tool root answer now =>
      refine ⟨_, rfl, ?_⟩
      cases answer with
      | error error => exact fun response hresponse => by cases hresponse
      | ok json => exact respond_tool_fits hvalid hrun hissued tool root json now
    | page root resultId cursor now =>
      exact page_request_fits hvalid hrun hissued hnow root resultId cursor
  whole := by
    rintro tool root json now rfl hfit
    change (some (respond overhead limits tool.name root (.ok json.text) now log.store).1,
      (respond overhead limits tool.name root (.ok json.text) now log.store).2) = _
    rw [respond_fits hfit]
  deferred := by
    rintro tool root json now rfl hlarge
    refine ⟨hrun.new_id, fun hstore => ?_, fun hstore => ?_⟩
    · rw [hrun.deferred_answer tool root now ⟨hstore.1, hlarge⟩]
      simp only [if_pos hstore.2]
    · by_cases hbudget : byteLen json.text ≤ limits.serialization.toNat
      · rw [hrun.deferred_answer tool root now ⟨hbudget, hlarge⟩]
        simp only [if_neg fun hcache => hstore ⟨hbudget, hcache⟩]
        exact ⟨_, rfl⟩
      · refine ⟨limits.serialization.toNat, ?_⟩
        change some
          (respond overhead limits tool.name (.ok root) (.ok json.text) now log.store).1 = _
        rw [respond_tooLarge (Nat.lt_of_not_le hbudget)]

/-- A limit that the server accepts with results of up to 2000 bytes. -/
def tightLimits : ResponseLimits := ⟨1654, 2000⟩

theorem tightLimits_valid : tightLimits.validate 74 = .ok () := by
  refine validateResponseLimit_eq_ok_iff.mpr (max_le ?_ (by decide +kernel))
  simp only [structuredLen_eq, deferredMarker, weight_jsonObject, List.map_cons, List.map_nil,
    List.sum_cons, List.sum_nil, weight_jsonString, fragmentCost_instruction]
  decide +kernel

/-- A result of 902 bytes, which does not fit one response. -/
def deferredText : JsonText where
  text := '"' :: (List.replicate 900 'x' ++ ['"'])
  nonempty := List.cons_ne_nil _ _
  escaped := by decide +kernel

/-- A result is deferred, and its first page is asked for. -/
theorem responses_fit_deferred :
    ∃ log, Serving 74 tightLimits 7 0 log ∧ log.issued = [resultId 7 0] ∧
      WithinLimits 74 tightLimits 7 log (.page (.ok [47, 112]) (resultId 7 0) none 5) := by
  have hplayed : (Steps.runWhile (Log.serve 74 tightLimits) (fun _ _ => true) (Log.start 2000 7 0)
        [.tool ⟨"index_stats", by decide, by decide⟩ (.ok [47, 112]) (.ok deferredText) 3]).map
      (fun log => (log.clock, log.issued)) = some (3, [resultId 7 0]) := by
    decide +kernel
  obtain ⟨log, hlog, hstate⟩ := Option.map_eq_some_iff.mp hplayed
  obtain ⟨hclock, hissued⟩ := Prod.mk.inj hstate
  have hrun : Serving 74 tightLimits 7 0 log :=
    (Steps.reaches_of_runWhile _ hlog).mono fun _ _ _ => trivial
  refine ⟨log, hrun, hissued, responses_fit tightLimits_valid hrun ?_ ?_⟩
  · rw [hissued]
    decide
  · rw [hclock]
    decide

end

end MavenMcp
