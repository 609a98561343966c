/-
# Reading a deferred result

A marker names a stored result, and a client reads it page by page while other requests go on:
other clients store results, the deque evicts, moments pass.  `Download` is such a reading with
anything in between.

Identifiers are never issued twice, so what is found under one is always the same text, and a
reading that comes to its end has all of it (`deferred_result_delivered`).  What can happen on the
way is that the result has gone, which every request for a page then says.
-/
import MavenMcp.Server.Responses

namespace MavenMcp

open Text

/-! ## 1. Readings -/

section

variable (overhead : Nat) (limits : ResponseLimits)

/-- Any requests in between. -/
def Later (log log' : Log) : Prop :=
  Steps.Reaches (Log.serve overhead limits) (fun _ _ => True) log log'

/-- A client reads a result from a cursor to its last page. -/
inductive Download (resultId : String) :
    Log → Option (List Char) → List ToolResultPage → Log → Prop
  | last {log log₁ log₂ : Log} {root : PathBuf} {cursor : Option (List Char)} {now : Nat}
      {page : ToolResultPage} :
      Later overhead limits log log₁ →
      log₁.serve overhead limits (.page (.ok root) resultId cursor now) = some log₂ →
      (readStoredPage overhead limits (.ok root) resultId cursor now log₁.store).1
        = some (.ok page) →
      page.nextCursor = none → Download resultId log cursor [page] log₂
  | next {log log₁ log₂ log₃ : Log} {root : PathBuf} {cursor : Option (List Char)} {now : Nat}
      {page : ToolResultPage} {next : List Char} {pages : List ToolResultPage} :
      Later overhead limits log log₁ →
      log₁.serve overhead limits (.page (.ok root) resultId cursor now) = some log₂ →
      (readStoredPage overhead limits (.ok root) resultId cursor now log₁.store).1
        = some (.ok page) →
      page.nextCursor = some next → Download resultId log₂ (some next) pages log₃ →
      Download resultId log cursor (page :: pages) log₃

/-- The result is among those that the reference keeps. -/
def Retained (resultId : String) (now : Nat) (log : Log) : Prop :=
  ∃ e ∈ referenceContents limits.maxMcpResultCacheBytes.toNat now log.inserted, e.id = resultId

/-- What becomes of a result that was stored for a project under an identifier. -/
structure Delivered (log : Log) (root : PathBuf) (resultId : String) (json : JsonText) : Prop where
  /-- However a reading is interleaved, its fragments are the text. -/
  text : ∀ pages log', Download overhead limits resultId log none pages log' →
    pages.flatMap ToolResultPage.fragment = json.text
  /-- While it is retained, a cursor that was returned gets a page behind it, within the limit. -/
  read : ∀ log', Later overhead limits log log' → ∀ root' cursor now, log'.clock ≤ now →
    pathComponents root' = pathComponents root → Retained limits resultId now log' →
    ∀ offset, cursorOffset resultId.toList json.text cursor = some offset →
      ∃ page, (readStoredPage overhead limits (.ok root') resultId cursor now log'.store).1
          = some (.ok page) ∧ page.offset = offset ∧ page.fragment ≠ [] ∧
        pageResponseLen overhead page ≤ limits.maxMcpResponseBytes.toNat
  /-- Afterwards, and for any other project, every request is told the same. -/
  unavailable : ∀ log', Later overhead limits log log' → ∀ root' cursor now, log'.clock ≤ now →
    ¬ (pathComponents root' = pathComponents root ∧ Retained limits resultId now log') →
    (readStoredPage overhead limits (.ok root') resultId cursor now log'.store).1
      = some (.error .unavailableResult)

end

/-! ## 2. What stays true of a stored result -/

variable {overhead : Nat} {limits : ResponseLimits} {processKey : UInt64} {clock : Nat}
  {log log' log'' : Log} {root : PathBuf} {id : String} {json : JsonText}

theorem Serving.later (h : Serving overhead limits processKey clock log)
    (hlater : Later overhead limits log log') : Serving overhead limits processKey clock log' :=
  Steps.Reaches.trans h hlater

theorem step_inserted_subset {call : StoreCall} (h : log.step call = some log') :
    ∀ e ∈ log.inserted, e ∈ log'.inserted := by
  unfold Log.step at h
  split at h
  · cases h
  · cases call with
    | get id projectRoot now =>
      cases h
      exact fun e he => he
    | insert projectRoot json now =>
      simp only at h
      split at h
      · cases h
        exact fun e he => he
      · cases h
        exact fun e he => List.mem_append_left _ he

theorem serve_inserted_subset {request : ToolRequest}
    (h : log.serve overhead limits request = some log') :
    ∀ e ∈ log.inserted, e ∈ log'.inserted := by
  unfold Log.serve at h
  split at h
  · cases h
    exact fun e he => he
  · exact step_inserted_subset h

/-- The result was stored in this run. -/
def Stored (log : Log) (root : PathBuf) (id : String) (json : JsonText) : Prop :=
  ∃ e ∈ log.inserted, e.id = id ∧ e.projectRoot = root ∧ e.json = String.ofList json.text

theorem Stored.serve (h : Stored log root id json) {request : ToolRequest}
    (hserve : log.serve overhead limits request = some log') : Stored log' root id json := by
  obtain ⟨e, he, hstored⟩ := h
  exact ⟨e, serve_inserted_subset hserve e he, hstored⟩

theorem Stored.later (h : Stored log root id json) (hlater : Later overhead limits log log') :
    Stored log' root id json :=
  hlater.invariant (P := fun log => Stored log root id json) h fun _ _ _ hu _ hs => hu.serve hs

/-- What is found under the identifier is this text, and it is found for this project while it is
retained. -/
theorem Serving.get_stored (h : Serving overhead limits processKey clock log)
    (hstored : Stored log root id json) {now : Nat} (hnow : log.clock ≤ now)
    (root' : PathBuf) (text : String) :
    (log.store.get id root' now).1 = some text ↔
      text = String.ofList json.text ∧ pathComponents root' = pathComponents root ∧
        Retained limits id now log := by
  obtain ⟨e, he, hid, hroot, hjson⟩ := hstored
  obtain ⟨hcontents, hlive, _, _⟩ := h.refines.expire hnow
  have hsame : ∀ x ∈ log.inserted, x.id = id → x = e := fun x hx hxid =>
    h.refines.eq_of_id hx he (hxid.trans hid.symm)
  rw [h.refines.got hnow]
  constructor
  · rintro ⟨x, hx, hinserted, hxid, hxroot, hfresh, htext⟩
    obtain rfl := hsame x hinserted hxid
    refine ⟨htext ▸ hjson, by rw [← hxroot, hroot], x, ?_, hxid⟩
    rw [← hcontents, hlive]
    exact List.mem_filter.mpr ⟨hx, by rw [hfresh]; rfl⟩
  · rintro ⟨rfl, hsamePath, x, hx, hxid⟩
    rw [← hcontents, hlive, List.mem_filter] at hx
    obtain rfl := hsame x (h.refines.entries_subset.subset hx.1) hxid
    exact ⟨x, hx.1, he, hid, by rw [hroot, hsamePath], by simpa using hx.2, hjson⟩

theorem Serving.page_retained (h : Serving overhead limits processKey clock log)
    (hstored : Stored log root id json) {now : Nat} (hnow : log.clock ≤ now) {root' : PathBuf}
    (hroot : pathComponents root' = pathComponents root) (hretained : Retained limits id now log)
    (cursor : Option (List Char)) :
    (readStoredPage overhead limits (.ok root') id cursor now log.store).1
      = readToolResultPage overhead json.text id.toList limits.maxMcpResponseBytes.toNat
          cursor := by
  have hget := (h.get_stored hstored hnow root' _).mpr ⟨rfl, hroot, hretained⟩
  simp only [readStoredPage]
  split
  · rename_i hnone
    rw [hnone] at hget
    cases hget
  · rename_i hsome
    rw [hsome, Option.some.injEq] at hget
    simp only [hget, String.toList_ofList]

theorem Serving.page_unavailable (h : Serving overhead limits processKey clock log)
    (hstored : Stored log root id json) {now : Nat} (hnow : log.clock ≤ now) {root' : PathBuf}
    (hgone : ¬ (pathComponents root' = pathComponents root ∧ Retained limits id now log))
    (cursor : Option (List Char)) :
    (readStoredPage overhead limits (.ok root') id cursor now log.store).1
      = some (.error .unavailableResult) := by
  simp only [readStoredPage]
  split
  · rfl
  · rename_i text _ hsome
    have hget := (h.get_stored hstored hnow root' text).mp (congrArg Prod.fst hsome)
    exact absurd hget.2 hgone

/-! ## 3. Readings of it -/

/-- A page that is returned begins at its cursor and is not empty. -/
theorem readToolResultPage_eq_ok {json resultId : List Char} {limit : Nat}
    {cursor : Option (List Char)} {page : ToolResultPage}
    (h : readToolResultPage overhead json resultId limit cursor = some (.ok page))
    {a rest : List Char} (hjson : json = a ++ rest)
    (hcursor : cursorOffset resultId json cursor = some (byteLen a)) :
    ∃ b c, rest = b ++ c ∧ b ≠ [] ∧ page = pageAt a b c resultId := by
  subst hjson
  simp only [readToolResultPage, hcursor] at h
  by_cases hroom : pageResponseLen overhead (skeleton (a ++ rest) (byteLen a) resultId) ≤ limit
  · obtain ⟨b, c, hbc, -, -, -, hpage⟩ := fitPage_eq hroom
    rw [hpage] at h
    by_cases hb : b = []
    · rw [if_pos hb] at h
      cases h
    · rw [if_neg hb] at h
      cases h
      exact ⟨b, c, hbc, hb, rfl⟩
  · simp only [fitPage, if_pos (Nat.lt_of_not_le hroom)] at h
    cases h

/-- The cursor behind a page that is not the last one leads to the rest. -/
theorem cursorOffset_next {json resultId a b c : List Char} {next : List Char}
    (hlen : byteLen json < 2 ^ 64) (hjson : json = a ++ (b ++ c))
    (hnext : (pageAt a b c resultId).nextCursor = some next) :
    cursorOffset resultId json (some next) = some (byteLen (a ++ b)) := by
  simp only [pageAt] at hnext
  split at hnext
  · cases hnext
  · rename_i hc
    cases hnext
    have hsplit : json = (a ++ b) ++ c := by rw [hjson, List.append_assoc]
    rw [← byteLen_append, cursorOffset, hsplit]
    exact decodeCursor_encodeCursor hc (by rw [← hsplit]; exact hlen)

/-- A reading from a boundary has the rest of the text. -/
theorem download_rest (hlen : byteLen json.text < 2 ^ 64) {cursor : Option (List Char)}
    {pages : List ToolResultPage} (h : Download overhead limits id log cursor pages log') :
    Serving overhead limits processKey clock log → Stored log root id json →
      ∀ a rest, json.text = a ++ rest →
        cursorOffset id.toList json.text cursor = some (byteLen a) →
        pages.flatMap ToolResultPage.fragment = rest := by
  -- what a page request in between finds is a page of this text
  have hpage : ∀ {log log₁ log₂ : Log} {root' : PathBuf} {cursor : Option (List Char)} {now : Nat}
      {page : ToolResultPage}, Serving overhead limits processKey clock log →
      Stored log root id json → Later overhead limits log log₁ →
      log₁.serve overhead limits (.page (.ok root') id cursor now) = some log₂ →
      (readStoredPage overhead limits (.ok root') id cursor now log₁.store).1 = some (.ok page) →
      readToolResultPage overhead json.text id.toList limits.maxMcpResponseBytes.toNat cursor
        = some (.ok page) ∧
        Serving overhead limits processKey clock log₂ ∧ Stored log₂ root id json := by
    intro log log₁ log₂ root' cursor now page hrun hstored hlater hserve hread
    have hrun₁ := hrun.later hlater
    have hstored₁ := hstored.later hlater
    have hnow : log₁.clock ≤ now := by
      by_contra hlt
      have hnone : log₁.serve overhead limits (.page (.ok root') id cursor now) = none :=
        if_pos (Nat.lt_of_not_le hlt)
      rw [hnone] at hserve
      cases hserve
    refine ⟨?_, hrun₁.tail trivial hserve, hstored₁.serve hserve⟩
    by_cases hretained : pathComponents root' = pathComponents root ∧ Retained limits id now log₁
    · rw [← hrun₁.page_retained hstored₁ hnow hretained.1 hretained.2]
      exact hread
    · rw [hrun₁.page_unavailable hstored₁ hnow hretained] at hread
      cases hread
  induction h with
  | last hlater hserve hread hlast =>
    intro hrun hstored a rest hjson hcursor
    obtain ⟨hok, -, -⟩ := hpage hrun hstored hlater hserve hread
    obtain ⟨b, c, rfl, -, rfl⟩ := readToolResultPage_eq_ok hok hjson hcursor
    have hc : c = [] := by
      by_contra hne
      simp only [pageAt, if_neg hne] at hlast
      cases hlast
    rw [hc, List.append_nil, List.flatMap_cons, List.flatMap_nil, List.append_nil]
    rfl
  | next hlater hserve hread hnext _ ih =>
    intro hrun hstored a rest hjson hcursor
    obtain ⟨hok, hrun₂, hstored₂⟩ := hpage hrun hstored hlater hserve hread
    obtain ⟨b, c, rfl, -, rfl⟩ := readToolResultPage_eq_ok hok hjson hcursor
    have hrest := ih hrun₂ hstored₂ (a ++ b) c (by rw [hjson, List.append_assoc])
      (cursorOffset_next hlen hjson hnext)
    rw [List.flatMap_cons, hrest]
    rfl

/-! ## 4. A result that was deferred -/

/-- The run after a result was deferred has stored it. -/
theorem Serving.stored_of_deferred (h : Serving overhead limits processKey clock log)
    {tool : DeferrableTool} {now : Nat} (hdeferred : Deferred overhead limits json.text)
    (hstore : retainedSize (resultId processKey log.issued.length) root (String.ofList json.text)
      ≤ limits.maxMcpResultCacheBytes.toNat)
    (hserve : log.serve overhead limits (.tool tool (.ok root) (.ok json) now) = some log') :
    Stored log' root (resultId processKey log.issued.length) json := by
  have hid : (log.store.expire now).nextId.1 = resultId processKey log.issued.length := by
    rw [← h.sequence, ← h.refines.key]
    have hsame := ResultStore.sameBut_expire log.store now
    rw [← hsame.processKey, ← hsame.nextSequence]
    rfl
  have hmax : (log.store.expire now).nextId.2.maxBytes = limits.maxMcpResultCacheBytes.toNat :=
    (ResultStore.sameBut_expire log.store now).maxBytes.trans h.refines.limit
  have hfits : ¬ (log.store.expire now).nextId.2.maxBytes
      < retainedSize (log.store.expire now).nextId.1 root (String.ofList json.text) := by
    rw [hid, hmax]
    exact Nat.not_lt.mpr hstore
  simp only [Log.serve, ToolRequest.storeCall, if_pos hdeferred, Log.step] at hserve
  split at hserve
  · cases hserve
  · simp only [ResultStore.insert_accepted hfits] at hserve
    cases hserve
    refine ⟨_, List.mem_append_right _ (List.mem_singleton.mpr rfl), hid, rfl, rfl⟩

/-- **A deferred result is delivered**: while it is retained, in whatever run, the cursors lead
through it, and a reading that comes to its end has exactly the result. -/
theorem deferred_result_delivered (hvalid : limits.validate overhead = .ok ())
    (hrun : Serving overhead limits processKey clock log) (hissued : log.issued.length < 2 ^ 64)
    {tool : DeferrableTool} {now : Nat} (hdeferred : Deferred overhead limits json.text)
    (hstore : retainedSize (resultId processKey log.issued.length) root (String.ofList json.text)
      ≤ limits.maxMcpResultCacheBytes.toNat)
    (hserve : log.serve overhead limits (.tool tool (.ok root) (.ok json) now) = some log') :
    Delivered overhead limits log' root (resultId processKey log.issued.length) json := by
  have hrun' : Serving overhead limits processKey clock log' := hrun.tail trivial hserve
  have hstored := hrun.stored_of_deferred hdeferred hstore hserve
  have hlen : byteLen json.text < 2 ^ 64 :=
    lt_of_le_of_lt hdeferred.1 limits.serialization.toNat_lt
  refine ⟨fun pages log'' h => ?_, fun log'' hlater root' cursor now hnow hroot hretained => ?_,
    fun log'' hlater root' cursor now hnow hgone => ?_⟩
  · exact download_rest hlen h hrun' hstored [] json.text rfl rfl
  · intro offset hoffset
    obtain ⟨answer, hread, -, hsome⟩ := page_fits hvalid hdeferred.1
      (issuedId_resultId processKey hissued) cursor
    obtain ⟨a, b, c, -, hb, rfl, rfl, hlimit⟩ := hsome offset hoffset
    refine ⟨pageAt a b c _, ?_, rfl, hb, hlimit⟩
    rw [(hrun'.later hlater).page_retained (hstored.later hlater) hnow hroot hretained, hread]
  · exact (hrun'.later hlater).page_unavailable (hstored.later hlater) hnow hgone cursor

/-- A result is deferred by a server that has just been started. -/
theorem deferred_result_delivered_first :
    ∃ log, (Log.start 2000 7 0).serve 74 tightLimits
        (.tool ⟨"index_stats", by decide, by decide⟩ (.ok [47, 112]) (.ok deferredText) 3)
          = some log ∧
      Delivered 74 tightLimits log [47, 112] (resultId 7 0) deferredText := by
  have hserved : ((Log.start 2000 7 0).serve 74 tightLimits
      (.tool ⟨"index_stats", by decide, by decide⟩ (.ok [47, 112]) (.ok deferredText) 3)).isSome
        = true := by decide +kernel
  obtain ⟨log, hlog⟩ := Option.isSome_iff_exists.mp hserved
  exact ⟨log, hlog, deferred_result_delivered tightLimits_valid
    .refl (by decide) (by decide +kernel) (by decide +kernel) hlog⟩

end MavenMcp
