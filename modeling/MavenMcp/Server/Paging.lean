/-
# Pages fit and add up

The argument for paging in two halves.  `responseCost` is exact (`weight_jsonEscape`), so a page
is at most its skeleton plus the cost of its fragment, and the loop that grows it stops within
the limit: `fit_page` returns at its first measurement.  A limit that passed
`validate_response_limit` has room for one character beside the longest skeleton, so a page is
never empty and the walk ends.
-/
import MavenMcp.Server.ResponseLimit

namespace MavenMcp

open Text

/-! ## 1. What a piece of JSON adds to a tool result -/

/-- The bytes of a piece of JSON, as it is and escaped once more. -/
def weight (json : List Char) : Nat := byteLen json + byteLen (jsonEscaped json)

theorem structuredLen_eq (overhead : Nat) (json : List Char) :
    structuredLen overhead json = overhead + weight json := by
  rw [structuredLen, weight, Nat.add_assoc]

@[simp] theorem weight_nil : weight [] = 0 := rfl

@[simp] theorem weight_append (a b : List Char) : weight (a ++ b) = weight a + weight b := by
  simp only [weight, jsonEscaped, List.flatMap_append, byteLen_append]
  omega

/-- What a character of the JSON adds, as it is and escaped once more. -/
def charWeight (c : Char) : Nat := c.utf8Size + byteLen (jsonEscape c)

@[simp] theorem weight_cons (c : Char) (text : List Char) :
    weight (c :: text) = charWeight c + weight text := by
  simp only [weight, charWeight, jsonEscaped, List.flatMap_cons, byteLen_append, byteLen_cons]
  omega

/-- A character that needs one byte and no escape. -/
def Plain (c : Char) : Prop := c.utf8Size = 1 ∧ jsonEscape c = [c]

instance (c : Char) : Decidable (Plain c) := inferInstanceAs (Decidable (_ ∧ _))

theorem weight_plain {text : List Char} (h : ∀ c ∈ text, Plain c) :
    weight text = 2 * text.length := by
  induction text with
  | nil => rfl
  | cons c text ih =>
    have hc : charWeight c = 2 := by
      obtain ⟨hsize, hesc⟩ := h c List.mem_cons_self
      rw [charWeight, hesc, byteLen_cons, byteLen_nil, hsize]
    rw [weight_cons, hc, ih fun d hd => h d (List.mem_cons_of_mem c hd), List.length_cons]
    omega

theorem jsonEscaped_plain {text : List Char} (h : ∀ c ∈ text, Plain c) :
    jsonEscaped text = text := by
  induction text with
  | nil => rfl
  | cons c text ih =>
    rw [jsonEscaped, List.flatMap_cons, (h c List.mem_cons_self).2]
    exact congrArg (c :: ·) (ih fun d hd => h d (List.mem_cons_of_mem c hd))

theorem plain_digitChar {d : Nat} (h : d < 16) : Plain d.digitChar := by
  have key : ∀ d : Fin 16, Plain d.val.digitChar := by decide
  exact key ⟨d, h⟩

/-- **The cost of a character is exact**: what both escapings make of it. -/
theorem weight_jsonEscape (c : Char) : weight (jsonEscape c) = responseCost c := by
  have hdigits : ∀ d e, d < 16 → e < 16 →
      weight ['\\', 'u', '0', '0', d.digitChar, e.digitChar] = 13 := by
    intro d e hd he
    have hplain : weight ['u', '0', '0', d.digitChar, e.digitChar] = 10 :=
      weight_plain (by
        simp only [List.mem_cons, List.not_mem_nil, or_false, forall_eq_or_imp, forall_eq]
        exact ⟨by decide, by decide, by decide, plain_digitChar hd, plain_digitChar he⟩)
    rw [weight_cons, hplain]
    decide
  have hfixed : weight ['\\', '"'] = 6 ∧ weight ['\\', '\\'] = 6 ∧ weight ['\\', 'b'] = 5 ∧
      weight ['\\', 'f'] = 5 ∧ weight ['\\', 'n'] = 5 ∧ weight ['\\', 'r'] = 5 ∧
      weight ['\\', 't'] = 5 := by decide
  unfold jsonEscape responseCost
  by_cases h34 : c = '"'
  · rw [if_pos h34, if_pos (Or.inl h34), hfixed.1]
  by_cases h92 : c = '\\'
  · rw [if_neg h34, if_pos h92, if_pos (Or.inr h92), hfixed.2.1]
  have hquoted : ¬ (c = '"' ∨ c = '\\') := not_or.mpr ⟨h34, h92⟩
  rw [if_neg h34, if_neg h92, if_neg hquoted]
  obtain ⟨-, -, hb, hf, hn, hr, ht⟩ := hfixed
  by_cases h8 : c.toNat = 8
  · rw [if_pos h8, if_pos (by omega), hb]
  by_cases h12 : c.toNat = 12
  · rw [if_neg h8, if_pos h12, if_pos (by omega), hf]
  by_cases h10 : c.toNat = 10
  · rw [if_neg h8, if_neg h12, if_pos h10, if_pos (by omega), hn]
  by_cases h13 : c.toNat = 13
  · rw [if_neg h8, if_neg h12, if_neg h10, if_pos h13, if_pos (by omega), hr]
  by_cases h9 : c.toNat = 9
  · rw [if_neg h8, if_neg h12, if_neg h10, if_neg h13, if_pos h9, if_pos (by omega), ht]
  have hshort : ¬ (c.toNat = 8 ∨ c.toNat = 12 ∨ c.toNat = 10 ∨ c.toNat = 13 ∨ c.toNat = 9) := by
    omega
  rw [if_neg h8, if_neg h12, if_neg h10, if_neg h13, if_neg h9, if_neg hshort]
  by_cases h32 : c.toNat < 32
  · rw [if_pos h32, if_pos h32, hdigits _ _ (by omega) (by omega)]
  · have hesc : jsonEscape c = [c] := by
      simp [jsonEscape, h34, h92, h8, h12, h10, h13, h9, h32]
    rw [if_neg h32, if_neg h32, weight_cons, charWeight, hesc, byteLen_cons, byteLen_nil,
      weight_nil]
    omega

/-- The cost of a fragment. -/
def fragmentCost (fragment : List Char) : Nat := (fragment.map responseCost).sum

theorem weight_jsonString (text : List Char) :
    weight (jsonString text) = 6 + fragmentCost text := by
  have hquote : charWeight '"' = 3 := by decide
  have hesc : weight (jsonEscaped text) = fragmentCost text := by
    induction text with
    | nil => rfl
    | cons c text ih =>
      rw [jsonEscaped, List.flatMap_cons, weight_append, weight_jsonEscape]
      exact congrArg (responseCost c + ·) ih
  rw [jsonString, weight_cons, weight_append, weight_cons, weight_nil, hquote, hesc]
  omega

theorem fragmentCost_plain {text : List Char} (h : ∀ c ∈ text, Plain c) :
    fragmentCost text = 2 * text.length := by
  have hw := weight_jsonString text
  have hquote : charWeight '"' = 3 := by decide
  rw [jsonString, jsonEscaped_plain h, weight_cons, weight_append, weight_plain h, weight_cons,
    weight_nil, hquote] at hw
  omega

/-- What an object weighs beside its values. -/
def frameWeight (keys : List String) : Nat := weight (jsonObject (keys.map fun key => (key, [])))

theorem weight_jsonObject (members : List (String × List Char)) :
    weight (jsonObject members)
      = frameWeight (members.map Prod.fst) + (members.map fun m => weight m.2).sum := by
  have hrest : ∀ rest : List (String × List Char),
      weight (jsonMembers rest)
        = weight (jsonMembers (rest.map fun m => (m.1, []))) +
          (rest.map fun m => weight m.2).sum := by
    intro rest
    induction rest with
    | nil => rfl
    | cons m rest ih =>
      obtain ⟨key, value⟩ := m
      simp only [jsonMembers, List.map_cons, List.sum_cons, weight_append, weight_nil,
        weight_cons, ih]
      omega
  cases members with
  | nil => rfl
  | cons m rest =>
    obtain ⟨key, value⟩ := m
    simp only [frameWeight, List.map_cons, List.map_map, jsonObject, List.sum_cons, weight_append,
      weight_nil, weight_cons, hrest rest, Function.comp_def]
    omega

/-! ## 2. Numbers and identifiers -/

theorem plain_of_mem_toDigits {base : Nat} (hbase : 1 < base) (hle : base ≤ 16) :
    ∀ {n : Nat}, ∀ c ∈ Nat.toDigits base n, Plain c := by
  intro n
  induction n using Nat.strongRecOn with
  | ind n ih =>
    intro c hc
    rw [Nat.toDigits_eq_if hbase] at hc
    split at hc
    · rename_i hlt
      rw [List.mem_singleton.mp hc]
      exact plain_digitChar (by omega)
    · rename_i hge
      rcases List.mem_append.mp hc with hc | hc
      · exact ih (n / base) (Nat.div_lt_self (by omega) hbase) c hc
      · rw [List.mem_singleton.mp hc]
        exact plain_digitChar (by have := Nat.mod_lt n (show 0 < base by omega); omega)

theorem length_toDigits_mono {base : Nat} (hbase : 1 < base) {m n : Nat} (h : m ≤ n) :
    (Nat.toDigits base m).length ≤ (Nat.toDigits base n).length := by
  have hn : n < base ^ (Nat.toDigits base n).length :=
    (Nat.length_toDigits_le_iff hbase Nat.length_toDigits_pos).mp le_rfl
  exact (Nat.length_toDigits_le_iff hbase Nat.length_toDigits_pos).mpr (by omega)

theorem plain_decimal (n : Nat) : ∀ c ∈ decimal n, Plain c :=
  plain_of_mem_toDigits (by decide) (by decide)

theorem plain_hex16 (n : Nat) : ∀ c ∈ hex16 n, Plain c := by
  intro c hc
  rcases List.mem_append.mp hc with hc | hc
  · rw [List.eq_of_mem_replicate hc]
    decide
  · exact plain_of_mem_toDigits (by decide) (by decide) c hc

theorem length_hex_le {n : Nat} (h : n < 2 ^ 64) : (hex n).length ≤ 16 := by
  refine (Nat.length_toDigits_le_iff (by decide) (by decide)).mpr ?_
  calc n < 2 ^ 64 := h
    _ = 16 ^ 16 := by decide

/-- An identifier of the store is plain and no longer than the longest one. -/
structure IssuedId (resultId : List Char) : Prop where
  plain : ∀ c ∈ resultId, Plain c
  length : resultId.length ≤ longestResultId.length

theorem length_hex16 {n : Nat} (h : n < 2 ^ 64) : (hex16 n).length = 16 := by
  have := length_hex_le h
  rw [hex16, List.length_append, List.length_replicate]
  omega

theorem plain_longestResultId : ∀ c ∈ longestResultId, Plain c := by
  intro c hc
  rcases List.mem_cons.mp hc with rfl | hc
  · decide
  · rcases List.mem_append.mp hc with hc | hc
    · exact plain_hex16 _ c hc
    · exact plain_of_mem_toDigits (by decide) (by decide) c hc

theorem issuedId_resultId (processKey : UInt64) {sequence : Nat} (h : sequence < 2 ^ 64) :
    IssuedId (resultId processKey sequence).toList where
  plain := by
    intro c hc
    rw [resultId, String.toList_ofList] at hc
    rcases List.mem_cons.mp hc with rfl | hc
    · decide
    · rcases List.mem_append.mp hc with hc | hc
      · exact plain_hex16 _ c hc
      · exact plain_of_mem_toDigits (by decide) (by decide) c hc
  length := by
    have hmono : (hex sequence).length ≤ (hex (2 ^ 64 - 1)).length :=
      length_toDigits_mono (by decide) (by omega)
    rw [resultId, String.toList_ofList, longestResultId, List.length_cons, List.length_cons,
      List.length_append, List.length_append, length_hex16 processKey.toNat_lt,
      length_hex16 (by decide)]
    omega

/-! ## 3. Pages -/

/-- The text of `next_cursor` in a page. -/
def cursorJson (cursor : Option (List Char)) : List Char :=
  (cursor.map jsonString).getD "null".toList

def pageFrame : Nat :=
  frameWeight ["complete", "fragment", "next_cursor", "offset", "total_bytes"]

theorem pageResponseLen_eq (overhead : Nat) (page : ToolResultPage) :
    pageResponseLen overhead page
      = overhead + (pageFrame + (weight (jsonBool page.complete) + (6 + fragmentCost page.fragment)
          + weight (cursorJson page.nextCursor) + 2 * (decimal page.offset).length
          + 2 * (decimal page.totalBytes).length)) := by
  rw [pageResponseLen, structuredLen_eq, ToolResultPage.json, weight_jsonObject]
  simp only [List.map_cons, List.map_nil, List.sum_cons, List.sum_nil, weight_jsonString,
    weight_plain (plain_decimal _)]
  rw [pageFrame, cursorJson]
  omega

theorem weight_cursorJson (cursor : List Char) :
    weight (cursorJson (some cursor)) = 6 + fragmentCost cursor := by
  rw [cursorJson, Option.map_some, Option.getD_some, weight_jsonString]

theorem fragmentCost_append (a b : List Char) :
    fragmentCost (a ++ b) = fragmentCost a + fragmentCost b := by
  rw [fragmentCost, List.map_append, List.sum_append, fragmentCost, fragmentCost]

theorem fragmentCost_cursor (resultId : List Char) (offset : Nat) :
    fragmentCost (encodeCursor resultId offset)
      = fragmentCost resultId + 2 + 2 * (decimal offset).length := by
  have hdot : responseCost '.' = 2 := by decide
  rw [encodeCursor, fragmentCost_append, Nat.add_assoc]
  change _ + (responseCost '.' + fragmentCost (decimal offset)) = _
  rw [hdot, fragmentCost_plain (plain_decimal offset)]

/-- The first measurement takes the longest fragment whose cost stays within the budget. -/
theorem fitEnd_spec (budget : Nat) : ∀ (rest : List Char) (stop cost : Nat), cost ≤ budget →
    ∃ a b, rest = a ++ b ∧ fitEnd budget stop cost rest = stop + byteLen a ∧
      cost + fragmentCost a ≤ budget ∧
      ∀ x l, b = x :: l → budget < cost + fragmentCost a + responseCost x
  | [], stop, cost, h => ⟨[], [], rfl, rfl, h, nofun⟩
  | c :: rest, stop, cost, h => by
    by_cases hnext : budget < cost + responseCost c
    · refine ⟨[], c :: rest, rfl, ?_, h, ?_⟩
      · simp only [fitEnd]
        rw [if_pos hnext]
        rfl
      · intro x l hxl
        cases hxl
        exact hnext
    · obtain ⟨a, b, hab, hend, hcost, hstop⟩ := fitEnd_spec budget rest (stop + c.utf8Size)
        (cost + responseCost c) (by omega)
      have hcons : fragmentCost (c :: a) = responseCost c + fragmentCost a := rfl
      refine ⟨c :: a, b, by rw [hab]; rfl, ?_, ?_, ?_⟩
      · simp only [fitEnd]
        rw [if_neg hnext, hend, byteLen_cons]
        omega
      · omega
      · intro x l hxl
        have := hstop x l hxl
        omega

/-- The page with fragment `b` of the text `a ++ (b ++ c)`. -/
def pageAt (a b c : List Char) (resultId : List Char) : ToolResultPage :=
  { offset := byteLen a, fragment := b
    nextCursor := if c = [] then none else some (encodeCursor resultId (byteLen a + byteLen b))
    complete := decide (c = []), totalBytes := byteLen (a ++ (b ++ c)) }

theorem byteLen_eq_zero_iff {text : List Char} : byteLen text = 0 ↔ text = [] := by
  constructor
  · intro h
    by_contra hne
    have := byteLen_pos hne
    omega
  · rintro rfl
    rfl

theorem pageOf_append (a b c resultId : List Char) :
    pageOf (a ++ (b ++ c)) (byteLen a) (byteLen a + byteLen b) resultId
      = some (pageAt a b c resultId) := by
  have hc : byteLen a + byteLen b = byteLen (a ++ (b ++ c)) ↔ c = [] := by
    rw [← byteLen_eq_zero_iff, byteLen_append, byteLen_append]
    omega
  simp only [pageOf, slice_append, Option.map_some, pageAt, hc, decide_eq_true_eq]

/-- By how much a page is smaller than its skeleton and the cost of its fragment: the last page has
no cursor, another one a cursor with fewer digits. -/
def slack (a b c resultId : List Char) : Nat :=
  if c = [] then fragmentCost (encodeCursor resultId (byteLen (a ++ (b ++ c))))
  else 2 * ((decimal (byteLen (a ++ (b ++ c)))).length - (decimal (byteLen a + byteLen b)).length)

/-- **The size of a page.** -/
theorem pageAt_len (overhead : Nat) (a b c resultId : List Char) :
    pageResponseLen overhead (pageAt a b c resultId) + slack a b c resultId
      = pageResponseLen overhead (skeleton (a ++ (b ++ c)) (byteLen a) resultId)
        + fragmentCost b := by
  have hbools : weight (jsonBool true) = 8 ∧ weight (jsonBool false) = 10 ∧
      weight (cursorJson none) = 8 := by decide +kernel
  have hempty : fragmentCost [] = 0 := rfl
  rw [pageResponseLen_eq, pageResponseLen_eq]
  simp only [pageAt, skeleton, slack, hempty, weight_cursorJson, fragmentCost_cursor, hbools.2.1]
  by_cases hc : c = []
  · simp only [hc, decide_true, if_true, hbools.1, hbools.2.2]
    omega
  · have hle : byteLen a + byteLen b ≤ byteLen (a ++ (b ++ c)) := by
      rw [byteLen_append, byteLen_append]
      omega
    have hlen : (decimal (byteLen a + byteLen b)).length
        ≤ (decimal (byteLen (a ++ (b ++ c)))).length := length_toDigits_mono (by decide) hle
    simp only [hc, decide_false, if_false, hbools.2.1, weight_cursorJson, fragmentCost_cursor]
    omega

/-- `fit_page` answers with what it measured first: the longest fragment whose cost fits beside the
skeleton. -/
theorem fitPage_eq {overhead limit : Nat} {a rest resultId : List Char}
    (hroom : pageResponseLen overhead (skeleton (a ++ rest) (byteLen a) resultId) ≤ limit) :
    ∃ b c, rest = b ++ c ∧
      fitEnd (limit - pageResponseLen overhead (skeleton (a ++ rest) (byteLen a) resultId))
        (byteLen a) 0 rest = byteLen a + byteLen b ∧
      pageResponseLen overhead (skeleton (a ++ rest) (byteLen a) resultId) + fragmentCost b
        ≤ limit ∧
      (∀ x l, c = x :: l → limit < pageResponseLen overhead
        (skeleton (a ++ rest) (byteLen a) resultId) + fragmentCost (b ++ [x])) ∧
      fitPage overhead (a ++ rest) (byteLen a) resultId limit
        = some (if b = [] then .error .limitTooSmall else .ok (pageAt a b c resultId)) := by
  obtain ⟨b, c, hbc, hend, hcost, hstop⟩ := fitEnd_spec
    (limit - pageResponseLen overhead (skeleton (a ++ rest) (byteLen a) resultId)) rest (byteLen a)
    0 (Nat.zero_le _)
  refine ⟨b, c, hbc, hend, by omega, ?_, ?_⟩
  · intro x l hxl
    have hcons := hstop x l hxl
    have hx : fragmentCost [x] = responseCost x := Nat.add_zero _
    rw [fragmentCost_append, hx]
    omega
  · simp only [fitPage]
    rw [if_neg (by omega), splitBytes_append, Option.bind_some, hend, shrinkPage]
    by_cases hb : b = []
    · subst hb
      rw [byteLen_nil, Nat.add_zero, if_pos rfl, if_pos rfl]
    · have hpos := byteLen_pos hb
      have hlen := pageAt_len overhead a b c resultId
      rw [← hbc] at hlen
      have hpage := pageOf_append a b c resultId
      rw [← hbc] at hpage
      rw [if_neg (by omega), if_neg hb, hpage, Option.bind_some, if_pos (by omega)]

/-- `fit_page` from a boundary before the end: when a character fits beside the skeleton, it
returns a page that is not empty and fits, at its first measurement. -/
theorem fitPage_spec {a rest resultId : List Char} {first : Char} {others : List Char}
    (hrest : rest = first :: others) {overhead limit : Nat}
    (hroom : pageResponseLen overhead (skeleton (a ++ rest) (byteLen a) resultId)
      + responseCost first ≤ limit) :
    ∃ b c, rest = b ++ c ∧ b ≠ [] ∧
      fitPage overhead (a ++ rest) (byteLen a) resultId limit = some (.ok (pageAt a b c resultId)) ∧
      pageResponseLen overhead (pageAt a b c resultId) ≤ limit := by
  obtain ⟨b, c, hbc, -, hcost, hstop, hpage⟩ := fitPage_eq (Nat.le_of_add_right_le hroom)
  have hb : b ≠ [] := by
    rintro rfl
    have hfirst : fragmentCost [first] = responseCost first := Nat.add_zero _
    have hmore := hstop first others (hbc.symm.trans hrest)
    rw [List.nil_append, hfirst] at hmore
    omega
  have hlen := pageAt_len overhead a b c resultId
  rw [← hbc] at hlen
  rw [if_neg hb] at hpage
  exact ⟨b, c, hbc, hb, hpage, by omega⟩

/-! ## 4. Cursors -/

theorem parseUsize_decimal {n : Nat} (h : n < 2 ^ 64) : parseUsize (decimal n) = some n := by
  have hne : decimal n ≠ [] := Nat.toDigits_ne_nil
  have hdigits : ∀ c ∈ decimal n, c.isDigit = true := fun c hc =>
    Nat.isDigit_of_mem_toDigits (by decide) (by decide) hc
  have hplus : stripPrefix ['+'] (decimal n) = none := by
    cases hd : decimal n with
    | nil => exact absurd hd hne
    | cons d l =>
      have hdigit := hdigits d (by rw [hd]; exact List.mem_cons_self)
      have : ¬ '+' = d := by
        rintro rfl
        exact absurd hdigit (by decide)
      rw [stripPrefix, if_neg this]
  have hall : (decimal n).all Char.isDigit = true := List.all_eq_true.mpr hdigits
  simp only [parseUsize, hplus, Option.getD_none]
  rw [if_pos ⟨hne, hall⟩, decimal, Nat.ofDigitChars_ten_toDigits, if_pos h]

/-- The cursor of a boundary before the end is decoded to it. -/
theorem decodeCursor_encodeCursor {resultId a b : List Char} (hb : b ≠ [])
    (h : byteLen (a ++ b) < 2 ^ 64) :
    decodeCursor resultId (encodeCursor resultId (byteLen a)) (a ++ b) = some (byteLen a) := by
  have hpos := byteLen_pos hb
  rw [byteLen_append] at h
  have hparse : parseUsize (decimal (byteLen a)) = some (byteLen a) := parseUsize_decimal (by omega)
  have hboundary : isBoundary (a ++ b) (byteLen a) = true := isBoundary_iff.mpr ⟨a, b, rfl, rfl⟩
  have hlt : byteLen a < byteLen (a ++ b) := by
    rw [byteLen_append]
    omega
  have hdot : stripPrefix ['.'] ('.' :: decimal (byteLen a)) = some (decimal (byteLen a)) :=
    stripPrefix_append ['.'] _
  simp only [decodeCursor, encodeCursor, stripPrefix_append, hdot, hparse, Option.bind_eq_bind,
    Option.bind_some]
  rw [if_pos ⟨trivial, hlt, hboundary⟩]

/-- Nothing but the canonical cursor of a boundary before the end is decoded. -/
theorem decodeCursor_canonical {resultId cursor json : List Char} {offset : Nat}
    (h : decodeCursor resultId cursor json = some offset) :
    cursor = encodeCursor resultId offset ∧ offset < byteLen json ∧
      isBoundary json offset = true := by
  simp only [decodeCursor, Option.bind_eq_bind, Option.bind_eq_some_iff] at h
  obtain ⟨_, _, _, _, n, _, hn⟩ := h
  split at hn
  · rename_i hcond
    cases hn
    exact ⟨hcond.1.symm, hcond.2⟩
  · cases hn

/-! ## 5. The walk -/

/-- Reading pages by following `next_cursor` from a cursor to the last page. -/
inductive Walk (read : Option (List Char) → Option (Except ErrorData ToolResultPage)) :
    Option (List Char) → List ToolResultPage → Prop
  | last {cursor : Option (List Char)} {page : ToolResultPage} :
      read cursor = some (.ok page) → page.nextCursor = none → page.complete = true →
      Walk read cursor [page]
  | next {cursor : Option (List Char)} {page : ToolResultPage} {next : List Char}
      {pages : List ToolResultPage} :
      read cursor = some (.ok page) → page.nextCursor = some next → page.complete = false →
      Walk read (some next) pages → Walk read cursor (page :: pages)

/-- The next page begins after this one, where the cursor says. -/
def Follows (resultId json : List Char) (page page' : ToolResultPage) : Prop :=
  page.offset < page'.offset ∧
    ∃ cursor, page.nextCursor = some cursor ∧
      decodeCursor resultId cursor json = some page'.offset

/-- From any boundary before the end that a cursor decodes to, the walk reads the rest. -/
theorem walk_from {resultId json : List Char} {overhead limit : Nat}
    (hlen : byteLen json < 2 ^ 64)
    (hroom : ∀ a first others, json = a ++ first :: others →
      pageResponseLen overhead (skeleton json (byteLen a) resultId) + responseCost first ≤ limit) :
    ∀ (n : Nat) (a rest : List Char) (cursor : Option (List Char)), rest.length ≤ n →
      json = a ++ rest → rest ≠ [] →
      cursorOffset resultId json cursor = some (byteLen a) →
      ∃ page pages, Walk (readToolResultPage overhead json resultId limit) cursor (page :: pages) ∧
        page.offset = byteLen a ∧
        (∀ p ∈ page :: pages, pageResponseLen overhead p ≤ limit) ∧
        (page :: pages).IsChain (Follows resultId json) ∧
        (page :: pages).flatMap ToolResultPage.fragment = rest := by
  intro n
  induction n with
  | zero =>
    intro a rest cursor hn _ hne _
    exact absurd (List.eq_nil_of_length_eq_zero (Nat.le_zero.mp hn)) hne
  | succ n ih =>
    intro a rest cursor hn hjson hne hcursor
    obtain ⟨first, others, hrest⟩ := List.exists_cons_of_ne_nil hne
    have hfit := hroom a first others (by rw [hjson, hrest])
    rw [hjson] at hfit
    obtain ⟨b, c, hbc, hb, hpage, hlimit⟩ := fitPage_spec hrest hfit
    have hread : readToolResultPage overhead json resultId limit cursor
        = some (.ok (pageAt a b c resultId)) := by
      simp only [readToolResultPage, hcursor]
      rw [hjson, hpage]
      rfl
    have hbpos := byteLen_pos hb
    cases hc : c with
    | nil =>
      subst hc
      refine ⟨pageAt a b [] resultId, [], .last hread rfl rfl, rfl, ?_, by simp, ?_⟩
      · simpa using hlimit
      · rw [hbc]
        simp [pageAt]
    | cons first' others' =>
      -- The rest is shorter, since the page is not empty.
      have hcne : c ≠ [] := by rw [hc]; simp
      have hsplit : json = (a ++ b) ++ c := by rw [hjson, hbc, List.append_assoc]
      have hoffset : byteLen a + byteLen b = byteLen (a ++ b) := (byteLen_append a b).symm
      have hdecode : decodeCursor resultId (encodeCursor resultId (byteLen a + byteLen b)) json
          = some (byteLen (a ++ b)) := by
        rw [hoffset, hsplit]
        exact decodeCursor_encodeCursor hcne (by rw [← hsplit]; exact hlen)
      have hshort : c.length ≤ n := by
        have hblen : 0 < b.length := List.length_pos_of_ne_nil hb
        rw [hbc, List.length_append] at hn
        omega
      obtain ⟨page', pages, hwalk, hoff', hlimits, hchain, hfragments⟩ :=
        ih (a ++ b) c (some (encodeCursor resultId (byteLen a + byteLen b))) hshort hsplit hcne
          hdecode
      have hnext : (pageAt a b c resultId).nextCursor
          = some (encodeCursor resultId (byteLen a + byteLen b)) := if_neg hcne
      have hcomplete : (pageAt a b c resultId).complete = false := decide_eq_false hcne
      refine ⟨pageAt a b c resultId, page' :: pages, .next hread hnext hcomplete hwalk, rfl, ?_, ?_,
        ?_⟩
      · intro p hp
        rcases List.mem_cons.mp hp with rfl | hp
        · exact hlimit
        · exact hlimits p hp
      · refine List.isChain_cons_cons.mpr ⟨⟨?_, _, hnext, ?_⟩, hchain⟩
        · rw [hoff', ← hoffset]
          exact Nat.lt_add_of_pos_right hbpos
        · rw [hoff']
          exact hdecode
      · rw [List.flatMap_cons, hfragments, hbc]
        rfl

/-! ## 6. A validated limit -/

/-- The smallest response limit the server starts with. -/
def smallestLimit (overhead maxResultBytes longestToolName : Nat) : Nat :=
  max (structuredLen overhead
      (deferredMarker (List.replicate longestToolName 't') longestResultId maxResultBytes))
    (pageResponseLen overhead (widestPage maxResultBytes))

theorem validateResponseLimit_eq_ok_iff {overhead limit maxResultBytes longestToolName : Nat} :
    validateResponseLimit overhead limit maxResultBytes longestToolName = .ok () ↔
      smallestLimit overhead maxResultBytes longestToolName ≤ limit := by
  simp only [validateResponseLimit, smallestLimit, max_le_iff]
  constructor
  · intro h
    split at h
    · cases h
    · split at h
      · cases h
      · omega
  · intro h
    rw [if_neg (by omega), if_neg (by omega)]

theorem responseCost_le {c : Char} (h : 32 ≤ c.toNat) : responseCost c ≤ 8 := by
  have hsize := c.utf8Size_le_four
  unfold responseCost
  split
  · decide
  · rw [if_neg (by omega), if_neg (by omega)]
    omega

/-- A validated limit has room for one character beside any skeleton. -/
theorem room_of_validated {overhead limit maxResultBytes longestToolName : Nat}
    (h : validateResponseLimit overhead limit maxResultBytes longestToolName = .ok ())
    {resultId json : List Char} (hid : IssuedId resultId) (hjson : byteLen json ≤ maxResultBytes)
    {offset : Nat} (hoffset : offset ≤ byteLen json) {c : Char} (hc : 32 ≤ c.toNat) :
    pageResponseLen overhead (skeleton json offset resultId) + responseCost c ≤ limit := by
  have hwidest := (le_max_right _ _).trans (validateResponseLimit_eq_ok_iff.mp h)
  have hcost := responseCost_le hc
  have hone : fragmentCost [widestFragmentCharacter] = 8 := by decide
  have hnone : fragmentCost [] = 0 := rfl
  have hdigits : ∀ {m : Nat}, m ≤ maxResultBytes →
      (decimal m).length ≤ (decimal maxResultBytes).length := fun hm =>
    length_toDigits_mono (by decide) hm
  have hoff := hdigits (hoffset.trans hjson)
  have htotal := hdigits hjson
  have hidlen := hid.length
  rw [pageResponseLen_eq] at hwidest ⊢
  simp only [widestPage, skeleton, weight_cursorJson, fragmentCost_cursor,
    fragmentCost_plain plain_longestResultId, fragmentCost_plain hid.plain, hone, hnone]
    at hwidest ⊢
  omega

/-- **Paging is a round trip.**  For a validated limit and a stored text without raw control
characters, the walk from no cursor builds every page, each within the limit, each where the last
one's cursor says, and the fragments are the text.  No other string is a cursor. -/
theorem pages_round_trip {overhead limit longestToolName : Nat} {maxResultBytes : UInt64}
    (hvalid : validateResponseLimit overhead limit maxResultBytes.toNat longestToolName = .ok ())
    {store : ResultStore} (hstore : store.maxBytes ≤ maxResultBytes.toNat)
    (hsequence : store.nextSequence < 2 ^ 64) {projectRoot : PathBuf} {json id : String} {now : Nat}
    (hstored : (store.insert projectRoot json now).1 = .ok id) (hne : json ≠ "")
    (hraw : ∀ c ∈ json.toList, 32 ≤ c.toNat) :
    (∃ page pages,
      Walk (readToolResultPage overhead json.toList id.toList limit) none (page :: pages) ∧
        page.offset = 0 ∧
        (∀ p ∈ page :: pages, pageResponseLen overhead p ≤ limit) ∧
        (page :: pages).IsChain (Follows id.toList json.toList) ∧
        (page :: pages).flatMap ToolResultPage.fragment = json.toList) ∧
      ∀ cursor offset, decodeCursor id.toList cursor json.toList = some offset →
        cursor = encodeCursor id.toList offset ∧ offset < byteLen json.toList ∧
          isBoundary json.toList offset = true := by
  obtain ⟨hid, hsize⟩ := ResultStore.insert_eq_ok hstored
  have hissued : IssuedId id.toList := by
    rw [hid]
    exact issuedId_resultId store.processKey hsequence
  have hbytes : byteLen json.toList ≤ maxResultBytes.toNat := by
    rw [byteLen_toList]
    rw [retainedSize] at hsize
    omega
  have hlt : byteLen json.toList < 2 ^ 64 := lt_of_le_of_lt hbytes maxResultBytes.toNat_lt
  have htext : json.toList ≠ [] := fun h => hne (String.toList_eq_nil_iff.mp h)
  refine ⟨?_, fun cursor offset h => decodeCursor_canonical h⟩
  refine walk_from hlt (fun a first others hsplit => ?_) _ [] json.toList none le_rfl
    rfl htext rfl
  have hfirst : first ∈ json.toList := by rw [hsplit]; simp
  have hoffset : byteLen a ≤ byteLen json.toList := by
    rw [hsplit, byteLen_append]
    omega
  exact room_of_validated hvalid hissued hbytes hoffset (hraw first hfirst)

/-- A text with quotes, a backslash and a wide character, in a store of 200 bytes, read within the
smallest limit. -/
theorem pages_round_trip_escaped :
    ∃ page pages,
      Walk (readToolResultPage 74 "[\"a\\u0001\",\"😀\"]".toList
          (resultId 7 0).toList (smallestLimit 74 200 30)) none (page :: pages) ∧
        (page :: pages).flatMap ToolResultPage.fragment = "[\"a\\u0001\",\"😀\"]".toList := by
  have hvalid :
      validateResponseLimit 74 (smallestLimit 74 200 30) (200 : UInt64).toNat 30 = .ok () :=
    validateResponseLimit_eq_ok_iff.mpr le_rfl
  have hstored : ((ResultStore.withProcessKey 200 7).insert [47, 112] "[\"a\\u0001\",\"😀\"]" 1).1
      = .ok (resultId 7 0) := by decide +kernel
  obtain ⟨⟨page, pages, hwalk, -, -, -, htext⟩, -⟩ :=
    pages_round_trip hvalid (le_refl 200) (by decide) hstored (by decide) (by decide +kernel)
  exact ⟨page, pages, hwalk, htext⟩

end MavenMcp
