/-
# How long a page is

The cost of a character is exact, so the size that `fit_page` measures first is the right one and
its shrink loop never removes anything (`page_cost_exact`).  What it fills is the room beside a
skeleton with the longest cursor.  A page with fewer digits in its cursor, and above all the last
page, which has none, are smaller than that: where the next character falls into this slack, the
page is not the longest one (`fitPage_longest_iff`), and a remainder that fits is split in two.
-/
import MavenMcp.Server.Paging

namespace MavenMcp

open Text

/-! ## 1. The cost of a fragment -/

/-- **The cost of a page is exact**: every character adds its cost, and `fit_page` answers with the
page it measures first. -/
theorem page_cost_exact (overhead : Nat) :
    (∀ page : ToolResultPage, pageResponseLen overhead page
      = pageResponseLen overhead { page with fragment := [] }
        + (page.fragment.map responseCost).sum) ∧
    ∀ (a rest resultId : List Char) (limit : Nat),
      fitPage overhead (a ++ rest) (byteLen a) resultId limit =
        let skeletonLen := pageResponseLen overhead (skeleton (a ++ rest) (byteLen a) resultId)
        if limit < skeletonLen then some (.error .limitTooSmall)
        else
          let stop := fitEnd (limit - skeletonLen) (byteLen a) 0 rest
          if stop = byteLen a then some (.error .limitTooSmall)
          else (pageOf (a ++ rest) (byteLen a) stop resultId).map .ok := by
  constructor
  · intro page
    have hempty : fragmentCost [] = 0 := rfl
    rw [pageResponseLen_eq, pageResponseLen_eq, hempty, fragmentCost]
    simp only
    omega
  · intro a rest resultId limit
    simp only
    split
    · rename_i hlimit
      simp only [fitPage, if_pos hlimit]
    · rename_i hlimit
      obtain ⟨b, c, rfl, hend, -, -, hpage⟩ := fitPage_eq (Nat.le_of_not_lt hlimit)
      rw [hpage, hend, pageOf_append]
      by_cases hb : b = []
      · rw [if_pos hb, if_pos (by rw [hb]; rfl)]
      · have hpos := byteLen_pos hb
        rw [if_neg hb, if_neg (by omega), Option.map_some]

/-! ## 2. The longest page -/

theorem fragmentCost_le_of_prefix {b b' : List Char} (h : b <+: b') :
    fragmentCost b ≤ fragmentCost b' := by
  obtain ⟨t, rfl⟩ := h
  rw [fragmentCost_append]
  exact Nat.le_add_right _ _

/-- No longer prefix of the remaining text makes a page within the limit. -/
def Longest (overhead limit : Nat) (a rest resultId : List Char) (page : ToolResultPage) : Prop :=
  ∀ b c page', rest = b ++ c → page.fragment.length < b.length →
    pageOf (a ++ rest) (byteLen a) (byteLen a + byteLen b) resultId = some page' →
    limit < pageResponseLen overhead page'

theorem not_longest {overhead limit : Nat} {a b c rest resultId : List Char} {page : ToolResultPage}
    (hsplit : rest = b ++ c) (hlength : page.fragment.length < b.length)
    (hlen : pageResponseLen overhead (pageAt a b c resultId) ≤ limit) :
    ¬ Longest overhead limit a rest resultId page := by
  intro hlongest
  have hpage : pageOf (a ++ rest) (byteLen a) (byteLen a + byteLen b) resultId
      = some (pageAt a b c resultId) := by rw [hsplit, pageOf_append]
  exact Nat.not_lt.mpr hlen (hlongest b c _ hsplit hlength hpage)

/-- What the skeleton leaves for a fragment. -/
def room (overhead limit : Nat) (a rest resultId : List Char) : Nat :=
  limit - pageResponseLen overhead (skeleton (a ++ rest) (byteLen a) resultId)

/-- The text does not run into the slack beside the room. -/
structure NoSlack (overhead limit : Nat) (a rest resultId : List Char) : Prop where
  /-- The remainder fits into the room, or not even into the room and the cursor that the last page
  does not have. -/
  last : fragmentCost rest ≤ room overhead limit a rest resultId ∨
    room overhead limit a rest resultId + fragmentCost (encodeCursor resultId (byteLen (a ++ rest)))
      < fragmentCost rest
  /-- The first character that does not fit into the room, another one behind it, exceeds it by more
  than the digits that the cursor behind it has less than the longest one. -/
  next : ∀ b x c, rest = b ++ x :: c → c ≠ [] →
    fragmentCost b ≤ room overhead limit a rest resultId →
    room overhead limit a rest resultId < fragmentCost (b ++ [x]) →
    room overhead limit a rest resultId + 2 * ((decimal (byteLen (a ++ rest))).length
      - (decimal (byteLen a + byteLen (b ++ [x]))).length) < fragmentCost (b ++ [x])

/-- A page fits where its fragment costs no more than the room and its slack. -/
theorem limit_lt_iff {overhead limit : Nat} {a b c resultId : List Char}
    (hroom : pageResponseLen overhead (skeleton (a ++ (b ++ c)) (byteLen a) resultId) ≤ limit) :
    limit < pageResponseLen overhead (pageAt a b c resultId) ↔
      room overhead limit a (b ++ c) resultId + slack a b c resultId < fragmentCost b := by
  have hlen := pageAt_len overhead a b c resultId
  rw [room]
  omega

/-- What `fit_page` puts into a page: the longest fragment that costs no more than the room. -/
theorem exists_filled {overhead limit : Nat} {a rest resultId : List Char} {page : ToolResultPage}
    (h : fitPage overhead (a ++ rest) (byteLen a) resultId limit = some (.ok page)) :
    pageResponseLen overhead (skeleton (a ++ rest) (byteLen a) resultId) ≤ limit ∧
      ∃ c, rest = page.fragment ++ c ∧
        fragmentCost page.fragment ≤ room overhead limit a rest resultId ∧
        ∀ x l, c = x :: l →
          room overhead limit a rest resultId < fragmentCost (page.fragment ++ [x]) := by
  have hroom : pageResponseLen overhead (skeleton (a ++ rest) (byteLen a) resultId) ≤ limit := by
    by_contra hlimit
    simp only [fitPage, if_pos (Nat.lt_of_not_le hlimit)] at h
    cases h
  obtain ⟨b, c, hbc, -, hcost, hstop, hpage⟩ := fitPage_eq hroom
  rw [hpage] at h
  split at h
  · cases h
  · cases h
    refine ⟨hroom, c, hbc, ?_, fun x l hxl => ?_⟩
    · change fragmentCost b ≤ _
      rw [room]
      omega
    · have hover := hstop x l hxl
      change _ < fragmentCost (b ++ [x])
      rw [room]
      omega

theorem noSlack_of_longest {overhead limit : Nat} {a rest resultId : List Char}
    {page : ToolResultPage}
    (h : fitPage overhead (a ++ rest) (byteLen a) resultId limit = some (.ok page))
    (hlongest : Longest overhead limit a rest resultId page) :
    NoSlack overhead limit a rest resultId := by
  obtain ⟨hroom, c, hbc, hcost, -⟩ := exists_filled h
  have hlonger {b' c' : List Char} (hb' : rest = b' ++ c')
      (hover : room overhead limit a rest resultId < fragmentCost b') :
      room overhead limit a rest resultId + slack a b' c' resultId < fragmentCost b' := by
    have hlength : page.fragment.length < b'.length := by
      by_contra hle
      have hprefix : b' <+: page.fragment :=
        List.prefix_of_prefix_length_le (hb' ▸ List.prefix_append b' c')
          (hbc ▸ List.prefix_append page.fragment c) (Nat.le_of_not_lt hle)
      have := fragmentCost_le_of_prefix hprefix
      omega
    have hlimit := hlongest b' c' (pageAt a b' c' resultId) hb' hlength
      (by rw [hb']; exact pageOf_append a b' c' resultId)
    rw [hb'] at hroom ⊢
    exact (limit_lt_iff hroom).mp hlimit
  constructor
  · by_cases hlast : fragmentCost rest ≤ room overhead limit a rest resultId
    · exact .inl hlast
    · have hslack := hlonger (List.append_nil rest).symm (Nat.lt_of_not_le hlast)
      rw [slack, if_pos rfl, List.append_nil] at hslack
      exact .inr hslack
  · intro b' x c' hsplit hc' _ hover
    have heq : rest = b' ++ [x] ++ c' := by rw [hsplit, List.append_assoc]; rfl
    have hslack := hlonger heq hover
    rw [slack, if_neg hc', ← List.append_assoc, List.append_assoc, ← heq] at hslack
    exact hslack

theorem longest_of_noSlack {overhead limit : Nat} {a rest resultId : List Char}
    {page : ToolResultPage}
    (h : fitPage overhead (a ++ rest) (byteLen a) resultId limit = some (.ok page))
    (hslack : NoSlack overhead limit a rest resultId) :
    Longest overhead limit a rest resultId page := by
  obtain ⟨hroom, c, hbc, hcost, hstop⟩ := exists_filled h
  intro b' c' page' hsplit hlength hpage'
  rw [hsplit, pageOf_append] at hpage'
  cases hpage'
  rw [hsplit] at hroom
  refine (limit_lt_iff hroom).mpr ?_
  rw [← hsplit]
  -- the character that `fit_page` stopped at is in the longer prefix
  obtain ⟨x, m, hb'⟩ : ∃ x m, b' = page.fragment ++ x :: m := by
    obtain ⟨t, rfl⟩ := List.prefix_of_prefix_length_le (hbc ▸ List.prefix_append page.fragment c)
      (hsplit ▸ List.prefix_append b' c') (Nat.le_of_lt hlength)
    cases t with
    | nil =>
      rw [List.append_nil] at hlength
      exact absurd hlength (Nat.lt_irrefl _)
    | cons x m => exact ⟨x, m, rfl⟩
  have hc : c = x :: (m ++ c') := by
    rw [hbc, hb', List.append_assoc] at hsplit
    exact List.append_cancel_left hsplit
  have hover := hstop x _ hc
  have hmore : page.fragment ++ [x] <+: b' := ⟨m, by rw [hb', List.append_assoc]; rfl⟩
  have hcosts := fragmentCost_le_of_prefix hmore
  by_cases hc' : c' = []
  · rw [slack, if_pos hc', ← hsplit]
    rw [hc', List.append_nil] at hsplit
    rw [← hsplit] at hcosts ⊢
    have := hslack.last
    omega
  · have hne : m ++ c' ≠ [] := fun hnil => hc' (List.append_eq_nil_iff.mp hnil).2
    have hnext := hslack.next page.fragment x (m ++ c') (by rw [hbc, hc]) hne hcost hover
    have hdigits : (decimal (byteLen a + byteLen (page.fragment ++ [x]))).length
        ≤ (decimal (byteLen a + byteLen b')).length := by
      refine length_toDigits_mono (by decide) (Nat.add_le_add_left ?_ _)
      obtain ⟨t, ht⟩ := hmore
      rw [← ht, byteLen_append (page.fragment ++ [x])]
      exact Nat.le_add_right _ _
    rw [slack, if_neg hc', ← hsplit]
    omega

theorem fragmentCost_literal (text : List Char) :
    fragmentCost (String.ofList text).toList = fragmentCost text := by rw [String.toList_ofList]

theorem fragmentCost_concat {s t : String} {m n : Nat} (hs : fragmentCost s.toList = m)
    (ht : fragmentCost t.toList = n) : fragmentCost (s ++ t).toList = m + n := by
  rw [String.toList_append, fragmentCost_append, hs, ht]

theorem fragmentCost_instruction : fragmentCost deferredInstruction.toList = 1080 := by
  delta deferredInstruction
  -- by parts: what a long string holds is slow to evaluate as a whole
  have part := fragmentCost_literal
  refine (fragmentCost_concat (fragmentCost_concat (fragmentCost_concat (fragmentCost_concat
    (fragmentCost_concat (part _) (part _)) (part _)) (part _)) (part _)) (part _)).trans ?_
  decide +kernel

theorem deferredMarker_len :
    structuredLen 74 (deferredMarker (List.replicate 30 't') longestResultId 2000) ≤ 1656 := by
  simp only [structuredLen_eq, deferredMarker, weight_jsonObject, List.map_cons, List.map_nil,
    List.sum_cons, List.sum_nil, weight_jsonString, fragmentCost_instruction]
  decide +kernel

/-- The start of a stored text that is read page by page. -/
def longStart : List Char := '"' :: List.replicate 499 'x'

end MavenMcp
