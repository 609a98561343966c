/-
# Linked brackets

`match_brackets` walks over the tokens with a stack.  A stray closer takes its opener from below the
top and loses what lies above, so brackets may stay unlinked; but those that are linked never cross
(`matchBrackets_nested`).  The induction is over the tokens, and what carries it is that no bracket
on the stack lies inside of a linked pair.

Where the brackets are balanced nothing is lost: each group leaves the stack as it found it
(`Balanced.run`), so the links are the pairs of the standard matching (`matchBrackets_spec`).
-/
import MavenMcp.DeclarationSource.Lexer

namespace MavenMcp.DeclarationSource

/-- The brackets at two positions open and close one group. -/
structure Pair (tokens : List Token) (i j : Nat) (first last : Token) : Prop where
  firstAt : tokens[i]? = some first
  lastAt : tokens[j]? = some last
  kinds : first.kind = .punctuation ∧ last.kind = .punctuation
  opener : openerOf last.text = some first.text
  lt : i < j

/-- Links that run both ways, between brackets of one group, and do not cross. -/
structure Nested (tokens : List Token) (partner : Nat → Option Nat) : Prop where
  symm : ∀ i j, partner i = some j → partner j = some i
  pair : ∀ i j, partner i = some j → i < j → ∃ first last, Pair tokens i j first last
  ne : ∀ i j, partner i = some j → i ≠ j
  laminar : ∀ i i' j j', partner i = some i' → partner j = some j' → i < j → j < i' →
    i < j' ∧ j' < i'

theorem Nested.empty (tokens : List Token) : Nested tokens fun _ => none :=
  ⟨nofun, nofun, nofun, nofun⟩

/-- One more pair of links. -/
def link (partner : Nat → Option Nat) (start index i : Nat) : Option Nat :=
  if i = index then some start else if i = start then some index else partner i

/-- **A pair that does not run into an older one may be linked.** -/
theorem Nested.link {tokens : List Token} {partner : Nat → Option Nat} (h : Nested tokens partner)
    {start index : Nat} {first last : Token} (hpair : Pair tokens start index first last)
    (hstart : partner start = none) (hindex : ∀ i, index ≤ i → partner i = none)
    (houtside : ∀ i i', partner i = some i' → i < start → ¬ start < i') :
    Nested tokens (link partner start index) := by
  have hlt := hpair.lt
  have hbelow {i j : Nat} (hij : partner i = some j) : i < index ∧ i ≠ start := by
    refine ⟨?_, ?_⟩
    · by_contra hge
      rw [hindex i (Nat.le_of_not_lt hge)] at hij
      cases hij
    · rintro rfl
      rw [hstart] at hij
      cases hij
  -- A link is the new one, in one of its two directions, or an old one.
  have hcases {i j : Nat} (hij : DeclarationSource.link partner start index i = some j) :
      (i = index ∧ j = start) ∨ (i = start ∧ j = index) ∨ partner i = some j := by
    rw [DeclarationSource.link] at hij
    split at hij
    · cases hij
      exact .inl ⟨by assumption, rfl⟩
    · split at hij
      · cases hij
        exact .inr (.inl ⟨by assumption, rfl⟩)
      · exact .inr (.inr hij)
  refine ⟨fun i j hij => ?_, fun i j hij hlt' => ?_, fun i j hij => ?_,
    fun i i' j j' hi hj hij hji => ?_⟩
  · rcases hcases hij with ⟨rfl, rfl⟩ | ⟨rfl, rfl⟩ | hold
    · simp only [DeclarationSource.link, if_neg (Nat.ne_of_lt hlt), if_true]
    · simp only [DeclarationSource.link, if_true]
    · have hj := hbelow (h.symm i j hold)
      rw [DeclarationSource.link, if_neg (Nat.ne_of_lt hj.1), if_neg hj.2]
      exact h.symm i j hold
  · rcases hcases hij with ⟨rfl, rfl⟩ | ⟨rfl, rfl⟩ | hold
    · omega
    · exact ⟨first, last, hpair⟩
    · exact h.pair i j hold hlt'
  · rcases hcases hij with ⟨rfl, rfl⟩ | ⟨rfl, rfl⟩ | hold
    · omega
    · omega
    · exact h.ne i j hold
  · rcases hcases hi with ⟨rfl, rfl⟩ | ⟨rfl, rfl⟩ | hold
    · omega
    · rcases hcases hj with ⟨rfl, rfl⟩ | ⟨rfl, rfl⟩ | hold
      · omega
      · omega
      · -- an old pair that begins inside of the new one
        have hj' := hbelow (h.symm j j' hold)
        refine ⟨?_, hj'.1⟩
        by_contra hle
        have := hj'.2
        exact houtside j' j (h.symm j j' hold) (by omega) hij
    · have hi' := hbelow (h.symm i i' hold)
      rcases hcases hj with ⟨rfl, rfl⟩ | ⟨rfl, rfl⟩ | hold'
      · omega
      · exact absurd hji (houtside i i' hold hij)
      · exact h.laminar i i' j j' hold hold' hij hji

/-! ## The walk over the tokens -/

def BracketState.partner (s : BracketState) (i : Nat) : Option Nat := s.matching[i]?.join

/-- The state of the loop after the first `n` tokens. -/
structure BracketState.Walked (tokens : List Token) (n : Nat) (s : BracketState) : Prop where
  length : s.matching.length = tokens.length
  nested : Nested tokens s.partner
  unlinked : ∀ i, n ≤ i → s.partner i = none
  sorted : s.opened.Pairwise fun later earlier => earlier.1 < later.1
  opened : ∀ e ∈ s.opened, e.1 < n ∧ s.partner e.1 = none ∧
    ∃ token, tokens[e.1]? = some token ∧ token.kind = .punctuation ∧ token.text = e.2
  outside : ∀ i i', s.partner i = some i' → ∀ e ∈ s.opened, i < e.1 → ¬ e.1 < i'

theorem BracketState.Walked.skip {tokens : List Token} {n : Nat} {s : BracketState}
    (h : s.Walked tokens n) : s.Walked tokens (n + 1) where
  length := h.length
  nested := h.nested
  unlinked i hi := h.unlinked i (by omega)
  sorted := h.sorted
  opened e he := ⟨Nat.lt_succ_of_lt (h.opened e he).1, (h.opened e he).2⟩
  outside := h.outside

theorem BracketState.partner_set {s : BracketState} {start index : Nat}
    (hindex : index < s.matching.length) (hstart : start < s.matching.length)
    (opened : List (Nat × Str)) :
    BracketState.partner
      { matching := (s.matching.set start (some index)).set index (some start), opened }
      = link s.partner start index := by
  funext i
  rw [BracketState.partner, link]
  split
  · rename_i hi
    rw [hi, List.getElem?_set_self (by rw [List.length_set]; exact hindex)]
    rfl
  · rename_i hi
    rw [List.getElem?_set_ne (Ne.symm hi)]
    split
    · rename_i hi
      rw [hi, List.getElem?_set_self hstart]
      rfl
    · rename_i hi
      rw [List.getElem?_set_ne (Ne.symm hi)]
      rfl

/-- An opener goes onto the stack. -/
theorem BracketState.Walked.push {tokens : List Token} {n : Nat} {s : BracketState} {token : Token}
    (h : s.Walked tokens n) (htoken : tokens[n]? = some token)
    (hkind : token.kind = .punctuation) :
    BracketState.Walked tokens (n + 1) { s with opened := (n, token.text) :: s.opened } where
  length := h.length
  nested := h.nested
  unlinked i hi := h.unlinked i (by omega)
  sorted := List.pairwise_cons.mpr ⟨fun e he => (h.opened e he).1, h.sorted⟩
  opened e he := by
    cases he with
    | head => exact ⟨Nat.lt_succ_self n, h.unlinked n (Nat.le_refl n), token, htoken, hkind, rfl⟩
    | tail _ he => exact ⟨Nat.lt_succ_of_lt (h.opened e he).1, (h.opened e he).2⟩
  outside i i' hi e he := by
    cases he with
    | head =>
      intro _ hlt
      have hnone := h.unlinked i' (Nat.le_of_lt hlt)
      have hsome := h.nested.symm i i' hi
      rw [hnone] at hsome
      cases hsome
    | tail _ he => exact h.outside i i' hi e he

/-- A closer is linked to an opener on the stack, and what lies above is lost. -/
theorem BracketState.Walked.close {tokens : List Token} {n : Nat} {s : BracketState}
    {token : Token} {front back : List (Nat × Str)} {start : Nat} {opener : Str}
    (h : s.Walked tokens n) (htoken : tokens[n]? = some token)
    (hkind : token.kind = .punctuation) (hopener : openerOf token.text = some opener)
    (hopened : s.opened = front ++ (start, opener) :: back) :
    BracketState.Walked tokens (n + 1)
      { matching := (s.matching.set start (some n)).set n (some start), opened := back } := by
  have hmem : (start, opener) ∈ s.opened := by rw [hopened]; simp
  have hback : ∀ e ∈ back, e ∈ s.opened := fun e he => by rw [hopened]; simp [he]
  obtain ⟨hlt, hnone, first, hfirst, hfirstKind, htext⟩ := h.opened _ hmem
  have hn : n < s.matching.length := by
    rw [h.length]
    exact (List.getElem?_eq_some_iff.mp htoken).1
  have hpartner := s.partner_set hn (Nat.lt_trans hlt hn) back
  have hbelow : ∀ e ∈ back, e.1 < start := by
    have hsorted := h.sorted
    rw [hopened, List.pairwise_append] at hsorted
    exact (List.pairwise_cons.mp hsorted.2.1).1
  have hpair : Pair tokens start n first token :=
    ⟨hfirst, htoken, ⟨hfirstKind, hkind⟩, by rw [hopener, htext], hlt⟩
  constructor
  · rw [List.length_set, List.length_set]
    exact h.length
  · rw [hpartner]
    exact h.nested.link hpair hnone h.unlinked fun i i' hi => h.outside i i' hi _ hmem
  · intro i hi
    rw [hpartner, link, if_neg (by omega), if_neg (by omega)]
    exact h.unlinked i (by omega)
  · have hsorted := h.sorted
    rw [hopened, List.pairwise_append] at hsorted
    exact (List.pairwise_cons.mp hsorted.2.1).2
  · intro e he
    have hold := h.opened e (hback e he)
    have hlt' := hbelow e he
    refine ⟨Nat.lt_succ_of_lt hold.1, ?_, hold.2.2⟩
    rw [hpartner, link, if_neg (by omega), if_neg (by omega)]
    exact hold.2.1
  · intro i i' hi e he hie hei
    have hlt' := hbelow e he
    rw [hpartner, link] at hi
    split at hi
    · omega
    · split at hi
      · omega
      · exact h.outside i i' hi e (hback e he) hie hei

/-- One token. -/
theorem BracketState.Walked.step {tokens : List Token} {n : Nat} {s : BracketState} {token : Token}
    (h : s.Walked tokens n) (htoken : tokens[n]? = some token) :
    (matchToken s (token, n)).Walked tokens (n + 1) := by
  simp only [matchToken]
  split
  · exact h.skip
  · rename_i hkind
    have hkind := not_not.mp hkind
    split
    · exact h.push htoken hkind
    · split
      · exact h.skip
      · rename_i opener hopener
        split
        · exact h.skip
        · rename_i position hposition
          obtain ⟨hlt, hfound, -⟩ := List.findIdx?_eq_some_iff_getElem.mp hposition
          have hlt' : position < s.opened.length :=
            Nat.lt_of_lt_of_le hlt (List.length_take_le' _ _)
          rw [List.getElem_take, decide_eq_true_eq] at hfound
          have hget : s.opened.getD position (0, []) = (s.opened[position].1, opener) := by
            rw [List.getD_eq_getElem?_getD, List.getElem?_eq_getElem hlt', Option.getD_some,
              ← hfound]
          rw [hget]
          have hopened : s.opened = s.opened.take position ++
              (s.opened[position].1, opener) :: s.opened.drop (position + 1) := by
            rw [← hfound, ← List.drop_eq_getElem_cons hlt', List.take_append_drop]
          exact h.close htoken hkind hopener hopened

/-- **Linked brackets never cross.** -/
theorem matchBrackets_nested (tokens : List Token) :
    Nested tokens fun i => (matchBrackets tokens)[i]?.join := by
  have hwalk : ∀ (rest before : List Token) (s : BracketState), tokens = before ++ rest →
      s.Walked tokens before.length →
      ((rest.zipIdx before.length).foldl matchToken s).Walked tokens tokens.length := by
    intro rest
    induction rest with
    | nil =>
      intro before s htokens h
      rw [htokens, List.append_nil] at h ⊢
      exact h
    | cons token rest ih =>
      intro before s htokens h
      have htoken : tokens[before.length]? = some token := by
        rw [htokens, List.getElem?_append_right (Nat.le_refl _), Nat.sub_self]
        rfl
      have hnext := ih (before ++ [token]) (matchToken s (token, before.length))
        (by rw [htokens, List.append_assoc]; rfl)
        (by rw [List.length_append]; exact h.step htoken)
      rw [List.length_append] at hnext
      exact hnext
  have hstart : BracketState.Walked tokens ([] : List Token).length
      { matching := List.replicate tokens.length none, opened := [] } := by
    have hpartner : BracketState.partner
        { matching := List.replicate tokens.length none, opened := [] } = fun _ => none := by
      funext i
      rw [BracketState.partner, List.getElem?_replicate]
      split
      · rfl
      · rfl
    exact ⟨List.length_replicate, hpartner ▸ Nested.empty tokens, fun i _ => congrFun hpartner i,
      .nil, nofun, fun _ _ _ => nofun⟩
  exact (hwalk tokens [] _ rfl hstart).nested

/-! ## Balanced tokens -/

def Token.IsBracket (token : Token) : Prop :=
  token.kind = .punctuation ∧
    (token.text ∈ [['('], ['['], ['{']] ∨ (openerOf token.text).isSome)

/-- Tokens from position `n` on whose brackets are balanced, and the positions that the standard
matching pairs. -/
inductive Balanced : Nat → List Token → List (Nat × Nat) → Prop
  | nil (n : Nat) : Balanced n [] []
  | other {n : Nat} {token : Token} {rest : List Token} {pairs : List (Nat × Nat)}
      (hother : ¬ token.IsBracket) (h : Balanced (n + 1) rest pairs) :
      Balanced n (token :: rest) pairs
  | group {n : Nat} {first last : Token} {inner rest : List Token}
      {pairs pairs' : List (Nat × Nat)}
      (hkinds : first.kind = .punctuation ∧ last.kind = .punctuation)
      (hopener : openerOf last.text = some first.text) (hinner : Balanced (n + 1) inner pairs)
      (hrest : Balanced (n + 1 + inner.length + 1) rest pairs') :
      Balanced n (first :: (inner ++ last :: rest))
        (pairs ++ (n, n + 1 + inner.length) :: pairs')

theorem Balanced.range {n : Nat} {tokens : List Token} {pairs : List (Nat × Nat)}
    (h : Balanced n tokens pairs) :
    ∀ e ∈ pairs, n ≤ e.1 ∧ e.1 < e.2 ∧ e.2 < n + tokens.length := by
  induction h with
  | nil => exact nofun
  | other _ _ ih =>
    intro e he
    have := ih e he
    rw [List.length_cons]
    omega
  | group _ _ _ _ ihInner ihRest =>
    intro e he
    simp only [List.length_cons, List.length_append]
    rcases List.mem_append.mp he with he | he
    · have := ihInner e he
      omega
    · rcases List.mem_cons.mp he with rfl | he
      · simp only
        omega
      · have := ihRest e he
        omega

/-- Every bracket is paired. -/
theorem Balanced.exists_pair {n : Nat} {tokens : List Token} {pairs : List (Nat × Nat)}
    (h : Balanced n tokens pairs) {i : Nat} {token : Token} (htoken : tokens[i]? = some token)
    (hbracket : token.IsBracket) : ∃ e ∈ pairs, e.1 = n + i ∨ e.2 = n + i := by
  induction h generalizing i with
  | nil => cases htoken
  | @other n other rest pairs hother _ ih =>
    cases i with
    | zero =>
      cases htoken
      exact absurd hbracket hother
    | succ i =>
      obtain ⟨e, he, hi⟩ := ih htoken
      exact ⟨e, he, by omega⟩
  | @group n first last inner rest pairs pairs' _ _ _ _ ihInner ihRest =>
    cases i with
    | zero => exact ⟨_, List.mem_append_right _ List.mem_cons_self, .inl rfl⟩
    | succ i =>
      rw [List.getElem?_cons_succ] at htoken
      rcases Nat.lt_trichotomy i inner.length with hi | rfl | hi
      · rw [List.getElem?_append_left hi] at htoken
        obtain ⟨e, he, hi⟩ := ihInner htoken
        exact ⟨e, List.mem_append_left _ he, by omega⟩
      · exact ⟨_, List.mem_append_right _ List.mem_cons_self, .inr (by simp only; omega)⟩
      · obtain ⟨k, rfl⟩ := Nat.exists_eq_add_of_lt hi
        rw [List.getElem?_append_right (by omega),
          show inner.length + k + 1 - inner.length = k + 1 by
          omega, List.getElem?_cons_succ] at htoken
        obtain ⟨e, he, hi⟩ := ihRest htoken
        exact ⟨e, List.mem_append_right _ (List.mem_cons_of_mem _ he), by omega⟩

theorem opener_mem {closing opener : Str} (h : openerOf closing = some opener) :
    closing ∉ [['('], ['['], ['{']] ∧ opener ∈ [['('], ['['], ['{']] := by
  unfold openerOf at h
  split at h
  · rename_i hclosing
    cases h
    rw [hclosing]
    decide
  · split at h
    · rename_i hclosing
      cases h
      rw [hclosing]
      decide
    · split at h
      · rename_i hclosing
        cases h
        rw [hclosing]
        decide
      · cases h

theorem matchToken_other {token : Token} (h : ¬ token.IsBracket) (s : BracketState) (n : Nat) :
    matchToken s (token, n) = s := by
  simp only [matchToken]
  split
  · rfl
  · rename_i hkind
    rw [Token.IsBracket, not_and_or, not_or, Bool.not_eq_true, Option.isSome_eq_false_iff,
      Option.isNone_iff_eq_none] at h
    obtain ⟨hopen, hclose⟩ := h.resolve_left fun hne => hkind hne
    rw [if_neg hopen, hclose]

theorem matchToken_open {token : Token} (hkind : token.kind = .punctuation)
    (h : token.text ∈ [['('], ['['], ['{']]) (s : BracketState) (n : Nat) :
    matchToken s (token, n) = { s with opened := (n, token.text) :: s.opened } := by
  simp only [matchToken, hkind, ne_eq, not_true_eq_false, if_false, if_pos h]

/-- A closer finds its opener on the top of the stack. -/
theorem matchToken_close {token : Token} {opener : Str} {s : BracketState} {start : Nat}
    {back : List (Nat × Str)} (hkind : token.kind = .punctuation)
    (h : openerOf token.text = some opener) (hopened : s.opened = (start, opener) :: back)
    (n : Nat) :
    matchToken s (token, n)
      = { matching := (s.matching.set start (some n)).set n (some start), opened := back } := by
  have htop : ((s.opened.take maxBracketRecovery).findIdx? fun entry => entry.2 = opener)
      = some 0 := by
    rw [hopened, maxBracketRecovery, List.take_succ_cons, List.findIdx?_cons,
      if_pos (decide_eq_true rfl)]
  simp only [matchToken, hkind, ne_eq, not_true_eq_false, if_false,
    if_neg (opener_mem h).1, h, htop]
  rw [hopened]
  rfl

theorem Nested.isBracket {tokens : List Token} {partner : Nat → Option Nat}
    (h : Nested tokens partner)
    {i j : Nat} (hij : partner i = some j) :
    ∃ token, tokens[i]? = some token ∧ token.IsBracket := by
  rcases Nat.lt_or_gt_of_ne (h.ne i j hij) with hlt | hlt
  · obtain ⟨first, last, hpair⟩ := h.pair i j hij hlt
    exact ⟨first, hpair.firstAt, hpair.kinds.1, .inl (opener_mem hpair.opener).2⟩
  · obtain ⟨first, last, hpair⟩ := h.pair j i (h.symm i j hij) hlt
    exact ⟨last, hpair.lastAt, hpair.kinds.2, .inr (by rw [hpair.opener]; rfl)⟩

/-- **The standard matching is what the loop makes**: it comes back to the stack that it started
with, and has linked the pairs and nothing outside. -/
theorem Balanced.run {n : Nat} {tokens : List Token} {pairs : List (Nat × Nat)}
    (h : Balanced n tokens pairs) (s : BracketState)
    (hlength : n + tokens.length ≤ s.matching.length) :
    ((tokens.zipIdx n).foldl matchToken s).opened = s.opened ∧
      ((tokens.zipIdx n).foldl matchToken s).matching.length = s.matching.length ∧
      (∀ i, i < n ∨ n + tokens.length ≤ i →
        ((tokens.zipIdx n).foldl matchToken s).partner i = s.partner i) ∧
      ∀ e ∈ pairs, ((tokens.zipIdx n).foldl matchToken s).partner e.1 = some e.2 ∧
        ((tokens.zipIdx n).foldl matchToken s).partner e.2 = some e.1 := by
  induction h generalizing s with
  | nil => exact ⟨rfl, rfl, fun _ _ => rfl, nofun⟩
  | @other n token rest pairs hother _ ih =>
    rw [List.length_cons] at hlength
    obtain ⟨hopened, hlen, hout, hpairs⟩ := ih s (by omega)
    rw [List.zipIdx_cons, List.foldl_cons, matchToken_other hother, List.length_cons]
    exact ⟨hopened, hlen, fun i hi => hout i (by omega), hpairs⟩
  | @group n first last inner rest pairs pairs' hkinds hopener hinner hrest ihInner ihRest =>
    simp only [List.length_cons, List.length_append] at hlength ⊢
    rw [List.zipIdx_cons, List.foldl_cons, matchToken_open hkinds.1 (opener_mem hopener).2,
      List.zipIdx_append, List.foldl_append, List.zipIdx_cons, List.foldl_cons]
    obtain ⟨hopened, hlen, hout, hpairs⟩ :=
      ihInner { s with opened := (n, first.text) :: s.opened }
        (show n + 1 + inner.length ≤ s.matching.length by omega)
    generalize (inner.zipIdx (n + 1)).foldl matchToken
      { s with opened := (n, first.text) :: s.opened } = s₁ at hopened hlen hout hpairs ⊢
    have hlen : s₁.matching.length = s.matching.length := hlen
    have hout : ∀ i, i < n + 1 ∨ n + 1 + inner.length ≤ i → s₁.partner i = s.partner i := hout
    rw [matchToken_close hkinds.2 hopener hopened]
    have hpartner : BracketState.partner
        { matching := (s₁.matching.set n (some (n + 1 + inner.length))).set (n + 1 + inner.length)
            (some n)
          opened := s.opened }
        = link s₁.partner n (n + 1 + inner.length) :=
      s₁.partner_set (by omega) (by omega) s.opened
    generalize hs₂ : ({
        matching := (s₁.matching.set n (some (n + 1 + inner.length))).set (n + 1 + inner.length)
          (some n)
        opened := s.opened } : BracketState) = s₂ at hpartner ⊢
    have hlen₂ : s₂.matching.length = s.matching.length := by
      rw [← hs₂]
      simp only [List.length_set]
      exact hlen
    have hopened₂ : s₂.opened = s.opened := by rw [← hs₂]
    obtain ⟨hopened₃, hlen₃, hout₃, hpairs₃⟩ := ihRest s₂ (by omega)
    -- What the rest leaves alone is as the closer left it.
    have hkeep {i : Nat} (hi : i < n + 1 + inner.length + 1 ∨
        n + 1 + inner.length + 1 + rest.length ≤ i) :
        ((rest.zipIdx (n + 1 + inner.length + 1)).foldl matchToken s₂).partner i
          = link s₁.partner n (n + 1 + inner.length) i := by
      rw [hout₃ i hi, hpartner]
    refine ⟨by rw [hopened₃, hopened₂], by rw [hlen₃, hlen₂], fun i hi => ?_, fun e he => ?_⟩
    · rw [hkeep (by omega), link, if_neg (by omega), if_neg (by omega), hout i (by omega)]
    · rcases List.mem_append.mp he with he | he
      · have hrange := hinner.range e he
        rw [hkeep (by omega), hkeep (by omega), link, if_neg (by omega), if_neg (by omega), link,
          if_neg (by omega), if_neg (by omega)]
        exact hpairs e he
      · rcases List.mem_cons.mp he with rfl | he
        · simp only
          rw [hkeep (by omega), hkeep (by omega), link, if_neg (by omega), if_pos rfl, link,
            if_pos rfl]
          exact ⟨rfl, rfl⟩
        · exact hpairs₃ e he

/-- The links of a balanced list are its pairs. -/
theorem Balanced.matchBrackets {tokens : List Token} {pairs : List (Nat × Nat)}
    (h : Balanced 0 tokens pairs) :
    ∀ e ∈ pairs, (matchBrackets tokens)[e.1]?.join = some e.2 ∧
      (matchBrackets tokens)[e.2]?.join = some e.1 :=
  (h.run { matching := List.replicate tokens.length none, opened := [] }
    (by simp only [List.length_replicate, Nat.zero_add, Nat.le_refl])).2.2.2

/-- **Links run between an opener and a later closer of its kind and never cross; where the brackets
are balanced, the linked pairs are those of the standard matching.** -/
theorem matchBrackets_spec (tokens : List Token) :
    (Nested tokens fun i => (matchBrackets tokens)[i]?.join) ∧
      ∀ pairs, Balanced 0 tokens pairs →
        (∀ i j, (matchBrackets tokens)[i]?.join = some j ↔ (i, j) ∈ pairs ∨ (j, i) ∈ pairs) ∧
        ∀ (i : Nat) (token : Token), tokens[i]? = some token → token.IsBracket →
          ∃ j, (matchBrackets tokens)[i]?.join = some j := by
  have hnested := matchBrackets_nested tokens
  refine ⟨hnested, fun pairs h => ?_⟩
  have hpaired {i : Nat} {token : Token} (htoken : tokens[i]? = some token)
      (hbracket : token.IsBracket) :
      ∃ j, (matchBrackets tokens)[i]?.join = some j ∧ ((i, j) ∈ pairs ∨ (j, i) ∈ pairs) := by
    obtain ⟨⟨first, last⟩, he, hi⟩ := h.exists_pair htoken hbracket
    rw [Nat.zero_add] at hi
    obtain ⟨hfirst, hlast⟩ := h.matchBrackets _ he
    rcases hi with rfl | rfl
    · exact ⟨last, hfirst, .inl he⟩
    · exact ⟨first, hlast, .inr he⟩
  refine ⟨fun i j => ⟨fun hij => ?_, fun hij => ?_⟩, fun i token htoken hbracket => ?_⟩
  · -- A linked position is that of a bracket, and its pair says where it goes.
    obtain ⟨token, htoken, hbracket⟩ := hnested.isBracket hij
    obtain ⟨j', hij', hmem⟩ := hpaired htoken hbracket
    cases Option.some.inj (hij.symm.trans hij')
    exact hmem
  · rcases hij with hij | hij
    · exact (h.matchBrackets _ hij).1
    · exact (h.matchBrackets _ hij).2
  · obtain ⟨j, hij, -⟩ := hpaired htoken hbracket
    exact ⟨j, hij⟩

/-- `f([])`. -/
def nestedCall : List Token :=
  [⟨.identifier, 0, 1, 0, 0, ['f']⟩, ⟨.punctuation, 1, 2, 0, 0, ['(']⟩,
    ⟨.punctuation, 2, 3, 0, 0, ['[']⟩, ⟨.punctuation, 3, 4, 0, 0, [']']⟩,
    ⟨.punctuation, 4, 5, 0, 0, [')']⟩]

theorem matchBrackets_spec_nestedCall :
    (Nested nestedCall fun i => (matchBrackets nestedCall)[i]?.join) ∧
      (∀ i j, (matchBrackets nestedCall)[i]?.join = some j ↔
        (i, j) ∈ [(2, 3), (1, 4)] ∨ (j, i) ∈ [(2, 3), (1, 4)]) ∧
      ∀ (i : Nat) (token : Token), nestedCall[i]? = some token → token.IsBracket →
        ∃ j, (matchBrackets nestedCall)[i]?.join = some j := by
  have hname : ¬ (⟨.identifier, 0, 1, 0, 0, ['f']⟩ : Token).IsBracket := by simp [Token.IsBracket]
  have hsquare : Balanced 2 [⟨.punctuation, 2, 3, 0, 0, ['[']⟩, ⟨.punctuation, 3, 4, 0, 0, [']']⟩]
      [(2, 3)] :=
    .group ⟨rfl, rfl⟩ (by decide) (.nil 3) (.nil 4)
  have hbalanced : Balanced 0 nestedCall [(2, 3), (1, 4)] :=
    .other hname (.group ⟨rfl, rfl⟩ (by decide) hsquare (.nil 5))
  have hspec := matchBrackets_spec nestedCall
  exact ⟨hspec.1, hspec.2 _ hbalanced⟩

end MavenMcp.DeclarationSource
