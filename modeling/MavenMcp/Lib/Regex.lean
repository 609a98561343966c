/-
# Regular expressions with leftmost-first matching

An expression is run from a position of a text and answers all its matches there in the order of
preference: the left side of an alternative before the right one, one more round of a repetition
before its end.  The first of them is the match a search takes, with the groups it recorded.

* `Consumes` says which texts an expression matches at a position, without the order;
  `mem_run` and `run_complete` connect the two.
* `replaceAll` replaces the matches from left to right.  `replaceAll_induction` is the only
  induction over a search.

A match of the empty text is passed over: no expression of this development has one.
-/
import MavenMcp.Lib.Text

/-- A regular expression over characters. -/
inductive Regex
  | empty
  | char (p : Char → Bool)
  | seq (a b : Regex)
  | alt (a b : Regex)
  /-- As many rounds as possible. -/
  | star (a : Regex)
  /-- A word on exactly one side. -/
  | boundary (word : Char → Bool)
  | group (i : Nat) (a : Regex)

namespace Regex

/-! ## 1. Runs -/

/-- A position of a text, with the groups recorded on the way to it: the index of each, the text
ahead at its start and the text ahead at its end. -/
structure State where
  prev : Option Char
  ahead : Str
  groups : List (Nat × Str × Str)
deriving DecidableEq, Repr

/-- The character before the position behind `w`. -/
def after (prev : Option Char) (w : Str) : Option Char := (w.getLast?).or prev

/-- Is there a word boundary between the two? -/
def isBoundary (word : Char → Bool) (prev : Option Char) (ahead : Str) : Bool :=
  prev.any word != ahead.head?.any word

/-- Rounds of a repetition, with a bound on their number. -/
def rounds (body : State → List State) : Nat → State → List State
  | 0, s => [s]
  | n + 1, s =>
    ((body s).filter fun t => decide (t.ahead.length < s.ahead.length)).flatMap (rounds body n)
      ++ [s]

/-- All matches from a position, in the order of preference. -/
def run : Regex → State → List State
  | .empty, s => [s]
  | .char p, s =>
    match s.ahead with
    | [] => []
    | c :: rest => if p c then [{ s with prev := some c, ahead := rest }] else []
  | .seq a b, s => (a.run s).flatMap b.run
  | .alt a b, s => a.run s ++ b.run s
  | .star a, s => rounds a.run s.ahead.length s
  | .boundary word, s => if isBoundary word s.prev s.ahead then [s] else []
  | .group i a, s =>
    (a.run s).map fun t => { t with groups := (i, s.ahead, t.ahead) :: t.groups }

def opt (a : Regex) : Regex := alt a empty

def plus (a : Regex) : Regex := seq a (star a)

def seqs (rs : List Regex) : Regex := rs.foldr seq empty

/-- The alternatives after the first one. -/
def alts (r : Regex) (rs : List Regex) : Regex :=
  match rs with
  | [] => r
  | r' :: rs => alt r (alts r' rs)

/-- At least `n` rounds. -/
def atLeast (n : Nat) (a : Regex) : Regex := seqs (List.replicate n a ++ [star a])

def exactly (n : Nat) (a : Regex) : Regex := seqs (List.replicate n a)

/-- The characters of a text, each with what it stands for. -/
def literal (p : Char → Char → Bool) (text : Str) : Regex := seqs (text.map fun c => char (p c))

/-- The match that a search takes at a position. -/
def matchAt (r : Regex) (prev : Option Char) (text : Str) : Option State :=
  (r.run { prev, ahead := text, groups := [] }).head?.filter
    fun m => decide (m.ahead.length < text.length)

/-- A group of a match: the text ahead at its start, and what it captured. -/
def State.group (m : State) (i : Nat) : Option (Str × Str) :=
  (m.groups.lookup i).map fun (start, stop) => (start, start.take (start.length - stop.length))

/-! ## 2. Replacements -/

/-- Replace the matches of a text by what `f` makes of each, which also counts. -/
def replaceFrom (r : Regex) (f : Str → State → Str × Nat) :
    Nat → Option Char → Str → Str × Nat
  | 0, _, text => (text, 0)
  | n + 1, prev, text =>
    match r.matchAt prev text, text with
    | some m, _ =>
      let (out, count) := replaceFrom r f n m.prev m.ahead
      ((f text m).1 ++ out, (f text m).2 + count)
    | none, [] => ([], 0)
    | none, c :: rest =>
      let (out, count) := replaceFrom r f n (some c) rest
      (c :: out, count)

/-- `Regex::replace_all` behind a character. -/
def replaceAfter (r : Regex) (f : Str → State → Str × Nat) (prev : Option Char) (text : Str) :
    Str × Nat :=
  replaceFrom r f text.length prev text

/-- `Regex::replace_all`. -/
def replaceAll (r : Regex) (f : Str → State → Str × Nat) (text : Str) : Str × Nat :=
  replaceAfter r f none text

/-- `Regex::captures_iter`: the text ahead where a match begins, and the match. -/
def matchesFrom (r : Regex) : Nat → Option Char → Str → List (Str × State)
  | 0, _, _ => []
  | n + 1, prev, text =>
    match r.matchAt prev text, text with
    | some m, _ => (text, m) :: matchesFrom r n m.prev m.ahead
    | none, [] => []
    | none, c :: rest => matchesFrom r n (some c) rest

def matchesAfter (r : Regex) (prev : Option Char) (text : Str) : List (Str × State) :=
  matchesFrom r text.length prev text

/-- `Regex::find_iter` and `Regex::captures_iter`. -/
def allMatches (r : Regex) (text : Str) : List (Str × State) := matchesAfter r none text

/-- `Regex::is_match`. -/
def isMatchAfter (r : Regex) : Option Char → Str → Bool
  | prev, [] => (r.matchAt prev []).isSome
  | prev, c :: rest => (r.matchAt prev (c :: rest)).isSome || isMatchAfter r (some c) rest

def isMatch (r : Regex) (text : Str) : Bool := r.isMatchAfter none text

theorem matchAt_lt {r : Regex} {prev : Option Char} {text : Str} {m : State}
    (h : r.matchAt prev text = some m) : m.ahead.length < text.length := by
  unfold matchAt at h
  exact of_decide_eq_true (Option.filter_eq_some_iff.mp h).2

theorem matchAt_nil (r : Regex) (prev : Option Char) : r.matchAt prev [] = none := by
  cases h : r.matchAt prev [] with
  | none => rfl
  | some m => exact absurd (matchAt_lt h) (Nat.not_lt_zero _)

theorem replaceFrom_eq (r : Regex) (f : Str → State → Str × Nat) {n : Nat} {prev : Option Char}
    {text : Str} (h : text.length ≤ n) :
    replaceFrom r f n prev text = replaceAfter r f prev text := by
  unfold replaceAfter
  induction n using Nat.strongRecOn generalizing prev text with
  | ind n ih =>
    cases n with
    | zero => rw [Nat.le_zero.mp h]
    | succ n =>
      cases text with
      | nil => simp [replaceFrom, matchAt_nil]
      | cons c rest =>
        simp only [List.length_cons] at h ⊢
        simp only [replaceFrom]
        cases hm : r.matchAt prev (c :: rest) with
        | some m =>
          have hlt := matchAt_lt hm
          rw [List.length_cons] at hlt
          simp only
          rw [ih n (by omega) (by omega), ih rest.length (by omega) (by omega)]
        | none =>
          simp only
          rw [ih n (by omega) (by omega)]

theorem matchesFrom_eq (r : Regex) {n : Nat} {prev : Option Char} {text : Str}
    (h : text.length ≤ n) : matchesFrom r n prev text = matchesAfter r prev text := by
  unfold matchesAfter
  induction n using Nat.strongRecOn generalizing prev text with
  | ind n ih =>
    cases n with
    | zero => rw [Nat.le_zero.mp h]
    | succ n =>
      cases text with
      | nil => simp [matchesFrom, matchAt_nil]
      | cons c rest =>
        simp only [List.length_cons] at h ⊢
        simp only [matchesFrom]
        cases hm : r.matchAt prev (c :: rest) with
        | some m =>
          have hlt := matchAt_lt hm
          rw [List.length_cons] at hlt
          simp only
          rw [ih n (by omega) (by omega), ih rest.length (by omega) (by omega)]
        | none => exact ih n (by omega) (by omega)

theorem matchesAfter_nil (r : Regex) (prev : Option Char) : r.matchesAfter prev [] = [] := rfl

theorem matchesAfter_skip {r : Regex} {prev : Option Char} {c : Char} {rest : Str}
    (h : r.matchAt prev (c :: rest) = none) :
    r.matchesAfter prev (c :: rest) = r.matchesAfter (some c) rest := by
  simp only [matchesAfter, List.length_cons, matchesFrom, h]

theorem matchesAfter_match {r : Regex} {prev : Option Char} {text : Str} {m : State}
    (h : r.matchAt prev text = some m) :
    r.matchesAfter prev text = (text, m) :: r.matchesAfter m.prev m.ahead := by
  have hlt := matchAt_lt h
  cases text with
  | nil => cases hlt
  | cons c rest =>
    rw [List.length_cons] at hlt
    conv_lhs => simp only [matchesAfter, List.length_cons, matchesFrom, h]
    rw [matchesFrom_eq r (by omega)]

theorem matchesAfter_induction {r : Regex} {P : Option Char → Str → List (Str × State) → Prop}
    (nil : ∀ prev, P prev [] [])
    (skip : ∀ prev c rest, r.matchAt prev (c :: rest) = none →
      P (some c) rest (r.matchesAfter (some c) rest) →
        P prev (c :: rest) (r.matchesAfter (some c) rest))
    (found : ∀ prev text m, r.matchAt prev text = some m →
      P m.prev m.ahead (r.matchesAfter m.prev m.ahead) →
        P prev text ((text, m) :: r.matchesAfter m.prev m.ahead))
    (prev : Option Char) (text : Str) : P prev text (r.matchesAfter prev text) := by
  induction hn : text.length using Nat.strongRecOn generalizing prev text with
  | ind n ih =>
    cases text with
    | nil => exact nil prev
    | cons c rest =>
      rw [List.length_cons] at hn
      cases hm : r.matchAt prev (c :: rest) with
      | none =>
        rw [matchesAfter_skip hm]
        exact skip prev c rest hm (ih rest.length (by omega) (some c) rest rfl)
      | some m =>
        have hlt := matchAt_lt hm
        rw [List.length_cons] at hlt
        rw [matchesAfter_match hm]
        exact found prev _ m hm (ih m.ahead.length (by omega) m.prev m.ahead rfl)

theorem length_le_of_mem_matches {r : Regex} {prev : Option Char} {text : Str}
    {found : Str × State} (h : found ∈ r.matchesAfter prev text) :
    found.1.length ≤ text.length := by
  refine matchesAfter_induction (r := r)
    (P := fun _ text l => ∀ found ∈ l, found.1.length ≤ text.length) ?_ ?_ ?_ prev text found h
  · exact fun _ _ h => absurd h List.not_mem_nil
  · exact fun _ c rest _ ih found h => Nat.le_succ_of_le (ih found h)
  · intro prev text m hm ih found h
    rcases List.mem_cons.mp h with rfl | h
    · exact Nat.le_refl _
    · exact Nat.le_trans (ih found h) (Nat.le_of_lt (matchAt_lt hm))

theorem replaceAfter_nil (r : Regex) (f : Str → State → Str × Nat) (prev : Option Char) :
    r.replaceAfter f prev [] = ([], 0) := rfl

/-- A character at which nothing matches stays. -/
theorem replaceAfter_skip {r : Regex} {f : Str → State → Str × Nat} {prev : Option Char}
    {c : Char} {rest : Str} (h : r.matchAt prev (c :: rest) = none) :
    r.replaceAfter f prev (c :: rest) =
      (c :: (r.replaceAfter f (some c) rest).1, (r.replaceAfter f (some c) rest).2) := by
  simp only [replaceAfter, List.length_cons, replaceFrom, h]

theorem replaceAfter_match {r : Regex} {f : Str → State → Str × Nat} {prev : Option Char}
    {text : Str} {m : State} (h : r.matchAt prev text = some m) :
    r.replaceAfter f prev text =
      ((f text m).1 ++ (r.replaceAfter f m.prev m.ahead).1,
        (f text m).2 + (r.replaceAfter f m.prev m.ahead).2) := by
  have hlt := matchAt_lt h
  cases text with
  | nil => cases hlt
  | cons c rest =>
    rw [List.length_cons] at hlt
    conv_lhs => simp only [replaceAfter, List.length_cons, replaceFrom, h]
    rw [replaceFrom_eq r f (by omega)]

/-- **The induction over a search.** -/
theorem replaceAfter_induction {r : Regex} {f : Str → State → Str × Nat}
    {P : Option Char → Str → Str × Nat → Prop} (nil : ∀ prev, P prev [] ([], 0))
    (skip : ∀ prev c rest out count, r.matchAt prev (c :: rest) = none →
      P (some c) rest (out, count) → P prev (c :: rest) (c :: out, count))
    (found : ∀ prev text m out count, r.matchAt prev text = some m →
      P m.prev m.ahead (out, count) →
        P prev text ((f text m).1 ++ out, (f text m).2 + count))
    (prev : Option Char) (text : Str) : P prev text (r.replaceAfter f prev text) := by
  induction hn : text.length using Nat.strongRecOn generalizing prev text with
  | ind n ih =>
    cases text with
    | nil => exact nil prev
    | cons c rest =>
      rw [List.length_cons] at hn
      cases hm : r.matchAt prev (c :: rest) with
      | none =>
        rw [replaceAfter_skip hm]
        exact skip prev c rest _ _ hm (ih rest.length (by omega) (some c) rest rfl)
      | some m =>
        have hlt := matchAt_lt hm
        rw [List.length_cons] at hlt
        rw [replaceAfter_match hm]
        exact found prev _ m _ _ hm (ih m.ahead.length (by omega) m.prev m.ahead rfl)

/-! ## 3. What is matched -/

/-- The expression matches `w` between a character and the text `rest`. -/
inductive Consumes : Regex → Option Char → Str → Str → Prop
  | empty {prev : Option Char} {rest : Str} : Consumes .empty prev [] rest
  | char {p : Char → Bool} {prev : Option Char} {rest : Str} (c : Char) :
      p c = true → Consumes (.char p) prev [c] rest
  | seq {a b : Regex} {prev : Option Char} {w w' rest : Str} :
      Consumes a prev w (w' ++ rest) → Consumes b (after prev w) w' rest →
        Consumes (.seq a b) prev (w ++ w') rest
  | left {a b : Regex} {prev : Option Char} {w rest : Str} :
      Consumes a prev w rest → Consumes (.alt a b) prev w rest
  | right {a b : Regex} {prev : Option Char} {w rest : Str} :
      Consumes b prev w rest → Consumes (.alt a b) prev w rest
  | stop {a : Regex} {prev : Option Char} {rest : Str} : Consumes (.star a) prev [] rest
  | more {a : Regex} {prev : Option Char} {w w' rest : Str} :
      Consumes a prev w (w' ++ rest) → w ≠ [] → Consumes (.star a) (after prev w) w' rest →
        Consumes (.star a) prev (w ++ w') rest
  | boundary {word : Char → Bool} {prev : Option Char} {rest : Str} :
      isBoundary word prev rest = true → Consumes (.boundary word) prev [] rest
  | group {i : Nat} {a : Regex} {prev : Option Char} {w rest : Str} :
      Consumes a prev w rest → Consumes (.group i a) prev w rest

@[simp] theorem after_nil (prev : Option Char) : after prev [] = prev := by
  simp [after]

@[simp] theorem after_singleton (prev : Option Char) (c : Char) : after prev [c] = some c := rfl

@[simp] theorem after_append (prev : Option Char) (w w' : Str) :
    after prev (w ++ w') = after (after prev w) w' := by
  simp [after, List.getLast?_append, Option.or_assoc]

theorem after_cons (prev : Option Char) (c : Char) (w : Str) :
    after prev (c :: w) = after (some c) w := by
  rw [← List.singleton_append, after_append, after_singleton]

/-- Where a match ends. -/
def Ends (r : Regex) (s t : State) : Prop :=
  ∃ w, s.ahead = w ++ t.ahead ∧ t.prev = after s.prev w ∧ Consumes r s.prev w t.ahead

theorem ends_rounds {a : Regex} (ha : ∀ s t, t ∈ a.run s → Ends a s t) :
    ∀ (n : Nat) (s t : State), t ∈ rounds a.run n s → Ends (.star a) s t := by
  intro n
  induction n with
  | zero =>
    intro s t h
    rw [rounds, List.mem_singleton] at h
    subst h
    exact ⟨[], rfl, (after_nil _).symm, .stop⟩
  | succ n ih =>
    intro s t h
    rw [rounds, List.mem_append, List.mem_flatMap, List.mem_singleton] at h
    rcases h with ⟨u, hu, ht⟩ | rfl
    · obtain ⟨hu, hlt⟩ := List.mem_filter.mp hu
      have hlt := of_decide_eq_true hlt
      obtain ⟨w, hs, hprev, hw⟩ := ha s u hu
      obtain ⟨w', hu', hprev', hw'⟩ := ih u t ht
      have hne : w ≠ [] := by
        rintro rfl
        rw [hs] at hlt
        exact absurd hlt (Nat.lt_irrefl _)
      rw [hu'] at hs hw
      rw [hprev] at hprev' hw'
      exact ⟨w ++ w', by rw [hs, List.append_assoc], by rw [hprev', after_append],
        .more hw hne hw'⟩
    · exact ⟨[], rfl, (after_nil _).symm, .stop⟩

/-- A run matches what it says. -/
theorem mem_run : ∀ {r : Regex} {s t : State}, t ∈ r.run s → Ends r s t := by
  intro r
  induction r with
  | empty =>
    intro s t h
    rw [run, List.mem_singleton] at h
    subst h
    exact ⟨[], rfl, (after_nil _).symm, .empty⟩
  | char p =>
    intro s t h
    unfold run at h
    split at h
    · cases h
    · rename_i c rest hs
      split at h
      · rename_i hp
        rw [List.mem_singleton] at h
        subst h
        exact ⟨[c], hs, rfl, .char c hp⟩
      · cases h
  | seq a b iha ihb =>
    intro s t h
    rw [run, List.mem_flatMap] at h
    obtain ⟨u, hu, ht⟩ := h
    obtain ⟨w, hs, hprev, hw⟩ := iha hu
    obtain ⟨w', hu', hprev', hw'⟩ := ihb ht
    rw [hu'] at hs hw
    rw [hprev] at hprev' hw'
    exact ⟨w ++ w', by rw [hs, List.append_assoc], by rw [hprev', after_append], .seq hw hw'⟩
  | alt a b iha ihb =>
    intro s t h
    rw [run, List.mem_append] at h
    rcases h with h | h
    · obtain ⟨w, hs, hprev, hw⟩ := iha h
      exact ⟨w, hs, hprev, .left hw⟩
    · obtain ⟨w, hs, hprev, hw⟩ := ihb h
      exact ⟨w, hs, hprev, .right hw⟩
  | star a ih => exact fun h => ends_rounds (fun _ _ => ih) _ _ _ h
  | boundary word =>
    intro s t h
    unfold run at h
    split at h
    · rename_i hb
      rw [List.mem_singleton] at h
      subst h
      exact ⟨[], rfl, (after_nil _).symm, .boundary hb⟩
    · cases h
  | group i a ih =>
    intro s t h
    rw [run, List.mem_map] at h
    obtain ⟨u, hu, rfl⟩ := h
    obtain ⟨w, hs, hprev, hw⟩ := ih hu
    exact ⟨w, hs, hprev, .group hw⟩

theorem rounds_complete {a : Regex} {prev : Option Char} {w rest : Str}
    (h : Consumes (.star a) prev w rest)
    (ha : ∀ prev w rest groups, Consumes a prev w rest →
      ∃ gs, { prev := after prev w, ahead := rest, groups := gs } ∈
        a.run { prev, ahead := w ++ rest, groups }) :
    ∀ (n : Nat) (groups : List (Nat × Str × Str)), w.length ≤ n →
      ∃ gs, { prev := after prev w, ahead := rest, groups := gs } ∈
        rounds a.run n { prev, ahead := w ++ rest, groups } := by
  generalize hr : Regex.star a = r at h
  induction h with
  | stop =>
    intro n groups _
    refine ⟨groups, ?_⟩
    cases n <;> simp [rounds]
  | @more a' prev w w' rest hw hne _ _ ih =>
    cases hr
    intro n groups hn
    rw [List.length_append] at hn
    have hpos : 0 < w.length := List.length_pos_of_ne_nil hne
    cases n with
    | zero => omega
    | succ n =>
      obtain ⟨gs, hmem⟩ := ha prev w (w' ++ rest) groups hw
      obtain ⟨gs', hmem'⟩ := ih rfl n gs (by omega)
      refine ⟨gs', ?_⟩
      rw [rounds, List.mem_append, List.mem_flatMap, after_append, List.append_assoc]
      refine .inl ⟨_, List.mem_filter.mpr ⟨hmem, ?_⟩, hmem'⟩
      simp only [List.length_append, decide_eq_true_eq]
      omega
  | _ => cases hr

/-- And a run answers all that is matched. -/
theorem run_complete : ∀ {r : Regex} {prev : Option Char} {w rest : Str}
    (groups : List (Nat × Str × Str)), Consumes r prev w rest →
      ∃ gs, { prev := after prev w, ahead := rest, groups := gs } ∈
        r.run { prev, ahead := w ++ rest, groups } := by
  intro r
  induction r with
  | empty =>
    intro prev w rest groups h
    cases h
    exact ⟨groups, by simp [run]⟩
  | char p =>
    intro prev w rest groups h
    cases h with
    | char c hc => exact ⟨groups, by simp [run, hc]⟩
  | seq a b iha ihb =>
    intro prev w rest groups h
    cases h with
    | @seq _ _ _ w w' _ hw hw' =>
      obtain ⟨gs, hmem⟩ := iha groups hw
      obtain ⟨gs', hmem'⟩ := ihb gs hw'
      refine ⟨gs', ?_⟩
      rw [run, List.mem_flatMap, after_append, List.append_assoc]
      exact ⟨_, hmem, hmem'⟩
  | alt a b iha ihb =>
    intro prev w rest groups h
    cases h with
    | left hw =>
      obtain ⟨gs, hmem⟩ := iha groups hw
      exact ⟨gs, by rw [run]; exact List.mem_append_left _ hmem⟩
    | right hw =>
      obtain ⟨gs, hmem⟩ := ihb groups hw
      exact ⟨gs, by rw [run]; exact List.mem_append_right _ hmem⟩
  | star a ih =>
    intro prev w rest groups h
    refine rounds_complete h (fun _ _ _ groups hw => ih groups hw) _ groups ?_
    simp
  | boundary word =>
    intro prev w rest groups h
    cases h with
    | boundary hb => exact ⟨groups, by simp [run, hb]⟩
  | group i a ih =>
    intro prev w rest groups h
    cases h with
    | group hw =>
      obtain ⟨gs, hmem⟩ := ih groups hw
      refine ⟨(i, w ++ rest, rest) :: gs, ?_⟩
      rw [run, List.mem_map]
      exact ⟨_, hmem, rfl⟩

/-- May the empty text be matched? -/
def nullable : Regex → Bool
  | .empty | .star _ | .boundary _ => true
  | .char _ => false
  | .seq a b => a.nullable && b.nullable
  | .alt a b => a.nullable || b.nullable
  | .group _ a => a.nullable

theorem Consumes.ne_nil {r : Regex} {prev : Option Char} {w rest : Str}
    (h : Consumes r prev w rest) (hr : r.nullable = false) : w ≠ [] := by
  induction h with
  | empty | stop | boundary => cases hr
  | char c hc => exact List.cons_ne_nil _ _
  | seq _ _ ih ih' =>
    rcases Bool.and_eq_false_iff.mp hr with hr | hr
    · exact List.append_ne_nil_of_left_ne_nil (ih hr) _
    · exact List.append_ne_nil_of_right_ne_nil _ (ih' hr)
  | left _ ih => exact ih (Bool.or_eq_false_iff.mp hr).1
  | right _ ih => exact ih (Bool.or_eq_false_iff.mp hr).2
  | more _ _ _ => cases hr
  | group _ ih => exact ih hr

/-- A match is found where it stands. -/
theorem matchAt_isSome {r : Regex} (hr : r.nullable = false) {prev : Option Char} {w rest : Str}
    (h : Consumes r prev w rest) : ∃ m, r.matchAt prev (w ++ rest) = some m := by
  obtain ⟨gs, hmem⟩ := run_complete [] h
  cases hrun : r.run { prev, ahead := w ++ rest, groups := [] } with
  | nil =>
    rw [hrun] at hmem
    cases hmem
  | cons m ms =>
    obtain ⟨w', hw', -, hcons⟩ := mem_run (hrun ▸ List.mem_cons_self)
    have hpos : 0 < w'.length := List.length_pos_of_ne_nil (hcons.ne_nil hr)
    refine ⟨m, ?_⟩
    simp only at hw'
    simp only [matchAt, hrun, List.head?_cons, Option.filter_some]
    rw [if_pos]
    rw [hw', List.length_append, decide_eq_true_eq]
    omega

/-- What a search finds at a position. -/
theorem ends_of_matchAt {r : Regex} {prev : Option Char} {text : Str} {m : State}
    (h : r.matchAt prev text = some m) :
    ∃ w, text = w ++ m.ahead ∧ w ≠ [] ∧ m.prev = after prev w ∧ Consumes r prev w m.ahead := by
  have hlt := matchAt_lt h
  unfold matchAt at h
  obtain ⟨w, htext, hprev, hw⟩ := mem_run (List.mem_of_head? (Option.filter_eq_some_iff.mp h).1)
  refine ⟨w, htext, ?_, hprev, hw⟩
  rintro rfl
  simp only [List.nil_append] at htext
  rw [← htext] at hlt
  exact absurd hlt (Nat.lt_irrefl _)

/-! ## 4. The parts of an expression -/

/-- The notions of a word in the boundaries of an expression. -/
def words : Regex → List (Char → Bool)
  | .empty | .char _ => []
  | .seq a b | .alt a b => a.words ++ b.words
  | .star a => a.words
  | .boundary word => [word]
  | .group _ a => a.words

theorem consumes_empty {prev : Option Char} {w rest : Str} :
    Consumes .empty prev w rest ↔ w = [] := by
  constructor
  · intro h
    cases h
    rfl
  · rintro rfl
    exact .empty

theorem consumes_char {p : Char → Bool} {prev : Option Char} {w rest : Str} :
    Consumes (.char p) prev w rest ↔ ∃ c, w = [c] ∧ p c = true := by
  constructor
  · intro h
    cases h with
    | char c hc => exact ⟨c, rfl, hc⟩
  · rintro ⟨c, rfl, hc⟩
    exact .char c hc

theorem consumes_seq {a b : Regex} {prev : Option Char} {w rest : Str} :
    Consumes (.seq a b) prev w rest ↔
      ∃ v v', w = v ++ v' ∧ Consumes a prev v (v' ++ rest) ∧
        Consumes b (after prev v) v' rest := by
  constructor
  · intro h
    cases h with
    | seq hv hv' => exact ⟨_, _, rfl, hv, hv'⟩
  · rintro ⟨v, v', rfl, hv, hv'⟩
    exact .seq hv hv'

theorem consumes_alt {a b : Regex} {prev : Option Char} {w rest : Str} :
    Consumes (.alt a b) prev w rest ↔ Consumes a prev w rest ∨ Consumes b prev w rest := by
  constructor
  · intro h
    cases h with
    | left h => exact .inl h
    | right h => exact .inr h
  · rintro (h | h)
    · exact .left h
    · exact .right h

theorem consumes_boundary {word : Char → Bool} {prev : Option Char} {w rest : Str} :
    Consumes (.boundary word) prev w rest ↔ w = [] ∧ isBoundary word prev rest = true := by
  constructor
  · intro h
    cases h with
    | boundary hb => exact ⟨rfl, hb⟩
  · rintro ⟨rfl, hb⟩
    exact .boundary hb

theorem consumes_group {i : Nat} {a : Regex} {prev : Option Char} {w rest : Str} :
    Consumes (.group i a) prev w rest ↔ Consumes a prev w rest := by
  constructor
  · intro h
    cases h with
    | group h => exact h
  · exact .group

theorem consumes_opt {a : Regex} {prev : Option Char} {w rest : Str} :
    Consumes (opt a) prev w rest ↔ Consumes a prev w rest ∨ w = [] := by
  rw [opt, consumes_alt, consumes_empty]

theorem consumes_seqs_nil {prev : Option Char} {w rest : Str} :
    Consumes (seqs []) prev w rest ↔ w = [] :=
  consumes_empty

theorem consumes_seqs_cons {a : Regex} {rs : List Regex} {prev : Option Char} {w rest : Str} :
    Consumes (seqs (a :: rs)) prev w rest ↔
      ∃ v v', w = v ++ v' ∧ Consumes a prev v (v' ++ rest) ∧
        Consumes (seqs rs) (after prev v) v' rest :=
  consumes_seq

theorem consumes_star_char {p : Char → Bool} {prev : Option Char} {w rest : Str} :
    Consumes (.star (.char p)) prev w rest ↔ ∀ c ∈ w, p c = true := by
  constructor
  · intro h
    generalize hr : Regex.star (.char p) = r at h
    induction h with
    | stop => exact fun c hc => by cases hc
    | more hw _ _ _ ih =>
      cases hr
      obtain ⟨c, rfl, hc⟩ := consumes_char.mp hw
      intro x hx
      rcases List.mem_append.mp hx with hx | hx
      · rw [List.mem_singleton.mp hx]
        exact hc
      · exact ih rfl x hx
    | _ => cases hr
  · intro h
    induction w generalizing prev with
    | nil => exact .stop
    | cons c w ih =>
      have hc : p c = true := h c List.mem_cons_self
      have hw : Consumes (.star (.char p)) (after prev [c]) w rest :=
        ih fun x hx => h x (List.mem_cons_of_mem _ hx)
      exact .more (w := [c]) (.char c hc) (List.cons_ne_nil _ _) hw

theorem consumes_plus_char {p : Char → Bool} {prev : Option Char} {w rest : Str} :
    Consumes (plus (.char p)) prev w rest ↔ w ≠ [] ∧ ∀ c ∈ w, p c = true := by
  simp only [plus, consumes_seq, consumes_char, consumes_star_char]
  constructor
  · rintro ⟨_, v, rfl, ⟨c, rfl, hc⟩, hv⟩
    exact ⟨by simp, by simpa using ⟨hc, hv⟩⟩
  · rintro ⟨hne, hw⟩
    cases w with
    | nil => exact absurd rfl hne
    | cons c v =>
      exact ⟨[c], v, rfl, ⟨c, rfl, hw c List.mem_cons_self⟩,
        fun x hx => hw x (List.mem_cons_of_mem _ hx)⟩

theorem consumes_literal {p : Char → Char → Bool} {text : Str} {prev : Option Char}
    {w rest : Str} :
    Consumes (literal p text) prev w rest ↔ List.Forall₂ (fun c x => p c x = true) text w := by
  unfold literal
  induction text generalizing prev w with
  | nil => rw [List.map_nil, consumes_seqs_nil, List.forall₂_nil_left_iff]
  | cons c text ih =>
    rw [List.map_cons, consumes_seqs_cons, List.forall₂_cons_left_iff]
    constructor
    · rintro ⟨_, v, rfl, hx, hv⟩
      obtain ⟨x, rfl, hcx⟩ := consumes_char.mp hx
      exact ⟨x, v, hcx, ih.mp hv, rfl⟩
    · rintro ⟨x, v, hx, hv, rfl⟩
      exact ⟨[x], v, rfl, .char x hx, ih.mpr hv⟩

/-- An expression without a boundary looks at nothing but what it matches. -/
theorem Consumes.anywhere {r : Regex} {prev : Option Char} {w rest : Str}
    (h : Consumes r prev w rest) (hr : r.words = []) (prev' : Option Char) (rest' : Str) :
    Consumes r prev' w rest' := by
  induction h generalizing prev' rest' with
  | empty => exact .empty
  | char c hc => exact .char c hc
  | seq _ _ ih ih' =>
    obtain ⟨ha, hb⟩ := List.append_eq_nil_iff.mp hr
    exact .seq (ih ha _ _) (ih' hb _ _)
  | left _ ih => exact .left (ih (List.append_eq_nil_iff.mp hr).1 _ _)
  | right _ ih => exact .right (ih (List.append_eq_nil_iff.mp hr).2 _ _)
  | stop => exact .stop
  | more _ hne _ ih ih' => exact .more (ih hr _ _) hne (ih' hr _ _)
  | boundary => cases hr
  | group _ ih => exact .group (ih hr _ _)

/-! ## 5. The preferred match -/

theorem head?_flatMap {α β : Type} {l : List α} {f : α → List β} {t : β}
    (h : (l.flatMap f).head? = some t) : ∃ u ∈ l, (f u).head? = some t := by
  induction l with
  | nil => cases h
  | cons a l ih =>
    rw [List.flatMap_cons, List.head?_append] at h
    cases ha : (f a).head? with
    | some b =>
      rw [ha, Option.some_or] at h
      exact ⟨a, List.mem_cons_self, by rw [ha, h]⟩
    | none =>
      rw [ha, Option.none_or] at h
      obtain ⟨u, hu, ht⟩ := ih h
      exact ⟨u, List.mem_cons_of_mem _ hu, ht⟩

/-- The preferred match of a sequence is the preferred one of its second part somewhere. -/
theorem head_seq {a b : Regex} {s t : State} (h : ((seq a b).run s).head? = some t) :
    ∃ u ∈ a.run s, (b.run u).head? = some t :=
  head?_flatMap h

theorem head_seqs {a : Regex} {rs : List Regex} {s t : State}
    (h : ((seqs (a :: rs)).run s).head? = some t) :
    ∃ u ∈ a.run s, ((seqs rs).run u).head? = some t :=
  head?_flatMap h

theorem head_alt {a b : Regex} {s t : State} (h : ((alt a b).run s).head? = some t) :
    (a.run s).head? = some t ∨ (b.run s).head? = some t := by
  rw [run, List.head?_append] at h
  cases ha : (a.run s).head? with
  | some u =>
    rw [ha, Option.some_or] at h
    exact .inl h
  | none =>
    rw [ha, Option.none_or] at h
    exact .inr h

theorem run_char {p : Char → Bool} {s : State} {c : Char} {rest : Str} (hs : s.ahead = c :: rest) :
    (char p).run s = if p c then [{ s with prev := some c, ahead := rest }] else [] := by
  simp only [run, hs]

theorem head_rounds_char {p : Char → Bool} {t : State} : ∀ (n : Nat) (s : State),
    s.ahead.length ≤ n → (rounds (char p).run n s).head? = some t →
      t.ahead = s.ahead.dropWhile p ∧ t.groups = s.groups := by
  intro n
  induction n with
  | zero =>
    intro s hn h
    cases h
    rw [List.eq_nil_of_length_eq_zero (Nat.le_zero.mp hn)]
    exact ⟨rfl, rfl⟩
  | succ n ih =>
    intro s hn h
    rw [rounds] at h
    cases hs : s.ahead with
    | nil =>
      have hrun : (char p).run s = [] := by simp only [run, hs]
      rw [hrun, List.filter_nil, List.flatMap_nil, List.nil_append, List.head?_cons] at h
      cases h
      exact ⟨hs, rfl⟩
    | cons c rest =>
      rw [run_char hs] at h
      rw [hs, List.length_cons] at hn
      cases hc : p c with
      | true =>
        rw [hc, if_pos rfl, List.filter_cons_of_pos (by simp [hs]), List.filter_nil,
          List.flatMap_cons, List.flatMap_nil, List.append_nil, List.head?_append] at h
        rw [List.dropWhile_cons_of_pos hc]
        cases hr : (rounds (char p).run n { s with prev := some c, ahead := rest }).head? with
        | none => cases n <;> simp [rounds] at hr
        | some u =>
          rw [hr, Option.some_or, Option.some.injEq] at h
          subst h
          exact ih _ (Nat.le_of_succ_le_succ hn) hr
      | false =>
        rw [hc, if_neg Bool.false_ne_true, List.filter_nil, List.flatMap_nil, List.nil_append,
          List.head?_cons] at h
        cases h
        rw [List.dropWhile_cons_of_neg (by simp [hc])]
        exact ⟨hs, rfl⟩

theorem head_alt_left {a b : Regex} {s : State} (h : a.run s ≠ []) :
    ((alt a b).run s).head? = (a.run s).head? := by
  rw [run, List.head?_append]
  cases ha : (a.run s).head? with
  | some u => rfl
  | none => exact absurd (List.head?_eq_none_iff.mp ha) h

@[simp]
theorem run_seqs_singleton (a : Regex) (s : State) : (seqs [a]).run s = a.run s := by
  simp [seqs, run]

theorem head_group {i : Nat} {a : Regex} {s t : State} (h : ((group i a).run s).head? = some t) :
    ∃ u, (a.run s).head? = some u ∧ t.ahead = u.ahead := by
  rw [run, List.head?_map] at h
  obtain ⟨u, hu, rfl⟩ := Option.map_eq_some_iff.mp h
  exact ⟨u, hu, rfl⟩

/-- A repeated character is repeated as often as the text has it. -/
theorem head_star_char {p : Char → Bool} {s t : State}
    (h : ((star (char p)).run s).head? = some t) :
    t.ahead = s.ahead.dropWhile p ∧ t.groups = s.groups :=
  head_rounds_char _ s (Nat.le_refl _) h

/-- Where a match stops that ends in a repeated character. -/
theorem head_seqs_star {p : Char → Bool} (rs : List Regex) {s t : State}
    (h : ((seqs (rs ++ [star (char p)])).run s).head? = some t) :
    ∀ c ∈ t.ahead.head?, p c = false := by
  induction rs generalizing s with
  | nil =>
    rw [List.nil_append, run_seqs_singleton] at h
    obtain ⟨hahead, -⟩ := head_star_char h
    intro c hc
    have hdrop := List.head?_dropWhile_not p s.ahead
    rw [← hahead, hc] at hdrop
    exact hdrop
  | cons a rs ih =>
    obtain ⟨u, -, hu⟩ := head_seqs h
    exact ih hu

/-! ## 6. Groups -/

def GroupFree : Regex → Prop
  | .empty | .char _ | .boundary _ => True
  | .seq a b | .alt a b => a.GroupFree ∧ b.GroupFree
  | .star a => a.GroupFree
  | .group _ _ => False

theorem groups_rounds {a : Regex} (ha : ∀ s t, t ∈ a.run s → t.groups = s.groups) :
    ∀ (n : Nat) (s t : State), t ∈ rounds a.run n s → t.groups = s.groups := by
  intro n
  induction n with
  | zero =>
    intro s t h
    rw [rounds, List.mem_singleton] at h
    rw [h]
  | succ n ih =>
    intro s t h
    rw [rounds, List.mem_append, List.mem_flatMap, List.mem_singleton] at h
    rcases h with ⟨u, hu, ht⟩ | rfl
    · exact (ih u t ht).trans (ha s u (List.mem_filter.mp hu).1)
    · rfl

/-- An expression without groups records none. -/
theorem groups_of_mem {r : Regex} (hr : r.GroupFree) {s t : State} (h : t ∈ r.run s) :
    t.groups = s.groups := by
  induction r generalizing s t with
  | empty =>
    rw [run, List.mem_singleton] at h
    rw [h]
  | char p =>
    unfold run at h
    split at h
    · cases h
    · split at h
      · rw [List.mem_singleton.mp h]
      · cases h
  | seq a b iha ihb =>
    rw [run, List.mem_flatMap] at h
    obtain ⟨u, hu, ht⟩ := h
    exact (ihb hr.2 ht).trans (iha hr.1 hu)
  | alt a b iha ihb =>
    rw [run, List.mem_append] at h
    rcases h with h | h
    · exact iha hr.1 h
    · exact ihb hr.2 h
  | star a ih => exact groups_rounds (fun s t => ih hr) _ s t h
  | boundary word =>
    unfold run at h
    split at h
    · rw [List.mem_singleton.mp h]
    · cases h
  | group i a => exact hr.elim

theorem groupFree_seqs {rs : List Regex} (h : ∀ r ∈ rs, r.GroupFree) : (seqs rs).GroupFree := by
  induction rs with
  | nil => trivial
  | cons r rs ih =>
    exact ⟨h r List.mem_cons_self, ih fun r' hr' => h r' (List.mem_cons_of_mem _ hr')⟩

theorem mem_run_seqs_cons {a : Regex} {rs : List Regex} {s t : State} :
    t ∈ (seqs (a :: rs)).run s ↔ ∃ u ∈ a.run s, t ∈ (seqs rs).run u :=
  List.mem_flatMap

theorem mem_run_opt {a : Regex} {s t : State} : t ∈ (opt a).run s ↔ t ∈ a.run s ∨ t = s := by
  rw [opt, run, List.mem_append, run, List.mem_singleton]

/-- Where a match without groups ends. -/
theorem ends_of_groupFree {r : Regex} (hr : r.GroupFree) {s t : State} (h : t ∈ r.run s) :
    ∃ w, s.ahead = w ++ t.ahead ∧ t.groups = s.groups ∧ Consumes r s.prev w t.ahead := by
  obtain ⟨w, hahead, -, hw⟩ := mem_run h
  exact ⟨w, hahead, groups_of_mem hr h, hw⟩

/-- Where a group ends, and what it records. -/
theorem ends_of_group {i : Nat} {r : Regex} (hr : r.GroupFree) {s t : State}
    (h : t ∈ (group i r).run s) :
    ∃ w, s.ahead = w ++ t.ahead ∧ t.groups = (i, w ++ t.ahead, t.ahead) :: s.groups ∧
      Consumes r s.prev w t.ahead := by
  rw [run, List.mem_map] at h
  obtain ⟨u, hu, rfl⟩ := h
  obtain ⟨w, hahead, hgroups, hw⟩ := ends_of_groupFree hr hu
  exact ⟨w, hahead, by rw [hgroups, hahead], hw⟩

/-- What a group captured, from where it stands. -/
theorem group_of_groups {m : State} {i : Nat} {h rest : Str} {gs : List (Nat × Str × Str)}
    (hm : m.groups = (i, h ++ rest, rest) :: gs) : m.group i = some (h ++ rest, h) := by
  simp [State.group, hm]

/-- A group at the start of an expression captures what its part matches. -/
theorem group_of_mem {i : Nat} {g tail : Regex} {s t : State} (htail : tail.GroupFree)
    (h : t ∈ (seq (group i g) tail).run s) :
    ∃ head w, s.ahead = head ++ (w ++ t.ahead) ∧ t.group i = some (s.ahead, head) ∧
      Consumes g s.prev head (w ++ t.ahead) ∧ Consumes tail (after s.prev head) w t.ahead := by
  rw [run, List.mem_flatMap] at h
  obtain ⟨u, hu, ht⟩ := h
  rw [run, List.mem_map] at hu
  obtain ⟨v, hv, rfl⟩ := hu
  obtain ⟨head, hs, hprev, hhead⟩ := mem_run hv
  obtain ⟨w, hv', -, hw⟩ := mem_run ht
  have hgroups := groups_of_mem htail ht
  simp only at hs hprev hv' hw hgroups
  rw [hv'] at hs hhead
  rw [hprev] at hw
  refine ⟨head, w, hs, ?_, hhead, hw⟩
  rw [hs]
  exact group_of_groups (by rw [hgroups, hs, hv'])

theorem group_of_mem_seqs {i : Nat} {g : Regex} {rs : List Regex} {s t : State}
    (hrs : (seqs rs).GroupFree) (h : t ∈ (seqs (group i g :: rs)).run s) :
    ∃ head w, s.ahead = head ++ (w ++ t.ahead) ∧ t.group i = some (s.ahead, head) ∧
      Consumes g s.prev head (w ++ t.ahead) ∧ Consumes (seqs rs) (after s.prev head) w t.ahead :=
  group_of_mem hrs h

/-- Two groups that make up an expression. -/
theorem groups_of_mem_seq {i j : Nat} {g g' : Regex} {s t : State} (hg : g.GroupFree)
    (hg' : g'.GroupFree) (h : t ∈ (seq (group i g) (group j g')).run s) :
    ∃ head w, s.ahead = head ++ (w ++ t.ahead) ∧
      t.groups = (j, w ++ t.ahead, t.ahead) :: (i, head ++ (w ++ t.ahead), w ++ t.ahead) ::
        s.groups ∧
      Consumes g s.prev head (w ++ t.ahead) ∧ Consumes g' (after s.prev head) w t.ahead := by
  rw [run, List.mem_flatMap] at h
  obtain ⟨u, hu, ht⟩ := h
  rw [run, List.mem_map] at hu ht
  obtain ⟨v, hv, rfl⟩ := hu
  obtain ⟨v', hv', rfl⟩ := ht
  obtain ⟨head, hs, hprev, hhead⟩ := mem_run hv
  obtain ⟨w, hw', -, hw⟩ := mem_run hv'
  have hgroups := groups_of_mem hg hv
  have hgroups' := groups_of_mem hg' hv'
  simp only at hs hprev hw' hw hgroups' ⊢
  rw [hw'] at hs hhead
  rw [hprev] at hw
  exact ⟨head, w, hs, by rw [hgroups', hgroups, hw', hs], hhead, hw⟩

/-! ## 7. Contexts -/

/-- No match has the character, and it ends words. -/
def Avoids (c : Char) : Regex → Prop
  | .empty => True
  | .char p => p c = false
  | .seq a b | .alt a b => a.Avoids c ∧ b.Avoids c
  | .star a => a.Avoids c
  | .boundary word => word c = false
  | .group _ a => a.Avoids c

theorem Consumes.not_mem {r : Regex} {c : Char} (hr : r.Avoids c) {prev : Option Char}
    {w rest : Str} (h : Consumes r prev w rest) : c ∉ w := by
  induction h with
  | empty | stop | boundary => exact List.not_mem_nil
  | char x hx =>
    rintro hc
    rw [List.mem_singleton] at hc
    subst hc
    rw [Avoids] at hr
    rw [hr] at hx
    cases hx
  | seq _ _ ih ih' =>
    intro hc
    rcases List.mem_append.mp hc with hc | hc
    · exact ih hr.1 hc
    · exact ih' hr.2 hc
  | left _ ih => exact ih hr.1
  | right _ ih => exact ih hr.2
  | more _ _ _ ih ih' =>
    intro hc
    rcases List.mem_append.mp hc with hc | hc
    · exact ih hr hc
    · exact ih' hr hc
  | group _ ih => exact ih hr

theorem avoids_literal {q : Char → Char → Bool} {x : Char} {text : Str}
    (h : ∀ l ∈ text, q l x = false) : (literal q text).Avoids x := by
  unfold literal
  induction text with
  | nil => trivial
  | cons l text ih =>
    exact ⟨h l List.mem_cons_self, ih fun l hl => h l (List.mem_cons_of_mem _ hl)⟩

/-- A match consists of characters that are not avoided. -/
theorem Consumes.all {r : Regex} {p : Char → Bool} (hr : ∀ x, p x = false → r.Avoids x)
    {prev : Option Char} {w rest : Str} (h : Consumes r prev w rest) : ∀ c ∈ w, p c = true := by
  intro c hc
  by_contra hp
  exact h.not_mem (hr c (Bool.not_eq_true _ ▸ hp)) hc

/-- Every match has a character of this kind. -/
def Has (p : Char → Bool) : Regex → Prop
  | .char q => ∀ c, q c = true → p c = true
  | .seq a b => a.Has p ∨ b.Has p
  | .alt a b => a.Has p ∧ b.Has p
  | .group _ a => a.Has p
  | .empty | .star _ | .boundary _ => False

theorem Consumes.has {r : Regex} {p : Char → Bool} (hr : r.Has p) {prev : Option Char}
    {w rest : Str} (h : Consumes r prev w rest) : ∃ c ∈ w, p c = true := by
  induction h with
  | empty | stop | boundary => exact hr.elim
  | char c hc => exact ⟨c, List.mem_singleton_self c, hr c hc⟩
  | seq _ _ ih ih' =>
    rcases hr with hr | hr
    · obtain ⟨c, hc, hp⟩ := ih hr
      exact ⟨c, List.mem_append_left _ hc, hp⟩
    · obtain ⟨c, hc, hp⟩ := ih' hr
      exact ⟨c, List.mem_append_right _ hc, hp⟩
  | left _ ih => exact ih hr.1
  | right _ ih => exact ih hr.2
  | more => exact hr.elim
  | group _ ih => exact ih hr

theorem has_literal {q : Char → Char → Bool} {p : Char → Bool} {l : Char}
    (hl : ∀ c, q l c = true → p c = true) : ∀ {text : Str}, l ∈ text → (literal q text).Has p
  | c :: text, h => by
    rcases List.mem_cons.mp h with rfl | h
    · exact .inl hl
    · exact .inr (has_literal hl h)

/-- The same position, with more text behind and another character before. -/
structure Alike (ws : List (Char → Bool)) (suffix : Str) (s t : State) : Prop where
  ahead : t.ahead = s.ahead ++ suffix
  prev : ∀ word ∈ ws, s.prev.any word = t.prev.any word

theorem forall₂_flatMap {α β γ δ : Type} {R : α → β → Prop} {S : γ → δ → Prop} {l : List α}
    {l' : List β} {f : α → List γ} {g : β → List δ} (h : List.Forall₂ R l l')
    (hfg : ∀ a b, R a b → List.Forall₂ S (f a) (g b)) :
    List.Forall₂ S (l.flatMap f) (l'.flatMap g) := by
  induction h with
  | nil => exact .nil
  | cons hab _ ih =>
    rw [List.flatMap_cons, List.flatMap_cons]
    exact List.rel_append (hfg _ _ hab) ih

theorem forall₂_filter {α β : Type} {R : α → β → Prop} {l : List α} {l' : List β} {p : α → Bool}
    {q : β → Bool} (h : List.Forall₂ R l l') (hpq : ∀ a b, R a b → p a = q b) :
    List.Forall₂ R (l.filter p) (l'.filter q) := by
  induction h with
  | nil => exact .nil
  | @cons a b l l' hab _ ih =>
    rw [List.filter_cons, List.filter_cons, hpq a b hab]
    split
    · exact .cons hab ih
    · exact ih

theorem alike_rounds {ws : List (Char → Bool)} {suffix : Str} {body : State → List State}
    (hbody : ∀ s t, Alike ws suffix s t →
      List.Forall₂ (Alike ws suffix) (body s) (body t)) :
    ∀ (n m : Nat) (s t : State), s.ahead.length ≤ n → t.ahead.length ≤ m →
      Alike ws suffix s t → List.Forall₂ (Alike ws suffix) (rounds body n s) (rounds body m t) := by
  intro n
  induction n with
  | zero =>
    intro m s t hn hm h
    cases m with
    | zero => exact .cons h .nil
    | succ m =>
      have hnone : (body t).filter (fun u => decide (u.ahead.length < t.ahead.length)) = [] := by
        have hfilter := forall₂_filter (hbody s t h)
          (p := fun _ => false) (q := fun u => decide (u.ahead.length < t.ahead.length)) ?_
        · rw [List.filter_false] at hfilter
          exact List.forall₂_nil_left_iff.mp hfilter
        · intro a b hab
          have ha := congrArg List.length hab.ahead
          have hs := congrArg List.length h.ahead
          rw [List.length_append] at ha hs
          symm
          rw [decide_eq_false_iff_not]
          omega
      rw [rounds, rounds, hnone]
      exact .cons h .nil
  | succ n ih =>
    intro m s t hn hm h
    have hs := congrArg List.length h.ahead
    rw [List.length_append] at hs
    cases m with
    | zero =>
      have hnone : (body s).filter (fun u => decide (u.ahead.length < s.ahead.length)) = [] := by
        rw [List.filter_eq_nil_iff]
        intro u _
        rw [decide_eq_true_eq]
        omega
      rw [rounds, rounds, hnone]
      exact .cons h .nil
    | succ m =>
      rw [rounds, rounds]
      refine List.rel_append (forall₂_flatMap (R := fun a b => Alike ws suffix a b ∧
        a.ahead.length < s.ahead.length ∧ b.ahead.length < t.ahead.length) ?_ ?_) (.cons h .nil)
      · have hfilter := forall₂_filter (hbody s t h)
          (p := fun u => decide (u.ahead.length < s.ahead.length))
          (q := fun u => decide (u.ahead.length < t.ahead.length)) ?_
        · refine (List.forall₂_iff_get.mpr ⟨hfilter.length_eq, fun i hi hi' => ?_⟩)
          have hmem := List.mem_filter.mp (List.get_mem _ ⟨i, hi⟩)
          have hmem' := List.mem_filter.mp (List.get_mem _ ⟨i, hi'⟩)
          exact ⟨(List.forall₂_iff_get.mp hfilter).2 i hi hi', of_decide_eq_true hmem.2,
            of_decide_eq_true hmem'.2⟩
        · intro a b hab
          have ha := congrArg List.length hab.ahead
          rw [List.length_append] at ha
          rw [decide_eq_decide]
          omega
      · rintro a b ⟨hab, ha, hb⟩
        exact ih m a b (by omega) (by omega) hab

/-- **A run sees no further than its match and one character before.**  More text behind does not
matter when the expression avoids its first character. -/
theorem alike_run (ws : List (Char → Bool)) (suffix : Str) : ∀ (r : Regex),
    (∀ word ∈ r.words, word ∈ ws) → (∀ c ∈ suffix.head?, r.Avoids c) →
      ∀ s t, Alike ws suffix s t → List.Forall₂ (Alike ws suffix) (r.run s) (r.run t) := by
  intro r
  induction r with
  | empty => exact fun _ _ s t h => .cons h .nil
  | char p =>
    intro _ hsuffix s t h
    have hahead := h.ahead
    cases hs : s.ahead with
    | nil =>
      rw [hs, List.nil_append] at hahead
      cases ht : suffix with
      | nil => simp only [run, hs, hahead, ht]; exact .nil
      | cons c rest =>
        have hc : p c = false := hsuffix c (by rw [ht]; rfl)
        rw [run_char (hahead.trans ht), hc]
        simp only [run, hs]
        exact .nil
    | cons c rest =>
      rw [hs, List.cons_append] at hahead
      rw [run_char hs, run_char hahead]
      split
      · exact .cons ⟨rfl, fun _ _ => rfl⟩ .nil
      · exact .nil
  | seq a b iha ihb =>
    intro hws hsuffix s t h
    refine forall₂_flatMap (iha (fun w hw => hws w ?_) (fun c hc => (hsuffix c hc).1) s t h) ?_
    · exact List.mem_append_left _ hw
    · exact fun u v huv => ihb (fun w hw => hws w (List.mem_append_right _ hw))
        (fun c hc => (hsuffix c hc).2) u v huv
  | alt a b iha ihb =>
    intro hws hsuffix s t h
    exact List.rel_append
      (iha (fun w hw => hws w (List.mem_append_left _ hw)) (fun c hc => (hsuffix c hc).1) s t h)
      (ihb (fun w hw => hws w (List.mem_append_right _ hw)) (fun c hc => (hsuffix c hc).2) s t h)
  | star a ih =>
    intro hws hsuffix s t h
    exact alike_rounds (ih hws hsuffix) _ _ s t (Nat.le_refl _) (Nat.le_refl _) h
  | boundary word =>
    intro hws hsuffix s t h
    have hprev : s.prev.any word = t.prev.any word := h.prev word (hws word (by simp [words]))
    have hnext : s.ahead.head?.any word = t.ahead.head?.any word := by
      rw [h.ahead]
      cases s.ahead with
      | nil =>
        cases hs : suffix with
        | nil => rfl
        | cons c rest =>
          have hc : word c = false := hsuffix c (by rw [hs]; rfl)
          simp [hc]
      | cons c rest => rfl
    have hb : isBoundary word s.prev s.ahead = isBoundary word t.prev t.ahead := by
      rw [isBoundary, isBoundary, hprev, hnext]
    rw [run, run, hb]
    split
    · exact .cons h .nil
    · exact .nil
  | group i a ih =>
    intro hws hsuffix s t h
    rw [run, run, List.forall₂_map_left_iff, List.forall₂_map_right_iff]
    exact (ih hws hsuffix s t h).imp fun _ _ huv => ⟨huv.ahead, huv.prev⟩

/-- A run that avoids the last character of the text does not see what is behind it. -/
theorem alike_run_of_last {ws : List (Char → Bool)} {suffix front : Str} {x : Char} {r : Regex}
    (hws : ∀ word ∈ r.words, word ∈ ws) (hr : r.Avoids x) {s t : State}
    (hlast : s.ahead = front ++ [x]) (h : Alike ws suffix s t) :
    List.Forall₂ (fun s t => Alike ws suffix s t ∧ ∃ front, s.ahead = front ++ [x])
      (r.run s) (r.run t) := by
  have hshort : Alike ws [x] { s with ahead := front } s := ⟨hlast, fun _ _ => rfl⟩
  have hlong : Alike ws (x :: suffix) { s with ahead := front } t :=
    ⟨by rw [h.ahead, hlast, List.append_assoc]; rfl, h.prev⟩
  have hruns := alike_run ws [x] r hws (fun c hc => by cases hc; exact hr) _ _ hshort
  have hruns' := alike_run ws (x :: suffix) r hws (fun c hc => by cases hc; exact hr) _ _ hlong
  refine List.forall₂_iff_get.mpr ⟨hruns.length_eq.symm.trans hruns'.length_eq, fun i hi hi' => ?_⟩
  have hi'' := hruns.length_eq ▸ hi
  have hget := (List.forall₂_iff_get.mp hruns).2 i hi'' hi
  have hget' := (List.forall₂_iff_get.mp hruns').2 i hi'' hi'
  refine ⟨⟨?_, fun word hword => (hget.prev word hword).symm.trans (hget'.prev word hword)⟩,
    _, hget.ahead⟩
  rw [hget'.ahead, hget.ahead, List.append_assoc]
  rfl

/-- Parts that avoid `x`, and then such as avoid `y`. -/
def Cuts (x y : Char) : Regex → Prop
  | .seq a b => (Regex.seq a b).Avoids y ∨ a.Avoids x ∧ b.Cuts x y
  | .alt a b => a.Cuts x y ∧ b.Cuts x y
  | r => r.Avoids y

/-- Such an expression does not see what is behind the last character of a text, if this is `x` and
`y` is behind it. -/
theorem alike_run_of_cuts {ws : List (Char → Bool)} {suffix : Str} {x y : Char}
    (hy : suffix.head? = some y) : ∀ {r : Regex}, (∀ word ∈ r.words, word ∈ ws) → r.Cuts x y →
      ∀ {s t : State}, (∃ front, s.ahead = front ++ [x]) → Alike ws suffix s t →
        List.Forall₂ (Alike ws suffix) (r.run s) (r.run t) := by
  have havoids {r : Regex} (hws : ∀ word ∈ r.words, word ∈ ws) (hr : r.Avoids y) {s t : State}
      (h : Alike ws suffix s t) : List.Forall₂ (Alike ws suffix) (r.run s) (r.run t) :=
    alike_run ws suffix r hws (fun c hc => by rw [hy] at hc; cases hc; exact hr) s t h
  intro r
  induction r with
  | seq a b _ ihb =>
    intro hws hr s t hlast h
    rcases hr with hr | ⟨ha, hb⟩
    · exact havoids hws hr h
    · obtain ⟨front, hlast⟩ := hlast
      refine forall₂_flatMap (alike_run_of_last (fun w hw => hws w ?_) ha hlast h) ?_
      · exact List.mem_append_left _ hw
      · exact fun u v huv => ihb (fun w hw => hws w (List.mem_append_right _ hw)) hb huv.2 huv.1
  | alt a b iha ihb =>
    intro hws hr s t hlast h
    exact List.rel_append (iha (fun w hw => hws w (List.mem_append_left _ hw)) hr.1 hlast h)
      (ihb (fun w hw => hws w (List.mem_append_right _ hw)) hr.2 hlast h)
  | empty => exact fun hws hr _ _ _ h => havoids hws hr h
  | char p => exact fun hws hr _ _ _ h => havoids hws hr h
  | star a => exact fun hws hr _ _ _ h => havoids hws hr h
  | boundary word => exact fun hws hr _ _ _ h => havoids hws hr h
  | group i a => exact fun hws hr _ _ _ h => havoids hws hr h

/-- What a search finds where the runs are alike. -/
theorem matchAt_of_runs {r : Regex} {ws : List (Char → Bool)} {prev prev' : Option Char}
    {text suffix : Str}
    (hruns : List.Forall₂ (Alike ws suffix) (r.run { prev, ahead := text, groups := [] })
      (r.run { prev := prev', ahead := text ++ suffix, groups := [] })) :
    (r.matchAt prev text = none ∧ r.matchAt prev' (text ++ suffix) = none) ∨
      ∃ m m', r.matchAt prev text = some m ∧ r.matchAt prev' (text ++ suffix) = some m' ∧
        Alike ws suffix m m' := by
  unfold matchAt
  generalize r.run { prev, ahead := text, groups := [] } = l at hruns ⊢
  generalize r.run { prev := prev', ahead := text ++ suffix, groups := [] } = l' at hruns ⊢
  cases hruns with
  | nil => exact .inl ⟨rfl, rfl⟩
  | @cons m m' l l' h _ =>
    have hlen := congrArg List.length h.ahead
    rw [List.length_append] at hlen
    simp only [List.head?_cons, Option.filter_some, List.length_append]
    by_cases hlt : m.ahead.length < text.length
    · have hlt' : m'.ahead.length < text.length + suffix.length := by omega
      simp only [hlt, hlt', decide_true, if_true]
      exact .inr ⟨m, m', rfl, rfl, h⟩
    · have hlt' : ¬ m'.ahead.length < text.length + suffix.length := by omega
      simp only [hlt, hlt', decide_false, Bool.false_eq_true, if_false]
      exact .inl ⟨trivial, trivial⟩

theorem matchAt_alike {r : Regex} {prev prev' : Option Char} (text suffix : Str)
    (hprev : ∀ word ∈ r.words, prev.any word = prev'.any word)
    (hsuffix : ∀ c ∈ suffix.head?, r.Avoids c) :
    (r.matchAt prev text = none ∧ r.matchAt prev' (text ++ suffix) = none) ∨
      ∃ m m', r.matchAt prev text = some m ∧ r.matchAt prev' (text ++ suffix) = some m' ∧
        Alike r.words suffix m m' :=
  matchAt_of_runs (alike_run r.words suffix r (fun _ h => h) hsuffix
    { prev, ahead := text, groups := [] } { prev := prev', ahead := text ++ suffix, groups := [] }
    ⟨rfl, hprev⟩)

/-- **A character that an expression avoids cuts a search in two.** -/
theorem replaceAfter_cut {r : Regex} {out : Str × Nat} {c : Char} (hc : r.Avoids c)
    (prev : Option Char) (text rest : Str) :
    r.replaceAfter (fun _ _ => out) prev (text ++ c :: rest) =
      ((r.replaceAfter (fun _ _ => out) prev text).1
          ++ c :: (r.replaceAfter (fun _ _ => out) (some c) rest).1,
        (r.replaceAfter (fun _ _ => out) prev text).2
          + (r.replaceAfter (fun _ _ => out) (some c) rest).2) := by
  have hsuffix : ∀ x ∈ (c :: rest).head?, r.Avoids x := by
    intro x hx
    cases hx
    exact hc
  refine replaceAfter_induction (r := r) (f := fun _ _ => out)
    (P := fun prev text res => ∀ prev', (∀ word ∈ r.words, prev.any word = prev'.any word) →
      r.replaceAfter (fun _ _ => out) prev' (text ++ c :: rest) =
        (res.1 ++ c :: (r.replaceAfter (fun _ _ => out) (some c) rest).1,
          res.2 + (r.replaceAfter (fun _ _ => out) (some c) rest).2)) ?_ ?_ ?_ prev text prev
    fun _ _ => rfl
  · intro prev prev' hprev
    rcases matchAt_alike [] (c :: rest) hprev hsuffix with ⟨-, hnone⟩ | ⟨m, m', hm, -⟩
    · rw [List.nil_append] at hnone
      rw [List.nil_append, replaceAfter_skip hnone, List.nil_append, Nat.zero_add]
    · rw [matchAt_nil] at hm
      cases hm
  · intro prev x text o n hnone ih prev' hprev
    rcases matchAt_alike (x :: text) (c :: rest) hprev hsuffix with ⟨-, hnone'⟩ | ⟨m, m', hm, -⟩
    · rw [List.cons_append] at hnone' ⊢
      rw [replaceAfter_skip hnone', ih (some x) fun _ _ => rfl]
      rfl
    · rw [hnone] at hm
      cases hm
  · intro prev text m o n hm ih prev' hprev
    rcases matchAt_alike text (c :: rest) hprev hsuffix with ⟨hnone, -⟩ | ⟨m₁, m', hm₁, hm', ha⟩
    · rw [hnone] at hm
      cases hm
    · rw [hm] at hm₁
      cases hm₁
      rw [replaceAfter_match hm', ha.ahead, ih m'.prev ha.prev, List.append_assoc, Nat.add_assoc]

/-! ## 8. Texts without a match -/

/-- Nothing matches at a position of `text` that lies in front of `rest`. -/
def Silent (r : Regex) (prev : Option Char) (text rest : Str) : Prop :=
  ∀ a c b, text = a ++ c :: b → r.matchAt (after prev a) (c :: b ++ rest) = none

theorem silent_cons {r : Regex} {prev : Option Char} {c : Char} {text rest : Str}
    (h : r.Silent prev (c :: text) rest) :
    r.matchAt prev (c :: (text ++ rest)) = none ∧ r.Silent (some c) text rest := by
  constructor
  · have := h [] c text rfl
    rwa [after_nil] at this
  · intro a x b hab
    have := h (c :: a) x b (by rw [hab]; rfl)
    rwa [after_cons] at this

/-- What comes before the first match stays. -/
theorem replaceAfter_silent {r : Regex} {f : Str → State → Str × Nat} {prev : Option Char}
    {text rest : Str} (h : r.Silent prev text rest) :
    r.replaceAfter f prev (text ++ rest) =
      (text ++ (r.replaceAfter f (after prev text) rest).1,
        (r.replaceAfter f (after prev text) rest).2) := by
  induction text generalizing prev with
  | nil => rw [List.nil_append, after_nil, List.nil_append]
  | cons c text ih =>
    obtain ⟨hnone, htail⟩ := silent_cons h
    rw [List.cons_append, replaceAfter_skip hnone, ih htail, after_cons]
    rfl

theorem replaceAll_silent {r : Regex} {f : Str → State → Str × Nat} {text : Str}
    (h : r.Silent none text []) : r.replaceAll f text = (text, 0) := by
  have := replaceAfter_silent (f := f) h
  rw [List.append_nil, replaceAfter_nil, List.append_nil] at this
  exact this

/-- A search stops at the first position with a match. -/
theorem silent_or_match (r : Regex) (prev : Option Char) (text rest : Str) :
    r.Silent prev text rest ∨
      ∃ a c b m, text = a ++ c :: b ∧ r.Silent prev a (c :: b ++ rest) ∧
        r.matchAt (after prev a) (c :: b ++ rest) = some m := by
  induction text generalizing prev with
  | nil =>
    refine .inl fun a c b h => ?_
    simp at h
  | cons c text ih =>
    cases hm : r.matchAt prev (c :: text ++ rest) with
    | some m =>
      refine .inr ⟨[], c, text, m, rfl, fun a x b h => by simp at h, ?_⟩
      rwa [after_nil]
    | none =>
      have hextend : ∀ {front tail : Str}, r.Silent (some c) front tail →
          c :: (text ++ rest) = c :: (front ++ tail) → r.Silent prev (c :: front) tail := by
        intro front tail hsilent heq a x b hab
        cases a with
        | nil =>
          rw [List.nil_append, List.cons.injEq] at hab
          obtain ⟨rfl, rfl⟩ := hab
          rw [after_nil, List.cons_append, ← heq]
          exact hm
        | cons y a =>
          rw [List.cons_append, List.cons.injEq] at hab
          obtain ⟨rfl, hab⟩ := hab
          rw [after_cons]
          exact hsilent a x b hab
      rcases ih (some c) with hsilent | ⟨a, x, b, m, htext, hsilent, hm'⟩
      · exact .inl (hextend hsilent rfl)
      · refine .inr ⟨c :: a, x, b, m, by rw [htext]; rfl, hextend hsilent ?_, ?_⟩
        · rw [htext, List.append_assoc]
        · rwa [after_cons]

theorem isMatch_eq_false {r : Regex} {text : Str} (h : r.isMatch text = false) :
    r.Silent none text [] := by
  have hsilent : ∀ {prev : Option Char} {text : Str}, r.isMatchAfter prev text = false →
      r.Silent prev text [] := by
    intro prev text
    induction text generalizing prev with
    | nil =>
      intro _ a c b hab
      simp at hab
    | cons c text ih =>
      intro h a x b hab
      rw [isMatchAfter, Bool.or_eq_false_iff] at h
      rw [List.append_nil]
      cases a with
      | nil =>
        cases hab
        rw [after_nil]
        exact Option.not_isSome_iff_eq_none.mp (by simp [h.1])
      | cons y a =>
        rw [List.cons_append, List.cons.injEq] at hab
        obtain ⟨rfl, hab⟩ := hab
        rw [after_cons]
        have := ih h.2 a x b hab
        rwa [List.append_nil] at this
  exact hsilent h

theorem isMatch_of_match {r : Regex} {a b : Str} {m : State}
    (h : r.matchAt (after none a) b = some m) : r.isMatch (a ++ b) = true := by
  by_contra hfalse
  have hsilent := isMatch_eq_false (Bool.eq_false_iff.mpr hfalse)
  cases b with
  | nil =>
    rw [matchAt_nil] at h
    cases h
  | cons c b =>
    have hnone := hsilent a c b rfl
    rw [List.append_nil, h] at hnone
    cases hnone

theorem match_of_isMatch {r : Regex} {text : Str} (h : r.isMatch text = true) :
    ∃ a b m, text = a ++ b ∧ r.matchAt (after none a) b = some m := by
  have hmatch : ∀ {prev : Option Char} {text : Str}, r.isMatchAfter prev text = true →
      ∃ a b m, text = a ++ b ∧ r.matchAt (after prev a) b = some m := by
    intro prev text
    induction text generalizing prev with
    | nil =>
      intro h
      rw [isMatchAfter, matchAt_nil] at h
      cases h
    | cons c text ih =>
      intro h
      rw [isMatchAfter, Bool.or_eq_true] at h
      rcases h with h | h
      · obtain ⟨m, hm⟩ := Option.isSome_iff_exists.mp h
        exact ⟨[], c :: text, m, rfl, by rwa [after_nil]⟩
      · obtain ⟨a, b, m, hab, hm⟩ := ih h
        exact ⟨c :: a, b, m, by rw [hab]; rfl, by rwa [after_cons]⟩
  exact hmatch h

/-! ## 9. Marks -/

/-- Every replacement keeps the first character of its match, and unless it has the mark it keeps
the whole match. -/
def Marks (mark : Char) (r : Regex) (f : Str → State → Str × Nat) : Prop :=
  ∀ prev text m, r.matchAt prev text = some m →
    (f text m).1 ≠ [] ∧ (f text m).1.head? = text.head? ∧
      (mark ∈ (f text m).1 ∨ (f text m).1 ++ m.ahead = text)

theorem Marks.replaceAfter {mark : Char} {r : Regex} {f : Str → State → Str × Nat}
    (h : Marks mark r f) (prev : Option Char) (text : Str) :
    (r.replaceAfter f prev text).1.head? = text.head? ∧
      (mark ∈ (r.replaceAfter f prev text).1 ∨ (r.replaceAfter f prev text).1 = text) := by
  refine replaceAfter_induction (r := r) (f := f)
    (P := fun _ text res => res.1.head? = text.head? ∧ (mark ∈ res.1 ∨ res.1 = text))
    ?_ ?_ ?_ prev text
  · exact fun _ => ⟨rfl, .inr rfl⟩
  · rintro prev c rest out n - ⟨-, hmem | rfl⟩
    · exact ⟨rfl, .inl (List.mem_cons_of_mem _ hmem)⟩
    · exact ⟨rfl, .inr rfl⟩
  · rintro prev text m out n hm ⟨-, hout⟩
    obtain ⟨hne, hhead, hmark⟩ := h prev text m hm
    refine ⟨?_, ?_⟩
    · rw [List.head?_append_of_ne_nil _ hne, hhead]
    · rcases hmark with hmark | hkept
      · exact .inl (List.mem_append_left _ hmark)
      · rcases hout with hmem | rfl
        · exact .inl (List.mem_append_right _ hmem)
        · exact .inr hkept

/-- A search adds no characters but those of its replacements. -/
theorem mem_replaceAfter {r : Regex} {f : Str → State → Str × Nat} {P : Char → Prop}
    (h : ∀ prev text m, r.matchAt prev text = some m → ∀ c ∈ (f text m).1, c ∈ text ∨ P c)
    (prev : Option Char) (text : Str) :
    ∀ c ∈ (r.replaceAfter f prev text).1, c ∈ text ∨ P c := by
  refine replaceAfter_induction (r := r) (f := f)
    (P := fun _ text res => ∀ c ∈ res.1, c ∈ text ∨ P c) ?_ ?_ ?_ prev text
  · exact fun _ c hc => by cases hc
  · intro prev x rest out n _ ih c hc
    rcases List.mem_cons.mp hc with rfl | hc
    · exact .inl List.mem_cons_self
    · exact (ih c hc).imp_left (List.mem_cons_of_mem _)
  · intro prev text m out n hm ih c hc
    rcases List.mem_append.mp hc with hc | hc
    · exact h prev text m hm c hc
    · obtain ⟨w, htext, -⟩ := ends_of_matchAt hm
      refine (ih c hc).imp_left fun hc => ?_
      rw [htext]
      exact List.mem_append_right _ hc

end Regex
