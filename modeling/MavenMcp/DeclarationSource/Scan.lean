/-
# What the scanner returns

One statement for every function of the scanner.  A range of tokens comes with a set `G` of
positions at which a step of the scanner may begin: all positions, when the question is whether it
stays inside of the range, or those that no bracket group surrounds.  The step of every loop, over
one token or one group, keeps `G` (`Range.next`), and from this alone every function is shown not to
panic and to end a declaration inside of the range and in front of a position of `G`.

The set is what one induction over the scanner needs for both questions; the only thing that it has
to know of the range is that it ends at a closing brace or with the text (`Range.barrier`), so that
nothing that is looked at ahead of time reaches over the end.
-/
import MavenMcp.DeclarationSource.Brackets
import MavenMcp.DeclarationSource.Locate

namespace MavenMcp.DeclarationSource

open Text

namespace SourceOutline

variable {o : SourceOutline}

/-! ## 1. Tokens -/

theorem isPunct_iff {index : Nat} {value : Str} :
    o.isPunct index value = true ↔
      ∃ token, o.tokens[index]? = some token ∧ token.kind = .punctuation ∧ token.text = value := by
  rw [isPunct, Option.any_eq_true]
  simp only [Bool.and_eq_true, decide_eq_true_eq]

theorem isPunct_unique {index : Nat} {v w : Str} (hv : o.isPunct index v = true)
    (hw : o.isPunct index w = true) : v = w := by
  obtain ⟨token, htoken, -, rfl⟩ := isPunct_iff.mp hv
  obtain ⟨token', htoken', -, rfl⟩ := isPunct_iff.mp hw
  rw [htoken] at htoken'
  cases htoken'
  rfl

theorem isPunctOf_iff {index : Nat} {values : List Str} :
    o.isPunctOf index values = true ↔ ∃ value ∈ values, o.isPunct index value = true :=
  List.any_eq_true

/-- One punctuation token rules out another. -/
theorem isPunctOf_of_isPunct {index : Nat} {v : Str} {values : List Str}
    (h : o.isPunct index v = true) (hv : v ∉ values) : o.isPunctOf index values = false := by
  by_contra hne
  obtain ⟨w, hw, hindex⟩ := isPunctOf_iff.mp (eq_true_of_ne_false hne)
  exact hv (isPunct_unique h hindex ▸ hw)

theorem isPunct_of_word {index : Nat} {word : Str} (h : o.word index = some word) (value : Str) :
    o.isPunct index value = false := by
  by_contra hne
  obtain ⟨token, htoken, hkind, -⟩ := isPunct_iff.mp (eq_true_of_ne_false hne)
  rw [SourceOutline.word, htoken, Option.filter_some, hkind] at h
  cases h

theorem isPunctOf_of_word {index : Nat} {word : Str} (h : o.word index = some word)
    (values : List Str) : o.isPunctOf index values = false :=
  List.any_eq_false.mpr fun value _ => by rw [isPunct_of_word h value]; exact Bool.false_ne_true

theorem word_of_identifier {index : Nat} (h : (o.identifier index).isSome = true) :
    ∃ word, o.word index = some word := by
  rw [identifier, Option.isSome_map] at h
  exact Option.isSome_iff_exists.mp h

theorem groupEnd_of_not_opener {index : Nat} (h : o.isOpener index = false) (stop : Nat) :
    o.groupEnd index stop = index := by
  rw [groupEnd, h]
  rfl

theorem next_of_not_opener {index : Nat} (h : o.isOpener index = false) (stop : Nat) :
    o.next index stop = index + 1 := by
  rw [next, groupEnd_of_not_opener h]

/-! ## 2. Ranges -/

/-- A range of tokens that the scanner may be called with. -/
structure Range (o : SourceOutline) (stop : Nat) (G : Nat → Prop) : Prop where
  nested : Nested o.tokens o.closing
  stop_le : stop ≤ o.tokens.length
  barrier : stop < o.tokens.length → o.isPunct stop ['}'] = true
  next : ∀ i, i < stop → G i → G (o.next i stop)

/-- A position of the range, or its end. -/
structure At (stop : Nat) (G : Nat → Prop) (i : Nat) : Prop where
  le : i ≤ stop
  cut : G i

/-- The last token of a declaration that begins at `start`. -/
structure Last (stop : Nat) (G : Nat → Prop) (start last : Nat) : Prop where
  le : start ≤ last
  lt : last < stop
  cut : G (last + 1)

theorem Last.at {stop start last : Nat} {G : Nat → Prop} (h : Last stop G start last) :
    At stop G (last + 1) :=
  ⟨h.lt, h.cut⟩

theorem Last.mono {stop start start' last : Nat} {G : Nat → Prop} (h : Last stop G start last)
    (hle : start' ≤ start) : Last stop G start' last :=
  ⟨Nat.le_trans hle h.le, h.lt, h.cut⟩

namespace Range

variable {stop : Nat} {G : Nat → Prop}

theorem word_stop (r : Range o stop G) : o.word stop = none := by
  rcases Nat.lt_or_ge stop o.tokens.length with hlt | hge
  · by_contra hne
    obtain ⟨word, hword⟩ := Option.ne_none_iff_exists'.mp hne
    have hbrace := r.barrier hlt
    rw [isPunct_of_word hword] at hbrace
    cases hbrace
  · rw [SourceOutline.word, List.getElem?_eq_none hge]
    rfl

theorem isPunct_stop (r : Range o stop G) {value : Str} (h : value ≠ ['}']) :
    o.isPunct stop value = false := by
  by_contra hne
  have hvalue := eq_true_of_ne_false hne
  have hlt := o.lt_length_of_isPunct hvalue
  exact h (isPunct_unique hvalue (r.barrier hlt))

theorem lt_of_word (r : Range o stop G) {i : Nat} (hi : i ≤ stop) {word : Str}
    (h : o.word i = some word) : i < stop := by
  refine Nat.lt_of_le_of_ne hi ?_
  rintro rfl
  rw [r.word_stop] at h
  cases h

theorem lt_of_isPunct (r : Range o stop G) {i : Nat} (hi : i ≤ stop) {value : Str}
    (h : o.isPunct i value = true) (hvalue : value ≠ ['}']) : i < stop := by
  refine Nat.lt_of_le_of_ne hi ?_
  rintro rfl
  rw [r.isPunct_stop hvalue] at h
  cases h

theorem at_next (r : Range o stop G) {i : Nat} (h : At stop G i) (hlt : i < stop) :
    At stop G (o.next i stop) :=
  ⟨o.next_le hlt, r.next i hlt h.cut⟩

/-- The token of a step, or the last token of its group, may end a declaration. -/
theorem last_groupEnd (r : Range o stop G) {i : Nat} (h : At stop G i) (hlt : i < stop) :
    Last stop G i (o.groupEnd i stop) :=
  ⟨o.le_groupEnd i stop, o.groupEnd_lt hlt, (r.at_next h hlt).cut⟩

theorem at_succ (r : Range o stop G) {i : Nat} (h : At stop G i) (hlt : i < stop)
    (hopener : o.isOpener i = false) : At stop G (i + 1) :=
  next_of_not_opener hopener stop ▸ r.at_next h hlt

theorem at_succ_of_word (r : Range o stop G) {i : Nat} (h : At stop G i) {word : Str}
    (hword : o.word i = some word) : At stop G (i + 1) :=
  r.at_succ h (r.lt_of_word h.le hword) (isPunctOf_of_word hword _)

theorem at_succ_of_isPunct (r : Range o stop G) {i : Nat} (h : At stop G i) {value : Str}
    (hvalue : o.isPunct i value = true) (hne : value ∉ [['('], ['['], ['{'], ['}']]) :
    At stop G (i + 1) := by
  simp only [List.mem_cons, List.not_mem_nil, or_false, not_or] at hne
  refine r.at_succ h (r.lt_of_isPunct h.le hvalue hne.2.2.2) (isPunctOf_of_isPunct hvalue ?_)
  simp only [List.mem_cons, List.not_mem_nil, or_false, not_or]
  exact ⟨hne.1, hne.2.1, hne.2.2.1⟩

/-! ## 3. Annotations and modifiers -/

theorem at_skipQualifiedName (r : Range o stop G) {i : Nat} (h : At stop G i) :
    At stop G (o.skipQualifiedName i) := by
  fun_induction o.skipQualifiedName i with
  | case1 i hid hdot ih =>
    obtain ⟨word, hword⟩ := word_of_identifier hid
    exact ih (r.at_succ_of_isPunct (r.at_succ_of_word h hword) hdot.1 (by decide))
  | case2 i hid _ =>
    obtain ⟨word, hword⟩ := word_of_identifier hid
    exact r.at_succ_of_word h hword
  | case3 i _ => exact h

theorem at_skipAfterAt (r : Range o stop G) {i : Nat} (h : At stop G i) :
    At stop G (o.skipAfterAt i stop) := by
  have htarget : At stop G
      (if o.language = .kotlin ∧ (o.identifier i).isSome ∧ o.isPunct (i + 1) [':'] then i + 2
      else i) := by
    split
    · rename_i htarget
      obtain ⟨word, hword⟩ := word_of_identifier htarget.2.1
      exact r.at_succ_of_isPunct (r.at_succ_of_word h hword) htarget.2.2 (by decide)
    · exact h
  rw [skipAfterAt]
  generalize (if o.language = .kotlin ∧ (o.identifier i).isSome ∧
    o.isPunct (i + 1) [':'] then i + 2 else i) = target at htarget ⊢
  simp only
  split
  · rename_i hopen
    exact r.at_next htarget (r.lt_of_isPunct htarget.le hopen (by decide))
  · have hname := r.at_skipQualifiedName htarget
    split
    · rename_i hopen
      exact r.at_next hname (r.lt_of_isPunct hname.le hopen (by decide))
    · exact hname

theorem at_skipAnnotations (r : Range o stop G) {i : Nat} (h : At stop G i) :
    At stop G (o.skipAnnotations i stop) := by
  fun_induction o.skipAnnotations i stop with
  | case1 i hat ih =>
    exact ih (r.at_skipAfterAt (r.at_succ_of_isPunct h hat.2.1 (by decide)))
  | case2 i _ => exact h

theorem at_skipModifiers (r : Range o stop G) {i : Nat} (h : At stop G i) :
    At stop G (o.skipModifiers i stop).1 := by
  rw [skipModifiers]
  generalize ({ isEnum := false, isSuspend := false, isCompanion := false } : Modifiers) = modifiers
  fun_induction o.skipModifiersFrom stop modifiers i with
  | case1 | case4 | case5 => exact r.at_skipAnnotations h
  | case2 modifiers i index _ word hword hnon ih =>
    have hword' := r.at_succ_of_word (r.at_skipAnnotations h) hword
    exact ih (r.at_succ_of_word (r.at_succ_of_isPunct hword' hnon.2.1 (by decide)) hnon.2.2)
  | case3 modifiers i index _ word hword _ _ ih =>
    exact ih (r.at_succ_of_word (r.at_skipAnnotations h) hword)

/-! ## 4. Ends -/

theorem last_angleEnd (r : Range o stop G) {opening : Nat} (h : At stop G opening)
    (hopening : o.isPunct opening ['<'] = true) :
    Last stop G opening (o.angleEnd opening stop) := by
  have hlt := r.lt_of_isPunct h.le hopening (by decide)
  have hloop : ∀ depth index, opening ≤ index → At stop G index →
      Last stop G opening (o.angleEndFrom opening stop depth index) := by
    intro depth index hle hindex
    fun_induction o.angleEndFrom opening stop depth index with
    | case1 depth index hi _ ih | case3 depth index hi _ _ _ ih | case5 depth index hi _ _ _ ih =>
      exact ih (Nat.le_trans hle (Nat.le_of_lt (o.lt_next index stop))) (r.at_next hindex hi)
    | case2 depth index hi _ hangle _ =>
      have hsucc := r.at_succ_of_isPunct hindex hangle (by decide)
      exact ⟨hle, hi, hsucc.cut⟩
    | case4 depth index hi hnot _ _ =>
      have hne : index ≠ opening := by
        rintro rfl
        exact hnot hopening
      have hmax : max (index - 1) opening = index - 1 := by omega
      rw [hmax]
      refine ⟨by omega, by omega, ?_⟩
      rw [Nat.sub_add_cancel (by omega)]
      exact hindex.cut
    | case6 depth index hi =>
      have hstop : index = stop := Nat.le_antisymm hindex.le (Nat.le_of_not_lt hi)
      have hmax : max (stop - 1) opening = stop - 1 := by omega
      rw [hmax]
      refine ⟨by omega, by omega, ?_⟩
      rw [Nat.sub_add_cancel (by omega), ← hstop]
      exact hindex.cut
  exact hloop 0 opening (Nat.le_refl _) h

theorem safe_continuesStatement (start previous next : Nat) (isProperty : Bool) :
    Safe (o.continuesStatement start previous next isProperty) fun _ => True := by
  rw [continuesStatement]
  split
  · exact .pure trivial
  · simp only
    split
    · rename_i hword
      have hlt : (o.skipModifiers next o.tokens.length).1 < o.tokens.length := by
        rcases hword with hword | hword
        · exact o.lt_length_of_word hword
        · exact o.lt_length_of_word hword
      split
      · exact .pure trivial
      · rename_i hnot
        have hlt' := Nat.lt_of_not_le (not_or.mp hnot).1
        exact (Safe.get hlt').bind fun _ _ => (Safe.get hlt).bind fun _ _ => .pure trivial
    · exact .pure trivial

theorem safe_endsStatement {start previous next : Nat} (isProperty : Bool)
    (hprevious : previous < o.tokens.length) (hnext : next < o.tokens.length) :
    Safe (o.endsStatement start previous next isProperty) fun _ => True := by
  refine (Safe.get hnext).bind fun _ _ => (Safe.get hprevious).bind fun _ _ => ?_
  split
  · exact (safe_continuesStatement start previous next isProperty).map fun _ _ => trivial
  · exact .pure trivial

/-- The last token of the range ends a declaration that the loop has not ended before. -/
theorem safe_last {lo index : Nat} (hlo : lo < index) (h : At stop G index)
    (hstop : ¬ index < stop) : Safe (checkedSub stop 1) (Last stop G lo) := by
  have heq : index = stop := Nat.le_antisymm h.le (Nat.le_of_not_lt hstop)
  refine .checkedSub (by omega) ⟨by omega, by omega, ?_⟩
  rw [Nat.sub_add_cancel (by omega), ← heq]
  exact h.cut

/-- A loop that comes to the end of the range keeps what it has. -/
theorem safe_min {lo previous : Nat} (h : Last stop G lo previous) :
    Safe ((checkedSub stop 1).map (min previous)) (Last stop G lo) := by
  have hlt := h.lt
  refine (Safe.checkedSub (Q := (· = stop - 1)) (by omega) rfl).map ?_
  rintro last rfl
  rw [Nat.min_eq_left (by omega)]
  exact h

theorem last_statementEndFrom (r : Range o stop G) (start : Nat) (isProperty : Bool)
    {lo previous index : Nat} (hlast : Last stop G lo previous) (hindex : index = previous + 1) :
    Safe (o.statementEndFrom start stop isProperty previous index) (Last stop G lo) := by
  induction hn : stop - index using Nat.strongRecOn generalizing previous index with
  | _ n ih =>
    have hat : At stop G index := hindex ▸ hlast.at
    have hlo : lo ≤ index := by
      have := hlast.le
      omega
    rw [statementEndFrom]
    split
    · rename_i hlt
      have hends : Safe (if o.isCloser index = true then some true
          else o.endsStatement start previous index isProperty) fun _ => True := by
        split
        · exact .pure trivial
        · exact safe_endsStatement isProperty (Nat.lt_of_lt_of_le hlast.lt r.stop_le)
            (Nat.lt_of_lt_of_le hlt r.stop_le)
      refine hends.bind fun ends _ => ?_
      split
      · exact .pure hlast
      · split
        · rename_i hsemicolon
          have hsucc := r.at_succ_of_isPunct hat hsemicolon (by decide)
          exact .pure ⟨hlo, hlt, hsucc.cut⟩
        · have hnext := o.lt_next index stop
          have hgroup := (r.last_groupEnd hat hlt).mono hlo
          exact ih (stop - o.next index stop) (by omega) hgroup rfl rfl
    · exact safe_min hlast

theorem last_statementEnd (r : Range o stop G) {start : Nat} (h : At stop G start)
    (hlt : start < stop) (isProperty : Bool) :
    Safe (o.statementEnd start stop isProperty) (Last stop G start) :=
  r.last_statementEndFrom start isProperty (r.last_groupEnd h hlt) rfl

end Range

/-- The body that `find_body` finds: the brace, and its partner or the end of the range. -/
structure Body (o : SourceOutline) (stop : Nat) (G : Nat → Prop) (body : Nat × Nat) : Prop where
  position : At stop G body.1
  brace : o.isPunct body.1 ['{'] = true
  close : body.2 = ((o.closing body.1).filter fun close => close < stop).getD stop

namespace Range

variable {stop : Nat} {G : Nat → Prop}

/-- The links of an opener lead forward. -/
theorem lt_of_closing (r : Range o stop G) {index close : Nat} (hopener : o.isOpener index = true)
    (hclose : o.closing index = some close) : index < close := by
  by_contra hge
  have hne := r.nested.ne index close hclose
  obtain ⟨first, last, hpair⟩ := r.nested.pair close index (r.nested.symm index close hclose)
    (by omega)
  obtain ⟨value, hvalue, hindex⟩ := isPunctOf_iff.mp hopener
  obtain ⟨token, htoken, -, htext⟩ := isPunct_iff.mp hindex
  have hlast := hpair.lastAt
  rw [htoken] at hlast
  cases hlast
  have hopens := hpair.opener
  rw [htext, openerOf] at hopens
  simp only [List.mem_cons, List.not_mem_nil, or_false] at hvalue
  rcases hvalue with rfl | rfl | rfl
  · cases hopens
  · cases hopens
  · cases hopens

/-- A body ends where its group ends. -/
theorem groupEnd_of_body (r : Range o stop G) {index : Nat} (hlt : index < stop)
    (hbrace : o.isPunct index ['{'] = true) :
    ((o.closing index).filter fun close => close < stop).getD
      (stop - 1) = o.groupEnd index stop := by
  have hopener : o.isOpener index = true := isPunctOf_iff.mpr ⟨['{'], by decide, hbrace⟩
  have hfilter : ((o.closing index).filter fun close => index < close ∧ close < stop) =
      (o.closing index).filter fun close => close < stop := by
    cases hclose : o.closing index with
    | none => rfl
    | some close =>
      have hlt' := r.lt_of_closing hopener hclose
      simp only [Option.filter_some, hlt', true_and]
  rw [groupEnd, if_pos hopener, hfilter, Nat.max_eq_left (by omega)]

theorem last_findBodyFrom (r : Range o stop G) (start : Nat) {lo previous index : Nat}
    (hlast : Last stop G lo previous) (hindex : index = previous + 1) :
    Safe (o.findBodyFrom start stop previous index) fun found =>
      (∀ body ∈ found.1, Body o stop G body) ∧ Last stop G lo found.2 := by
  induction hn : stop - index using Nat.strongRecOn generalizing previous index with
  | _ n ih =>
    have hat : At stop G index := hindex ▸ hlast.at
    have hlo : lo ≤ index := by
      have := hlast.le
      omega
    rw [findBodyFrom]
    split
    · rename_i hlt
      have hends : Safe (if o.language = .kotlin then o.endsStatement start previous index false
          else some false) fun _ => True := by
        split
        · exact safe_endsStatement false (Nat.lt_of_lt_of_le hlast.lt r.stop_le)
            (Nat.lt_of_lt_of_le hlt r.stop_le)
        · exact .pure trivial
      refine hends.bind fun ends _ => ?_
      split
      · exact .pure ⟨nofun, hlast⟩
      · split
        · rename_i hbrace
          have hend := r.groupEnd_of_body hlt hbrace
          refine (Safe.checkedSub (Q := (· = stop - 1)) (by omega) rfl).bind ?_
          rintro last rfl
          refine .pure ⟨?_, ?_⟩
          · rintro body hbody
            cases hbody
            exact ⟨hat, hbrace, rfl⟩
          · rw [hend]
            exact (r.last_groupEnd hat hlt).mono hlo
        · split
          · rename_i hsemicolon
            have hsucc := r.at_succ_of_isPunct hat hsemicolon (by decide)
            exact .pure ⟨nofun, hlo, hlt, hsucc.cut⟩
          · split
            · exact .pure ⟨nofun, hlast⟩
            · split
              · refine (r.last_statementEnd hat hlt false).bind fun last hlast' => ?_
                exact .pure ⟨nofun, hlast'.mono hlo⟩
              · have hnext := o.lt_next index stop
                have hgroup := (r.last_groupEnd hat hlt).mono hlo
                exact ih (stop - o.next index stop) (by omega) hgroup rfl rfl
    · obtain ⟨last, hlast', hmin⟩ := safe_min hlast
      obtain ⟨limit, hlimit, rfl⟩ := Option.map_eq_some_iff.mp hlast'
      exact ⟨(none, min previous limit), by rw [hlimit, Option.map_some], nofun, hmin⟩

/-- **The body of a declaration ends inside of the range.** -/
theorem last_findBody (r : Range o stop G) (start : Nat) {lo last : Nat}
    (hlast : Last stop G lo last) :
    Safe (o.findBody start last stop) fun found =>
      (∀ body ∈ found.1, Body o stop G body) ∧ Last stop G lo found.2 :=
  r.last_findBodyFrom start hlast rfl

end Range

end SourceOutline

end MavenMcp.DeclarationSource
