/-
# Members are whole groups

The second set of positions for the scanner: those at which no linked bracket group is open.  With
it the statement of the scanner says that a member holds, with a bracket, its partner.
-/
import MavenMcp.DeclarationSource.Bounds

namespace MavenMcp.DeclarationSource

open Text

namespace SourceOutline

variable {o : SourceOutline}

/-- From `start` up to `stop` no link leads out. -/
def Closed (o : SourceOutline) (start stop : Nat) : Prop :=
  ∀ i j, o.closing i = some j → start ≤ i → i < stop → start ≤ j ∧ j < stop

/-- Behind `start` no group is open. -/
def Outside (o : SourceOutline) (start i : Nat) : Prop := start ≤ i ∧ Closed o start i

/-- A bracket, opening or closing. -/
def isBracket (o : SourceOutline) (index : Nat) : Bool := o.isOpener index || o.isCloser index

/-- Every bracket has a partner. -/
def AllMatched (o : SourceOutline) : Prop :=
  ∀ i, i < o.tokens.length → o.isBracket i = true → (o.closing i).isSome = true

instance (o : SourceOutline) : Decidable (AllMatched o) :=
  inferInstanceAs (Decidable (∀ i, i < o.tokens.length → o.isBracket i = true →
    (o.closing i).isSome = true))

theorem Closed.empty (start : Nat) : Closed o start start :=
  fun _ _ _ hle hlt => absurd hlt (Nat.not_lt.mpr hle)

/-- What lies between two positions outside of all groups is a range without open groups. -/
theorem Outside.between (hn : Nested o.tokens o.closing) {start a b : Nat}
    (ha : Outside o start a) (hb : Outside o start b) : Closed o a b := by
  intro i j hij hle hlt
  obtain ⟨hj, hjb⟩ := hb.2 i j hij (Nat.le_trans ha.1 hle) hlt
  refine ⟨?_, hjb⟩
  by_contra hja
  have hback := ha.2 j i (hn.symm i j hij) hj (Nat.lt_of_not_le hja)
  omega

theorem mem_openers {text opener : Str} (h : openerOf text = some opener) :
    opener ∈ [['('], ['['], ['{']] := by
  rw [openerOf] at h
  split at h
  · rw [← Option.some.inj h]
    decide
  · split at h
    · rw [← Option.some.inj h]
      decide
    · split at h
      · rw [← Option.some.inj h]
        decide
      · cases h

/-- An opener is no closer. -/
theorem lt_of_opener (hn : Nested o.tokens o.closing) {i j : Nat} (hopener : o.isOpener i = true)
    (hij : o.closing i = some j) : i < j := by
  have hrange := range_file hn
  exact hrange.lt_of_closing hopener hij

/-- Only an opener has its partner behind it. -/
theorem opener_of_lt (hn : Nested o.tokens o.closing) {i j : Nat} (hij : o.closing i = some j)
    (hlt : i < j) : o.isOpener i = true := by
  obtain ⟨first, last, hpair⟩ := hn.pair i j hij hlt
  exact isPunctOf_iff.mpr ⟨first.text, mem_openers hpair.opener,
    isPunct_iff.mpr ⟨first, hpair.firstAt, hpair.kinds.1, rfl⟩⟩

/-- **A step of the scanner passes a whole group.** -/
theorem outside_next (hn : Nested o.tokens o.closing) {start stop i : Nat}
    (hclosed : Closed o start stop) (hlt : i < stop) (h : Outside o start i) :
    Outside o start (o.next i stop) := by
  refine ⟨Nat.le_trans h.1 (Nat.le_of_lt (o.lt_next i stop)), ?_⟩
  rw [next]
  cases hopener : o.isOpener i with
  | true =>
    cases hclose : o.closing i with
    | none =>
      -- an opener without a partner reaches to the end of the range
      have hend : o.groupEnd i stop + 1 = stop := by
        rw [groupEnd, if_pos hopener, hclose, Option.filter_none, Option.getD_none]
        omega
      rw [hend]
      exact hclosed
    | some close =>
      have hforward := lt_of_opener hn hopener hclose
      have hinside := hclosed i close hclose h.1 hlt
      have hend : o.groupEnd i stop = close := by
        rw [groupEnd, if_pos hopener, hclose, Option.filter_some,
          if_pos (decide_eq_true ⟨hforward, hinside.2⟩), Option.getD_some]
      rw [hend]
      intro k j hkj hle hlt'
      rcases Nat.lt_trichotomy k i with hk | rfl | hk
      · have hold := h.2 k j hkj hle hk
        omega
      · rw [hclose] at hkj
        cases hkj
        exact ⟨by have := h.1; omega, Nat.lt_succ_self _⟩
      · rcases Nat.lt_or_ge k close with hk' | hk'
        · have hlaminar := hn.laminar i close k j hclose hkj hk hk'
          have := h.1
          omega
        · have heq : k = close := by omega
          have hback := hn.symm i close hclose
          rw [heq, hback] at hkj
          cases hkj
          exact ⟨h.1, by omega⟩
  | false =>
    rw [groupEnd_of_not_opener hopener]
    intro k j hkj hle hlt'
    rcases Nat.lt_or_ge k i with hk | hk
    · have hold := h.2 k j hkj hle hk
      omega
    · -- the token itself is no opener, and a closer would have its opener before it
      have heq : k = i := by omega
      rw [heq] at hkj
      have hj := hclosed i j hkj h.1 hlt
      rcases Nat.lt_trichotomy j i with hji | rfl | hij
      · have hback := h.2 j i (hn.symm i j hkj) hj.1 hji
        omega
      · exact absurd rfl (hn.ne j j hkj)
      · rw [opener_of_lt hn hkj hij] at hopener
        cases hopener

/-- A scope without open groups is a range whose steps pass whole groups. -/
theorem Range.outside {start stop : Nat} {G : Nat → Prop} (r : Range o stop G)
    (hclosed : Closed o start stop) : Range o stop (Outside o start) where
  nested := r.nested
  stop_le := r.stop_le
  barrier := r.barrier
  next _ hlt h := outside_next r.nested hclosed hlt h

theorem closed_file (hn : Nested o.tokens o.closing) : Closed o 0 o.tokens.length := by
  intro i j hij _ _
  refine ⟨Nat.zero_le j, ?_⟩
  rcases Nat.lt_trichotomy i j with hlt | rfl | hlt
  · obtain ⟨first, last, hpair⟩ := hn.pair i j hij hlt
    exact (List.getElem?_eq_some_iff.mp hpair.lastAt).1
  · exact absurd rfl (hn.ne i i hij)
  · obtain ⟨first, last, hpair⟩ := hn.pair j i (hn.symm i j hij) hlt
    exact (List.getElem?_eq_some_iff.mp hpair.firstAt).1

/-- The inside of a group. -/
theorem closed_inside (hn : Nested o.tokens o.closing) {opening close : Nat}
    (h : o.closing opening = some close) : Closed o (opening + 1) close := by
  intro i j hij hle hlt
  exact hn.laminar opening close i j h hij hle hlt

/-- **Scanned scopes have no open groups**, when every bracket has a partner. -/
theorem Scanned.closed (hn : Nested o.tokens o.closing) (hall : AllMatched o) {start stop : Nat}
    {owner : Option Str} {isEnum : Bool} (hs : Scanned o start stop owner isEnum) :
    Closed o start stop := by
  induction hs with
  | file => exact closed_file hn
  | @body start stop opening close owner isEnum members m d hs hmembers hm hkind hbody ih =>
    obtain ⟨hrange, hat⟩ := hs.range hn
    have houtside := hrange.outside ih
    have hstart : At stop (Outside o start) start := ⟨hat.le, Nat.le_refl _, Closed.empty start⟩
    have hlisted := (houtside.listed_scanMembers hstart owner isEnum).answer hmembers
    have hfound := (hlisted.mem m hm).2.2.body d hkind _ hbody
    have hlt := houtside.lt_of_isPunct hfound.position.le hfound.brace (by decide)
    have hlength : opening < o.tokens.length := Nat.lt_of_lt_of_le hlt hrange.stop_le
    have hopener : o.isOpener opening = true :=
      isPunctOf_iff.mpr ⟨['{'], by decide, hfound.brace⟩
    have hbracket : o.isBracket opening = true := by rw [isBracket, hopener, Bool.true_or]
    obtain ⟨partner, hpartner⟩ := Option.isSome_iff_exists.mp (hall opening hlength hbracket)
    have hinside := ih opening partner hpartner hfound.position.cut.1 hlt
    have hclose := hfound.close
    rw [hpartner, Option.filter_some, if_pos (decide_eq_true hinside.2), Option.getD_some] at hclose
    have hclose : close = partner := hclose
    rw [hclose]
    exact closed_inside hn hpartner

end SourceOutline

/-- **Members are closed under bracket matching.**  When every bracket of a text has a partner, a
member of any scanned scope holds with a bracket also its partner. -/
theorem members_closed (u : Unicode) (source : Str) (language : SourceLanguage)
    (hall : (SourceOutline.parse u source language).AllMatched) {start stop : Nat}
    {owner : Option Str} {isEnum : Bool} {members : List Member}
    (hs : SourceOutline.Scanned (SourceOutline.parse u source language) start stop owner isEnum)
    (hmembers : (SourceOutline.parse u source language).scanMembers start stop owner isEnum
      = some members) {m : Member} (hm : m ∈ members) {i : Nat} (hfirst : m.start ≤ i)
    (hlast : i ≤ m.stop) (hbracket : (SourceOutline.parse u source language).isBracket i = true) :
    ∃ j, (SourceOutline.parse u source language).closing i = some j ∧ m.start ≤ j ∧ j ≤ m.stop := by
  have hn := SourceOutline.parse_nested u source language
  obtain ⟨hrange, hat⟩ := hs.range hn
  have houtside := hrange.outside (hs.closed hn hall)
  have hlisted := (houtside.listed_scanMembers
    ⟨hat.le, Nat.le_refl _, SourceOutline.Closed.empty start⟩ owner isEnum).answer hmembers
  obtain ⟨-, hstart, houtlined⟩ := hlisted.mem m hm
  have hclosed := hstart.between hn houtlined.last.cut
  have hlength : i < (SourceOutline.parse u source language).tokens.length := by
    have hlt := houtlined.last.lt
    have hle := hrange.stop_le
    omega
  obtain ⟨j, hj⟩ := Option.isSome_iff_exists.mp (hall i hlength hbracket)
  obtain ⟨hle, hlt⟩ := hclosed i j hj hfirst (Nat.lt_succ_of_le hlast)
  exact ⟨j, hj, hle, Nat.le_of_lt_succ hlt⟩

theorem parameters_of_method_closed :
    ∃ j, (SourceOutline.parse .asciiOnly "class A\x7bvoid f(int a)\x7b\x7d\x7d".toList
      .java).closing 5 = some j ∧ 3 ≤ j ∧ j ≤ 10 :=
  members_closed .asciiOnly "class A\x7bvoid f(int a)\x7b\x7d\x7d".toList .java
    (by decide +kernel)
    (.body .file
      (show _ = some
        [{ start := 0
           stop := 11
           kind := .type
            { name := ['A'], isEnum := false, isRecord := false, isCompanion := false
              typeParameters := none, primaryParameters := none, body := some (2, 11) } }] by
        decide +kernel) List.mem_cons_self rfl rfl)
    (show _ = some
      [{ start := 3
         stop := 10
         kind := .function
          { name := ['f'], isConstructor := false, isSuspend := false, typeParameters := none
            receiver := none, parameters := (5, 8) } }] by
      decide +kernel) List.mem_cons_self (by decide) (by decide) (by decide +kernel)

end MavenMcp.DeclarationSource
