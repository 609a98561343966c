/-
# What a timestamp denotes

The instants that the texts of `time.rs` denote, by the calendar: dates, times of a day with an
offset or without one, and epochs.  `normalize_timestamp` answers one text for each millisecond.

* `normalizeTimestamp_of_denotes`: a text that denotes an instant is normalized to the text of its
  millisecond, if there is one.
* `denotes_of_normalizeTimestamp`: only texts that denote an instant are normalized.
* `denotes_text`, `compare_text`: a normalized text denotes its moment, and texts are ordered as
  what they denote.
* `normalizeTimestamp_canonical`: so the codec is canonical and preserves the order.
-/
import MavenMcp.Lib.Calendar
import MavenMcp.Lib.Decimal
import MavenMcp.LogAnalysis.Time
import MavenMcp.LogAnalysis.Events
import MavenMcp.Redaction.Shapes
import Mathlib.Tactic.Linarith
import Mathlib.Tactic.Positivity
import Mathlib.Tactic.Ring

namespace MavenMcp.LogAnalysis.Timestamp

open Calendar (Date)
open Decimal (Digits)

/-! ## 1. Texts -/

/-- A zone: UTC, or hours and minutes ahead of it or behind. -/
inductive ZoneText : Str → Int → Prop
  | utc : ZoneText ['Z'] 0
  | ahead {hour minute : Str} : Digits 2 hour → Digits 2 minute → numeral hour ≤ 23 →
      numeral minute ≤ 59 →
      ZoneText ('+' :: (hour ++ ':' :: minute)) ((numeral hour * 60 + numeral minute) * 60)
  | behind {hour minute : Str} : Digits 2 hour → Digits 2 minute → numeral hour ≤ 23 →
      numeral minute ≤ 59 →
      ZoneText ('-' :: (hour ++ ':' :: minute)) (-((numeral hour * 60 + numeral minute) * 60))

/-- What may follow the seconds: a fraction, in nanoseconds. -/
inductive FractionText : Str → Int → Prop
  | none : FractionText [] 0
  | digits {mark : Char} {n : Nat} {digits : Str} : mark ∈ ['.', ','] → 0 < n → n ≤ 9 →
      Digits n digits → FractionText (mark :: digits) (numeral digits * 10 ^ (9 - n))

/-- What may follow a date: nothing, or a time of the day, in nanoseconds of UTC. -/
inductive ClockText : Str → Int → Prop
  | midnight : ClockText [] 0
  | time {mark : Char} {hour minute second fraction zone : Str} {nanos offset : Int} :
      mark ∈ ['T', ' '] → Digits 2 hour → Digits 2 minute → Digits 2 second →
      numeral hour ≤ 23 → numeral minute ≤ 59 → numeral second ≤ 59 →
      FractionText fraction nanos → (zone = [] ∧ offset = 0 ∨ ZoneText zone offset) →
      ClockText (mark :: (hour ++ ':' :: (minute ++ ':' :: (second ++ (fraction ++ zone)))))
        ((numeral hour * 3600 + numeral minute * 60 + numeral second - offset) * 10 ^ 9 + nanos)

/-- The text denotes an instant, in nanoseconds since 1970. -/
inductive Denotes : Str → Int → Prop
  | seconds {text : Str} : Digits 10 text → Denotes text (numeral text * 10 ^ 9)
  | millis {text : Str} : Digits 13 text → Denotes text (numeral text * 10 ^ 6)
  | civil {year month day clock : Str} {nanos : Int} (date : Date) :
      Digits 4 year → Digits 2 month → Digits 2 day →
      numeral year = date.year → numeral month = date.month → numeral day = date.day →
      ClockText clock nanos →
      Denotes (year ++ '-' :: (month ++ '-' :: (day ++ clock)))
        (date.dayNumber * 86400 * 10 ^ 9 + nanos)

/-! ## 2. Shapes -/

/-- The parts of a text that the expression captures. -/
structure Parts where
  year : Str
  month : Str
  day : Str
  hour : Option Str
  minute : Option Str
  second : Option Str
  fraction : Option Str
  zone : Option Str

/-- A group of the expression. -/
def Parts.group (p : Parts) : Nat → Option Str
  | 1 => some p.year
  | 2 => some p.month
  | 3 => some p.day
  | 4 => p.hour
  | 5 => p.minute
  | 6 => p.second
  | 7 => p.fraction
  | 8 => p.zone
  | _ => none

/-- A mark and digits, or nothing. -/
inductive FractionShape : Str → Option Str → Prop
  | none : FractionShape [] none
  | some {mark : Char} {n : Nat} {digits : Str} : mark ∈ ['.', ','] → 0 < n → n ≤ 9 →
      Digits n digits → FractionShape (mark :: digits) (some digits)

/-- A zone, or nothing. -/
inductive ZoneShape : Str → Option Str → Prop
  | none : ZoneShape [] none
  | utc : ZoneShape ['Z'] (some ['Z'])
  | offset {sign : Char} {hour minute : Str} : sign ∈ ['+', '-'] → Digits 2 hour →
      Digits 2 minute →
      ZoneShape (sign :: (hour ++ ':' :: minute)) (some (sign :: (hour ++ ':' :: minute)))

/-- What follows the date. -/
inductive ClockShape : Str → Parts → Prop
  | none {year month day : Str} : ClockShape [] ⟨year, month, day, none, none, none, none, none⟩
  | time {mark : Char} {year month day hour minute second f z : Str} {fraction zone : Option Str} :
      mark ∈ ['T', ' '] → Digits 2 hour → Digits 2 minute → Digits 2 second →
      FractionShape f fraction → ZoneShape z zone →
      ClockShape (mark :: (hour ++ ':' :: (minute ++ ':' :: (second ++ (f ++ z)))))
        ⟨year, month, day, some hour, some minute, some second, fraction, zone⟩

/-- The text has these parts. -/
structure Shape (text : Str) (p : Parts) : Prop where
  year : Digits 4 p.year
  month : Digits 2 p.month
  day : Digits 2 p.day
  clock : ∃ clock, text = p.year ++ '-' :: (p.month ++ '-' :: (p.day ++ clock)) ∧ ClockShape clock p

/-! ## 3. What the expression captures -/

section

open Regex
open Redaction (exact oneOf)

theorem isAsciiDigit_eq (c : Char) : isAsciiDigit c = c.isDigit := by
  rw [isAsciiDigit, Char.isDigit, Bool.decide_and]
  rfl

theorem consumes_exactly_digit {n : Nat} {prev : Option Char} {w rest : Str} :
    Consumes (exactly n digit) prev w rest ↔ Digits n w := by
  induction n generalizing prev w with
  | zero =>
    rw [exactly, List.replicate_zero, consumes_seqs_nil]
    exact ⟨fun h => ⟨by rw [h]; rfl, by rw [h]; exact nofun⟩,
      fun h => List.eq_nil_of_length_eq_zero h.length_eq⟩
  | succ n ih =>
    rw [exactly, List.replicate_succ, consumes_seqs_cons]
    constructor
    · rintro ⟨v, v', rfl, hv, hv'⟩
      obtain ⟨c, rfl, hc⟩ := consumes_char.mp hv
      exact Decimal.digits_cons_iff.mpr ⟨isAsciiDigit_eq c ▸ hc, ih.mp hv'⟩
    · intro h
      obtain ⟨c, w, rfl⟩ := List.exists_cons_of_length_eq_add_one h.length_eq
      obtain ⟨hc, hw⟩ := Decimal.digits_cons_iff.mp h
      exact ⟨[c], w, rfl, consumes_char.mpr ⟨c, rfl, (isAsciiDigit_eq c).trans hc⟩, ih.mpr hw⟩

theorem consumes_atMost_digit {n : Nat} {prev : Option Char} {w rest : Str} :
    Consumes (atMost n digit) prev w rest ↔ ∃ m ≤ n, Digits m w := by
  induction n generalizing prev w with
  | zero =>
    rw [atMost, consumes_empty]
    constructor
    · rintro rfl
      exact ⟨0, Nat.le_refl 0, rfl, nofun⟩
    · rintro ⟨m, hm, hw⟩
      exact List.eq_nil_of_length_eq_zero (hw.length_eq.trans (Nat.eq_zero_of_le_zero hm))
  | succ n ih =>
    rw [atMost, consumes_opt, consumes_seq]
    constructor
    · rintro (⟨v, v', rfl, hv, hv'⟩ | rfl)
      · obtain ⟨c, rfl, hc⟩ := consumes_char.mp hv
        obtain ⟨m, hm, hw⟩ := ih.mp hv'
        exact ⟨m + 1, Nat.succ_le_succ hm,
          Decimal.digits_cons_iff.mpr ⟨isAsciiDigit_eq c ▸ hc, hw⟩⟩
      · exact ⟨0, Nat.zero_le _, rfl, nofun⟩
    · rintro ⟨m, hm, hw⟩
      cases w with
      | nil => exact .inr rfl
      | cons c w =>
        obtain ⟨m, rfl⟩ : ∃ k, m = k + 1 := ⟨w.length, hw.length_eq.symm⟩
        obtain ⟨hc, hw⟩ := Decimal.digits_cons_iff.mp hw
        exact .inl ⟨[c], w, rfl, consumes_char.mpr ⟨c, rfl, (isAsciiDigit_eq c).trans hc⟩,
          ih.mpr ⟨m, Nat.le_of_succ_le_succ hm, hw⟩⟩

theorem groupFree_exactly_digit (n : Nat) : (exactly n digit).GroupFree :=
  groupFree_seqs fun r hr => by rw [List.eq_of_mem_replicate hr]; trivial

theorem groupFree_atMost_digit : ∀ n : Nat, (atMost n digit).GroupFree
  | 0 => trivial
  | n + 1 => ⟨⟨trivial, groupFree_atMost_digit n⟩, trivial⟩

section

variable {s t : Regex.State}

/-- A field of so many digits. -/
theorem ends_field {i n : Nat} (h : t ∈ (group i (exactly n digit)).run s) :
    ∃ w, Digits n w ∧ s.ahead = w ++ t.ahead ∧
      t.groups = (i, w ++ t.ahead, t.ahead) :: s.groups := by
  obtain ⟨w, hahead, hgroups, hw⟩ := ends_of_group (groupFree_exactly_digit n) h
  exact ⟨w, consumes_exactly_digit.mp hw, hahead, hgroups⟩

theorem ends_exact {c : Char} (h : t ∈ (exact [c]).run s) :
    s.ahead = c :: t.ahead ∧ t.groups = s.groups := by
  have hfree : (exact [c]).GroupFree := ⟨trivial, trivial⟩
  obtain ⟨w, hahead, hgroups, hw⟩ := ends_of_groupFree hfree h
  rw [Redaction.consumes_exact] at hw
  subst hw
  exact ⟨hahead, hgroups⟩

theorem ends_oneOf {cs : Str} (h : t ∈ (oneOf cs).run s) :
    ∃ c ∈ cs, s.ahead = c :: t.ahead ∧ t.groups = s.groups := by
  have hfree : (oneOf cs).GroupFree := trivial
  obtain ⟨w, hahead, hgroups, hw⟩ := ends_of_groupFree hfree h
  obtain ⟨c, hc, rfl⟩ := Redaction.consumes_oneOf.mp hw
  exact ⟨c, hc, hahead, hgroups⟩

end

/-- The fraction in `DATE`. -/
def fractionExpr : Regex :=
  opt (.seq (oneOf ['.', ',']) (.group 7 (.seq digit (atMost 8 digit))))

/-- A zone in `DATE`. -/
def zoneExpr : Regex :=
  .alt (exact ['Z']) (seqs [oneOf ['+', '-'], exactly 2 digit, exact [':'], exactly 2 digit])

/-- The time of the day in `DATE`. -/
def clockExpr : Regex :=
  seqs [oneOf ['T', ' '], .group 4 (exactly 2 digit), exact [':'], .group 5 (exactly 2 digit),
    exact [':'], .group 6 (exactly 2 digit), fractionExpr, opt (.group 8 zoneExpr)]

theorem date_eq : date = seqs [.group 1 (exactly 4 digit), exact ['-'], .group 2 (exactly 2 digit),
    exact ['-'], .group 3 (exactly 2 digit), opt clockExpr] := rfl

theorem consumes_fractionExpr {prev : Option Char} {w rest : Str} :
    Consumes fractionExpr prev w rest ↔ ∃ fraction, FractionShape w fraction := by
  simp only [fractionExpr, consumes_opt, consumes_seq, consumes_group, Redaction.consumes_oneOf]
  constructor
  · rintro (⟨_, v, rfl, ⟨mark, hmark, rfl⟩, _, w, rfl, hfirst, hw⟩ | rfl)
    · obtain ⟨c, rfl, hc⟩ := consumes_char.mp hfirst
      obtain ⟨n, hn, hw⟩ := consumes_atMost_digit.mp hw
      exact ⟨_, .some hmark n.succ_pos (Nat.succ_le_succ hn)
        (Decimal.digits_cons_iff.mpr ⟨isAsciiDigit_eq c ▸ hc, hw⟩)⟩
    · exact ⟨_, .none⟩
  · rintro ⟨fraction, h⟩
    cases h with
    | none => exact .inr rfl
    | @some mark n digits hmark hpos hle hdigits =>
      obtain ⟨n, rfl⟩ := Nat.exists_eq_succ_of_ne_zero (Nat.ne_of_gt hpos)
      obtain ⟨c, digits, rfl⟩ := List.exists_cons_of_length_eq_add_one hdigits.length_eq
      obtain ⟨hc, hrest⟩ := Decimal.digits_cons_iff.mp hdigits
      exact .inl ⟨[mark], c :: digits, rfl, ⟨mark, hmark, rfl⟩, [c], digits, rfl,
        consumes_char.mpr ⟨c, rfl, (isAsciiDigit_eq c).trans hc⟩,
        consumes_atMost_digit.mpr ⟨n, Nat.le_of_succ_le_succ hle, hrest⟩⟩

theorem consumes_zoneExpr {prev : Option Char} {w rest : Str} :
    Consumes zoneExpr prev w rest ↔ ZoneShape w (some w) := by
  simp only [zoneExpr, consumes_alt, consumes_seqs_cons, consumes_seqs_nil,
    Redaction.consumes_exact, Redaction.consumes_oneOf, consumes_exactly_digit]
  constructor
  · rintro (rfl | ⟨_, _, rfl, ⟨sign, hsign, rfl⟩, hour, _, rfl, hhour, _, _, rfl, rfl,
      minute, _, rfl,
      hminute, rfl⟩)
    · exact .utc
    · simpa using ZoneShape.offset hsign hhour hminute
  · intro h
    cases h with
    | utc => exact .inl rfl
    | @offset sign hour minute hsign hhour hminute =>
      exact .inr ⟨[sign], _, rfl, ⟨sign, hsign, rfl⟩, hour, _, rfl, hhour, [':'], _, rfl, rfl,
        minute, [], by simp, hminute, rfl⟩

section

variable {s t : Regex.State}

theorem ends_fraction (h : t ∈ fractionExpr.run s) :
    ∃ f fraction, FractionShape f fraction ∧ s.ahead = f ++ t.ahead ∧
      t.groups = (fraction.map fun w => (7, w ++ t.ahead, t.ahead)).toList ++ s.groups := by
  rcases mem_run_opt.mp h with h | rfl
  · obtain ⟨u, hu, ht⟩ := List.mem_flatMap.mp h
    obtain ⟨mark, hmark, hahead, hgroups⟩ := ends_oneOf hu
    have hfree : (seq digit (atMost 8 digit)).GroupFree := ⟨trivial, groupFree_atMost_digit 8⟩
    obtain ⟨w, hahead', hgroups', hw⟩ := ends_of_group hfree ht
    obtain ⟨_, w, rfl, hfirst, hw⟩ := consumes_seq.mp hw
    obtain ⟨c, rfl, hc⟩ := consumes_char.mp hfirst
    obtain ⟨n, hn, hw⟩ := consumes_atMost_digit.mp hw
    refine ⟨mark :: ([c] ++ w), some ([c] ++ w), ?_, by rw [hahead, hahead']; rfl, ?_⟩
    · exact .some hmark n.succ_pos (Nat.succ_le_succ hn)
        (Decimal.digits_cons_iff.mpr ⟨isAsciiDigit_eq c ▸ hc, hw⟩)
    · rw [hgroups', hgroups]
      rfl
  · exact ⟨[], none, .none, rfl, rfl⟩

theorem ends_zone (h : t ∈ (opt (.group 8 zoneExpr)).run s) :
    ∃ z zone, ZoneShape z zone ∧ s.ahead = z ++ t.ahead ∧
      t.groups = (zone.map fun w => (8, w ++ t.ahead, t.ahead)).toList ++ s.groups := by
  rcases mem_run_opt.mp h with h | rfl
  · have hfree : zoneExpr.GroupFree := by
      refine ⟨⟨trivial, trivial⟩, groupFree_seqs fun r hr => ?_⟩
      simp only [List.mem_cons, List.not_mem_nil, or_false] at hr
      rcases hr with rfl | rfl | rfl | rfl
      · trivial
      · exact groupFree_exactly_digit 2
      · exact ⟨trivial, trivial⟩
      · exact groupFree_exactly_digit 2
    obtain ⟨w, hahead, hgroups, hw⟩ := ends_of_group hfree h
    exact ⟨w, some w, consumes_zoneExpr.mp hw, hahead, hgroups⟩
  · exact ⟨[], none, .none, rfl, rfl⟩

end

/-- The groups are those of the parts. -/
def Records (c : Regex.State) (p : Parts) : Prop :=
  ∀ i, 1 ≤ i → i ≤ 8 → (c.group i).map Prod.snd = p.group i

/-- **What is captured** are the parts of the text. -/
theorem shape_of_mem_run {text : Str} {t : Regex.State}
    (h : t ∈ date.run { prev := none, ahead := text, groups := [] }) (hend : t.ahead = []) :
    ∃ p, Shape text p ∧ Records t p := by
  rw [date_eq] at h
  obtain ⟨s₁, h₁, h⟩ := mem_run_seqs_cons.mp h
  obtain ⟨s₂, h₂, h⟩ := mem_run_seqs_cons.mp h
  obtain ⟨s₃, h₃, h⟩ := mem_run_seqs_cons.mp h
  obtain ⟨s₄, h₄, h⟩ := mem_run_seqs_cons.mp h
  obtain ⟨s₅, h₅, h⟩ := mem_run_seqs_cons.mp h
  obtain ⟨year, hyear, a₁, g₁⟩ := ends_field h₁
  obtain ⟨a₂, g₂⟩ := ends_exact h₂
  obtain ⟨month, hmonth, a₃, g₃⟩ := ends_field h₃
  obtain ⟨a₄, g₄⟩ := ends_exact h₄
  obtain ⟨day, hday, a₅, g₅⟩ := ends_field h₅
  have hdate : text = year ++ '-' :: (month ++ '-' :: (day ++ s₅.ahead)) := by
    rw [← a₅, ← a₄, ← a₃, ← a₂]
    exact a₁
  rw [run_seqs_singleton] at h
  rcases mem_run_opt.mp h with h | rfl
  · rw [clockExpr] at h
    obtain ⟨s₆, h₆, h⟩ := mem_run_seqs_cons.mp h
    obtain ⟨s₇, h₇, h⟩ := mem_run_seqs_cons.mp h
    obtain ⟨s₈, h₈, h⟩ := mem_run_seqs_cons.mp h
    obtain ⟨s₉, h₉, h⟩ := mem_run_seqs_cons.mp h
    obtain ⟨s₁₀, h₁₀, h⟩ := mem_run_seqs_cons.mp h
    obtain ⟨s₁₁, h₁₁, h⟩ := mem_run_seqs_cons.mp h
    obtain ⟨s₁₂, h₁₂, h⟩ := mem_run_seqs_cons.mp h
    rw [run_seqs_singleton] at h
    obtain ⟨mark, hmark, a₆, g₆⟩ := ends_oneOf h₆
    obtain ⟨hour, hhour, a₇, g₇⟩ := ends_field h₇
    obtain ⟨a₈, g₈⟩ := ends_exact h₈
    obtain ⟨minute, hminute, a₉, g₉⟩ := ends_field h₉
    obtain ⟨a₁₀, g₁₀⟩ := ends_exact h₁₀
    obtain ⟨second, hsecond, a₁₁, g₁₁⟩ := ends_field h₁₁
    obtain ⟨f, fraction, hfraction, a₁₂, g₁₂⟩ := ends_fraction h₁₂
    obtain ⟨z, zone, hzone, a₁₃, g₁₃⟩ := ends_zone h
    rw [hend, List.append_nil] at a₁₃
    have hclock : s₅.ahead
        = mark :: (hour ++ ':' :: (minute ++ ':' :: (second ++ (f ++ z)))) := by
      rw [← a₁₃, ← a₁₂, ← a₁₁, ← a₁₀, ← a₉, ← a₈, ← a₇, a₆]
    refine ⟨⟨year, month, day, some hour, some minute, some second, fraction, zone⟩,
      ⟨hyear, hmonth, hday, _, hdate, ?_⟩, fun i hlow hhigh => ?_⟩
    · rw [hclock]
      exact .time hmark hhour hminute hsecond hfraction hzone
    · simp only [Regex.State.group, g₁₃, g₁₂, g₁₁, g₁₀, g₉, g₈, g₇, g₆, g₅, g₄, g₃, g₂, g₁]
      cases fraction with
      | none =>
        cases zone with
        | none => interval_cases i <;> simp [Parts.group, List.lookup_cons]
        | some zone => interval_cases i <;> simp [Parts.group, List.lookup_cons]
      | some fraction =>
        cases zone with
        | none => interval_cases i <;> simp [Parts.group, List.lookup_cons]
        | some zone => interval_cases i <;> simp [Parts.group, List.lookup_cons]
  · refine ⟨⟨year, month, day, none, none, none, none, none⟩,
      ⟨hyear, hmonth, hday, [], by rw [hdate, hend], .none⟩, fun i hlow hhigh => ?_⟩
    simp only [Regex.State.group, g₅, g₄, g₃, g₂, g₁]
    interval_cases i <;> simp [Parts.group, List.lookup_cons]

/-- A text with these parts is matched. -/
theorem consumes_of_shape {text : Str} {p : Parts} (h : Shape text p) :
    Consumes date none text [] := by
  obtain ⟨hyear, hmonth, hday, clock, rfl, hclock⟩ := h
  simp only [date_eq, consumes_seqs_cons, consumes_seqs_nil, consumes_group, consumes_exactly_digit,
    Redaction.consumes_exact, consumes_opt]
  refine ⟨_, _, rfl, hyear, ['-'], _, rfl, rfl, _, _, rfl, hmonth, ['-'], _, rfl, rfl, _, _, rfl,
    hday, clock, [], by simp, ?_, rfl⟩
  cases hclock with
  | none => exact .inr rfl
  | time hmark hhour hminute hsecond hfraction hzone =>
    left
    simp only [clockExpr, consumes_seqs_cons, consumes_seqs_nil, consumes_group,
      consumes_exactly_digit, Redaction.consumes_exact, Redaction.consumes_oneOf,
      consumes_fractionExpr, consumes_opt, consumes_zoneExpr]
    refine ⟨[_], _, rfl, ⟨_, hmark, rfl⟩, _, _, rfl, hhour, [':'], _, rfl, rfl, _, _, rfl, hminute,
      [':'], _, rfl, rfl, _, _, rfl, hsecond, _, _, rfl, ⟨_, hfraction⟩, _, [],
      (List.append_nil _).symm, ?_, rfl⟩
    cases hzone with
    | none => exact .inr rfl
    | utc => exact .inl .utc
    | offset hsign hhour hminute => exact .inl (.offset hsign hhour hminute)

/-- **The captures** of a text are its parts. -/
theorem captures_spec {text : Str} {c : Regex.State} (h : captures date text = some c) :
    ∃ p, Shape text p ∧ Records c p :=
  shape_of_mem_run (List.mem_of_find?_eq_some h)
    (List.isEmpty_iff.mp (List.find?_some (p := fun t : Regex.State => t.ahead.isEmpty) h))

theorem exists_captures {text : Str} {p : Parts} (h : Shape text p) :
    ∃ c, captures date text = some c := by
  obtain ⟨gs, hmem⟩ := run_complete [] (consumes_of_shape h)
  rw [List.append_nil] at hmem
  exact Option.isSome_iff_exists.mp (List.find?_isSome.mpr ⟨_, hmem, rfl⟩)

end

/-! ## 4. One text, one shape -/

theorem Digits.append_inj {n : Nat} {u v a b : Str} (hu : Digits n u) (hv : Digits n v)
    (h : u ++ a = v ++ b) : u = v ∧ a = b :=
  List.append_inj h (hu.length_eq.trans hv.length_eq.symm)

/-- No zone begins with a digit or with the mark of a fraction. -/
theorem ZoneShape.head {z : Str} {zone : Option Str} (h : ZoneShape z zone) {c : Char}
    (hc : z.head? = some c) : c.isDigit = false ∧ c ∉ ['.', ','] := by
  cases h with
  | none => cases hc
  | utc =>
    cases hc
    decide
  | offset hsign _ _ =>
    cases hc
    simp only [List.mem_cons, List.not_mem_nil, or_false] at hsign
    rcases hsign with rfl | rfl
    · decide
    · decide

/-- Digits end where something else begins. -/
theorem digits_cut {m n : Nat} {u v a b : Str} (hu : Digits m u) (hv : Digits n v)
    (ha : ∀ c, a.head? = some c → c.isDigit = false)
    (hb : ∀ c, b.head? = some c → c.isDigit = false)
    (h : u ++ a = v ++ b) : u = v ∧ a = b := by
  have hcut : ∀ {n : Nat} {u a : Str}, Digits n u → (∀ c, a.head? = some c → c.isDigit = false) →
      (u ++ a).takeWhile Char.isDigit = u := by
    intro n u a hu ha
    rw [List.takeWhile_append_of_pos hu.isDigit]
    cases a with
    | nil => simp
    | cons c a => simp [ha c rfl]
  have huv : u = v := by rw [← hcut hu ha, h, hcut hv hb]
  subst huv
  exact ⟨rfl, List.append_cancel_left h⟩

theorem zone_eq {z : Str} {zone : Option Str} (h : ZoneShape z zone) :
    zone = if z = [] then none else some z := by
  cases h <;> rfl

/-- A fraction and a zone are told apart. -/
theorem tail_unique {f f' z z' : Str} {fraction fraction' zone zone' : Option Str}
    (hf : FractionShape f fraction) (hf' : FractionShape f' fraction') (hz : ZoneShape z zone)
    (hz' : ZoneShape z' zone') (h : f ++ z = f' ++ z') : fraction = fraction' ∧ zone = zone' := by
  cases hf with
  | none =>
    cases hf' with
    | none =>
      rw [List.nil_append, List.nil_append] at h
      exact ⟨rfl, by rw [zone_eq hz, zone_eq hz', h]⟩
    | some hmark _ _ _ =>
      rw [List.nil_append] at h
      exact absurd hmark (hz.head (by rw [h]; rfl)).2
  | some hmark _ _ hdigits =>
    cases hf' with
    | none =>
      rw [List.nil_append] at h
      exact absurd hmark (hz'.head (by rw [← h]; rfl)).2
    | some hmark' _ _ hdigits' =>
      obtain ⟨rfl, hrest⟩ := digits_cut hdigits hdigits' (fun c hc => (hz.head hc).1)
        (fun c hc => (hz'.head hc).1) (List.cons.inj h).2
      exact ⟨rfl, by rw [zone_eq hz, zone_eq hz', hrest]⟩

/-- **The parts** of a text are determined. -/
theorem Shape.unique {text : Str} {p p' : Parts} (h : Shape text p) (h' : Shape text p') :
    p = p' := by
  obtain ⟨hyear, hmonth, hday, clock, htext, hclock⟩ := h
  obtain ⟨hyear', hmonth', hday', clock', htext', hclock'⟩ := h'
  obtain ⟨hy, hrest⟩ := Digits.append_inj hyear hyear' (htext.symm.trans htext')
  obtain ⟨hm, hrest⟩ := Digits.append_inj hmonth hmonth' (List.cons.inj hrest).2
  obtain ⟨hd, hclocks⟩ := Digits.append_inj hday hday' (List.cons.inj hrest).2
  clear htext htext' hrest
  cases hclock with
  | none =>
    cases hclock' with
    | none =>
      cases hy
      cases hm
      cases hd
      rfl
    | time => cases hclocks
  | time _ hhour hminute hsecond hfraction hzone =>
    cases hclock' with
    | none => cases hclocks
    | time _ hhour' hminute' hsecond' hfraction' hzone' =>
      obtain ⟨hh, hrest⟩ := Digits.append_inj hhour hhour' (List.cons.inj hclocks).2
      obtain ⟨hmin, hrest⟩ := Digits.append_inj hminute hminute' (List.cons.inj hrest).2
      obtain ⟨hs, hrest⟩ := Digits.append_inj hsecond hsecond' (List.cons.inj hrest).2
      obtain ⟨hf, hz⟩ := tail_unique hfraction hfraction' hzone hzone' hrest
      cases hy
      cases hm
      cases hd
      subst hh hmin hs hf hz
      rfl

/-! ## 5. The codec, by parts -/

/-- The number of a part. -/
def numberOf (part : Option Str) : Int := (part.map numeral).getD 0

/-- The milliseconds of a fraction. -/
def millisOf (fraction : Option Str) : Int :=
  numeral ((fraction.getD [] ++ List.replicate (3 - (fraction.getD []).length) '0').take 3)

/-- What is answered for the parts of a text. -/
def normalizeParts (p : Parts) : Option Str := do
  let (year, month, day) := (numeral p.year, numeral p.month, numeral p.day)
  let daysInMonth ← daysInMonth year month
  if ¬(1 ≤ day ∧ day ≤ daysInMonth) ∨ 23 < numberOf p.hour ∨ 59 < numberOf p.minute ∨
      59 < numberOf p.second then none
  let offset ← zoneOffset (p.zone.getD ['Z'])
  formatEpoch ((Calendar.daysFromCivil year month day * 86400 + numberOf p.hour * 3600
    + numberOf p.minute * 60 + numberOf p.second - offset) * 1000 + millisOf p.fraction)

theorem normalizeTimestamp_of_shape {text : Str} {p : Parts} (h : Shape text p) :
    normalizeTimestamp text = normalizeParts p := by
  obtain ⟨c, hc⟩ := exists_captures h
  obtain ⟨p', hp', hrecords⟩ := captures_spec hc
  obtain rfl := h.unique hp'
  have hdash : ¬ (text.all isAsciiDigit = true ∧ (text.length = 10 ∨ text.length = 13)) := by
    rintro ⟨hall, -⟩
    obtain ⟨-, -, -, clock, rfl, -⟩ := h
    have hmem := List.all_eq_true.mp hall '-' (by simp)
    exact absurd hmem (by decide)
  rw [normalizeTimestamp, if_neg hdash, hc]
  have hgroup : ∀ i, 1 ≤ i → i ≤ 8 → (c.group i).map Prod.snd = p.group i := hrecords
  simp only [Option.bind_eq_bind, Option.bind_some, hgroup 1 (by decide) (by decide),
    hgroup 2 (by decide) (by decide), hgroup 3 (by decide) (by decide),
    hgroup 4 (by decide) (by decide), hgroup 5 (by decide) (by decide),
    hgroup 6 (by decide) (by decide), hgroup 7 (by decide) (by decide),
    hgroup 8 (by decide) (by decide)]
  rfl

/-! ## 6. What the parts denote -/

/-- The nanoseconds of a fraction. -/
def nanosOf (fraction : Option Str) : Int :=
  (fraction.map fun digits => numeral digits * 10 ^ (9 - digits.length)).getD 0

theorem fractionText_iff {f : Str} {nanos : Int} :
    FractionText f nanos ↔ ∃ fraction, FractionShape f fraction ∧ nanos = nanosOf fraction := by
  constructor
  · intro h
    cases h with
    | none => exact ⟨_, .none, rfl⟩
    | digits hmark hpos hle hdigits =>
      refine ⟨_, .some hmark hpos hle hdigits, ?_⟩
      rw [nanosOf, Option.map_some, Option.getD_some, hdigits.length_eq]
  · rintro ⟨fraction, h, rfl⟩
    cases h with
    | none => exact .none
    | some hmark hpos hle hdigits =>
      have htext := FractionText.digits hmark hpos hle hdigits
      rwa [← hdigits.length_eq] at htext

/-- The code reads the hours and minutes of a zone by their places. -/
theorem zoneOffset_offset {sign : Char} {hour minute : Str} (hsign : sign ∈ ['+', '-'])
    (hhour : Digits 2 hour) (hminute : Digits 2 minute) :
    zoneOffset (sign :: (hour ++ ':' :: minute)) =
      if 23 < numeral hour ∨ 59 < numeral minute then none
      else some ((numeral hour * 60 + numeral minute) * 60 * if sign = '-' then -1 else 1) := by
  have hfirst : (((sign :: (hour ++ ':' :: minute)).drop 1).take 2) = hour := by
    rw [List.drop_one, List.tail_cons, List.take_left' hhour.length_eq]
  have hlast : (((sign :: (hour ++ ':' :: minute)).drop 4).take 2) = minute := by
    have hdrop : (sign :: (hour ++ ':' :: minute)).drop 4 = minute := by
      rw [show (4 : Nat) = 3 + 1 from rfl, List.drop_succ_cons, List.drop_append, hhour.length_eq]
      simp [List.drop_eq_nil_of_le, hhour.length_eq]
    rw [hdrop, List.take_of_length_le (Nat.le_of_eq hminute.length_eq)]
  have hutc : sign :: (hour ++ ':' :: minute) ≠ ['Z'] := by
    intro h
    cases (List.cons.inj h).1
    exact absurd hsign (by decide)
  rw [zoneOffset, if_neg hutc, hfirst, hlast]
  simp only [List.head?_cons, Option.some.injEq]

theorem zoneText_iff {z : Str} {offset : Int} :
    (z = [] ∧ offset = 0 ∨ ZoneText z offset) ↔
      ∃ zone, ZoneShape z zone ∧ zoneOffset (zone.getD ['Z']) = some offset := by
  constructor
  · rintro (⟨rfl, rfl⟩ | h)
    · exact ⟨_, .none, rfl⟩
    · cases h with
      | utc => exact ⟨_, .utc, rfl⟩
      | ahead hhour hminute hh hm =>
        refine ⟨_, .offset (by decide) hhour hminute, ?_⟩
        rw [Option.getD_some, zoneOffset_offset (by decide) hhour hminute, if_neg (by omega)]
        simp
      | behind hhour hminute hh hm =>
        refine ⟨_, .offset (by decide) hhour hminute, ?_⟩
        rw [Option.getD_some, zoneOffset_offset (by decide) hhour hminute, if_neg (by omega)]
        simp
  · rintro ⟨zone, h, hoffset⟩
    cases h with
    | none =>
      cases hoffset
      exact .inl ⟨rfl, rfl⟩
    | utc =>
      cases hoffset
      exact .inr .utc
    | offset hsign hhour hminute =>
      right
      rw [Option.getD_some, zoneOffset_offset hsign hhour hminute] at hoffset
      split at hoffset
      · cases hoffset
      · next hle =>
        cases hoffset
        simp only [List.mem_cons, List.not_mem_nil, or_false] at hsign
        rcases hsign with rfl | rfl
        · simpa using ZoneText.ahead hhour hminute (by omega) (by omega)
        · simpa using ZoneText.behind hhour hminute (by omega) (by omega)

/-- The parts are those of a time of the day. -/
structure ClockValid (p : Parts) (offset : Int) : Prop where
  hour : numberOf p.hour ≤ 23
  minute : numberOf p.minute ≤ 59
  second : numberOf p.second ≤ 59
  zone : zoneOffset (p.zone.getD ['Z']) = some offset

/-- The seconds of the parts. -/
def secondsOf (p : Parts) (offset : Int) : Int :=
  numberOf p.hour * 3600 + numberOf p.minute * 60 + numberOf p.second - offset

theorem clockText_of_shape {clock : Str} {p : Parts} {offset : Int} (h : ClockShape clock p)
    (hvalid : ClockValid p offset) :
    ClockText clock (secondsOf p offset * 10 ^ 9 + nanosOf p.fraction) := by
  obtain ⟨hhour, hminute, hsecond, hzone⟩ := hvalid
  cases h with
  | none =>
    cases hzone
    exact .midnight
  | time hmark hh hm hs hf hz =>
    exact .time hmark hh hm hs hhour hminute hsecond (fractionText_iff.mpr ⟨_, hf, rfl⟩)
      (zoneText_iff.mpr ⟨_, hz, hzone⟩)

theorem shape_of_clockText (year month day : Str) {clock : Str} {nanos : Int}
    (h : ClockText clock nanos) :
    ∃ p offset, p.year = year ∧ p.month = month ∧ p.day = day ∧ ClockShape clock p ∧
      ClockValid p offset ∧ nanos = secondsOf p offset * 10 ^ 9 + nanosOf p.fraction := by
  cases h with
  | midnight =>
    exact ⟨⟨year, month, day, none, none, none, none, none⟩, 0, rfl, rfl, rfl, .none,
      ⟨by simp [numberOf], by simp [numberOf], by simp [numberOf], rfl⟩, rfl⟩
  | time hmark hh hm hs hhour hminute hsecond hf hz =>
    obtain ⟨fraction, hfraction, rfl⟩ := fractionText_iff.mp hf
    obtain ⟨zone, hzone, hoffset⟩ := zoneText_iff.mp hz
    exact ⟨⟨year, month, day, some _, some _, some _, fraction, zone⟩, _, rfl, rfl, rfl,
      .time hmark hh hm hs hfraction hzone, ⟨hhour, hminute, hsecond, hoffset⟩, rfl⟩

/-- **Milliseconds** are the nanoseconds of a fraction, rounded down. -/
theorem millisOf_eq {f : Str} {fraction : Option Str} (h : FractionShape f fraction) :
    millisOf fraction = nanosOf fraction / 10 ^ 6 := by
  cases h with
  | none => rfl
  | @some mark n digits hmark hpos hle hdigits =>
    rw [millisOf, nanosOf, Option.getD_some, Option.map_some, Option.getD_some, hdigits.length_eq]
    by_cases hshort : n ≤ 3
    · have htake : (digits ++ List.replicate (3 - n) '0').take 3
          = digits ++ List.replicate (3 - n) '0' :=
        List.take_of_length_le (by simp [hdigits.length_eq]; omega)
      have hpow : (10 : Int) ^ (9 - n) = 10 ^ (3 - n) * 10 ^ 6 := by
        rw [← pow_add]
        congr 1
        omega
      rw [htake, numeral, Nat.ofDigitChars_append, Nat.ofDigitChars_replicate_zero, hpow,
        ← mul_assoc, Int.mul_ediv_cancel _ (by decide), mul_comm]
      rfl
    · have htake : (digits ++ List.replicate (3 - n) '0').take 3 = digits.take 3 := by
        rw [List.take_append_of_le_length (by rw [hdigits.length_eq]; omega)]
      have hrest : Digits (n - 3) (digits.drop 3) :=
        ⟨by rw [List.length_drop, hdigits.length_eq],
          fun c hc => hdigits.isDigit c (List.mem_of_mem_drop hc)⟩
      have hsplit : numeral digits
          = 10 ^ (n - 3) * numeral (digits.take 3) + numeral (digits.drop 3) := by
        have h := Decimal.ofDigitChars_digits_append (digits.take 3) (digits.drop 3)
        rw [List.take_append_drop, hrest.length_eq] at h
        unfold numeral
        exact_mod_cast h
      have hpow : (10 : Int) ^ (n - 3) * 10 ^ (9 - n) = 10 ^ 6 := by
        rw [← pow_add]
        congr 1
        omega
      have hlow : 0 ≤ numeral (digits.drop 3) * 10 ^ (9 - n) :=
        mul_nonneg (Int.natCast_nonneg _) (by positivity)
      have hhigh : numeral (digits.drop 3) * 10 ^ (9 - n) < 10 ^ 6 := by
        have hlt : numeral (digits.drop 3) < 10 ^ (n - 3) := by
          unfold numeral
          exact_mod_cast hrest.lt
        rw [← hpow]
        exact mul_lt_mul_of_pos_right hlt (by positivity)
      have hvalue : numeral digits * 10 ^ (9 - n)
          = numeral (digits.take 3) * 10 ^ 6 + numeral (digits.drop 3) * 10 ^ (9 - n) := by
        rw [hsplit, ← hpow]
        ring
      rw [htake, hvalue]
      omega

theorem daysInMonth_eq {year month : Nat} (hpos : 0 < month) (hle : month ≤ 12) :
    daysInMonth year month = some (Calendar.daysInMonth year month : Int) := by
  have hleap : ((year : Int) % 4 = 0 ∧ ((year : Int) % 100 ≠ 0 ∨ (year : Int) % 400 = 0))
      ↔ Calendar.IsLeap year := by
    unfold Calendar.IsLeap
    omega
  unfold daysInMonth Calendar.daysInMonth
  simp only [hleap]
  by_cases h : Calendar.IsLeap year
  · interval_cases month <;> simp [h]
  · interval_cases month <;> simp [h]

theorem month_of_daysInMonth {year month days : Int} (h : daysInMonth year month = some days) :
    1 ≤ month ∧ month ≤ 12 := by
  simp only [daysInMonth, List.mem_cons, List.not_mem_nil, or_false] at h
  split at h
  · omega
  · split at h
    · omega
    · split at h
      · omega
      · cases h

theorem numeral_nonneg (text : Str) : 0 ≤ numeral text := Int.natCast_nonneg _

/-- **Milliseconds** of an instant, by its day, its seconds and its fraction. -/
theorem millis_of_nanos (days seconds : Int) {fraction : Option Str} {f : Str}
    (h : FractionShape f fraction) :
    (days * 86400 * 10 ^ 9 + (seconds * 10 ^ 9 + nanosOf fraction)) / 10 ^ 6
      = (days * 86400 + seconds) * 1000 + millisOf fraction := by
  rw [millisOf_eq h]
  omega

/-- The fraction of a time. -/
theorem fraction_of_clock {clock : Str} {p : Parts} (h : ClockShape clock p) :
    ∃ f, FractionShape f p.fraction := by
  cases h with
  | none => exact ⟨_, .none⟩
  | time _ _ _ _ hf _ => exact ⟨_, hf⟩

/-- What is answered for parts that are a date and a time of the day. -/
theorem normalizeParts_of_valid {p : Parts} {clock : Str} {offset : Int} (date : Date)
    (hyear : numeral p.year = date.year) (hmonth : numeral p.month = date.month)
    (hday : numeral p.day = date.day) (hclock : ClockShape clock p) (hvalid : ClockValid p offset) :
    normalizeParts p = formatEpoch ((date.dayNumber * 86400 * 10 ^ 9
      + (secondsOf p offset * 10 ^ 9 + nanosOf p.fraction)) / 10 ^ 6) := by
  obtain ⟨f, hf⟩ := fraction_of_clock hclock
  have hdays : daysInMonth date.year date.month = _ := daysInMonth_eq date.month_pos date.month_le
  have hpos := date.day_pos
  have hle := date.day_le
  have hok : ¬ (¬ (1 ≤ numeral p.day ∧
      numeral p.day ≤ (Calendar.daysInMonth date.year date.month : Int)) ∨
      23 < numberOf p.hour ∨ 59 < numberOf p.minute ∨ 59 < numberOf p.second) := by
    have := hvalid.hour
    have := hvalid.minute
    have := hvalid.second
    omega
  rw [millis_of_nanos _ _ hf, Calendar.dayNumber_eq]
  simp only [normalizeParts, hyear, hmonth, hdays, Option.bind_eq_bind, Option.bind_some]
  rw [if_neg hok]
  simp only [hvalid.zone, Option.bind_some, hday, secondsOf]
  congr 2
  omega

/-- **Only dates and times** are answered. -/
theorem valid_of_normalizeParts {p : Parts} {o : Str} (h : normalizeParts p = some o) :
    ∃ (date : Date) (offset : Int), numeral p.year = date.year ∧ numeral p.month = date.month ∧
      numeral p.day = date.day ∧ ClockValid p offset := by
  simp only [normalizeParts, Option.bind_eq_bind] at h
  obtain ⟨days, hdays, h⟩ := Option.bind_eq_some_iff.mp h
  split at h
  · cases h
  next hok =>
    obtain ⟨offset, hoffset, -⟩ := Option.bind_eq_some_iff.mp h
    obtain ⟨hlow, hhigh⟩ := month_of_daysInMonth hdays
    obtain ⟨year, hyear⟩ := Int.eq_ofNat_of_zero_le (numeral_nonneg p.year)
    obtain ⟨month, hmonth⟩ := Int.eq_ofNat_of_zero_le (numeral_nonneg p.month)
    obtain ⟨day, hday⟩ := Int.eq_ofNat_of_zero_le (numeral_nonneg p.day)
    rw [hyear, hmonth, daysInMonth_eq (by omega) (by omega)] at hdays
    cases hdays
    exact ⟨⟨year, month, day, by omega, by omega, by omega, by omega⟩, offset, hyear, hmonth, hday,
      ⟨by omega, by omega, by omega, hoffset⟩⟩

/-! ## 7. Normalized texts -/

/-- **What denotes an instant** is normalized to the text of its millisecond. -/
theorem normalizeTimestamp_of_denotes {text : Str} {nanos : Int} (h : Denotes text nanos) :
    normalizeTimestamp text = formatEpoch (nanos / 10 ^ 6) := by
  have hall : ∀ {n : Nat}, Digits n text → text.all isAsciiDigit = true := fun h =>
    List.all_eq_true.mpr fun c hc => (isAsciiDigit_eq c).trans (h.isDigit c hc)
  cases h with
  | seconds h =>
    rw [normalizeTimestamp, if_pos ⟨hall h, .inl h.length_eq⟩, if_pos h.length_eq]
    congr 1
    omega
  | millis h =>
    have hlength : text.length ≠ 10 := by
      rw [h.length_eq]
      decide
    rw [normalizeTimestamp, if_pos ⟨hall h, .inr h.length_eq⟩, if_neg hlength]
    congr 1
    omega
  | @civil year month day clock nanos date hy hm hd hyear hmonth hday hclock =>
    obtain ⟨p, offset, rfl, rfl, rfl, hshape, hvalid, rfl⟩ :=
      shape_of_clockText year month day hclock
    rw [normalizeTimestamp_of_shape ⟨hy, hm, hd, _, rfl, hshape⟩]
    exact normalizeParts_of_valid date hyear hmonth hday hshape hvalid

/-- **Only what denotes an instant** is normalized. -/
theorem denotes_of_normalizeTimestamp {text o : Str} (h : normalizeTimestamp text = some o) :
    ∃ nanos, Denotes text nanos := by
  by_cases hepoch : text.all isAsciiDigit = true ∧ (text.length = 10 ∨ text.length = 13)
  · obtain ⟨hall, hlength⟩ := hepoch
    have hdigits : ∀ c ∈ text, c.isDigit = true := fun c hc =>
      (isAsciiDigit_eq c).symm.trans (List.all_eq_true.mp hall c hc)
    rcases hlength with hlength | hlength
    · exact ⟨_, .seconds ⟨hlength, hdigits⟩⟩
    · exact ⟨_, .millis ⟨hlength, hdigits⟩⟩
  · have hcaptures : ∃ c, captures date text = some c := by
      rw [normalizeTimestamp, if_neg hepoch] at h
      obtain ⟨c, hc, -⟩ := Option.bind_eq_some_iff.mp h
      exact ⟨c, hc⟩
    obtain ⟨c, hc⟩ := hcaptures
    obtain ⟨p, hshape, -⟩ := captures_spec hc
    rw [normalizeTimestamp_of_shape hshape] at h
    obtain ⟨date, offset, hyear, hmonth, hday, hvalid⟩ := valid_of_normalizeParts h
    obtain ⟨hy, hm, hd, clock, rfl, hclock⟩ := hshape
    exact ⟨_, .civil date hy hm hd hyear hmonth hday (clockText_of_shape hclock hvalid)⟩

/-- A moment of a day, to the millisecond. -/
structure Moment where
  date : Date
  hour : Nat
  minute : Nat
  second : Nat
  milli : Nat
  year_le : date.year ≤ 9999
  hour_lt : hour < 24
  minute_lt : minute < 60
  second_lt : second < 60
  milli_lt : milli < 1000

namespace Moment

/-- The milliseconds since the beginning of year 0. -/
def ordinal (m : Moment) : Nat :=
  (((m.date.ordinal * 24 + m.hour) * 60 + m.minute) * 60 + m.second) * 1000 + m.milli

/-- The milliseconds since 1970. -/
def millis (m : Moment) : Int :=
  (((m.date.dayNumber * 24 + m.hour) * 60 + m.minute) * 60 + m.second) * 1000 + m.milli

/-- The time of the day, with its marks. -/
def clock (m : Moment) : Str :=
  'T' :: (padded 2 m.hour ++ ':' :: (padded 2 m.minute ++ ':' :: (padded 2 m.second ++
    ('.' :: padded 3 m.milli ++ ['Z']))))

/-- The text of a moment. -/
def text (m : Moment) : Str :=
  padded 4 m.date.year ++ '-' :: (padded 2 m.date.month ++ '-' :: (padded 2 m.date.day ++ m.clock))

end Moment

theorem digits_padded {k n : Nat} (hk : 0 < k) (h : n < 10 ^ k) : Digits k (padded k n) :=
  Decimal.digits_pad hk h

@[simp] theorem numeral_padded (k n : Nat) : numeral (padded k n) = n :=
  congrArg Int.ofNat (Decimal.ofDigitChars_pad n _)

theorem day_lt (date : Date) : date.day < 10 ^ 2 := by
  have h := date.day_le
  unfold Calendar.daysInMonth at h
  split at h
  · split at h <;> omega
  · split at h <;> omega

/-- **A text that is written** is that of a moment. -/
theorem exists_moment {millis : Int} {o : Str} (h : formatEpoch millis = some o) :
    ∃ m : Moment, m.text = o ∧ m.millis = millis := by
  obtain ⟨year, month, day, hcivil⟩ : ∃ year month day,
      Calendar.civilFromDays (millis / 1000 / 86400) = (year, month, day) := ⟨_, _, _, rfl⟩
  have hformat : formatEpoch millis =
      if 0 ≤ year ∧ year ≤ 9999 then
        let withinDay := millis / 1000 % 86400
        some (padded 4 year ++ '-' :: padded 2 month ++ '-' :: padded 2 day
          ++ 'T' :: padded 2 (withinDay / 3600) ++ ':' :: padded 2 (withinDay / 60 % 60)
          ++ ':' :: padded 2 (withinDay % 60) ++ '.' :: padded 3 (millis % 1000) ++ ['Z'])
      else none := by
    have hyear : year = (Calendar.civilFromDays (millis / 1000 / 86400)).1 := by rw [hcivil]
    have hmonth : month = (Calendar.civilFromDays (millis / 1000 / 86400)).2.1 := by rw [hcivil]
    have hday : day = (Calendar.civilFromDays (millis / 1000 / 86400)).2.2 := by rw [hcivil]
    rw [hyear, hmonth, hday]
    rfl
  rw [hformat] at h
  split at h
  next hrange =>
    obtain ⟨date, rfl, rfl, rfl, hnumber⟩ := Calendar.exists_date hcivil hrange.1
    obtain ⟨hour, hhour⟩ : ∃ n : Nat, millis / 1000 % 86400 / 3600 = n :=
      Int.eq_ofNat_of_zero_le (by omega)
    obtain ⟨minute, hminute⟩ : ∃ n : Nat, millis / 1000 % 86400 / 60 % 60 = n :=
      Int.eq_ofNat_of_zero_le (by omega)
    obtain ⟨second, hsecond⟩ : ∃ n : Nat, millis / 1000 % 86400 % 60 = n :=
      Int.eq_ofNat_of_zero_le (by omega)
    obtain ⟨milli, hmilli⟩ : ∃ n : Nat, millis % 1000 = n := Int.eq_ofNat_of_zero_le (by omega)
    refine ⟨⟨date, hour, minute, second, milli, by omega, by omega, by omega, by omega, by omega⟩,
      ?_, ?_⟩
    · rw [← Option.some.inj h]
      simp only [Moment.text, Moment.clock, hhour, hminute, hsecond, hmilli, List.append_assoc,
        List.cons_append]
    · simp only [Moment.millis, hnumber]
      omega
  next => cases h

/-- **A written text** denotes its moment. -/
theorem denotes_text (m : Moment) : Denotes m.text (m.millis * 10 ^ 6) := by
  have hdate := m.date.month_le
  have hyear := m.year_le
  have hhour := m.hour_lt
  have hminute := m.minute_lt
  have hsecond := m.second_lt
  have hmilli := m.milli_lt
  have hclock : ClockText m.clock
      ((numeral (padded 2 m.hour) * 3600 + numeral (padded 2 m.minute) * 60
        + numeral (padded 2 m.second) - 0) * 10 ^ 9 + numeral (padded 3 m.milli) * 10 ^ (9 - 3)) :=
    .time (by decide) (digits_padded (by decide) (by omega)) (digits_padded (by decide) (by omega))
      (digits_padded (by decide) (by omega)) (by rw [numeral_padded]; omega)
      (by rw [numeral_padded]; omega) (by rw [numeral_padded]; omega)
      (.digits (by decide) (by decide) (by decide) (digits_padded (by decide) (by omega)))
      (.inr .utc)
  have h := Denotes.civil m.date (digits_padded (k := 4) (by decide) (by omega))
    (digits_padded (k := 2) (by decide) (by omega))
      (digits_padded (k := 2) (by decide) (day_lt m.date))
    (numeral_padded _ _) (numeral_padded _ _) (numeral_padded _ _) hclock
  have hnanos : m.date.dayNumber * 86400 * 10 ^ 9 +
      ((numeral (padded 2 m.hour) * 3600 + numeral (padded 2 m.minute) * 60
        + numeral (padded 2 m.second) - 0) * 10 ^ 9 + numeral (padded 3 m.milli) * 10 ^ (9 - 3))
      = m.millis * 10 ^ 6 := by
    simp only [numeral_padded, Moment.millis]
    omega
  rw [← hnanos]
  exact h

/-- Texts that begin with one mark are compared behind it. -/
theorem strCompare_cons (c : Char) (a b : Str) : strCompare (c :: a) (c :: b) = strCompare a b := by
  have hself : charCompare c c = .eq := Std.ReflCmp.compare_self
  rw [strCompare, List.compareLex_cons_cons, hself]
  rfl

theorem strCompare_padded {k a b : Nat} (hk : 0 < k) (ha : a < 10 ^ k) (hb : b < 10 ^ k)
    (u v : Str) :
    strCompare (padded k a ++ u) (padded k b ++ v) = (compare a b).then (strCompare u v) := by
  have h : List.compareLex charCompare (padded k a ++ u) (padded k b ++ v) = _ :=
    Decimal.compareLex_digits (fun _ _ => rfl) (digits_padded hk ha) (digits_padded hk hb)
  rw [strCompare, h]
  congr 1
  exact congrArg₂ compare (Decimal.ofDigitChars_pad a _) (Decimal.ofDigitChars_pad b _)

theorem compare_millis (m m' : Moment) :
    compare m.millis m'.millis = compare m.ordinal m'.ordinal := by
  have h : ∀ m : Moment, m.millis = m.ordinal - Calendar.daysBeforeYear 1970 * 86400000 := by
    intro m
    simp only [Moment.millis, Moment.ordinal, Calendar.Date.dayNumber]
    push_cast
    omega
  rcases Nat.lt_trichotomy m.ordinal m'.ordinal with hlt | heq | hgt
  · rw [compare_lt_iff_lt.mpr hlt, compare_lt_iff_lt.mpr (by rw [h, h]; omega)]
  · rw [compare_eq_iff_eq.mpr heq, compare_eq_iff_eq.mpr (by rw [h, h, heq])]
  · rw [compare_gt_iff_gt.mpr hgt, compare_gt_iff_gt.mpr (by rw [h, h]; omega)]

/-- **Written texts are ordered** as their moments. -/
theorem compare_text (m m' : Moment) : strCompare m.text m'.text = compare m.millis m'.millis := by
  have hyear := m.year_le
  have hyear' := m'.year_le
  have hmonth := m.date.month_le
  have hmonth' := m'.date.month_le
  have hhour := m.hour_lt
  have hhour' := m'.hour_lt
  have hminute := m.minute_lt
  have hminute' := m'.minute_lt
  have hsecond := m.second_lt
  have hsecond' := m'.second_lt
  have hmilli := m.milli_lt
  have hmilli' := m'.milli_lt
  rw [compare_millis, Moment.ordinal, Moment.ordinal, compare_mul_add hmilli hmilli',
    compare_mul_add hsecond hsecond', compare_mul_add hminute hminute',
    compare_mul_add hhour hhour', Calendar.Date.compare_ordinal]
  simp only [Moment.text, Moment.clock, List.cons_append]
  rw [strCompare_padded (by decide) (by omega) (by omega), strCompare_cons,
    strCompare_padded (by decide) (by omega) (by omega), strCompare_cons,
    strCompare_padded (by decide) (day_lt _) (day_lt _), strCompare_cons,
    strCompare_padded (by decide) (by omega) (by omega), strCompare_cons,
    strCompare_padded (by decide) (by omega) (by omega), strCompare_cons,
    strCompare_padded (by decide) (by omega) (by omega), strCompare_cons,
    strCompare_padded (by decide) (by omega) (by omega), strCompare_cons]
  have hnil : strCompare [] [] = .eq := rfl
  simp only [hnil, Ordering.then_eq, Ordering.then_assoc]

/-- What is answered is the text of a moment: that of every instant the text denotes. -/
theorem exists_moment_of_normalizeTimestamp {text o : Str} (h : normalizeTimestamp text = some o) :
    ∃ m : Moment, m.text = o ∧ formatEpoch m.millis = some o ∧
      ∀ nanos, Denotes text nanos → m.millis = nanos / 10 ^ 6 := by
  obtain ⟨nanos, hnanos⟩ := denotes_of_normalizeTimestamp h
  have hformat := (normalizeTimestamp_of_denotes hnanos).symm.trans h
  obtain ⟨m, htext, hmillis⟩ := exists_moment hformat
  refine ⟨m, htext, hmillis ▸ hformat, fun nanos' hnanos' => ?_⟩
  obtain ⟨m', htext', hmillis'⟩ := exists_moment
    ((normalizeTimestamp_of_denotes hnanos').symm.trans h)
  have hsame := compare_text m m'
  rw [htext, htext', show strCompare o o = .eq from Std.ReflCmp.compare_self] at hsame
  rw [← hmillis', compare_eq_iff_eq.mp hsame.symm]

/-- **The codec is canonical** and preserves the order: what it answers is left as it is, and two
answers are ordered, and equal, as the milliseconds of the instants that the texts denote. -/
theorem normalizeTimestamp_canonical {text text' o o' : Str} (h : normalizeTimestamp text = some o)
    (h' : normalizeTimestamp text' = some o') :
    normalizeTimestamp o = some o ∧ (∃ nanos, Denotes text nanos) ∧
      ∀ nanos nanos', Denotes text nanos → Denotes text' nanos' →
        strCompare o o' = compare (nanos / 10 ^ 6) (nanos' / 10 ^ 6) ∧
        (o = o' ↔ nanos / 10 ^ 6 = nanos' / 10 ^ 6) := by
  obtain ⟨m, rfl, hformat, hm⟩ := exists_moment_of_normalizeTimestamp h
  obtain ⟨m', rfl, hformat', hm'⟩ := exists_moment_of_normalizeTimestamp h'
  refine ⟨?_, denotes_of_normalizeTimestamp h, fun nanos nanos' hnanos hnanos' => ?_⟩
  · rw [normalizeTimestamp_of_denotes (denotes_text m), Int.mul_ediv_cancel _ (by decide)]
    exact hformat
  · rw [← hm nanos hnanos, ← hm' nanos' hnanos', compare_text]
    refine ⟨rfl, fun htext => ?_, fun hmillis => ?_⟩
    · have hsame := compare_text m m'
      rw [htext, show strCompare m'.text m'.text = .eq from Std.ReflCmp.compare_self] at hsame
      exact compare_eq_iff_eq.mp hsame.symm
    · rw [hmillis, hformat'] at hformat
      exact (Option.some.inj hformat).symm

/-- A leap day with an offset, and an epoch of the same second. -/
theorem normalizeTimestamp_canonical_leapDay :
    normalizeTimestamp "2024-02-29T22:30:00.500Z".toList
        = some "2024-02-29T22:30:00.500Z".toList ∧
      (∃ nanos, Denotes "2024-03-01T00:30:00,5+02:00".toList nanos) ∧
      ∀ nanos nanos', Denotes "2024-03-01T00:30:00,5+02:00".toList nanos →
        Denotes "1709245800".toList nanos' →
        strCompare "2024-02-29T22:30:00.500Z".toList "2024-02-29T22:30:00.000Z".toList
          = compare (nanos / 10 ^ 6) (nanos' / 10 ^ 6) ∧
        ("2024-02-29T22:30:00.500Z".toList = "2024-02-29T22:30:00.000Z".toList ↔
          nanos / 10 ^ 6 = nanos' / 10 ^ 6) :=
  normalizeTimestamp_canonical (by decide +kernel) (by decide +kernel)

end MavenMcp.LogAnalysis.Timestamp
