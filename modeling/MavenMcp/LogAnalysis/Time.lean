/-
# Times

The codec of `time.rs`: dates, times of a day with an offset or without one, and epochs, all of them
written in one way.  Neither a locale nor a time zone is consulted; a time without an offset is UTC.
-/
import MavenMcp.LogAnalysis.Shell
import MavenMcp.Redaction.Rules

namespace MavenMcp.LogAnalysis

open Redaction (exact oneOf)
open Regex (opt exactly seqs)

/-! ## 1. The expression -/

def digit : Regex := .char isAsciiDigit

/-- At most `n` rounds. -/
def atMost : Nat → Regex → Regex
  | 0, _ => .empty
  | n + 1, a => opt (.seq a (atMost n a))

/-- `DATE`, between its anchors. -/
def date : Regex :=
  seqs [.group 1 (exactly 4 digit), exact ['-'], .group 2 (exactly 2 digit), exact ['-'],
    .group 3 (exactly 2 digit),
    opt (seqs [oneOf ['T', ' '], .group 4 (exactly 2 digit), exact [':'],
      .group 5 (exactly 2 digit), exact [':'], .group 6 (exactly 2 digit),
      opt (.seq (oneOf ['.', ',']) (.group 7 (.seq digit (atMost 8 digit)))),
      opt (.group 8 (.alt (exact ['Z'])
        (seqs [oneOf ['+', '-'], exactly 2 digit, exact [':'], exactly 2 digit])))])]

/-- The first match of a whole text. -/
def captures (r : Regex) (text : Str) : Option Regex.State :=
  (r.run { prev := none, ahead := text, groups := [] }).find? (·.ahead.isEmpty)

/-! ## 2. The codec -/

def numeral (text : Str) : Int := Nat.ofDigitChars 10 text 0

/-- A number in at least `width` digits. -/
def padded (width : Nat) (n : Int) : Str :=
  let digits := Nat.toDigits 10 n.toNat
  List.replicate (width - digits.length) '0' ++ digits

def formatEpoch (millis : Int) : Option Str :=
  let seconds := millis / 1000
  let days := seconds / 86400 + 719468
  let era := days / 146097
  let doe := days - era * 146097
  let yoe := (doe - doe / 1460 + doe / 36524 - doe / 146096) / 365
  let year := yoe + era * 400
  let doy := doe - (365 * yoe + yoe / 4 - yoe / 100)
  let mp := (5 * doy + 2) / 153
  let day := doy - (153 * mp + 2) / 5 + 1
  let month := mp + if mp < 10 then 3 else -9
  let year := year + if month ≤ 2 then 1 else 0
  if 0 ≤ year ∧ year ≤ 9999 then
    let withinDay := seconds % 86400
    some (padded 4 year ++ '-' :: padded 2 month ++ '-' :: padded 2 day
      ++ 'T' :: padded 2 (withinDay / 3600) ++ ':' :: padded 2 (withinDay / 60 % 60)
      ++ ':' :: padded 2 (withinDay % 60) ++ '.' :: padded 3 (millis % 1000) ++ ['Z'])
  else none

def daysInMonth (year month : Int) : Option Int :=
  if month = 2 then
    some (if year % 4 = 0 ∧ (year % 100 ≠ 0 ∨ year % 400 = 0) then 29 else 28)
  else if month ∈ [4, 6, 9, 11] then some 30
  else if month ∈ [1, 3, 5, 7, 8, 10, 12] then some 31
  else none

/-- The seconds that a zone is ahead of UTC. -/
def zoneOffset (zone : Str) : Option Int :=
  if zone = ['Z'] then some 0
  else
    let h := numeral ((zone.drop 1).take 2)
    let m := numeral ((zone.drop 4).take 2)
    if 23 < h ∨ 59 < m then none
    else some ((h * 60 + m) * 60 * if zone.head? = some '-' then -1 else 1)

def normalizeTimestamp (value : Str) : Option Str :=
  if value.all isAsciiDigit ∧ (value.length = 10 ∨ value.length = 13) then
    formatEpoch (if value.length = 10 then numeral value * 1000 else numeral value)
  else do
    let c ← captures date value
    let text := fun i => (c.group i).map Prod.snd
    let number := fun i => ((text i).map numeral).getD 0
    let (year, month, day) := (number 1, number 2, number 3)
    let (hour, minute, second) := (number 4, number 5, number 6)
    let daysInMonth ← daysInMonth year month
    if ¬(1 ≤ day ∧ day ≤ daysInMonth) ∨ 23 < hour ∨ 59 < minute ∨ 59 < second then none
    let adjustedYear := year - if month ≤ 2 then 1 else 0
    let era := adjustedYear / 400
    let yoe := adjustedYear - era * 400
    let shiftedMonth := month + if 2 < month then -3 else 9
    let days := era * 146097 + yoe * 365 + yoe / 4 - yoe / 100 + (153 * shiftedMonth + 2) / 5 + day
      - 1 - 719468
    let offset ← zoneOffset ((text 8).getD ['Z'])
    let fraction := (text 7).getD []
    let millis := numeral ((fraction ++ List.replicate (3 - fraction.length) '0').take 3)
    formatEpoch ((days * 86400 + hour * 3600 + minute * 60 + second - offset) * 1000 + millis)

example : normalizeTimestamp "2024-02-29T23:30:00,5+01:00".toList
    = some "2024-02-29T22:30:00.500Z".toList := by decide +kernel

end MavenMcp.LogAnalysis
