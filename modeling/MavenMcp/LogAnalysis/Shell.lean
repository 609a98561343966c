/-
# Shell words

`tokens` cuts a command into words, boundaries and redirections, and gives up on what it does not
follow: open quotes, substitutions, here-documents.  `invocations` takes the commands from between
the boundaries, without redirections, assignments and `env`.

* `run_quoted`: a word in single quotes is read as itself, whatever its characters.
* `tokens_quotedCommand`: so a command line of quoted words is read as these words, and
  `invocations_quotedCommand` says when it is one command of them.
-/
import MavenMcp.Lib.Text

namespace MavenMcp.LogAnalysis

open Text

/-! ## 1. The tokenizer -/

inductive Token
  | word (text : Str)
  | boundary
  | redirect
deriving DecidableEq, Repr

structure TokenState where
  result : List Token
  word : Str
  started : Bool
  plainWord : Bool
  quote : Option Char
deriving DecidableEq, Repr

def TokenState.start : TokenState :=
  { result := [], word := [], started := false, plainWord := true, quote := none }

/-- The back quote. -/
def backQuote : Char := Char.ofNat 96

def isAsciiDigit (c : Char) : Bool := decide ('0' ≤ c ∧ c ≤ '9')

namespace TokenState

/-- The character after a backslash, which a double quotation keeps unless it escapes something. -/
def escaped (s : TokenState) (next : Char) : TokenState :=
  { s with
    plainWord := false
    word := s.word ++
      (if s.quote = some '"' ∧ next ∉ ['$', backQuote, '"', '\\'] then ['\\'] else []) ++ [next]
    started := true }

/-- A bare number adjoining the operator is a descriptor, not a word. -/
def isDescriptor (s : TokenState) : Bool := s.plainWord && s.word.all isAsciiDigit

/-- A redirection ends the word. -/
def redirect (s : TokenState) : TokenState :=
  { s with
    result := s.result ++ (if s.started && !s.isDescriptor then [.word s.word] else [])
      ++ [.redirect]
    word := []
    started := false
    plainWord := true }

/-- White space or an operator ends the word. -/
def endWord (s : TokenState) (c : Char) : TokenState :=
  let boundary := if !isWhitespace c || c == '\n' then [.boundary] else []
  if s.started then
    { s with result := s.result ++ [.word s.word] ++ boundary, word := [], started := false
             plainWord := true }
  else { s with result := s.result ++ boundary }

def push (s : TokenState) (c : Char) : TokenState :=
  { s with word := s.word ++ [c], started := true }

end TokenState

instance lawfulBEqPair : LawfulBEq (Char × Char) := inferInstance

/-- The two characters that make one operator. -/
def isPair (c next : Char) : Bool :=
  (c, next) ∈ [('>', '>'), ('>', '|'), ('>', '&'), ('<', '&'), ('<', '>')]

/-- What is left after a redirection that begins with `c`. -/
def afterRedirect (c : Char) (rest : Str) : Str :=
  if c = '&' then
    -- `&>` or `&>>`
    let rest := rest.tail
    if rest.head? = some '>' then rest.tail else rest
  else if rest.head?.any (isPair c) then rest.tail
  else rest

/-- What is left after a comment. -/
def afterComment : Str → Str
  | [] => []
  | c :: rest => if c = '\n' then rest else afterComment rest

/-- What cannot be followed: a back quote, a substitution, a here-document. -/
def isRefused (c : Char) (rest : Str) (s : TokenState) : Bool :=
  c == backQuote || (c == '$' && rest.head? == some '(')
    || (s.quote.isNone && c == '<' && rest.head? == some '<')

def isRedirect (c : Char) (rest : Str) : Bool :=
  c == '<' || c == '>' || (c == '&' && rest.head? == some '>')

/-- One round of the loop: the state after it and the characters that are left, or `none` where
`tokens` gives up. -/
def tokenStep (c : Char) (rest : Str) (s : TokenState) : Option (TokenState × Str) :=
  if c = '\\' ∧ s.quote ≠ some '\'' then
    match rest with
    | [] => none
    | next :: rest =>
      if next = '\n' then some ({ s with plainWord := false }, rest)
      else some (s.escaped next, rest)
  else if some c = s.quote then some ({ s with quote := none }, rest)
  else if s.quote = some '\'' then some ({ s with word := s.word ++ [c] }, rest)
  else if isRefused c rest s then none
  else if s.quote.isSome then some (s.push c, rest)
  else if c = '\'' ∨ c = '"' then
    some ({ s with quote := some c, started := true, plainWord := false }, rest)
  else if isRedirect c rest then some (s.redirect, afterRedirect c rest)
  else if c = '#' ∧ s.started = false then
    some ({ s with result := s.result ++ [.boundary] }, afterComment rest)
  else if isWhitespace c ∨ c ∈ [';', '|', '&', '(', ')'] then some (s.endWord c, rest)
  else some (s.push c, rest)

/-- What is known at the end of the text. -/
def TokenState.finish (s : TokenState) : Option (List Token) :=
  if s.quote.isSome then none
  else some (s.result ++ if s.started then [.word s.word] else [])

/-- The loop, for at most `n` rounds. -/
def tokenLoop : Nat → Str → TokenState → Option (List Token)
  | _, [], s => s.finish
  | 0, _ :: _, _ => none
  | n + 1, c :: rest, s =>
    match tokenStep c rest s with
    | none => none
    | some (s, rest) => tokenLoop n rest s

/-- The loop to the end of the text; every round takes a character. -/
def run (text : Str) (s : TokenState) : Option (List Token) := tokenLoop text.length text s

def tokens (command : Str) : Option (List Token) := run command .start

/-! ## 2. Invocations -/

/-- The last component of a path. -/
def executableName (value : Str) : Str :=
  (value.reverse.takeWhile fun c => c ≠ '/' && c ≠ '\\').reverse

def isNameChar (c : Char) (first : Bool) : Bool :=
  c == '_' || decide ('a' ≤ c ∧ c ≤ 'z') || decide ('A' ≤ c ∧ c ≤ 'Z')
    || (!first && isAsciiDigit c)

def assignment (word : Str) : Bool :=
  match splitOnce '=' word with
  | none => false
  | some (key, _) => !key.isEmpty && key.zipIdx.all fun (c, i) => isNameChar c (i == 0)

/-- The words of a segment without its redirections; `none` where an operand is missing. -/
def segmentWords : List Token → Bool → Option (List Str)
  | [], skipTarget => if skipTarget then none else some []
  | .redirect :: segment, _ => segmentWords segment true
  | .word _ :: segment, true => segmentWords segment false
  | .word text :: segment, false => (segmentWords segment false).map (text :: ·)
  | .boundary :: segment, skipTarget => segmentWords segment skipTarget

def isEnvOption (word : Str) : Bool :=
  word = "-i".toList || word = "--ignore-environment".toList || word = "--".toList

/-- The words of a command without leading assignments and `env`. -/
def commandWords (words : List Str) : List Str :=
  let words := words.dropWhile assignment
  match words with
  | [] => []
  | first :: rest =>
    if executableName first = "env".toList then
      rest.dropWhile fun word => assignment word || isEnvOption word
    else words

def invocations (command : Str) : List (List Str) :=
  match tokens command with
  | none => []
  | some tokens =>
    (tokens.splitOn .boundary).filterMap fun segment =>
      match segmentWords segment false with
      | none => none
      | some words => if commandWords words = [] then none else some (commandWords words)

/-! ## 3. Rounds -/

theorem length_afterComment (rest : Str) : (afterComment rest).length ≤ rest.length := by
  induction rest with
  | nil => exact Nat.le_refl 0
  | cons c rest ih =>
    unfold afterComment
    split
    · exact Nat.le_succ _
    · exact Nat.le_succ_of_le ih

theorem length_afterRedirect (c : Char) (rest : Str) :
    (afterRedirect c rest).length ≤ rest.length := by
  have htail : ∀ text : Str, text.tail.length ≤ text.length := fun text => by
    rw [List.length_tail]
    exact Nat.sub_le _ _
  unfold afterRedirect
  simp only
  split
  · split
    · exact Nat.le_trans (htail _) (htail _)
    · exact htail _
  · split
    · exact htail _
    · exact Nat.le_refl _

theorem length_tokenStep {c : Char} {rest rest' : Str} {s s' : TokenState}
    (h : tokenStep c rest s = some (s', rest')) : rest'.length ≤ rest.length := by
  unfold tokenStep at h
  split at h
  · split at h
    · cases h
    · split at h
      all_goals
        cases h
        exact Nat.le_succ _
  repeat' split at h
  all_goals cases h
  all_goals first
    | exact length_afterRedirect c rest
    | exact length_afterComment rest
    | exact Nat.le_refl _

/-- As many rounds as characters are enough. -/
theorem tokenLoop_eq_run {n : Nat} {text : Str} {s : TokenState} (h : text.length ≤ n) :
    tokenLoop n text s = run text s := by
  induction n using Nat.strongRecOn generalizing text s with
  | ind n ih =>
    cases text with
    | nil => cases n <;> rfl
    | cons c rest =>
      obtain ⟨m, rfl⟩ : ∃ m, n = m + 1 := ⟨n - 1, by simp only [List.length_cons] at h; omega⟩
      rw [run, List.length_cons, tokenLoop, tokenLoop]
      cases hstep : tokenStep c rest s with
      | none => rfl
      | some after =>
        obtain ⟨s', rest'⟩ := after
        have hle := length_tokenStep hstep
        simp only [List.length_cons] at h
        exact (ih m (by omega) (by omega)).trans (ih rest.length (by omega) hle).symm

/-- **One round.** -/
theorem run_cons (c : Char) (rest : Str) (s : TokenState) :
    run (c :: rest) s =
      match tokenStep c rest s with
      | none => none
      | some (s, rest) => run rest s := by
  rw [run, List.length_cons, tokenLoop]
  cases hstep : tokenStep c rest s with
  | none => rfl
  | some after => exact tokenLoop_eq_run (length_tokenStep hstep)

theorem run_of_step {c : Char} {rest rest' : Str} {s s' : TokenState}
    (h : tokenStep c rest s = some (s', rest')) : run (c :: rest) s = run rest' s' := by
  rw [run_cons, h]

/-! ## 4. Quoted words -/

/-- A word as a shell quotes it: in single quotes, which it leaves for each quote of its own. -/
def quoted (word : Str) : Str :=
  '\'' :: (word.flatMap fun c => if c = '\'' then ['\'', '\\', '\'', '\''] else [c]) ++ ['\'']

/-- A command line of quoted words. -/
def quotedCommand (words : List Str) : Str := [' '].intercalate (words.map quoted)

/-- Inside single quotes nothing acts but the quote. -/
theorem run_inside {c : Char} (hc : c ≠ '\'') (rest : Str) {s : TokenState}
    (hs : s.quote = some '\'') : run (c :: rest) s = run rest { s with word := s.word ++ [c] } := by
  refine run_of_step ?_
  unfold tokenStep
  rw [hs, if_neg fun h => h.2 rfl, if_neg fun h => hc (Option.some.inj h), if_pos rfl]

/-- Out of the quotes for a quote, and back. -/
theorem run_inside_quote (result : List Token) (word rest : Str) :
    run ('\'' :: '\\' :: '\'' :: '\'' :: rest) ⟨result, word, true, false, some '\''⟩
      = run rest ⟨result, word ++ ['\''], true, false, some '\''⟩ := by
  have hclose : tokenStep '\'' ('\\' :: '\'' :: '\'' :: rest) ⟨result, word, true, false, some '\''⟩
      = some (⟨result, word, true, false, none⟩, '\\' :: '\'' :: '\'' :: rest) := rfl
  have hescape : tokenStep '\\' ('\'' :: '\'' :: rest) ⟨result, word, true, false, none⟩
      = some (⟨result, word ++ [] ++ ['\''], true, false, none⟩, '\'' :: rest) := rfl
  have hopen : tokenStep '\'' rest ⟨result, word ++ [] ++ ['\''], true, false, none⟩
      = some (⟨result, word ++ [] ++ ['\''], true, false, some '\''⟩, rest) := rfl
  rw [run_of_step hclose, run_of_step hescape, run_of_step hopen, List.append_nil]

/-- The inside of a quoted word is read as the word. -/
theorem run_quotedInside (text rest : Str) (result : List Token) (word : Str) :
    run ((text.flatMap fun c => if c = '\'' then ['\'', '\\', '\'', '\''] else [c]) ++ rest)
        ⟨result, word, true, false, some '\''⟩
      = run rest ⟨result, word ++ text, true, false, some '\''⟩ := by
  induction text generalizing word with
  | nil => rw [List.flatMap_nil, List.nil_append, List.append_nil]
  | cons c text ih =>
    rw [List.flatMap_cons, List.append_assoc]
    by_cases hc : c = '\''
    · rw [if_pos hc, hc]
      refine (run_inside_quote result word _).trans ((ih _).trans ?_)
      rw [List.append_assoc, List.singleton_append]
    · rw [if_neg hc, List.singleton_append, run_inside hc _ rfl]
      refine (ih _).trans ?_
      rw [List.append_assoc, List.singleton_append]

/-- **A quoted word** is read as itself. -/
theorem run_quoted (text rest : Str) (result : List Token) :
    run (quoted text ++ rest) ⟨result, [], false, true, none⟩
      = run rest ⟨result, text, true, false, none⟩ := by
  have hopen : ∀ rest, tokenStep '\'' rest ⟨result, [], false, true, none⟩
      = some (⟨result, [], true, false, some '\''⟩, rest) := fun _ => rfl
  have hclose : tokenStep '\'' rest ⟨result, text, true, false, some '\''⟩
      = some (⟨result, text, true, false, none⟩, rest) := rfl
  rw [quoted, List.cons_append, List.cons_append, List.append_assoc, run_of_step (hopen _),
    run_quotedInside, List.nil_append, List.singleton_append, run_of_step hclose]

/-- Quoted words, one after the other. -/
theorem run_quotedCommand (word : Str) (words : List Str) (result : List Token) :
    run (quotedCommand (word :: words)) ⟨result, [], false, true, none⟩
      = some (result ++ (word :: words).map .word) := by
  induction words generalizing word result with
  | nil =>
    have hone : quotedCommand [word] = quoted word ++ [] := by
      rw [List.append_nil]
      exact List.intercalate_singleton
    rw [hone, run_quoted]
    rfl
  | cons next words ih =>
    have hcons : quotedCommand (word :: next :: words)
        = quoted word ++ ' ' :: quotedCommand (next :: words) := by
      simp only [quotedCommand, List.map_cons, List.intercalate_cons_cons, List.append_assoc,
        List.singleton_append]
    have hblank : tokenStep ' ' (quotedCommand (next :: words)) ⟨result, word, true, false, none⟩
        = some (⟨result ++ [.word word] ++ [], [], false, true, none⟩,
          quotedCommand (next :: words)) := rfl
    rw [hcons, run_quoted, run_of_step hblank, ih, List.append_nil, List.append_assoc]
    rfl

/-! ## 5. The round trip -/

theorem tokens_quotedCommand {words : List Str} (hne : words ≠ []) :
    tokens (quotedCommand words) = some (words.map .word) := by
  obtain ⟨word, words, rfl⟩ := List.exists_cons_of_ne_nil hne
  exact run_quotedCommand word words []

theorem segmentWords_words (words : List Str) :
    segmentWords (words.map .word) false = some words := by
  induction words with
  | nil => rfl
  | cons word words ih =>
    rw [List.map_cons, segmentWords, ih]
    rfl

/-- A command that begins with neither an assignment nor `env` is taken whole. -/
theorem commandWords_cons {first : Str} (hassign : assignment first = false)
    (henv : executableName first ≠ "env".toList) (rest : List Str) :
    commandWords (first :: rest) = first :: rest := by
  unfold commandWords
  rw [List.dropWhile_cons_of_neg (by rw [hassign]; exact Bool.false_ne_true)]
  simp only
  rw [if_neg henv]

/-- **Quoting is undone.**  A command line of words in single quotes is read as these words, and as
one command of them unless the first is an assignment or some `env`. -/
theorem shell_roundTrip (words : List Str) (hne : words ≠ []) :
    tokens (quotedCommand words) = some (words.map .word) ∧
      ∀ first, words.head? = some first → assignment first = false →
        executableName first ≠ "env".toList → invocations (quotedCommand words) = [words] := by
  refine ⟨tokens_quotedCommand hne, fun first hfirst hassign henv => ?_⟩
  have hboundary : Token.boundary ∉ words.map Token.word := by
    intro hmem
    obtain ⟨word, -, hword⟩ := List.mem_map.mp hmem
    cases hword
  obtain ⟨word, rest, rfl⟩ := List.exists_cons_of_ne_nil hne
  obtain rfl : word = first := Option.some.inj hfirst
  have hwords := commandWords_cons hassign henv rest
  unfold invocations
  rw [tokens_quotedCommand hne]
  simp only
  rw [List.splitOn_eq_singleton hboundary, List.filterMap_cons]
  simp only [segmentWords_words, hwords, reduceCtorEq, if_false, List.filterMap_nil]

theorem shell_roundTrip_quotes :
    tokens (quotedCommand ["a'b; #".toList, [], "x\n$(y)".toList])
        = some (["a'b; #".toList, [], "x\n$(y)".toList].map .word) ∧
      invocations (quotedCommand ["a'b; #".toList, [], "x\n$(y)".toList])
        = [["a'b; #".toList, [], "x\n$(y)".toList]] :=
  have h := shell_roundTrip ["a'b; #".toList, [], "x\n$(y)".toList] (by decide)
  ⟨h.1, h.2 "a'b; #".toList rfl (by decide) (by decide)⟩

end MavenMcp.LogAnalysis
