/-
# Folded manifests

`manifest_lines` cuts a manifest at CRLF, LF or a lone CR, and the lines of the main section are
joined with their continuation lines before the flag is looked for.  Laid out in any way, a main
section is therefore read as the lines it was folded from (`unfold_layout`), and the text behind
the first blank line is never read (`declares_blank`).
-/
import MavenMcp.Index.Record

namespace MavenMcp

open Text

/-! ## 1. Lines -/

/-- The three ways to end a line. -/
inductive LineBreak
  | cr
  | lf
  | crlf
deriving DecidableEq, Repr

def LineBreak.text : LineBreak → Str
  | .cr => ['\r']
  | .lf => ['\n']
  | .crlf => ['\r', '\n']

/-- No line ends here. -/
def OneLine (line : Str) : Prop := '\r' ∉ line ∧ '\n' ∉ line

/-- `manifest_lines` of a whole manifest. -/
def manifestLines (manifest : Str) : List Str := manifestLinesN (manifest.length + 1) manifest

theorem manifestLinesN_stable : ∀ (n m : Nat) (text : Str), text.length < n → text.length < m →
    manifestLinesN n text = manifestLinesN m text := by
  intro n
  induction n with
  | zero => intro m text hn; omega
  | succ n ih =>
    intro m text hn hm
    obtain ⟨m, rfl⟩ : ∃ k, m = k + 1 := ⟨m - 1, by omega⟩
    cases text with
    | nil => rfl
    | cons x text =>
      have hdrop := (List.dropWhile_sublist (fun c => c ≠ '\r' && c ≠ '\n')
        (l := x :: text)).length_le
      simp only [manifestLinesN]
      split
      · rfl
      · rename_i rest heq
        simp only [heq, List.length_cons] at hdrop hn hm
        rw [ih m rest (by omega) (by omega)]
      · rename_i rest heq
        simp only [heq, List.length_cons] at hdrop hn hm
        rw [ih m _ (by omega) (by omega)]

theorem OneLine.takeWhile {line : Str} (h : OneLine line) {rest : Str}
    (hrest : ∀ x ∈ rest.head?, x = '\r' ∨ x = '\n') :
    (line ++ rest).takeWhile (fun c => c ≠ '\r' && c ≠ '\n') = line ∧
      (line ++ rest).dropWhile (fun c => c ≠ '\r' && c ≠ '\n') = rest := by
  have hall : ∀ x ∈ line, (x ≠ '\r' && x ≠ '\n') = true := by
    intro x hx
    have hcr : x ≠ '\r' := fun heq => h.1 (heq ▸ hx)
    have hlf : x ≠ '\n' := fun heq => h.2 (heq ▸ hx)
    simp [hcr, hlf]
  rw [List.takeWhile_append_of_pos hall, List.dropWhile_append_of_pos hall]
  cases rest with
  | nil => exact ⟨List.append_nil line, rfl⟩
  | cons x rest =>
    have hx : (x ≠ '\r' && x ≠ '\n') = false := by
      rcases hrest x rfl with rfl | rfl
      · rfl
      · rfl
    rw [List.takeWhile_cons, List.dropWhile_cons, hx]
    exact ⟨List.append_nil line, rfl⟩

/-- A line and what follows it. -/
theorem manifestLines_break {line rest : Str} (hline : OneLine line) (b : LineBreak)
    (hrest : b = .cr → rest.head? ≠ some '\n') :
    manifestLines (line ++ (b.text ++ rest)) = line :: manifestLines rest := by
  have hhead : ∀ x ∈ (b.text ++ rest).head?, x = '\r' ∨ x = '\n' := by
    intro x hx
    cases b with
    | cr => exact .inl (Option.some.inj hx).symm
    | lf => exact .inr (Option.some.inj hx).symm
    | crlf => exact .inl (Option.some.inj hx).symm
  obtain ⟨htake, hdrop⟩ := hline.takeWhile hhead
  obtain ⟨y, text, htext⟩ : ∃ y text, line ++ (b.text ++ rest) = y :: text := by
    refine List.exists_cons_of_ne_nil (List.append_ne_nil_of_right_ne_nil _ ?_)
    cases b with
    | cr => exact List.cons_ne_nil _ _
    | lf => exact List.cons_ne_nil _ _
    | crlf => exact List.cons_ne_nil _ _
  have hlength : rest.length < (line ++ (b.text ++ rest)).length := by
    rw [List.length_append, List.length_append]
    cases b with
    | cr => exact Nat.lt_of_lt_of_le (Nat.lt_add_of_pos_left Nat.one_pos) (Nat.le_add_left _ _)
    | lf => exact Nat.lt_of_lt_of_le (Nat.lt_add_of_pos_left Nat.one_pos) (Nat.le_add_left _ _)
    | crlf => exact Nat.lt_of_lt_of_le (Nat.lt_add_of_pos_left Nat.two_pos) (Nat.le_add_left _ _)
  have hstable := manifestLinesN_stable (line ++ (b.text ++ rest)).length (rest.length + 1) rest
    hlength (Nat.lt_succ_self _)
  rw [manifestLines, manifestLines, ← hstable]
  generalize (line ++ (b.text ++ rest)).length = n
  rw [htext] at htake hdrop ⊢
  simp only [manifestLinesN, htake, hdrop]
  cases b with
  | cr =>
    cases rest with
    | nil => rfl
    | cons x rest =>
      have hx : x ≠ '\n' := fun heq => hrest rfl (by rw [heq]; rfl)
      simp only [LineBreak.text, List.cons_append, List.nil_append]
      split
      · rename_i heq
        cases heq
      · rename_i heq
        cases heq
        exact absurd rfl hx
      · rename_i heq
        cases heq
        rfl
  | lf => rfl
  | crlf => rfl

theorem manifestLines_line {line : Str} (hline : OneLine line) (hne : line ≠ []) :
    manifestLines line = [line] := by
  obtain ⟨y, text, rfl⟩ := List.exists_cons_of_ne_nil hne
  have hend : ∀ x ∈ ([] : Str).head?, x = '\r' ∨ x = '\n' := nofun
  obtain ⟨htake, hdrop⟩ := hline.takeWhile hend
  rw [List.append_nil] at htake hdrop
  simp only [manifestLines, manifestLinesN, htake, hdrop]

/-- A text without a line break, or the first line and its break. -/
theorem oneLine_or_break (text : Str) : OneLine text ∨ ∃ line b rest,
    text = line ++ (LineBreak.text b ++ rest) ∧ OneLine line ∧
      (b = .cr → rest.head? ≠ some '\n') := by
  have hempty : OneLine [] := ⟨List.not_mem_nil, List.not_mem_nil⟩
  induction text with
  | nil => exact .inl hempty
  | cons x text ih =>
    by_cases hlf : x = '\n'
    · rw [hlf]
      exact .inr ⟨[], .lf, text, rfl, hempty, nofun⟩
    · by_cases hcr : x = '\r'
      · rw [hcr]
        by_cases hhead : text.head? = some '\n'
        · obtain ⟨rest, rfl⟩ := List.head?_eq_some_iff.mp hhead
          exact .inr ⟨[], .crlf, rest, rfl, hempty, nofun⟩
        · exact .inr ⟨[], .cr, text, rfl, hempty, fun _ => hhead⟩
      · have hcons : ∀ line, OneLine line → OneLine (x :: line) := by
          intro line h
          refine ⟨fun hmem => ?_, fun hmem => ?_⟩
          · exact (List.mem_cons.mp hmem).elim (fun heq => hcr heq.symm) h.1
          · exact (List.mem_cons.mp hmem).elim (fun heq => hlf heq.symm) h.2
        rcases ih with hone | ⟨line, b, rest, rfl, hline, hrest⟩
        · exact .inl (hcons text hone)
        · exact .inr ⟨x :: line, b, rest, rfl, hcons line hline, hrest⟩

/-! ## 2. Blank lines -/

/-- The last line ended, or there was none. -/
def AtLineStart (text : Str) : Prop := text = [] ∨ text.getLast? = some '\r' ∨
  text.getLast? = some '\n'

theorem manifestLines_nil_break (b : LineBreak) (tail : Str) :
    ∃ after, manifestLines (b.text ++ tail) = [] :: after := by
  have hempty : OneLine [] := ⟨List.not_mem_nil, List.not_mem_nil⟩
  by_cases hlf : b = .cr ∧ tail.head? = some '\n'
  · obtain ⟨rfl, hhead⟩ := hlf
    obtain ⟨rest, rfl⟩ := List.head?_eq_some_iff.mp hhead
    exact ⟨_, manifestLines_break hempty .crlf nofun⟩
  · exact ⟨_, manifestLines_break hempty b fun hb hhead => hlf ⟨hb, hhead⟩⟩

/-- The lines before a blank line are those of the text before it. -/
theorem manifestLines_blank (b : LineBreak) (tail : Str) {text : Str} (hstart : AtLineStart text)
    (hnot : ¬ (text.getLast? = some '\r' ∧ b = .lf)) :
    ∃ after, manifestLines (text ++ (b.text ++ tail)) = manifestLines text ++ [] :: after := by
  induction hn : text.length using Nat.strongRecOn generalizing text with
  | ind n ih =>
    rcases oneLine_or_break text with hone | ⟨line, b', rest, rfl, hline, hrest⟩
    · have hnil : text = [] := by
        rcases hstart with h | h | h
        · exact h
        · exact absurd (List.mem_of_getLast? h) hone.1
        · exact absurd (List.mem_of_getLast? h) hone.2
      rw [hnil]
      exact manifestLines_nil_break b tail
    · -- the text ends as its rest does, or with the break itself
      have hlast : rest ≠ [] → (line ++ (b'.text ++ rest)).getLast? = rest.getLast? := by
        intro hne
        rw [List.getLast?_append_of_ne_nil _ (List.append_ne_nil_of_right_ne_nil _ hne),
          List.getLast?_append_of_ne_nil _ hne]
      have hstart' : AtLineStart rest := by
        by_cases hne : rest = []
        · exact .inl hne
        · refine .inr ?_
          rw [AtLineStart, hlast hne] at hstart
          refine hstart.resolve_left (List.append_ne_nil_of_right_ne_nil _ ?_)
          exact List.append_ne_nil_of_right_ne_nil _ hne
      have hnot' : ¬ (rest.getLast? = some '\r' ∧ b = .lf) := by
        rintro ⟨hcr, hb⟩
        have hne : rest ≠ [] := by
          rintro rfl
          cases hcr
        exact hnot ⟨(hlast hne).trans hcr, hb⟩
      have hshorter : rest.length < n := by
        rw [← hn, List.length_append, List.length_append]
        cases b' with
        | cr => simp only [LineBreak.text, List.length_singleton]; omega
        | lf => simp only [LineBreak.text, List.length_singleton]; omega
        | crlf => simp only [LineBreak.text, List.length_cons]; omega
      obtain ⟨after, hafter⟩ := ih rest.length hshorter hstart' hnot' rfl
      have hrest' : b' = .cr → (rest ++ (b.text ++ tail)).head? ≠ some '\n' := by
        rintro rfl
        cases rest with
        | nil =>
          cases b with
          | cr => exact nofun
          | lf =>
            refine absurd ⟨?_, rfl⟩ hnot
            simp only [LineBreak.text, List.append_nil, List.getLast?_append,
              List.getLast?_singleton, Option.some_or]
          | crlf => exact nofun
        | cons x rest => exact hrest rfl
      refine ⟨after, ?_⟩
      rw [List.append_assoc, List.append_assoc, manifestLines_break hline b' hrest',
        manifestLines_break hline b' hrest, hafter]
      rfl

/-- The main section ends at the first blank line. -/
theorem unfoldManifest_blank (unfolded before after : List Str) :
    unfoldManifest unfolded (before ++ [] :: after) = unfoldManifest unfolded before := by
  induction before generalizing unfolded with
  | nil => rfl
  | cons line before ih =>
    rw [List.cons_append, unfoldManifest, unfoldManifest]
    split
    · rfl
    · split
      · exact ih _
      · exact ih _

/-- **Nothing behind a blank line is read.** -/
theorem declares_blank (b : LineBreak) (tail : Str) {text : Str} (hstart : AtLineStart text)
    (hnot : ¬ (text.getLast? = some '\r' ∧ b = .lf)) :
    manifestDeclaresMultiRelease (text ++ (b.text ++ tail)) =
      manifestDeclaresMultiRelease text := by
  obtain ⟨after, hlines⟩ := manifestLines_blank b tail hstart hnot
  unfold manifestDeclaresMultiRelease
  rw [← manifestLines, ← manifestLines, hlines, unfoldManifest_blank]

/-! ## 3. Folded lines -/

/-- A line in its parts: the first one, which begins the line, and its continuations. -/
structure Folded where
  first : Str
  continuations : List Str

/-- The line that was folded. -/
def Folded.line (folded : Folded) : Str := folded.first ++ folded.continuations.flatten

/-- The lines as they stand in the manifest. -/
def Folded.physical (folded : Folded) : List Str :=
  folded.first :: folded.continuations.map (' ' :: ·)

/-- The folded line: a break and a space before each continuation. -/
def Folded.layout (b : LineBreak) (folded : Folded) : Str :=
  folded.first ++ folded.continuations.flatMap fun part => b.text ++ ' ' :: part

/-- A section, laid out with one kind of line break. -/
def layout (b : LineBreak) (section_ : List Folded) : Str :=
  b.text.intercalate (section_.map (Folded.layout b))

/-- A line of a main section. -/
def SectionLine (line : Str) : Prop := line ≠ [] ∧ line.head? ≠ some ' ' ∧ OneLine line

/-- What may follow a section: nothing, the break of its last line, or a blank line and more. -/
def Ending (b : LineBreak) (ending : Str) : Prop :=
  ending = [] ∨ ending = b.text ∨ ∃ tail, ending = b.text ++ (b.text ++ tail)

theorem OneLine.head_append {line : Str} (h : OneLine line) (hne : line ≠ []) (rest : Str) :
    (line ++ rest).head? ≠ some '\n' := by
  obtain ⟨x, text, rfl⟩ := List.exists_cons_of_ne_nil hne
  intro hhead
  cases Option.some.inj hhead
  exact h.2 List.mem_cons_self

theorem intercalate_cons_cons (sep line next : Str) (rest : List Str) :
    sep.intercalate (line :: next :: rest) = line ++ (sep ++ sep.intercalate (next :: rest)) := by
  rw [List.intercalate_cons_cons, List.append_assoc]

/-- The first line is the head of the text. -/
theorem intercalate_head (sep next : Str) (rest : List Str) :
    ∃ later, sep.intercalate (next :: rest) = next ++ later := by
  cases rest with
  | nil => exact ⟨[], by rw [List.intercalate_singleton, List.append_nil]⟩
  | cons line rest => exact ⟨_, intercalate_cons_cons sep next line rest⟩

/-- Lines with breaks between them, and what follows the last break. -/
theorem manifestLines_intercalate (b : LineBreak) {lines : List Str}
    (hlines : ∀ line ∈ lines, line ≠ [] ∧ OneLine line) (hne : lines ≠ []) :
    manifestLines (b.text.intercalate lines) = lines ∧
      ∀ suffix : Str, (b = .cr → suffix.head? ≠ some '\n') →
        manifestLines (b.text.intercalate lines ++ (b.text ++ suffix)) =
          lines ++ manifestLines suffix := by
  induction lines with
  | nil => exact absurd rfl hne
  | cons line lines ih =>
    have hline := hlines line List.mem_cons_self
    cases lines with
    | nil =>
      rw [List.intercalate_singleton]
      exact ⟨manifestLines_line hline.2 hline.1, fun suffix hsuffix =>
        manifestLines_break hline.2 b hsuffix⟩
    | cons next rest =>
      obtain ⟨hall, hsuffixes⟩ := ih (fun x hx => hlines x (List.mem_cons_of_mem line hx))
        (List.cons_ne_nil next rest)
      have hnext := hlines next (List.mem_cons_of_mem line List.mem_cons_self)
      obtain ⟨later, hlater⟩ := intercalate_head b.text next rest
      have hhead : ∀ suffix : Str, b = .cr →
          (b.text.intercalate (next :: rest) ++ suffix).head? ≠ some '\n' := by
        intro suffix _
        rw [hlater, List.append_assoc]
        exact hnext.2.head_append hnext.1 _
      rw [intercalate_cons_cons]
      constructor
      · have hbreak := hhead []
        rw [List.append_nil] at hbreak
        rw [manifestLines_break hline.2 b hbreak, hall]
      · intro suffix hsuffix
        rw [List.append_assoc, List.append_assoc, manifestLines_break hline.2 b (hhead _),
          hsuffixes suffix hsuffix]
        rfl

/-- Continuations are joined to the line they continue. -/
theorem unfoldManifest_continuations (unfolded : List Str) (line : Str) (parts rest : List Str) :
    unfoldManifest (unfolded ++ [line]) (parts.map (' ' :: ·) ++ rest) =
      unfoldManifest (unfolded ++ [line ++ parts.flatten]) rest := by
  induction parts generalizing line with
  | nil => rw [List.map_nil, List.nil_append, List.flatten_nil, List.append_nil]
  | cons part parts ih =>
    rw [List.map_cons, List.cons_append, unfoldManifest, if_neg (List.cons_ne_nil _ _),
      List.getLast?_concat]
    have hstrip : stripPrefix [' '] (' ' :: part) = some part := stripPrefix_append [' '] part
    simp only [hstrip, List.dropLast_concat]
    rw [ih, List.flatten_cons, List.append_assoc]

/-- **A section is read as the lines it was folded from.** -/
theorem unfoldManifest_physical (unfolded : List Str) {section_ : List Folded}
    (hsection : ∀ folded ∈ section_, folded.first ≠ [] ∧ folded.first.head? ≠ some ' ') :
    unfoldManifest unfolded (section_.flatMap Folded.physical) =
      unfolded ++ section_.map Folded.line := by
  induction section_ generalizing unfolded with
  | nil => rw [List.flatMap_nil, unfoldManifest, List.map_nil, List.append_nil]
  | cons folded section_ ih =>
    obtain ⟨hne, hspace⟩ := hsection folded List.mem_cons_self
    have hstrip : stripPrefix [' '] folded.first = none := by
      by_contra hsome
      obtain ⟨rest, hrest⟩ := Option.ne_none_iff_exists'.mp hsome
      rw [stripPrefix_eq_some_iff.mp hrest] at hspace
      exact hspace rfl
    rw [List.flatMap_cons, Folded.physical, List.cons_append, unfoldManifest, if_neg hne, hstrip]
    simp only
    rw [unfoldManifest_continuations, ih _ fun x hx => hsection x (List.mem_cons_of_mem _ hx),
      List.append_assoc, List.map_cons]
    rfl

/-- A folded line is its physical lines with breaks between them. -/
theorem intercalate_physical (b : LineBreak) (folded : Folded) :
    b.text.intercalate folded.physical = folded.layout b := by
  obtain ⟨first, continuations⟩ := folded
  unfold Folded.physical Folded.layout
  induction continuations generalizing first with
  | nil => rw [List.map_nil, List.intercalate_singleton, List.flatMap_nil, List.append_nil]
  | cons part continuations ih =>
    rw [List.map_cons, intercalate_cons_cons, ih, List.flatMap_cons, List.append_assoc]

theorem intercalate_append (sep : Str) {front back : List Str} (hfront : front ≠ [])
    (hback : back ≠ []) :
    sep.intercalate (front ++ back) = sep.intercalate front ++ (sep ++ sep.intercalate back) := by
  induction front with
  | nil => exact absurd rfl hfront
  | cons line front ih =>
    cases front with
    | nil =>
      obtain ⟨next, rest, rfl⟩ := List.exists_cons_of_ne_nil hback
      rw [List.singleton_append, intercalate_cons_cons, List.intercalate_singleton]
    | cons next front =>
      rw [List.cons_append, List.cons_append, intercalate_cons_cons, ← List.cons_append,
        ih (List.cons_ne_nil _ _), intercalate_cons_cons, List.append_assoc, List.append_assoc]

theorem layout_eq (b : LineBreak) (section_ : List Folded) :
    layout b section_ = b.text.intercalate (section_.flatMap Folded.physical) := by
  induction section_ with
  | nil => rfl
  | cons folded section_ ih =>
    cases section_ with
    | nil =>
      rw [layout, List.map_singleton, List.intercalate_singleton, List.flatMap_singleton,
        intercalate_physical]
    | cons next section_ =>
      have hphysical : folded.physical ≠ [] := List.cons_ne_nil _ _
      have hrest : (next :: section_).flatMap Folded.physical ≠ [] := by
        rw [List.flatMap_cons]
        exact List.append_ne_nil_of_left_ne_nil (List.cons_ne_nil _ _) _
      rw [List.flatMap_cons, intercalate_append b.text hphysical hrest, ← ih,
        intercalate_physical, layout, layout, List.map_cons, List.map_cons, intercalate_cons_cons]

/-! ## 4. The flag -/

/-- The flag among the lines of a section. -/
def declaresIn (lines : List Str) : Bool :=
  lines.any fun line =>
    (splitOnce ':' line).any fun (name, value) =>
      eqIgnoreAsciiCase (trim name) "Multi-Release".toList &&
        eqIgnoreAsciiCase (trim value) "true".toList

theorem declares_eq (manifest : Str) : manifestDeclaresMultiRelease manifest =
    declaresIn (unfoldManifest [] (manifestLines manifest)) := rfl

theorem OneLine.of_append {a b : Str} (h : OneLine (a ++ b)) : OneLine a ∧ OneLine b :=
  ⟨⟨fun hmem => h.1 (List.mem_append_left b hmem), fun hmem => h.2 (List.mem_append_left b hmem)⟩,
    ⟨fun hmem => h.1 (List.mem_append_right a hmem),
      fun hmem => h.2 (List.mem_append_right a hmem)⟩⟩

/-- What is known of the parts of a line. -/
theorem Folded.parts {folded : Folded} (hline : SectionLine folded.line)
    (hne : folded.first ≠ []) :
    folded.first.head? ≠ some ' ' ∧ ∀ line ∈ folded.physical, line ≠ [] ∧ OneLine line := by
  obtain ⟨-, hspace, hone⟩ := hline
  obtain ⟨hfirst, hrest⟩ := hone.of_append
  refine ⟨?_, fun line hmem => ?_⟩
  · obtain ⟨x, text, hx⟩ := List.exists_cons_of_ne_nil hne
    rw [Folded.line, hx] at hspace
    rw [hx]
    exact hspace
  · rcases List.mem_cons.mp hmem with rfl | hmem
    · exact ⟨hne, hfirst⟩
    · obtain ⟨part, hpart, rfl⟩ := List.mem_map.mp hmem
      refine ⟨List.cons_ne_nil _ _, fun hcr => ?_, fun hlf => ?_⟩
      · have hin := (List.mem_cons.mp hcr).resolve_left (by decide)
        exact hrest.1 (List.mem_flatten.mpr ⟨part, hpart, hin⟩)
      · have hin := (List.mem_cons.mp hlf).resolve_left (by decide)
        exact hrest.2 (List.mem_flatten.mpr ⟨part, hpart, hin⟩)

/-- **However a section is laid out, its lines decide.** -/
theorem declares_layout (b : LineBreak) {section_ : List Folded} {ending : Str}
    (hlines : ∀ folded ∈ section_, SectionLine folded.line ∧ folded.first ≠ [])
    (hending : Ending b ending) :
    manifestDeclaresMultiRelease (layout b section_ ++ ending) =
      declaresIn (section_.map Folded.line) := by
  have hread : ∀ after, manifestLines (layout b section_ ++ ending) =
      section_.flatMap Folded.physical ++ after → (after = [] ∨ ∃ rest, after = [] :: rest) →
      manifestDeclaresMultiRelease (layout b section_ ++ ending) =
        declaresIn (section_.map Folded.line) := by
    intro after heq hafter
    have hunfold := unfoldManifest_physical [] fun folded hmem =>
      ⟨(hlines folded hmem).2, (folded.parts (hlines folded hmem).1 (hlines folded hmem).2).1⟩
    rw [declares_eq, heq]
    rcases hafter with rfl | ⟨rest, rfl⟩
    · rw [List.append_nil, hunfold, List.nil_append]
    · rw [unfoldManifest_blank, hunfold, List.nil_append]
  have hblank : ∀ tail, ∃ rest, manifestLines (b.text ++ tail) = [] :: rest :=
    manifestLines_nil_break b
  by_cases hnil : section_ = []
  · rcases hending with rfl | rfl | ⟨tail, rfl⟩
    · exact hread [] (by rw [hnil]; rfl) (.inl rfl)
    · obtain ⟨rest, hrest⟩ := hblank []
      rw [List.append_nil] at hrest
      exact hread _ (by rw [hnil]; exact hrest) (.inr ⟨rest, rfl⟩)
    · obtain ⟨rest, hrest⟩ := hblank (b.text ++ tail)
      exact hread _ (by rw [hnil]; exact hrest) (.inr ⟨rest, rfl⟩)
  · have hphysical : ∀ line ∈ section_.flatMap Folded.physical, line ≠ [] ∧ OneLine line := by
      intro line hmem
      obtain ⟨folded, hin, hline⟩ := List.mem_flatMap.mp hmem
      exact (folded.parts (hlines folded hin).1 (hlines folded hin).2).2 line hline
    have hne : section_.flatMap Folded.physical ≠ [] := by
      obtain ⟨folded, rest, hcons⟩ := List.exists_cons_of_ne_nil hnil
      rw [hcons, List.flatMap_cons]
      exact List.append_ne_nil_of_left_ne_nil (List.cons_ne_nil _ _) _
    obtain ⟨hall, hsuffix⟩ := manifestLines_intercalate b hphysical hne
    rw [← layout_eq] at hall hsuffix
    rcases hending with rfl | rfl | ⟨tail, rfl⟩
    · exact hread [] (by rw [List.append_nil, List.append_nil, hall]) (.inl rfl)
    · have hend := hsuffix [] fun _ => nofun
      rw [List.append_nil] at hend
      exact hread [] hend (.inl rfl)
    · obtain ⟨rest, hrest⟩ := hblank tail
      have hend := hsuffix (b.text ++ tail) (by rintro rfl; exact nofun)
      exact hread _ (by rw [hend, hrest]) (.inr ⟨rest, rfl⟩)

/-- **Manifest folding is transparent.**  A main section gives the same answer however its lines are
folded, whichever line break is used and whatever follows it; and no manifest depends on what stands
behind its first blank line. -/
theorem manifest_folding_transparent :
    (∀ (lines : List Str) (section_ : List Folded) (b b' : LineBreak) (ending ending' : Str),
      (∀ line ∈ lines, SectionLine line) → section_.map Folded.line = lines →
      (∀ folded ∈ section_, folded.first ≠ []) → Ending b ending → Ending b' ending' →
      manifestDeclaresMultiRelease (layout b section_ ++ ending) =
        manifestDeclaresMultiRelease (b'.text.intercalate lines ++ ending')) ∧
    ∀ (b : LineBreak) (text tail : Str), AtLineStart text →
      ¬ (text.getLast? = some '\r' ∧ b = .lf) →
      manifestDeclaresMultiRelease (text ++ (b.text ++ tail)) =
        manifestDeclaresMultiRelease text := by
  refine ⟨fun lines section_ b b' ending ending' hlines hsection hfirst hending hending' => ?_,
    fun b text tail hstart hnot => declares_blank b tail hstart hnot⟩
  have hfolded : ∀ folded ∈ section_, SectionLine folded.line ∧ folded.first ≠ [] := by
    intro folded hmem
    refine ⟨hlines folded.line ?_, hfirst folded hmem⟩
    rw [← hsection]
    exact List.mem_map_of_mem hmem
  -- the unfolded text is a layout, too
  have hplain : layout b' (lines.map fun line => ⟨line, []⟩) = b'.text.intercalate lines := by
    rw [layout, List.map_map]
    congr 1
    exact (List.map_congr_left fun line _ => List.append_nil line).trans (List.map_id lines)
  have hunfolded : (lines.map fun line => (⟨line, []⟩ : Folded)).map Folded.line = lines := by
    rw [List.map_map]
    exact (List.map_congr_left fun line _ => List.append_nil line).trans (List.map_id lines)
  rw [declares_layout b hfolded hending, hsection, ← hplain, declares_layout b' ?_ hending',
    hunfolded]
  intro folded hmem
  obtain ⟨line, hline, rfl⟩ := List.mem_map.mp hmem
  have hsectionLine := hlines line hline
  refine ⟨?_, hsectionLine.1⟩
  rw [Folded.line, List.flatten_nil, List.append_nil]
  exact hsectionLine

end MavenMcp
