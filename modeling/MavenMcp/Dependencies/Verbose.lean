/-
# The verbose tree as Maven prints it

In the verbose tree a node carries at most one annotation: it was omitted for a conflict with
another version or as a duplicate, or its version was managed from another one.  This file has the
text of such a node, and what `parse_dependency_line` makes of its line
(`parseDependencyLine_text`).

It is not always what Maven meant.  The scope is taken to be the FIRST part that is a scope word, so
a part in front of it that is one makes the line malformed, and a version that is one is taken for
the scope, and the scope for the version.  The status is looked for in the whole annotation, the
other version included.  And the version before management ends at a semicolon.
-/
import MavenMcp.Dependencies.Resolution

namespace MavenMcp

open Text

/-! ## 1. Nodes -/

/-- The annotation of a node; the other version is a part of a coordinate, too. -/
inductive Note
  | plain
  | omittedForConflict (version : { text : Str // IsPart text })
  | omittedForDuplicate
  | managedFrom (version : { text : Str // IsPart text })

namespace Note

/-- The words of an annotation. -/
def words : Note → List Str
  | plain => []
  | omittedForConflict version =>
    ["omitted".toList, "for".toList, "conflict".toList, "with".toList, version.1]
  | omittedForDuplicate => ["omitted".toList, "for".toList, "duplicate".toList]
  | managedFrom version => ["version".toList, "managed".toList, "from".toList, version.1]

def text (note : Note) : Str := [' '].intercalate note.words

/-- The annotations of a node, as they are reported. -/
def annotations (note : Note) : List Str :=
  match note with
  | plain => []
  | note => [note.text]

def status : Note → DependencyPathStatus
  | plain => .selected
  | omittedForConflict _ => .conflictOmitted
  | omittedForDuplicate => .duplicateOmitted
  | managedFrom _ => .selected

/-- The version that was asked for, of a node with this version. -/
def requestedVersion (version : Str) : Note → Str
  | managedFrom managed => managed.1
  | _ => version

end Note

structure Dependency extends Coordinate where
  note : Note

namespace Dependency

/-- A node as Maven prints it. -/
def text (d : Dependency) : Str :=
  match d.note with
  | .plain => d.toCoordinate.text
  | .managedFrom _ => d.toCoordinate.text ++ ' ' :: '(' :: (d.note.text ++ [')'])
  | _ => '(' :: (d.toCoordinate.text ++ ' ' :: '-' :: ' ' :: (d.note.text ++ [')']))

/-- The identity of the artifact: all of the coordinate but version and scope. -/
def identity (d : Dependency) : Str :=
  colons ([d.groupId, d.artifactId, d.kind] ++ d.classifier.toList)

end Dependency

/-! ## 2. The text of an annotation -/

theorem IsPart.not_mem_space {text : Str} (h : IsPart text) : ' ' ∉ text := fun hmem =>
  absurd (h.2 ' ' hmem).1 (by decide)

theorem isPart_of_mem_words {note : Note} {word : Str} (h : word ∈ note.words) : IsPart word := by
  cases note with
  | plain => cases h
  | omittedForConflict version =>
    simp only [Note.words, List.mem_cons, List.not_mem_nil, or_false] at h
    rcases h with rfl | rfl | rfl | rfl | rfl
    exacts [by decide, by decide, by decide, by decide, version.2]
  | omittedForDuplicate =>
    simp only [Note.words, List.mem_cons, List.not_mem_nil, or_false] at h
    rcases h with rfl | rfl | rfl <;> decide
  | managedFrom version =>
    simp only [Note.words, List.mem_cons, List.not_mem_nil, or_false] at h
    rcases h with rfl | rfl | rfl | rfl
    exacts [by decide, by decide, by decide, version.2]

theorem words_ne_nil {note : Note} (h : note ≠ .plain) : note.words ≠ [] := by
  cases note with
  | plain => exact absurd rfl h
  | omittedForConflict _ => exact List.cons_ne_nil _ _
  | omittedForDuplicate => exact List.cons_ne_nil _ _
  | managedFrom _ => exact List.cons_ne_nil _ _

theorem splitOn_note {note : Note} (h : note ≠ .plain) : note.text.splitOn ' ' = note.words :=
  List.splitOn_intercalate ' ' (fun _ hword => (isPart_of_mem_words hword).not_mem_space)
    (words_ne_nil h)

theorem tight_note {note : Note} (h : note ≠ .plain) : Tight note.text :=
  tight_intercalate (words_ne_nil h) fun _ hword => (isPart_of_mem_words hword).tight

theorem not_mem_note {note : Note} {x : Char} (h : x ∈ note.text) : x ∉ ['(', ')', ',', '\n'] := by
  rcases mem_intercalate h with rfl | ⟨word, hword, hx⟩
  · decide
  · obtain ⟨hws, hnot⟩ := (isPart_of_mem_words hword).2 x hx
    intro hmem
    simp only [List.mem_cons, List.not_mem_nil, or_false] at hmem
    rcases hmem with rfl | rfl | rfl | rfl
    exacts [hnot (by decide), hnot (by decide), hnot (by decide), absurd hws (by decide)]

/-! ## 3. Coordinate and annotation -/

theorem not_mem_text {c : Coordinate} {x : Char} (h : isWhitespace x = true ∨ x ∈ ['(', ')', ',']) :
    x ∉ c.text := by
  intro hmem
  obtain ⟨hws, hnot⟩ := Coordinate.mem_text hmem
  rcases h with h | h
  · exact absurd (hws.symm.trans h) Bool.false_ne_true
  · exact hnot h

theorem stripPrefix_singleton {x : Char} {text : Str} (h : x ∉ text) :
    stripPrefix [x] text = none := by
  cases text with
  | nil => rfl
  | cons c text =>
    have hne : x ≠ c := fun hxc => h (by rw [hxc]; exact List.mem_cons_self)
    rw [stripPrefix, if_neg hne]

/-- A node that was omitted stands in parentheses with its annotation. -/
theorem split_omitted (c : Coordinate) {note : Note} (hne : note ≠ .plain) :
    splitDependencyAnnotations ('(' :: (c.text ++ ' ' :: '-' :: ' ' :: (note.text ++ [')'])))
      = (c.text, [note.text]) := by
  have hspace : ' ' ∉ c.text := not_mem_text (.inl (by decide))
  have hassoc : '(' :: (c.text ++ ' ' :: '-' :: ' ' :: (note.text ++ [')']))
      = ['('] ++ ((c.text ++ ' ' :: '-' :: ' ' :: note.text) ++ [')']) := by
    simp only [List.append_assoc, List.cons_append, List.nil_append]
  have htight : Tight ('(' :: (c.text ++ ' ' :: '-' :: ' ' :: (note.text ++ [')']))) := by
    rw [hassoc]
    exact (tight_singleton rfl).append (tight_singleton rfl) _
  have hfind : find " - ".toList (c.text ++ ' ' :: '-' :: ' ' :: note.text)
      = some (c.text, ' ' :: '-' :: ' ' :: note.text) :=
    find_first hspace (startsWith_iff.mpr ⟨note.text, rfl⟩)
  have hinner : ((stripPrefix ['(']
      ('(' :: (c.text ++ ' ' :: '-' :: ' ' :: (note.text ++ [')'])))).bind
      (stripSuffix [')'])).bind (splitOnceStr " - ".toList) = some (c.text, note.text) := by
    rw [hassoc, stripPrefix_append, Option.bind_some, stripSuffix_append, Option.bind_some,
      splitOnceStr, hfind]
    rfl
  simp only [splitDependencyAnnotations, htight.trim_eq, hinner, c.tight_text.trim_eq,
    (tight_note hne).trim_eq]

/-- The annotation of a node that stays comes after it, in parentheses. -/
theorem split_managed (c : Coordinate) {note : Note} (hne : note ≠ .plain) :
    splitDependencyAnnotations (c.text ++ ' ' :: '(' :: (note.text ++ [')']))
      = (c.text, [note.text]) := by
  have hopen : '(' ∉ c.text := not_mem_text (.inr (by decide))
  have htight : Tight (c.text ++ ' ' :: '(' :: (note.text ++ [')'])) := by
    have := c.tight_text.append (tight_singleton (c := ')') rfl) (' ' :: '(' :: note.text)
    exact this
  have hprefix : stripPrefix ['('] (c.text ++ ' ' :: '(' :: (note.text ++ [')'])) = none := by
    obtain ⟨⟨x, hx, -⟩, -⟩ := c.tight_text
    cases htext : c.text with
    | nil => exact absurd htext c.tight_text.ne_nil
    | cons y text =>
      have hne : '(' ≠ y := fun hy => hopen (by rw [hy, htext]; exact List.mem_cons_self)
      rw [List.cons_append, stripPrefix, if_neg hne]
  have hrev : (c.text ++ ' ' :: '(' :: (note.text ++ [')'])).reverse
      = (')' :: note.text.reverse) ++ '(' :: ' ' :: c.text.reverse := by
    simp only [List.reverse_append, List.reverse_cons, List.append_assoc, List.reverse_nil,
      List.cons_append, List.nil_append]
  have hback : '(' ∉ ')' :: note.text.reverse := by
    intro hmem
    rcases List.mem_cons.mp hmem with h | h
    · cases h
    · exact not_mem_note (List.mem_reverse.mp h) (by decide)
  have hfind : find " (".toList.reverse ((')' :: note.text.reverse) ++ '(' :: ' ' :: c.text.reverse)
      = some (')' :: note.text.reverse, '(' :: ' ' :: c.text.reverse) :=
    find_first hback (startsWith_iff.mpr ⟨c.text.reverse, rfl⟩)
  have hsplit : rsplitOnceStr " (".toList (c.text ++ ' ' :: '(' :: (note.text ++ [')']))
      = some (c.text, note.text ++ [')']) := by
    rw [rsplitOnceStr, splitOnceStr, hrev, hfind]
    simp
  have hclose : trimEndMatches (· = ')') (note.text ++ [')']) = note.text := by
    rw [trimEndMatches_append (by decide)]
    refine trimEndMatches_eq_self fun x hx => decide_eq_false ?_
    rintro rfl
    exact not_mem_note (List.mem_of_mem_getLast? hx) (by decide)
  simp only [splitDependencyAnnotations, htight.trim_eq, hprefix, Option.bind_none, hsplit,
    c.tight_text.trim_eq, hclose, (tight_note hne).trim_eq]

theorem split_plain (c : Coordinate) : splitDependencyAnnotations c.text = (c.text, []) := by
  have hopen : '(' ∉ c.text := not_mem_text (.inr (by decide))
  have hfind : find " (".toList.reverse c.text.reverse = none :=
    find_eq_none_iff.mpr fun h => hopen (List.mem_reverse.mp (h.subset (by decide)))
  have hsplit : rsplitOnceStr " (".toList c.text = none := by
    rw [rsplitOnceStr, splitOnceStr, hfind]
    rfl
  simp only [splitDependencyAnnotations, c.tight_text.trim_eq, stripPrefix_singleton hopen,
    Option.bind_none, hsplit]

/-- **The two parts of a node.** -/
theorem splitDependencyAnnotations_text (d : Dependency) :
    splitDependencyAnnotations d.text = (d.toCoordinate.text, d.note.annotations) := by
  rw [Dependency.text]
  cases d.note with
  | plain => exact split_plain _
  | omittedForConflict version => exact split_omitted _ nofun
  | omittedForDuplicate => exact split_omitted _ nofun
  | managedFrom version => exact split_managed _ nofun

/-! ## 4. The parts of the coordinate -/

namespace Coordinate

/-- No part in front of the version is a scope word. -/
def Clear (c : Coordinate) : Prop :=
  ∀ part ∈ [c.groupId, c.artifactId, c.kind] ++ c.classifier.toList, isDependencyScope part = false

instance (c : Coordinate) : Decidable c.Clear :=
  inferInstanceAs (Decidable (∀ part ∈ _, _))

/-- The part that the code takes for the version. -/
def readVersion (c : Coordinate) : Str :=
  if isDependencyScope c.version then c.scope.text else c.version

/-- A coordinate as the code reports it. -/
def readNormalized (c : Coordinate) : Str :=
  colons ([c.groupId, c.artifactId, c.readVersion] ++ c.classifier.toList)

end Coordinate

theorem isDependencyScope_scope (scope : Scope) : isDependencyScope scope.text = true :=
  isDependencyScope_iff.mpr ⟨scope, rfl⟩

theorem any_isEmpty_parts (c : Coordinate) : c.parts.any List.isEmpty = false := by
  rw [List.any_eq_false]
  intro part hpart
  rw [List.isEmpty_iff]
  exact (Coordinate.isPart_of_mem hpart).1

/-- Where the first scope word stands. -/
theorem findIdx_scope (front : List Str) (version : Str) {scope : Str}
    (hscope : isDependencyScope scope = true) :
    (front ++ [version, scope]).findIdx? isDependencyScope =
      match front.findIdx? isDependencyScope with
      | some i => some i
      | none => some (if isDependencyScope version then front.length else front.length + 1) := by
  rw [List.findIdx?_append]
  cases front.findIdx? isDependencyScope with
  | some i => rfl
  | none =>
    rw [Option.none_or]
    by_cases hversion : isDependencyScope version = true
    · simp [List.findIdx?_cons, hversion]
    · simp [List.findIdx?_cons, hversion, hscope, Nat.add_comm]

theorem findIdx_front_of_not_clear {front : List Str}
    (h : ¬ ∀ part ∈ front, isDependencyScope part = false) :
    ∃ i < front.length, front.findIdx? isDependencyScope = some i := by
  cases hi : front.findIdx? isDependencyScope with
  | none => exact absurd (List.findIdx?_eq_none_iff.mp hi) h
  | some i =>
    obtain ⟨hlt, -⟩ := List.findIdx?_eq_some_iff_getElem.mp hi
    exact ⟨i, hlt, rfl⟩

theorem parse_of_five {group artifact kind version scope : Str}
    (hempty : [group, artifact, kind, version, scope].any List.isEmpty = false)
    (hscope : isDependencyScope scope = true) :
    parseDependencyCoordinate [group, artifact, kind, version, scope] =
      if ∀ part ∈ [group, artifact, kind], isDependencyScope part = false then
        let version := if isDependencyScope version then scope else version
        some
          { identity := colons [group, artifact, kind]
            coordinate := colons [group, artifact, version]
            version }
      else none := by
  have hidx := findIdx_scope [group, artifact, kind] version hscope
  rw [parseDependencyCoordinate, hempty]
  by_cases hclear : ∀ part ∈ [group, artifact, kind], isDependencyScope part = false
  · rw [List.findIdx?_eq_none_iff.mpr hclear] at hidx
    rw [if_pos hclear]
    by_cases hversion : isDependencyScope version = true
    · rw [if_pos hversion] at hidx ⊢
      have hidx : [group, artifact, kind, version, scope].findIdx? isDependencyScope =
        some 3 := hidx
      simp [hidx]
    · rw [if_neg hversion] at hidx ⊢
      have hidx : [group, artifact, kind, version, scope].findIdx? isDependencyScope =
        some 4 := hidx
      simp [hidx]
  · obtain ⟨i, hi, hfront⟩ := findIdx_front_of_not_clear hclear
    rw [hfront] at hidx
    rw [if_neg hclear]
    have hidx : [group, artifact, kind, version, scope].findIdx? isDependencyScope = some i := hidx
    have hi : i = 0 ∨ i = 1 ∨ i = 2 := by
      simp only [List.length_cons, List.length_nil] at hi
      omega
    rcases hi with rfl | rfl | rfl <;> simp [hidx]

theorem parse_of_six {group artifact kind classifier version scope : Str}
    (hempty : [group, artifact, kind, classifier, version, scope].any List.isEmpty = false)
    (hscope : isDependencyScope scope = true) :
    parseDependencyCoordinate [group, artifact, kind, classifier, version, scope] =
      if ∀ part ∈ [group, artifact, kind, classifier], isDependencyScope part = false then
        let version := if isDependencyScope version then scope else version
        some
          { identity := colons [group, artifact, kind, classifier]
            coordinate := colons [group, artifact, version, classifier]
            version }
      else none := by
  have hidx := findIdx_scope [group, artifact, kind, classifier] version hscope
  rw [parseDependencyCoordinate, hempty]
  by_cases hclear : ∀ part ∈ [group, artifact, kind, classifier], isDependencyScope part = false
  · rw [List.findIdx?_eq_none_iff.mpr hclear] at hidx
    rw [if_pos hclear]
    by_cases hversion : isDependencyScope version = true
    · rw [if_pos hversion] at hidx ⊢
      have hidx : [group, artifact, kind, classifier, version, scope].findIdx? isDependencyScope
          = some 4 := hidx
      simp [hidx]
    · rw [if_neg hversion] at hidx ⊢
      have hidx : [group, artifact, kind, classifier, version, scope].findIdx? isDependencyScope
          = some 5 := hidx
      simp [hidx]
  · obtain ⟨i, hi, hfront⟩ := findIdx_front_of_not_clear hclear
    rw [hfront] at hidx
    rw [if_neg hclear]
    have hidx : [group, artifact, kind, classifier, version, scope].findIdx? isDependencyScope
        = some i := hidx
    have hi : i = 0 ∨ i = 1 ∨ i = 2 ∨ i = 3 := by
      simp only [List.length_cons, List.length_nil] at hi
      omega
    rcases hi with rfl | rfl | rfl | rfl <;> simp [hidx]

/-- **The parts as the code takes them.** -/
theorem parseDependencyCoordinate_parts (d : Dependency) :
    parseDependencyCoordinate d.toCoordinate.parts =
      if d.toCoordinate.Clear then
        some
          { identity := d.identity
            coordinate := d.toCoordinate.readNormalized
            version := d.toCoordinate.readVersion }
      else none := by
  have hempty := any_isEmpty_parts d.toCoordinate
  have hscope := isDependencyScope_scope d.scope
  obtain ⟨⟨⟨group, artifact, kind, classifier, version, valid⟩, scope⟩, note⟩ := d
  cases classifier with
  | none => exact parse_of_five hempty hscope
  | some classifier => exact parse_of_six hempty hscope

/-! ## 5. The annotation -/

/-- The version reads, in any case, like an exclusion. -/
def mentionsExclusion (version : Str) : Bool :=
  contains "excluded".toList (toAsciiLowercase version) ||
    contains "exclusion".toList (toAsciiLowercase version)

namespace Note

/-- The status as the code finds it. -/
def readStatus (note : Note) : DependencyPathStatus :=
  match note with
  | omittedForConflict version | managedFrom version =>
    if mentionsExclusion version.1 then .excluded else note.status
  | note => note.status

/-- The requested version as the code finds it, of a node with this version. -/
def readRequested (version : Str) : Note → Str
  | managedFrom managed =>
    let managed := managed.1.takeWhile fun c => c ∉ [';', ',', ' ']
    if managed.isEmpty then version else managed
  | _ => version

end Note

theorem not_mem_space_lower {note : Note} {word : Str}
    (h : word ∈ note.words.map toAsciiLowercase) : ' ' ∉ word := by
  obtain ⟨word, hword, rfl⟩ := List.mem_map.mp h
  exact fun hmem => (isPart_of_mem_words hword).not_mem_space
    (mem_of_mem_toAsciiLowercase (by decide) hmem)

theorem lower_note (note : Note) :
    toAsciiLowercase note.text = [' '].intercalate (note.words.map toAsciiLowercase) :=
  toAsciiLowercase_intercalate (by decide) _

theorem contains_lower_note {pat : Str} {note : Note} (hpat : ' ' ∉ pat) (h : note ≠ .plain) :
    contains pat (toAsciiLowercase note.text)
      = note.words.any fun word => contains pat (toAsciiLowercase word) := by
  rw [lower_note, contains_intercalate hpat (by simpa using words_ne_nil h)
    fun _ => not_mem_space_lower, List.any_map]
  rfl

theorem splitOn_lower_note {note : Note} (h : note ≠ .plain) :
    (toAsciiLowercase note.text).splitOn ' ' = note.words.map toAsciiLowercase := by
  rw [lower_note]
  exact List.splitOn_intercalate ' ' (fun _ => not_mem_space_lower) (by simpa using words_ne_nil h)

/-- An inner word of a pattern is a word of the annotation, and not its last one. -/
theorem not_infix_of_word {pat w last : Str} {front : List Str} {note : Note}
    (hwords : note.words = front ++ [last]) (hpat : ' ' :: (w ++ [' ']) <:+: pat)
    (hw : ' ' ∉ w) (hnot : w ∉ front.map toAsciiLowercase) :
    ¬ pat <:+: toAsciiLowercase note.text := by
  intro hin
  have hplain : note ≠ .plain := by
    rintro rfl
    exact List.append_ne_nil_of_right_ne_nil _ (List.cons_ne_nil _ _) hwords.symm
  have := word_of_sep_infix_sep ' ' hw (hpat.trans hin)
  rw [splitOn_lower_note hplain, hwords, List.map_append, List.map_singleton,
    List.dropLast_concat] at this
  exact hnot this

/-- None of the words of the annotations themselves reads like an exclusion. -/
theorem mentionsExclusion_words : ∀ word ∈ ["omitted".toList, "for".toList, "conflict".toList,
    "with".toList, "duplicate".toList, "version".toList, "managed".toList, "from".toList],
    mentionsExclusion word = false := by
  decide

theorem mentionsExclusion_note {note : Note} (h : note ≠ .plain) :
    (contains "excluded".toList (toAsciiLowercase note.text) ||
      contains "exclusion".toList (toAsciiLowercase note.text))
      = note.words.any mentionsExclusion := by
  rw [contains_lower_note (by decide) h, contains_lower_note (by decide) h, Bool.eq_iff_iff,
    Bool.or_eq_true, List.any_eq_true, List.any_eq_true, List.any_eq_true]
  constructor
  · rintro (⟨word, hword, hin⟩ | ⟨word, hword, hin⟩)
    · exact ⟨word, hword, by rw [mentionsExclusion, hin, Bool.true_or]⟩
    · exact ⟨word, hword, by rw [mentionsExclusion, hin, Bool.or_true]⟩
  · rintro ⟨word, hword, hin⟩
    rw [mentionsExclusion, Bool.or_eq_true] at hin
    exact hin.imp (fun hin => ⟨word, hword, hin⟩) fun hin => ⟨word, hword, hin⟩

/-- The text of a node in conflict. -/
theorem text_omittedForConflict (version : { text : Str // IsPart text }) :
    (Note.omittedForConflict version).text
      = "omitted for conflict".toList ++ (" with ".toList ++ version.1) := by
  simp [Note.text, Note.words]

/-- The text of a managed node. -/
theorem text_managedFrom (version : { text : Str // IsPart text }) :
    (Note.managedFrom version).text = "version managed from ".toList ++ version.1 := by
  simp [Note.text, Note.words]

theorem annotationStatus_note {note : Note} (h : note ≠ .plain) :
    annotationStatus (toAsciiLowercase note.text) = note.readStatus := by
  rw [annotationStatus, mentionsExclusion_note h]
  have hwords := mentionsExclusion_words
  simp only [List.forall_mem_cons] at hwords
  obtain ⟨homitted, hfor, hconflict, hwith, hduplicate, hversion, hmanaged, hfrom, -⟩ := hwords
  cases note with
  | plain => exact absurd rfl h
  | omittedForConflict version =>
    have hlower : toAsciiLowercase "omitted for conflict".toList =
      "omitted for conflict".toList := by
      decide
    have hin : contains "omitted for conflict".toList
        (toAsciiLowercase (Note.omittedForConflict version).text) = true := by
      rw [contains_iff, text_omittedForConflict, toAsciiLowercase_append, hlower]
      exact (List.prefix_append _ _).isInfix
    simp only [Note.words, List.any_cons, homitted, hfor, hconflict, hwith, List.any_nil,
      Bool.false_or, Bool.or_false, hin, if_true]
    rfl
  | omittedForDuplicate => decide
  | managedFrom version =>
    have hfront : (Note.managedFrom version).words
        = ["version".toList, "managed".toList, "from".toList] ++ [version.1] := rfl
    have hfirst : ¬ "omitted for conflict".toList <:+:
        toAsciiLowercase (Note.managedFrom version).text :=
      not_infix_of_word (w := "for".toList) hfront ⟨"omitted".toList, "conflict".toList, by decide⟩
        (by decide) (by decide)
    have hsecond : ¬ "omitted for duplicate".toList <:+:
        toAsciiLowercase (Note.managedFrom version).text :=
      not_infix_of_word (w := "for".toList) hfront ⟨"omitted".toList, "duplicate".toList, by decide⟩
        (by decide) (by decide)
    rw [← contains_iff, Bool.not_eq_true] at hfirst hsecond
    simp only [Note.words, List.any_cons, hversion, hmanaged, hfrom, List.any_nil,
      Bool.false_or, Bool.or_false, hfirst, hsecond, Bool.false_eq_true, if_false]
    rfl

theorem annotationStatus_annotations (note : Note) :
    annotationStatus (toAsciiLowercase ("; ".toList.intercalate note.annotations))
      = note.readStatus := by
  have hnote : ∀ note : Note, note ≠ .plain → annotationStatus
      (toAsciiLowercase ("; ".toList.intercalate [note.text])) = note.readStatus := by
    intro note h
    rw [List.intercalate_singleton, annotationStatus_note h]
  cases note with
  | plain => decide
  | omittedForConflict version => exact hnote _ nofun
  | omittedForDuplicate => exact hnote _ nofun
  | managedFrom version => exact hnote _ nofun

theorem managedFromVersion_note (note : Note) (version : Str) :
    (managedFromVersion note.annotations).getD version = note.readRequested version := by
  cases note with
  | plain => rfl
  | omittedForConflict other =>
    have hfront : (Note.omittedForConflict other).words
        = ["omitted".toList, "for".toList, "conflict".toList, "with".toList] ++ [other.1] := rfl
    have hfind : find "version managed from ".toList
        (toAsciiLowercase (Note.omittedForConflict other).text) = none :=
      find_eq_none_iff.mpr
        (not_infix_of_word (w := "managed".toList) hfront
          ⟨"version".toList, "from ".toList, by decide⟩ (by decide) (by decide))
    simp only [managedFromVersion, Note.annotations, List.findSome?_cons, hfind, List.findSome?_nil]
    rfl
  | omittedForDuplicate =>
    have hnone : managedFromVersion Note.omittedForDuplicate.annotations = none := by
      decide
    rw [hnone]
    rfl
  | managedFrom managed =>
    have hlower : toAsciiLowercase (Note.managedFrom managed).text
        = "version managed from ".toList ++ toAsciiLowercase managed.1 := by
      rw [text_managedFrom, toAsciiLowercase_append]
      exact congrArg (· ++ _) (by decide)
    have hfind : find "version managed from ".toList
        (toAsciiLowercase (Note.managedFrom managed).text) = some ([], _) :=
      find_of_startsWith (startsWith_iff.mpr (by rw [hlower]; exact List.prefix_append _ _))
    have hdrop : (Note.managedFrom managed).text.drop
        (([] : Str).length + "version managed from ".toList.length) = managed.1 := by
      rw [text_managedFrom, List.length_nil, Nat.zero_add]
      exact List.drop_left
    simp only [managedFromVersion, Note.annotations, List.findSome?_cons, hfind, hdrop,
      List.findSome?_nil, Note.readRequested]
    by_cases hempty : (managed.1.takeWhile fun c => decide (c ∉ [';', ',', ' '])).isEmpty = true
    · rw [if_pos hempty, if_pos hempty]
      rfl
    · rw [if_neg hempty, if_neg hempty]
      rfl

/-! ## 6. The line -/

/-- The words of a node but the last. -/
def frontWords (d : Dependency) : List Str :=
  match d.note with
  | .plain => []
  | .omittedForConflict _ =>
    ['(' :: d.toCoordinate.text, ['-'], "omitted".toList, "for".toList, "conflict".toList,
      "with".toList]
  | .omittedForDuplicate => ['(' :: d.toCoordinate.text, ['-'], "omitted".toList, "for".toList]
  | .managedFrom _ =>
    [d.toCoordinate.text, '(' :: "version".toList, "managed".toList, "from".toList]

theorem splitOn_text_dropLast (d : Dependency) :
    (d.text.splitOn ' ').dropLast = frontWords d := by
  have hspace : ' ' ∉ d.toCoordinate.text := not_mem_text (.inl (by decide))
  have hopen : ' ' ∉ '(' :: d.toCoordinate.text := by
    intro hmem
    rcases List.mem_cons.mp hmem with h | h
    · cases h
    · exact hspace h
  have hclose : ∀ (note : Note) (front : List Str) {last : Str}, note ≠ .plain →
      note.words = front ++ [last] →
      (note.text ++ [')']).splitOn ' ' = front ++ [last ++ [')']] := by
    intro note front last hne hwords
    exact splitOn_concat (by decide) front ((splitOn_note hne).trans hwords)
  have homitted : ∀ (note : Note) (front : List Str) {last : Str}, note ≠ .plain →
      note.words = front ++ [last] →
      (('(' :: (d.toCoordinate.text ++ ' ' :: '-' :: ' ' :: (note.text ++ [')']))).splitOn
        ' ').dropLast = ('(' :: d.toCoordinate.text) :: ['-'] :: front := by
    intro note front last hne hwords
    have hdash : ' ' ∉ ['-'] := by decide
    rw [← List.cons_append, List.splitOn_append_cons_self_of_not_mem hopen,
      ← List.singleton_append (x := '-'), List.splitOn_append_cons_self_of_not_mem hdash,
      hclose note front hne hwords, ← List.cons_append, ← List.cons_append, List.dropLast_concat]
  rw [Dependency.text, frontWords]
  cases d.note with
  | plain =>
    simp only
    rw [List.splitOn_eq_singleton hspace]
    rfl
  | omittedForConflict version =>
    exact homitted (.omittedForConflict version)
      ["omitted".toList, "for".toList, "conflict".toList, "with".toList] nofun rfl
  | omittedForDuplicate =>
    exact homitted .omittedForDuplicate ["omitted".toList, "for".toList] nofun rfl
  | managedFrom version =>
    simp only
    have hwords := hclose (.managedFrom version)
      ["version".toList, "managed".toList, "from".toList] nofun rfl
    rw [List.splitOn_append_cons_self_of_not_mem hspace, List.splitOn_cons_eq_if_modifyHead,
      if_neg (by decide), hwords]
    rfl

theorem getLast_scope (scope : Scope) : ∃ c, scope.text.getLast? = some c ∧ c ∉ ['-', '@'] := by
  cases scope
  exacts [⟨'e', rfl, by decide⟩, ⟨'d', rfl, by decide⟩, ⟨'e', rfl, by decide⟩,
    ⟨'t', rfl, by decide⟩, ⟨'m', rfl, by decide⟩, ⟨'t', rfl, by decide⟩]

/-- No word but a single hyphen ends like a marker or a separator of modules. -/
theorem getLast_frontWords {d : Dependency} {word : Str} (h : word ∈ frontWords d) :
    word = ['-'] ∨ ∃ c, word.getLast? = some c ∧ c ∉ ['-', '@'] := by
  obtain ⟨c, hc, hnot⟩ := getLast_scope d.scope
  have hcoord : d.toCoordinate.text.getLast? = some c := by
    rw [Coordinate.text_eq, List.getLast?_append, List.getLast?_cons, hc]
    rfl
  have hopen : ('(' :: d.toCoordinate.text).getLast? = some c := by
    rw [List.getLast?_cons, hcoord]
    rfl
  rw [frontWords] at h
  cases hnote : d.note with
  | plain =>
    rw [hnote] at h
    cases h
  | omittedForConflict version =>
    rw [hnote] at h
    simp only [List.mem_cons, List.not_mem_nil, or_false] at h
    rcases h with rfl | rfl | rfl | rfl | rfl | rfl
    exacts [.inr ⟨c, hopen, hnot⟩, .inl rfl, .inr ⟨'d', by decide, by decide⟩,
      .inr ⟨'r', by decide, by decide⟩, .inr ⟨'t', by decide, by decide⟩,
      .inr ⟨'h', by decide, by decide⟩]
  | omittedForDuplicate =>
    rw [hnote] at h
    simp only [List.mem_cons, List.not_mem_nil, or_false] at h
    rcases h with rfl | rfl | rfl | rfl
    exacts [.inr ⟨c, hopen, hnot⟩, .inl rfl, .inr ⟨'d', by decide, by decide⟩,
      .inr ⟨'r', by decide, by decide⟩]
  | managedFrom version =>
    rw [hnote] at h
    simp only [List.mem_cons, List.not_mem_nil, or_false] at h
    rcases h with rfl | rfl | rfl | rfl
    exacts [.inr ⟨c, hcoord, hnot⟩, .inr ⟨'n', by decide, by decide⟩,
      .inr ⟨'d', by decide, by decide⟩, .inr ⟨'m', by decide, by decide⟩]

/-- The text of a node holds no marker. -/
theorem find_plus_dependency (d : Dependency) : find "+- ".toList d.text = none := by
  rw [find_eq_none_iff]
  intro hin
  obtain ⟨word, hword, hsuf⟩ := word_of_infix_sep (w := ['+', '-']) ' ' (by decide) hin
  rw [splitOn_text_dropLast] at hword
  rcases getLast_frontWords hword with rfl | ⟨c, hc, hnot⟩
  · exact absurd hsuf.length_le (by decide)
  · obtain ⟨front, rfl⟩ := hsuf
    rw [List.getLast?_append] at hc
    cases hc
    exact hnot (by decide)

theorem tight_dependency (d : Dependency) : Tight d.text := by
  have hcoord := d.toCoordinate.tight_text
  have homitted : ∀ note : Note,
      Tight ('(' :: (d.toCoordinate.text ++ ' ' :: '-' :: ' ' :: (note.text ++ [')']))) := by
    intro note
    have := (tight_singleton (c := '(') rfl).append (tight_singleton (c := ')') rfl)
      (d.toCoordinate.text ++ ' ' :: '-' :: ' ' :: note.text)
    simpa only [List.append_assoc, List.cons_append, List.nil_append] using this
  rw [Dependency.text]
  cases d.note with
  | plain => exact hcoord
  | omittedForConflict version => exact homitted (.omittedForConflict version)
  | omittedForDuplicate => exact homitted .omittedForDuplicate
  | managedFrom version =>
    exact hcoord.append (tight_singleton rfl) (' ' :: '(' :: (Note.managedFrom version).text)

/-- The line of a node is not taken for a module's header. -/
theorem pluginModuleArtifact_node (above : List Bool) (last : Bool) (d : Dependency) :
    pluginModuleArtifact (treeChunks above ++ (treeMarker last ++ d.text)) = none := by
  have hmarker : ∃ marker : Str, treeMarker last = marker ++ [' '] ∧ '@' ∉ marker := by
    cases last
    exacts [⟨['+', '-'], rfl, by decide⟩, ⟨['\\', '-'], rfl, by decide⟩]
  obtain ⟨marker, hmarker, hat⟩ := hmarker
  have hsplit : (treeChunks above ++ (treeMarker last ++ d.text)).splitOn ' '
      = (treeChunks above ++ marker).splitOn ' ' ++ d.text.splitOn ' ' := by
    rw [← List.splitOn_append_cons_self, hmarker]
    simp only [List.append_assoc, List.cons_append, List.nil_append]
  have hfind : find " @ ".toList (treeChunks above ++ (treeMarker last ++ d.text)) = none := by
    rw [find_eq_none_iff]
    intro hin
    have hword := word_of_sep_infix_sep (w := ['@']) ' ' (by decide) hin
    rw [hsplit, List.dropLast_append_of_ne_nil (List.splitOn_ne_nil _ _), splitOn_text_dropLast,
      List.mem_append] at hword
    rcases hword with hword | hword
    · have hmem := (infix_of_mem_splitOn hword).subset List.mem_cons_self
      rcases List.mem_append.mp hmem with hmem | hmem
      · rcases mem_treeChunks hmem with h | h <;> cases h
      · exact hat hmem
    · rcases getLast_frontWords hword with h | ⟨c, hc, hnot⟩
      · cases h
      · cases hc
        exact hnot (by decide)
  rw [pluginModuleArtifact, splitOnceStr, hfind]
  rfl

/-- A node at some depth as the code reads it. -/
def Dependency.read (d : Dependency) (depth : Nat) : ParsedDependencyLine where
  depth
  coordinate :=
    { identity := d.identity
      coordinate := d.toCoordinate.readNormalized
      version := d.toCoordinate.readVersion }
  status := d.note.readStatus
  annotations := d.note.annotations
  requestedVersion := d.note.readRequested d.toCoordinate.readVersion

/-- **What the code makes of the line of a node.** -/
theorem parseDependencyLine_text (above : List Bool) (last : Bool) (d : Dependency) :
    parseDependencyLine (treeChunks above) (treeMarker last ++ d.text) =
      if d.toCoordinate.Clear then
        some (d.read (above.length + 1))
      else none := by
  have hparen : ∀ c ∈ d.toCoordinate.text, (decide (c = '(') || decide (c = ')')) = false := by
    intro c hc
    have hnot := (Coordinate.mem_text hc).2
    rw [Bool.or_eq_false_iff, decide_eq_false_iff_not, decide_eq_false_iff_not]
    exact ⟨fun h => hnot (by rw [h]; decide), fun h => hnot (by rw [h]; decide)⟩
  have hstart : trimStartMatches (fun c => decide (c = '(') || decide (c = ')')) d.toCoordinate.text
      = d.toCoordinate.text :=
    trimStartMatches_eq_self fun c hc => hparen c (List.mem_of_mem_head? hc)
  have hend : trimEndMatches (fun c => decide (c = '(') || decide (c = ')')) d.toCoordinate.text
      = d.toCoordinate.text :=
    trimEndMatches_eq_self fun c hc => hparen c (List.mem_of_mem_getLast? hc)
  have hdiv : 3 * above.length / 3 = above.length := by
    omega
  simp only [parseDependencyLine, byteLen_treeChunks, hdiv, drop_treeMarker,
    (tight_dependency d).trim_eq, splitDependencyAnnotations_text, hstart, hend,
    Coordinate.splitOn_text, parseDependencyCoordinate_parts, annotationStatus_annotations]
  by_cases hclear : d.toCoordinate.Clear
  · rw [if_pos hclear, if_pos hclear, Dependency.read, ← managedFromVersion_note]
  · rw [if_neg hclear, if_neg hclear]

end MavenMcp
