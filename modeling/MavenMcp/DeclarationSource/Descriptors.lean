/-
# Method descriptors

`descriptor_parameters` reads the parameters of a method descriptor.  Whatever is written from a
list of parameters is read back (`descriptorFrom_written`), and what it reads is written from such a
list, but for the last class name, whose `;` may be missing (`exists_written`): `take_while` also
stops at the end of the parameters.  So it answers for one kind of parameter part that is no
sequence of field descriptors (`decodes_iff`).

What a class name is stays a parameter: any text between `L` and `;`, or only an internal form of
the class file format.
-/
import MavenMcp.DeclarationSource.Erasure
import MavenMcp.Lib.Delimited
import Mathlib.Data.List.DropRight

namespace MavenMcp.DeclarationSource

open Text

/-! ## 1. The grammar -/

inductive Primitive
  | byte | char | double | float | int | long | short | boolean
deriving DecidableEq, Repr

def Primitive.letter : Primitive → Char
  | .byte => 'B'
  | .char => 'C'
  | .double => 'D'
  | .float => 'F'
  | .int => 'I'
  | .long => 'J'
  | .short => 'S'
  | .boolean => 'Z'

def Primitive.name : Primitive → Str
  | .byte => "byte".toList
  | .char => "char".toList
  | .double => "double".toList
  | .float => "float".toList
  | .int => "int".toList
  | .long => "long".toList
  | .short => "short".toList
  | .boolean => "boolean".toList

inductive ElementType
  | primitive (p : Primitive)
  | reference (binary : Str)
deriving DecidableEq, Repr

/-- The type of a parameter: an element type and the dimensions of the array. -/
structure FieldType where
  dimensions : Nat
  element : ElementType
deriving DecidableEq, Repr

/-- The name behind the last `/` and `$`. -/
def simpleName (binary : Str) : Str := binary.rtakeWhile fun c => c ≠ '/' && c ≠ '$'

def ElementType.name : ElementType → Str
  | .primitive p => p.name
  | .reference binary => simpleName binary

def ElementType.descriptor : ElementType → Str
  | .primitive p => [p.letter]
  | .reference binary => 'L' :: (binary ++ [';'])

def FieldType.descriptor (type : FieldType) : Str :=
  List.replicate type.dimensions '[' ++ type.element.descriptor

def FieldType.erased (type : FieldType) : ErasedType :=
  { name := type.element.name, dimensions := type.dimensions }

def methodDescriptor (parameters : List FieldType) (ret : Str) : Str :=
  '(' :: (parameters.flatMap FieldType.descriptor ++ ')' :: ret)

/-- What counts as the name of a class in a descriptor. -/
structure ClassNames where
  valid : Str → Prop
  closed : ∀ name, valid name → ';' ∉ name ∧ ')' ∉ name

/-- Any text. -/
def ClassNames.any : ClassNames := ⟨fun name => ';' ∉ name ∧ ')' ∉ name, fun _ h => h⟩

/-- The internal form of a binary class name. -/
def ClassNames.internal : ClassNames where
  valid name := ')' ∉ name ∧ ∀ part ∈ name.splitOn '/',
    part ≠ [] ∧ '.' ∉ part ∧ ';' ∉ part ∧ '[' ∉ part
  closed name h := by
    refine ⟨fun hmem => ?_, h.1⟩
    obtain ⟨a, b, hsplit⟩ := List.append_of_mem hmem
    have hin : [';'] <:+: name := ⟨a, b, by rw [hsplit, List.append_assoc]; rfl⟩
    obtain ⟨part, hpart, hin⟩ := word_of_infix (show '/' ∉ [';'] by decide) hin
    exact (h.2 part hpart).2.2.1 (hin.subset List.mem_cons_self)

/-- Every class among the types has a valid name. -/
def Names (valid : Str → Prop) (parameters : List FieldType) : Prop :=
  ∀ type ∈ parameters, ∀ binary, type.element = .reference binary → valid binary

/-! ## 2. What the loop reads -/

/-- Types, and perhaps a class at the end whose `;` is missing. -/
structure Written where
  types : List FieldType
  last : Option (Nat × Str)

def Written.text (written : Written) : Str :=
  written.types.flatMap FieldType.descriptor ++
    (written.last.elim [] fun (dimensions, binary) =>
      List.replicate dimensions '[' ++ 'L' :: binary)

def Written.erased (written : Written) : List ErasedType :=
  written.types.map FieldType.erased ++
    (written.last.map fun (dimensions, binary) =>
      { name := simpleName binary, dimensions : ErasedType }).toList

/-- No class name runs over a `;`. -/
def Written.Separated (written : Written) : Prop :=
  Names (';' ∉ ·) written.types ∧ ∀ e, written.last = some e → ';' ∉ e.2

/-- One more type in front. -/
def Written.cons (type : FieldType) (written : Written) : Written :=
  { written with types := type :: written.types }

theorem Written.text_cons (type : FieldType) (written : Written) :
    (written.cons type).text = type.descriptor ++ written.text := by
  rw [Written.text, Written.cons, List.flatMap_cons, List.append_assoc]
  rfl

theorem Written.erased_cons (type : FieldType) (written : Written) :
    (written.cons type).erased = type.erased :: written.erased := rfl

theorem Written.Separated.cons {type : FieldType} {written : Written} (h : written.Separated)
    (htype : ∀ binary, type.element = .reference binary → ';' ∉ binary) :
    (written.cons type).Separated :=
  ⟨List.forall_mem_cons.mpr ⟨htype, h.1⟩, h.2⟩

theorem getLastD_splitOn (sep : Char) (text : Str) :
    (text.splitOn sep).getLastD [] = text.rtakeWhile (· ≠ sep) := by
  have htail : sep ∉ text.rtakeWhile (· ≠ sep) := fun hmem => by
    simpa using List.mem_rtakeWhile_imp hmem
  have htext : text.rdropWhile (fun c => decide (c ≠ sep)) ++ text.rtakeWhile (· ≠ sep) = text :=
    List.rdropWhile_append_rtakeWhile
  generalize text.rtakeWhile (· ≠ sep) = tail at htail htext ⊢
  rw [← htext]
  by_cases hfront : text.rdropWhile (fun c => decide (c ≠ sep)) = []
  · rw [hfront, List.nil_append, List.splitOn_eq_singleton htail]
    rfl
  · have hlast := List.rdropWhile_last_not (fun c => decide (c ≠ sep)) text hfront
    rw [decide_eq_true_eq, not_not] at hlast
    rw [← List.dropLast_append_getLast hfront, hlast, List.append_assoc, List.singleton_append,
      List.splitOn_append_cons_self, List.splitOn_eq_singleton htail, List.getLastD_concat]

theorem rtakeWhile_rtakeWhile (p q : Char → Bool) (text : Str) :
    (text.rtakeWhile p).rtakeWhile q = text.rtakeWhile fun c => p c && q c := by
  rw [List.rtakeWhile, List.rtakeWhile, List.reverse_reverse, List.takeWhile_takeWhile,
    List.rtakeWhile]
  congr 2
  funext c
  simp [and_comm]

theorem simpleName_eq (binary : Str) :
    (((binary.splitOn '/').getLastD []).splitOn '$').getLastD [] = simpleName binary := by
  rw [getLastD_splitOn, getLastD_splitOn, rtakeWhile_rtakeWhile]
  rfl

theorem primitiveName_letter (p : Primitive) : primitiveName p.letter = some p.name := by
  cases p <;> rfl

theorem exists_primitive {c : Char} {name : Str} (h : primitiveName c = some name) :
    ∃ p : Primitive, c = p.letter ∧ name = p.name := by
  unfold primitiveName at h
  split at h
  all_goals cases h
  · exact ⟨.byte, rfl, rfl⟩
  · exact ⟨.char, rfl, rfl⟩
  · exact ⟨.double, rfl, rfl⟩
  · exact ⟨.float, rfl, rfl⟩
  · exact ⟨.int, rfl, rfl⟩
  · exact ⟨.long, rfl, rfl⟩
  · exact ⟨.short, rfl, rfl⟩
  · exact ⟨.boolean, rfl, rfl⟩

theorem descriptorFrom_replicate (dimensions k : Nat) (text : Str) :
    descriptorFrom dimensions (List.replicate k '[' ++ text)
      = descriptorFrom (dimensions + k) text := by
  induction k generalizing dimensions with
  | zero => rfl
  | succ k ih =>
    rw [List.replicate_succ, List.cons_append, descriptorFrom, ih]
    congr 1
    omega

theorem descriptorFrom_reference {dimensions : Nat} {binary rest : Str} (h : ';' ∉ binary) :
    descriptorFrom dimensions ('L' :: (binary ++ ';' :: rest)) =
      (descriptorFrom 0 rest).map ({ name := simpleName binary, dimensions } :: ·) := by
  have hne : ∀ c ∈ binary, decide (c ≠ ';') = true := fun c hc =>
    decide_eq_true fun heq => h (heq ▸ hc)
  have hstop : decide (';' ≠ ';') = false := by decide
  rw [descriptorFrom, List.takeWhile_append_of_pos hne, List.dropWhile_append_of_pos hne,
    List.takeWhile_cons, List.dropWhile_cons, hstop]
  simp only [List.drop_one, List.tail_cons, Bool.false_eq_true, if_false, List.append_nil,
    simpleName_eq, Option.map_eq_bind]
  rfl

theorem descriptorFrom_open {dimensions : Nat} {binary : Str} (h : ';' ∉ binary) :
    descriptorFrom dimensions ('L' :: binary) =
      some [{ name := simpleName binary, dimensions }] := by
  have hne : ∀ c ∈ binary, decide (c ≠ ';') = true := fun c hc =>
    decide_eq_true fun heq => h (heq ▸ hc)
  rw [descriptorFrom, List.takeWhile_eq_self_iff.mpr hne, List.dropWhile_eq_nil_iff.mpr hne]
  simp only [simpleName_eq, List.drop_nil]
  rw [descriptorFrom]
  rfl

theorem descriptorFrom_primitive (dimensions : Nat) (p : Primitive) (rest : Str) :
    descriptorFrom dimensions (p.letter :: rest) =
      (descriptorFrom 0 rest).map ({ name := p.name, dimensions } :: ·) := by
  have hletter : p.letter ≠ '[' ∧ p.letter ≠ 'L' := by
    cases p <;> decide
  rw [descriptorFrom.eq_4 _ _ _ hletter.1 hletter.2, primitiveName_letter, Option.map_eq_bind]
  rfl

/-- **What is written is read back.** -/
theorem descriptorFrom_written {written : Written} (h : written.Separated) :
    descriptorFrom 0 written.text = some written.erased := by
  obtain ⟨types, last⟩ := written
  obtain ⟨hnames, hlast⟩ := h
  simp only [Written.text, Written.erased] at hnames hlast ⊢
  induction types with
  | nil =>
    cases last with
    | none => rw [List.flatMap_nil, List.nil_append, Option.elim_none, descriptorFrom]; rfl
    | some e =>
      rw [List.flatMap_nil, List.nil_append, Option.elim_some, descriptorFrom_replicate,
        descriptorFrom_open (hlast e rfl), Nat.zero_add]
      rfl
  | cons type types ih =>
    obtain ⟨hname, hrest⟩ := List.forall_mem_cons.mp hnames
    obtain ⟨dimensions, element⟩ := type
    rw [List.flatMap_cons, FieldType.descriptor, List.append_assoc, List.append_assoc,
      descriptorFrom_replicate, Nat.zero_add]
    cases element with
    | primitive p =>
      rw [ElementType.descriptor, List.singleton_append, descriptorFrom_primitive, ih hrest]
      rfl
    | reference binary =>
      rw [ElementType.descriptor, List.cons_append, List.append_assoc, List.singleton_append,
        descriptorFrom_reference (hname binary rfl), ih hrest]
      rfl

/-- **What is read was written.** -/
theorem exists_written {dimensions : Nat} {text : Str} {result : List ErasedType}
    (h : descriptorFrom dimensions text = some result) :
    ∃ written : Written, written.Separated ∧
      List.replicate dimensions '[' ++ text = written.text ∧ result = written.erased := by
  fun_induction descriptorFrom dimensions text generalizing result with
  | case1 =>
    cases h
    exact ⟨⟨[], none⟩, ⟨nofun, nofun⟩, rfl, rfl⟩
  | case2 => cases h
  | case3 dimensions rest ih =>
    obtain ⟨written, hseparated, htext, hresult⟩ := ih h
    refine ⟨written, hseparated, ?_, hresult⟩
    rw [← htext, List.replicate_succ', List.append_assoc]
    rfl
  | case4 dimensions rest binary name =>
    rename_i ih
    have hbinary : ';' ∉ binary := fun hmem => by
      simpa using List.mem_takeWhile_imp hmem
    have hname : name = simpleName binary := simpleName_eq binary
    obtain ⟨further, hfurther, hresult⟩ := Option.bind_eq_some_iff.mp h
    cases hresult
    have hrest := List.takeWhile_append_dropWhile (p := fun c => decide (c ≠ ';')) (l := rest)
    change binary ++ _ = rest at hrest
    cases hdrop : rest.dropWhile (fun c => decide (c ≠ ';')) with
    | nil =>
      rw [hdrop, List.append_nil] at hrest
      rw [hdrop, List.drop_nil, descriptorFrom] at hfurther
      cases hfurther
      refine ⟨⟨[], some (dimensions, binary)⟩, ⟨nofun, fun e he => ?_⟩, ?_, ?_⟩
      · cases he
        exact hbinary
      · rw [← hrest]
        rfl
      · rw [hname]
        rfl
    | cons c tail =>
      have hc : c = ';' := by
        have hhead := List.head?_dropWhile_not (fun c => decide (c ≠ ';')) rest
        rw [hdrop] at hhead
        simpa using hhead
      rw [hdrop, List.drop_one, List.tail_cons] at hfurther
      obtain ⟨written, hseparated, htext, rfl⟩ := ih (by rw [hdrop]; exact hfurther)
      rw [hdrop] at htext hrest
      refine ⟨written.cons { dimensions, element := .reference binary },
        hseparated.cons fun _ heq => ?_, ?_, ?_⟩
      · cases heq
        exact hbinary
      · rw [Written.text_cons, FieldType.descriptor, ElementType.descriptor, ← htext, ← hrest, hc]
        simp
      · rw [Written.erased_cons, hname]
        rfl
  | case5 dimensions other rest _ _ ih =>
    obtain ⟨name, hname, h⟩ := Option.bind_eq_some_iff.mp h
    obtain ⟨further, hfurther, hresult⟩ := Option.bind_eq_some_iff.mp h
    cases hresult
    obtain ⟨p, rfl, rfl⟩ := exists_primitive hname
    obtain ⟨written, hseparated, htext, rfl⟩ := ih hfurther
    refine ⟨written.cons { dimensions, element := .primitive p }, hseparated.cons nofun, ?_, ?_⟩
    · rw [Written.text_cons, FieldType.descriptor, ElementType.descriptor, ← htext]
      simp
    · rw [Written.erased_cons]
      rfl

/-! ## 3. One reading -/

theorem letter_injective {p q : Primitive} (h : p.letter = q.letter) : p = q := by
  cases p <;> cases q <;> first | rfl | exact absurd h (by decide)

theorem letter_ne (p : Primitive) : p.letter ≠ '[' ∧ p.letter ≠ 'L' ∧ p.letter ≠ ')' := by
  cases p <;> decide

theorem replicate_cut {d d' : Nat} {x y : Char} {s t : Str} (hx : x ≠ '[') (hy : y ≠ '[')
    (h : List.replicate d '[' ++ x :: s = List.replicate d' '[' ++ y :: t) :
    d = d' ∧ x = y ∧ s = t := by
  obtain ⟨hreplicate, hxy, hst⟩ := cut_unique (P := (· = '[')) h
    (fun c hc => List.eq_of_mem_replicate hc) (fun c hc => List.eq_of_mem_replicate hc) hx hy
  have hlength := congrArg List.length hreplicate
  rw [List.length_replicate, List.length_replicate] at hlength
  exact ⟨hlength, hxy, hst⟩

/-- What stands behind the dimensions of the first type. -/
def Written.front (written : Written) : Option (Nat × Char × Str) :=
  match written.types, written.last with
  | [], none => none
  | [], some (d, binary) => some (d, 'L', binary)
  | type :: types, last =>
    match type.element with
    | .primitive p => some (type.dimensions, p.letter, (Written.mk types last).text)
    | .reference binary =>
      some (type.dimensions, 'L', binary ++ ';' :: (Written.mk types last).text)

theorem Written.text_eq (written : Written) :
    (written.front = none ∧ written.text = []) ∨
      ∃ d x t, written.front = some (d, x, t) ∧ x ≠ '[' ∧
        written.text = List.replicate d '[' ++ x :: t := by
  obtain ⟨types, last⟩ := written
  cases types with
  | nil =>
    cases last with
    | none => exact .inl ⟨rfl, rfl⟩
    | some e => exact .inr ⟨e.1, 'L', e.2, rfl, by decide, rfl⟩
  | cons type types =>
    obtain ⟨d, element⟩ := type
    cases element with
    | primitive p =>
      refine .inr ⟨d, p.letter, (Written.mk types last).text, rfl, (letter_ne p).1, ?_⟩
      exact (Written.text_cons ⟨d, .primitive p⟩ ⟨types, last⟩).trans (List.append_assoc _ _ _)
    | reference binary =>
      refine .inr ⟨d, 'L', binary ++ ';' :: (Written.mk types last).text, rfl, by decide, ?_⟩
      refine (Written.text_cons ⟨d, .reference binary⟩ ⟨types, last⟩).trans ?_
      simp [FieldType.descriptor, ElementType.descriptor]

theorem Written.front_eq {written written' : Written} (h : written.text = written'.text) :
    written.front = written'.front := by
  rcases written.text_eq with ⟨hfront, htext⟩ | ⟨d, x, t, hfront, hx, htext⟩
  · rcases written'.text_eq with ⟨hfront', htext'⟩ | ⟨d', x', t', hfront', hx', htext'⟩
    · rw [hfront, hfront']
    · rw [htext, htext'] at h
      exact absurd h.symm (List.append_ne_nil_of_right_ne_nil _ (List.cons_ne_nil _ _))
  · rcases written'.text_eq with ⟨hfront', htext'⟩ | ⟨d', x', t', hfront', hx', htext'⟩
    · rw [htext, htext'] at h
      exact absurd h (List.append_ne_nil_of_right_ne_nil _ (List.cons_ne_nil _ _))
    · rw [htext, htext'] at h
      obtain ⟨rfl, rfl, rfl⟩ := replicate_cut hx hx' h
      rw [hfront, hfront']

theorem Written.front_cons_ne {type : FieldType} {types : List FieldType}
    {last last' : Option (Nat × Str)} (h : ∀ e, last = some e → ';' ∉ e.2) :
    (Written.mk (type :: types) last').front ≠ (Written.mk [] last).front := by
  intro hfront
  obtain ⟨d, element⟩ := type
  cases last with
  | none => cases element <;> cases hfront
  | some e =>
    cases element with
    | primitive p =>
      simp only [Written.front, Option.some.injEq, Prod.mk.injEq] at hfront
      exact (letter_ne p).2.1 hfront.2.1
    | reference binary =>
      simp only [Written.front, Option.some.injEq, Prod.mk.injEq, true_and] at hfront
      refine h e rfl ?_
      rw [← hfront.2]
      exact List.mem_append_right _ List.mem_cons_self

/-- **A text is written in one way only.** -/
theorem Written.eq_of_text {written written' : Written} (h : written.Separated)
    (h' : written'.Separated) (htext : written.text = written'.text) : written = written' := by
  obtain ⟨types, last⟩ := written
  induction types generalizing written' with
  | nil =>
    have hfront := Written.front_eq htext
    obtain ⟨types', last'⟩ := written'
    cases types' with
    | nil =>
      cases last with
      | none =>
        cases last' with
        | none => rfl
        | some e => cases hfront
      | some e =>
        cases last' with
        | none => cases hfront
        | some e' =>
          simp only [Written.front, Option.some.injEq, Prod.mk.injEq, true_and] at hfront
          rw [Prod.ext hfront.1 hfront.2]
    | cons type types' => exact absurd hfront.symm (Written.front_cons_ne h.2)
  | cons type types ih =>
    have hfront := Written.front_eq htext
    obtain ⟨types', last'⟩ := written'
    cases types' with
    | nil => exact absurd hfront (Written.front_cons_ne h'.2)
    | cons type' types' =>
      obtain ⟨hname, hnames⟩ := List.forall_mem_cons.mp h.1
      obtain ⟨hname', hnames'⟩ := List.forall_mem_cons.mp h'.1
      obtain ⟨d, element⟩ := type
      obtain ⟨d', element'⟩ := type'
      -- the first types are equal, and the texts behind them
      suffices hsame : d = d' ∧ element = element' ∧
          (Written.mk types last).text = (Written.mk types' last').text by
        obtain ⟨rfl, rfl, hrest⟩ := hsame
        have hseparated : (Written.mk types last).Separated := ⟨hnames, h.2⟩
        have hseparated' : (Written.mk types' last').Separated := ⟨hnames', h'.2⟩
        cases ih hseparated' hseparated hrest
        rfl
      cases element with
      | primitive p =>
        cases element' with
        | primitive p' =>
          simp only [Written.front, Option.some.injEq, Prod.mk.injEq] at hfront
          exact ⟨hfront.1, congrArg _ (letter_injective hfront.2.1), hfront.2.2⟩
        | reference binary' =>
          simp only [Written.front, Option.some.injEq, Prod.mk.injEq] at hfront
          exact absurd hfront.2.1 (letter_ne p).2.1
      | reference binary =>
        cases element' with
        | primitive p' =>
          simp only [Written.front, Option.some.injEq, Prod.mk.injEq] at hfront
          exact absurd hfront.2.1.symm (letter_ne p').2.1
        | reference binary' =>
          simp only [Written.front, Option.some.injEq, Prod.mk.injEq, true_and] at hfront
          obtain ⟨rfl, hrest⟩ := Delimited.cut (hname binary rfl) (hname' binary' rfl) hfront.2
          exact ⟨hfront.1, rfl, hrest⟩

/-! ## 4. Descriptors -/

/-- The parameters of a descriptor are decoded, and nothing else is. -/
def Decodes (names : ClassNames) (s : Str) : Prop :=
  (∀ parameters ret, Names names.valid parameters → s = methodDescriptor parameters ret →
      descriptorParameters s = some (parameters.map FieldType.erased)) ∧
    ((∀ parameters ret, Names names.valid parameters → s ≠ methodDescriptor parameters ret) →
      descriptorParameters s = none)

/-- Where the parameter part reads as types, each class has a valid name, and the last one a `;`. -/
def Closed (names : ClassNames) (s : Str) : Prop :=
  ∀ (written : Written) (ret : Str), written.Separated → ')' ∉ written.text →
    s = '(' :: (written.text ++ ')' :: ret) →
    written.last = none ∧ Names names.valid written.types

theorem descriptorParameters_eq_some_iff {s : Str} {result : List ErasedType} :
    descriptorParameters s = some result ↔ ∃ written : Written, ∃ ret, written.Separated ∧
      ')' ∉ written.text ∧ s = '(' :: (written.text ++ ')' :: ret) ∧ result = written.erased := by
  constructor
  · intro h
    obtain ⟨rest, hrest, h⟩ := Option.bind_eq_some_iff.mp h
    obtain ⟨⟨text, ret⟩, hsplit, hfrom⟩ := Option.bind_eq_some_iff.mp h
    obtain ⟨rfl, hclosing⟩ := splitOnce_eq_some_iff.mp hsplit
    obtain ⟨written, hseparated, rfl, rfl⟩ := exists_written hfrom
    exact ⟨written, ret, hseparated, hclosing, stripPrefix_eq_some_iff.mp hrest, rfl⟩
  · rintro ⟨written, ret, hseparated, hclosing, rfl, rfl⟩
    have hrest : stripPrefix ['('] ('(' :: (written.text ++ ')' :: ret))
        = some (written.text ++ ')' :: ret) := stripPrefix_eq_some_iff.mpr rfl
    have hsplit : splitOnce ')' (written.text ++ ')' :: ret) = some (written.text, ret) :=
      splitOnce_eq_some_iff.mpr ⟨rfl, hclosing⟩
    rw [descriptorParameters, Option.bind_eq_bind, hrest, Option.bind_some, Option.bind_eq_bind,
      hsplit, Option.bind_some]
    exact descriptorFrom_written hseparated

theorem closing_notMem {names : ClassNames} {parameters : List FieldType}
    (h : Names names.valid parameters) : ')' ∉ (Written.mk parameters none).text := by
  intro hmem
  rw [Written.text, Option.elim_none, List.append_nil] at hmem
  obtain ⟨type, htype, hmem⟩ := List.mem_flatMap.mp hmem
  rcases List.mem_append.mp hmem with hmem | hmem
  · exact absurd (List.eq_of_mem_replicate hmem) (by decide)
  · cases helement : type.element with
    | primitive p =>
      rw [helement] at hmem
      exact (letter_ne p).2.2 (List.mem_singleton.mp hmem).symm
    | reference binary =>
      rw [helement, ElementType.descriptor] at hmem
      have hclosed := names.closed binary (h type htype binary helement)
      simp only [List.mem_cons, List.mem_append, List.not_mem_nil, or_false] at hmem
      rcases hmem with hmem | hmem | hmem
      · exact absurd hmem (by decide)
      · exact hclosed.2 hmem
      · exact absurd hmem (by decide)

theorem Names.separated {names : ClassNames} {parameters : List FieldType}
    (h : Names names.valid parameters) : (Written.mk parameters none).Separated :=
  ⟨fun type htype binary heq => (names.closed binary (h type htype binary heq)).1, nofun⟩

theorem methodDescriptor_eq (parameters : List FieldType) (ret : Str) :
    methodDescriptor parameters ret
      = '(' :: ((Written.mk parameters none).text ++ ')' :: ret) := by
  rw [methodDescriptor, Written.text, Option.elim_none, List.append_nil]

theorem erased_eq (parameters : List FieldType) :
    (Written.mk parameters none).erased = parameters.map FieldType.erased :=
  List.append_nil _

theorem closed_of_decodes {names : ClassNames} {s : Str} (h : Decodes names s) :
    Closed names s := by
  intro written ret hseparated hclosing hs
  have hsome := descriptorParameters_eq_some_iff.mpr ⟨written, ret, hseparated, hclosing, hs, rfl⟩
  obtain ⟨parameters, ret', hnames, hparameters⟩ : ∃ parameters ret',
      Names names.valid parameters ∧ s = methodDescriptor parameters ret' := by
    by_contra hnot
    have hnone := h.2 fun parameters ret' hnames heq => hnot ⟨parameters, ret', hnames, heq⟩
    rw [hnone] at hsome
    cases hsome
  rw [methodDescriptor_eq, hs] at hparameters
  obtain ⟨htext, -⟩ := Delimited.cut hclosing (closing_notMem hnames) (List.cons.inj hparameters).2
  obtain rfl := Written.eq_of_text hseparated hnames.separated htext
  exact ⟨rfl, hnames⟩

theorem decodes_of_closed {names : ClassNames} {s : Str} (h : Closed names s) :
    Decodes names s := by
  constructor
  · rintro parameters ret hnames rfl
    exact descriptorParameters_eq_some_iff.mpr ⟨⟨parameters, none⟩, ret, hnames.separated,
      closing_notMem hnames, methodDescriptor_eq parameters ret, (erased_eq parameters).symm⟩
  · intro hnot
    refine Option.eq_none_iff_forall_ne_some.mpr fun result hsome => ?_
    obtain ⟨⟨types, last⟩, ret, hseparated, hclosing, hs, -⟩ :=
      descriptorParameters_eq_some_iff.mp hsome
    obtain ⟨hlast, hnames⟩ := h ⟨types, last⟩ ret hseparated hclosing hs
    obtain rfl : last = none := hlast
    exact hnot types ret hnames (by rw [hs, methodDescriptor_eq])

/-- **Descriptors are decoded right** exactly where no class name is left open. -/
theorem decodes_iff (names : ClassNames) (s : Str) : Decodes names s ↔ Closed names s :=
  ⟨closed_of_decodes, decodes_of_closed⟩

/-- A class name without its `;`, which is decoded as if it had one. -/
theorem open_class_decoded :
    descriptorParameters "(ILjava/lang/String)V".toList
        = some [{ name := "int".toList, dimensions := 0 },
          { name := "String".toList, dimensions := 0 }] ∧
      ¬ Decodes .any "(ILjava/lang/String)V".toList ∧
      ¬ Decodes .internal "(ILjava/lang/String)V".toList := by
  have hwritten : ∃ written : Written, written.Separated ∧ ')' ∉ written.text ∧
      "(ILjava/lang/String)V".toList = '(' :: (written.text ++ ')' :: ['V']) ∧
      written.last ≠ none ∧ written.erased = [{ name := "int".toList, dimensions := 0 },
        { name := "String".toList, dimensions := 0 }] := by
    refine ⟨⟨[⟨0, .primitive .int⟩], some (0, "java/lang/String".toList)⟩, ⟨?_, ?_⟩, ?_, ?_, ?_, ?_⟩
    · simp [Names]
    · rintro e ⟨rfl⟩
      decide
    · decide
    · decide
    · simp
    · decide
  obtain ⟨written, hseparated, hclosing, hs, hlast, herased⟩ := hwritten
  refine ⟨?_, fun h => hlast ?_, fun h => hlast ?_⟩
  · exact descriptorParameters_eq_some_iff.mpr
      ⟨written, _, hseparated, hclosing, hs, herased.symm⟩
  · exact (closed_of_decodes h written _ hseparated hclosing hs).1
  · exact (closed_of_decodes h written _ hseparated hclosing hs).1

end MavenMcp.DeclarationSource
