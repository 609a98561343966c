/-
# Annotations and modifiers

How the outline passes the annotations and modifiers in front of a declaration.
-/
import MavenMcp.DeclarationSource.Outline

namespace MavenMcp.DeclarationSource

open Text

def javaModifiers : List Str :=
  ["public", "protected", "private", "static", "final", "abstract", "transient", "volatile",
    "synchronized", "native", "strictfp", "default", "sealed"].map String.toList

def kotlinModifiers : List Str :=
  ["public", "protected", "private", "internal", "abstract", "final", "open", "override", "sealed",
    "data", "inner", "value", "annotation", "companion", "const", "lateinit", "inline", "noinline",
    "crossinline", "suspend", "tailrec", "operator", "infix", "external", "expect", "actual",
    "vararg"].map String.toList

structure Modifiers where
  isEnum : Bool
  isSuspend : Bool
  isCompanion : Bool
deriving DecidableEq, Repr

namespace SourceOutline

variable (o : SourceOutline)

theorem lt_length_of_word {index : Nat} {word : Str} (h : o.word index = some word) :
    index < o.tokens.length := by
  by_contra hle
  rw [SourceOutline.word, List.getElem?_eq_none (Nat.le_of_not_lt hle)] at h
  cases h

theorem lt_length_of_identifier {index : Nat} (h : (o.identifier index).isSome = true) :
    index < o.tokens.length := by
  rw [identifier, Option.isSome_map] at h
  obtain ⟨word, hword⟩ := Option.isSome_iff_exists.mp h
  exact o.lt_length_of_word hword

theorem lt_length_of_isPunct {index : Nat} {value : Str} (h : o.isPunct index value = true) :
    index < o.tokens.length := by
  by_contra hle
  rw [isPunct, List.getElem?_eq_none (Nat.le_of_not_lt hle)] at h
  cases h

/-- The name of an annotation: identifiers with dots between them. -/
def skipQualifiedName (index : Nat) : Nat :=
  if (o.identifier index).isSome then
    if o.isPunct (index + 1) ['.'] ∧ (o.identifier (index + 2)).isSome then
      skipQualifiedName (index + 2)
    else index + 1
  else index
termination_by o.tokens.length - index
decreasing_by
  rename_i h _
  have := o.lt_length_of_identifier h
  omega

theorem le_skipQualifiedName (index : Nat) : index ≤ o.skipQualifiedName index := by
  fun_induction o.skipQualifiedName index with
  | case1 index _ _ ih => omega
  | case2 index _ _ => omega
  | case3 index _ => omega

/-- One annotation, from the token after its `@`. -/
def skipAfterAt (index stop : Nat) : Nat :=
  let index :=
    if o.language = .kotlin ∧ (o.identifier index).isSome ∧ o.isPunct (index + 1) [':'] then
      index + 2
    else index
  if o.isPunct index ['['] then o.next index stop
  else
    let index := o.skipQualifiedName index
    if o.isPunct index ['('] then o.next index stop else index

theorem le_skipAfterAt (index stop : Nat) : index ≤ o.skipAfterAt index stop := by
  have htarget : index ≤
      if o.language = .kotlin ∧ (o.identifier index).isSome ∧ o.isPunct (index + 1) [':'] then
        index + 2
      else index := by
    split
    · omega
    · omega
  rw [skipAfterAt]
  generalize (if o.language = .kotlin ∧ (o.identifier index).isSome ∧
    o.isPunct (index + 1) [':'] then index + 2 else index) = target at htarget ⊢
  simp only
  split
  · exact Nat.le_trans htarget (Nat.le_of_lt (o.lt_next target stop))
  · have hname := Nat.le_trans htarget (o.le_skipQualifiedName target)
    split
    · exact Nat.le_trans hname (Nat.le_of_lt (o.lt_next _ stop))
    · exact hname

def skipAnnotations (index stop : Nat) : Nat :=
  if index < stop ∧ o.isPunct index ['@'] ∧ o.word (index + 1) ≠ some "interface".toList then
    skipAnnotations (o.skipAfterAt (index + 1) stop) stop
  else index
termination_by stop - index
decreasing_by
  have := o.le_skipAfterAt (index + 1) stop
  omega

theorem le_skipAnnotations (index stop : Nat) : index ≤ o.skipAnnotations index stop := by
  fun_induction o.skipAnnotations index stop with
  | case1 index _ ih =>
    have := o.le_skipAfterAt (index + 1) stop
    omega
  | case2 index _ => exact Nat.le_refl index

/-- A word that is a modifier here. -/
def isModifier (word : Str) (index : Nat) : Bool :=
  match o.language with
  | .java => javaModifiers.contains word
  | .kotlin =>
    kotlinModifiers.contains word ||
      (word == "enum".toList && o.word (index + 1) == some "class".toList)

/-- The loop of `skip_modifiers`. -/
def skipModifiersFrom (stop : Nat) (modifiers : Modifiers) (start : Nat) : Nat × Modifiers :=
  let index := o.skipAnnotations start stop
  if index < stop then
    match o.word index with
    | none => (index, modifiers)
    | some word =>
      if word = "non".toList ∧ o.isPunct (index + 1) ['-'] ∧
          o.word (index + 2) = some "sealed".toList then
        skipModifiersFrom stop modifiers (index + 3)
      else if o.isModifier word index then
        skipModifiersFrom stop
          { isEnum := modifiers.isEnum || word == "enum".toList
            isSuspend := modifiers.isSuspend || word == "suspend".toList
            isCompanion := modifiers.isCompanion || word == "companion".toList } (index + 1)
      else (index, modifiers)
  else (index, modifiers)
termination_by stop - start
decreasing_by all_goals
  have := o.le_skipAnnotations start stop
  omega

def skipModifiers (index stop : Nat) : Nat × Modifiers :=
  o.skipModifiersFrom stop { isEnum := false, isSuspend := false, isCompanion := false } index

theorem le_skipModifiers (index stop : Nat) : index ≤ (o.skipModifiers index stop).1 := by
  rw [skipModifiers]
  generalize ({ isEnum := false, isSuspend := false, isCompanion := false } : Modifiers) = modifiers
  fun_induction o.skipModifiersFrom stop modifiers index with
  | case1 modifiers index | case4 modifiers index | case5 modifiers index =>
    exact o.le_skipAnnotations index stop
  | case2 modifiers index _ _ _ _ _ ih | case3 modifiers index _ _ _ _ _ _ ih =>
    have hskip := o.le_skipAnnotations index stop
    omega

end SourceOutline

end MavenMcp.DeclarationSource
