/-
# Interpolation

A reactor POM names values by properties: `${name}` stands for the value of `name`, in which other
properties are named again.  `src/index.rs` substitutes them from the left, down to a depth.

`Expands lookup n text result` is the substitution itself, without a depth that cuts it off: every
reference is closed and defined, `n` is how deep they nest, and `result` is what is left when all of
them are replaced.  A property that leads back to itself has no expansion.
`interpolate_eq_some_iff` says that the code answers the expansion, and answers it exactly when the
references nest no deeper than the depth.
-/
import MavenMcp.Index.Record
import MavenMcp.Lib.Table
import MavenMcp.Lib.Text

namespace MavenMcp

open Text

/-! ## 1. The loop -/

/-- What opens a reference. -/
def opener : Str := ['$', Char.ofNat 123]

def closer : Char := Char.ofNat 125

theorem length_splitOnce {sep : Char} {text a b : Str} (h : splitOnce sep text = some (a, b)) :
    b.length < text.length := by
  rw [(splitOnce_eq_some_iff.mp h).1, List.length_append, List.length_cons]
  omega

theorem length_find {pat text front rest : Str} (h : find pat text = some (front, rest)) :
    rest.length ≤ text.length := by
  rw [(find_eq_some h).1, List.length_append]
  exact Nat.le_add_left _ _

/-- The loop of `interpolate`: what is resolved already, and the rest of the value. -/
def interpolateFrom (lookup : Table Str Str) (depth : Nat) (resolved rest : Str) : Option Str :=
  match _hfind : find opener rest with
  | none => some (resolved ++ rest)
  | some (front, reference) =>
    match _hsplit : splitOnce closer (reference.drop opener.length) with
    | none => none
    | some (name, after) =>
      match depth with
      | 0 => none
      | depth + 1 =>
        match lookup.lookup name with
        | none => none
        | some value =>
          match interpolateFrom lookup depth [] value with
          | none => none
          | some replacement =>
            interpolateFrom lookup (depth + 1) (resolved ++ front ++ replacement) after
termination_by (depth, rest.length)
decreasing_by
  · exact .left _ _ (Nat.lt_succ_self _)
  · have hrest := length_find _hfind
    have hafter := length_splitOnce _hsplit
    rw [List.length_drop] at hafter
    exact .right _ (by omega)

def interpolate (value : Str) (lookup : Table Str Str) (depth : Nat) : Option Str :=
  interpolateFrom lookup depth [] value

/-! ## 2. Substitution -/

/-- `result` is the text with every reference replaced by the expansion of its value; references
nest `n` deep. -/
inductive Expands (lookup : Table Str Str) : Nat → Str → Str → Prop
  | plain {text : Str} (hplain : ¬ opener <:+: text) : Expands lookup 0 text text
  | reference {front name after value replacement result : Str} {n m : Nat}
      (hfront : ¬ opener <:+: front) (hname : closer ∉ name)
      (hlookup : lookup.lookup name = some value) (hvalue : Expands lookup n value replacement)
      (hafter : Expands lookup m after result) :
      Expands lookup (max (n + 1) m) (front ++ opener ++ name ++ closer :: after)
        (front ++ replacement ++ result)

section

variable {lookup : Table Str Str} {depth n : Nat} {resolved rest text result : Str}

/-- What the loop finds in a text with a reference. -/
theorem find_reference {front : Str} (name after : Str) (hfront : ¬ opener <:+: front) :
    find opener (front ++ opener ++ name ++ closer :: after)
      = some (front, opener ++ (name ++ closer :: after)) := by
  have h := find_first_pair (by decide : '$' ≠ Char.ofNat 123) (name ++ closer :: after) hfront
  simpa only [opener, List.append_assoc, List.cons_append, List.nil_append] using h

/-- **The loop** goes on from what is resolved. -/
theorem interpolateFrom_of_expands (h : Expands lookup n text result) (hn : n ≤ depth) :
    interpolateFrom lookup depth resolved text = some (resolved ++ result) := by
  induction h generalizing depth resolved with
  | plain hplain =>
    unfold interpolateFrom
    split
    · rfl
    · rename_i hfind
      rw [find_eq_none_iff.mpr hplain] at hfind
      cases hfind
  | reference hfront hname hlookup hvalue hafter ihValue ihAfter =>
    rename_i front name after value replacement result n m
    obtain ⟨depth, rfl⟩ : ∃ d, depth = d + 1 := ⟨depth - 1, by omega⟩
    unfold interpolateFrom
    split
    · rename_i hfind
      rw [find_reference name after hfront] at hfind
      cases hfind
    · rename_i hfind
      rw [find_reference name after hfront] at hfind
      cases hfind
      split
      · rename_i hsplit
        rw [List.drop_left, splitOnce_eq_some_iff.mpr ⟨rfl, hname⟩] at hsplit
        cases hsplit
      · rename_i hsplit
        rw [List.drop_left, splitOnce_eq_some_iff.mpr ⟨rfl, hname⟩] at hsplit
        cases hsplit
        simp only [hlookup, ihValue (show n ≤ depth by omega), List.nil_append]
        rw [ihAfter (by omega)]
        simp only [List.append_assoc]

/-- A text in which the loop found a reference. -/
theorem eq_of_find_reference {front reference name after : Str}
    (hfind : find opener rest = some (front, reference))
    (hsplit : splitOnce closer (reference.drop opener.length) = some (name, after)) :
    rest = front ++ opener ++ name ++ closer :: after := by
  obtain ⟨rfl, tail, rfl⟩ := find_eq_some hfind
  rw [List.drop_left] at hsplit
  rw [(splitOnce_eq_some_iff.mp hsplit).1]
  simp only [List.append_assoc]

/-- **What the loop answers** is an expansion. -/
theorem expands_of_interpolateFrom (h : interpolateFrom lookup depth resolved rest = some result) :
    ∃ n ≤ depth, ∃ tail, result = resolved ++ tail ∧ Expands lookup n rest tail := by
  -- the cases are the exits of the loop, and last the round that goes on
  fun_induction interpolateFrom lookup depth resolved rest generalizing result with
  | case1 depth resolved rest hfind =>
    cases h
    exact ⟨0, Nat.zero_le _, rest, rfl, .plain (find_eq_none_iff.mp hfind)⟩
  | case2 => cases h
  | case3 => cases h
  | case4 => cases h
  | case5 => cases h
  | case6 resolved rest front reference hfind name after hsplit depth value hlookup replacement
      hvalue ihValue ihAfter =>
    obtain ⟨n, hn, replacement', heq, hreplacement⟩ := ihValue hvalue
    obtain rfl : replacement = replacement' := heq
    obtain ⟨m, hm, tail, rfl, hafter⟩ := ihAfter h
    refine ⟨max (n + 1) m, by omega, front ++ replacement ++ tail, ?_, ?_⟩
    · simp only [List.append_assoc]
    · rw [eq_of_find_reference hfind hsplit]
      exact .reference (not_infix_of_find (List.cons_ne_nil _ _) hfind)
        (splitOnce_eq_some_iff.mp hsplit).2 hlookup hreplacement hafter

/-- **Interpolation is exact**: it answers the expansion of a text, and answers it exactly when
every reference is closed and defined and they nest no deeper than the depth. -/
theorem interpolate_eq_some_iff (lookup : Table Str Str) (depth : Nat) (text result : Str) :
    interpolate text lookup depth = some result ↔ ∃ n ≤ depth, Expands lookup n text result := by
  constructor
  · intro h
    obtain ⟨n, hn, tail, rfl, hexpands⟩ := expands_of_interpolateFrom h
    exact ⟨n, hn, hexpands⟩
  · rintro ⟨n, hn, hexpands⟩
    exact interpolateFrom_of_expands hexpands hn

/-- A text has one expansion. -/
theorem Expands.unique {m : Nat} {result' : Str} (h : Expands lookup n text result)
    (h' : Expands lookup m text result') : result = result' := by
  have hanswer : interpolateFrom lookup (max n m) [] text = some ([] ++ result) :=
    interpolateFrom_of_expands h (le_max_left n m)
  have hanswer' : interpolateFrom lookup (max n m) [] text = some ([] ++ result') :=
    interpolateFrom_of_expands h' (le_max_right n m)
  exact Option.some.inj (hanswer.symm.trans hanswer')

end

/-! ## 3. Coordinates of reactor modules -/

structure ReactorPomParent where
  groupId : Option Str
  artifactId : Option Str
  version : Option Str
deriving DecidableEq, Repr

structure ReactorPom where
  groupId : Option Str
  artifactId : Option Str
  version : Option Str
  parent : Option ReactorPomParent
deriving DecidableEq, Repr

/-- `MAX_INTERPOLATION_DEPTH`. -/
def maxInterpolationDepth : Nat := 8

/-- `BTreeMap::extend`. -/
def extend (properties : Table Str Str) (more : List (Str × Str)) : Table Str Str :=
  more.foldl (fun properties (name, value) => properties.insert name value) properties

/-- The properties that a coordinate may name: `inherited` by the module, those of the project and
its parent, and last the user properties of `maven.config`. -/
def coordinateProperties (inherited : Table Str Str) (pom : ReactorPom)
    (rawGroup rawArtifact rawVersion : Str) (config : List (Str × Str)) : Table Str Str :=
  let project := [("groupId".toList, rawGroup), ("artifactId".toList, rawArtifact),
    ("version".toList, rawVersion)].flatMap fun (name, value) =>
      ["project.".toList, "pom.".toList].map fun front => (front ++ name, value)
  let parent := pom.parent.toList.flatMap fun parent =>
    [("groupId".toList, parent.groupId), ("artifactId".toList, parent.artifactId),
      ("version".toList, parent.version)].flatMap fun (name, value) =>
        value.toList.flatMap fun value =>
          ["project.parent.".toList, "parent.".toList].map fun front => (front ++ name, value)
  extend (extend (extend inherited project) parent) config

/-- The closure `resolve`. -/
def resolve (lookup : Table Str Str) (value : Str) : Option Str :=
  (interpolate (trim value) lookup maxInterpolationDepth).filter fun value =>
    value ≠ [] && !Text.contains opener value

def reactorModuleCoordinate (inherited : Table Str Str) (pom : ReactorPom)
    (config : List (Str × Str)) : Option ArtifactKey := do
  let rawGroup ← pom.groupId.or (pom.parent.bind (·.groupId))
  let rawVersion ← pom.version.or (pom.parent.bind (·.version))
  let rawArtifact ← pom.artifactId
  let lookup := coordinateProperties inherited pom rawGroup rawArtifact rawVersion config
  let groupId ← resolve lookup rawGroup
  let artifactId ← resolve lookup rawArtifact
  let version ← resolve lookup rawVersion
  some { groupId, artifactId, version }

/-- **A part of a coordinate** is an expansion, and no reference is left in it: not even one that
was put together from the values of several. -/
theorem resolve_eq_some_iff (lookup : Table Str Str) (value result : Str) :
    resolve lookup value = some result ↔
      (∃ n ≤ maxInterpolationDepth, Expands lookup n (trim value) result) ∧ result ≠ [] ∧
        ¬ opener <:+: result := by
  rw [resolve, Option.filter_eq_some_iff, Bool.and_eq_true, decide_eq_true_eq, Bool.not_eq_true',
    ← Bool.not_eq_true, contains_iff]
  refine and_congr_left fun _ => ⟨fun h => ?_, fun ⟨n, hn, hexpands⟩ => ?_⟩
  · obtain ⟨n, hn, tail, rfl, hexpands⟩ := expands_of_interpolateFrom h
    exact ⟨n, hn, hexpands⟩
  · exact interpolateFrom_of_expands hexpands hn

end MavenMcp
