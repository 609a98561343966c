/-
# Paths by their components

`std::path` compares and joins paths by components: repeated and trailing separators do not
count, and neither does `.`, except at the start of a relative path.
-/
import MavenMcp.ProjectCache.Basic

namespace MavenMcp

/-- A component of a path, `std::path::Component` without the prefixes of Windows. -/
inductive Component
  | rootDir
  | curDir
  | parentDir
  | normal (name : List UInt8)
deriving DecidableEq, Repr

/-- `Path::components`. -/
def pathComponents (path : PathBuf) : List Component :=
  let parts := path.splitOn 47
  let rest := (parts.filter fun part => part ≠ [] && part ≠ [46]).map fun part =>
    if part = [46, 46] then .parentDir else .normal part
  if path.head? = some 47 then .rootDir :: rest
  else if parts.head? = some [46] then .curDir :: rest
  else rest

/-- `Path::is_absolute`. -/
def isAbsolute (path : PathBuf) : Bool := path.head? = some 47

/-- `Path::join`: an absolute path replaces what it is joined to. -/
def joinPath (directory path : PathBuf) : PathBuf :=
  if isAbsolute path || directory = [] then path
  else if directory.getLast? = some 47 then directory ++ path
  else directory ++ 47 :: path

/-- `Path::starts_with`. -/
def pathStartsWith (path base : PathBuf) : Bool :=
  (pathComponents base).isPrefixOf (pathComponents path)

namespace Component

/-- The order of the variants, as derived for `Component`. -/
def rank : Component → Nat
  | rootDir => 0
  | curDir => 1
  | parentDir => 2
  | normal _ => 3

/-- The bytes of a plain name. -/
def name : Component → List UInt8
  | normal name => name
  | _ => []

/-- `Component::cmp`. -/
def compare (a b : Component) : Ordering :=
  (Ord.compare a.rank b.rank).then (List.compareLex Ord.compare a.name b.name)

end Component

/-- `Path::cmp` answers less or equal. -/
def pathLe (a b : PathBuf) : Bool :=
  (List.compareLex Component.compare (pathComponents a) (pathComponents b)).isLE

/-- `str::cmp` answers less or equal: UTF-8 keeps the order of code points. -/
def strLe (a b : List Char) : Bool :=
  (List.compareLex (fun c d => Ord.compare c.toNat d.toNat) a b).isLE

/-- The order of two characters. -/
def charCompare (c d : Char) : Ordering := Ord.compare c.toNat d.toNat

instance : Std.TransCmp charCompare where
  eq_swap {c d} := by
    change Ord.compare c.toNat d.toNat = (Ord.compare d.toNat c.toNat).swap
    exact Std.OrientedCmp.eq_swap
  isLE_trans {c d e} h h' := by
    change (Ord.compare c.toNat e.toNat).isLE = true
    exact Std.TransCmp.isLE_trans h h'

instance : Std.LawfulEqCmp charCompare where
  compare_self {c} := by
    change Ord.compare c.toNat c.toNat = .eq
    exact Std.ReflCmp.compare_self
  eq_of_compare h := Char.toNat_inj.mp (Std.LawfulEqCmp.eq_of_compare h)

theorem strLe_trans {a b c : List Char} (h : strLe a b = true) (h' : strLe b c = true) :
    strLe a c = true := by
  change (List.compareLex charCompare a c).isLE = true
  exact Std.TransCmp.isLE_trans h h'

theorem strLe_antisymm {a b : List Char} (h : strLe a b = true) (h' : strLe b a = true) :
    a = b := by
  have heq : List.compareLex charCompare a b = .eq := Std.OrientedCmp.isLE_antisymm h h'
  exact Std.LawfulEqCmp.eq_of_compare heq

theorem strLe_total (a b : List Char) : strLe a b = true ∨ strLe b a = true := by
  have hswap : List.compareLex charCompare a b = (List.compareLex charCompare b a).swap :=
    Std.OrientedCmp.eq_swap
  change (List.compareLex charCompare a b).isLE = true ∨
    (List.compareLex charCompare b a).isLE = true
  rw [hswap]
  cases List.compareLex charCompare b a with
  | lt => exact .inr rfl
  | eq => exact .inr rfl
  | gt => exact .inl rfl

end MavenMcp
