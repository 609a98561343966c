/-
# The repository layout

A JAR of a local repository lies at `group/artifact/version/artifact-version[-classifier].jar`
below the root; `parse_coordinate` reads the coordinate back from such a path.  Paths are compared
by components, names are texts where they are UTF-8.

`parseCoordinate_siblings` is what the callers need of it: in the directory of a JAR, a file name
decides the classifier and nothing else.
-/
import MavenMcp.Index.Record
import MavenMcp.Paths
import MavenMcp.Lib.Utf8

namespace MavenMcp

open Text

/-! ## 1. Canonical paths -/

/-- The absolute path with these names. -/
def pathOf (names : List (List UInt8)) : PathBuf := names.flatMap fun name => 47 :: name

def IsName (name : List UInt8) : Prop :=
  name ≠ [] ∧ 47 ∉ name ∧ name ≠ [46] ∧ name ≠ [46, 46]

/-- What `canonicalize` answers for a file. -/
def Canonical (path : PathBuf) : Prop :=
  ∃ names, path = pathOf names ∧ names ≠ [] ∧ ∀ name ∈ names, IsName name

theorem pathOf_append (a b : List (List UInt8)) : pathOf (a ++ b) = pathOf a ++ pathOf b :=
  List.flatMap_append

theorem pathOf_concat (names : List (List UInt8)) (name : List UInt8) :
    pathOf (names ++ [name]) = pathOf names ++ 47 :: name := by
  rw [pathOf_append]
  simp [pathOf]

theorem splitOn_pathOf {names : List (List UInt8)} (h : ∀ name ∈ names, IsName name) :
    (pathOf names).splitOn 47 = [] :: names := by
  have hjoin : pathOf names = [47].intercalate ([] :: names) := by
    have hall : ∀ (first : List UInt8) (names : List (List UInt8)),
        first ++ pathOf names = [47].intercalate (first :: names) := by
      intro first names
      induction names generalizing first with
      | nil => rw [List.intercalate_singleton]; exact List.append_nil _
      | cons name names ih =>
        rw [List.intercalate_cons_cons, ← ih name]
        simp [pathOf]
    exact (hall [] names)
  rw [hjoin]
  refine List.splitOn_intercalate 47 (fun name hname => ?_) (List.cons_ne_nil _ _)
  rcases List.mem_cons.mp hname with rfl | hname
  · exact List.not_mem_nil
  · exact (h name hname).2.1

theorem pathComponents_pathOf {names : List (List UInt8)} (hne : names ≠ [])
    (h : ∀ name ∈ names, IsName name) :
    pathComponents (pathOf names) = .rootDir :: names.map .normal := by
  have hhead : (pathOf names).head? = some 47 := by
    obtain ⟨name, rest, rfl⟩ := List.exists_cons_of_ne_nil hne
    rfl
  have hparts : (([] :: names).filter fun part => part ≠ [] && part ≠ [46]) = names := by
    rw [List.filter_cons_of_neg (by simp)]
    refine List.filter_eq_self.mpr fun name hname => ?_
    obtain ⟨hempty, -, hdot, -⟩ := h name hname
    simp [hempty, hdot]
  unfold pathComponents
  simp only [splitOn_pathOf h, hparts, hhead, if_true]
  congr 1
  refine List.map_congr_left fun name hname => ?_
  rw [if_neg (h name hname).2.2.2]

/-- `Path::file_name`, when it is a text. -/
def fileNameText (path : PathBuf) : Option Str :=
  match (pathComponents path).getLast? with
  | some (.normal name) => Utf8.decode name
  | _ => none

/-- `Path::with_file_name` of a canonical path. -/
def withFileName (path : PathBuf) (name : Str) : PathBuf :=
  (path.reverse.dropWhile (· ≠ 47)).reverse ++ Utf8.encode name

theorem withFileName_pathOf (names : List (List UInt8)) {last : List UInt8} (h : 47 ∉ last)
    (name : Str) :
    withFileName (pathOf (names ++ [last])) name = pathOf (names ++ [Utf8.encode name]) := by
  have hdrop : ((pathOf (names ++ [last])).reverse.dropWhile (· ≠ 47)).reverse
      = pathOf names ++ [47] := by
    rw [pathOf_concat, List.reverse_append, List.reverse_cons, List.append_assoc,
      List.dropWhile_append_of_pos]
    · simp
    · intro b hb
      rw [decide_eq_true_eq]
      rintro rfl
      exact h (List.mem_reverse.mp hb)
  rw [withFileName, hdrop, pathOf_concat, List.append_assoc, List.singleton_append]

theorem fileNameText_pathOf {names : List (List UInt8)} {last : List UInt8}
    (h : ∀ name ∈ names ++ [last], IsName name) :
    fileNameText (pathOf (names ++ [last])) = Utf8.decode last := by
  have hne : names ++ [last] ≠ [] := List.append_ne_nil_of_right_ne_nil _ (List.cons_ne_nil _ _)
  rw [fileNameText, pathComponents_pathOf hne h, List.map_append, ← List.cons_append,
    List.map_singleton, List.getLast?_concat]

/-! ## 2. Coordinates of paths -/

/-- `Component::as_os_str`, when it is a text. -/
def Component.text : Component → Option Str
  | rootDir => some ['/']
  | curDir => some ['.']
  | parentDir => some ['.', '.']
  | normal name => Utf8.decode name

/-- `Component::as_os_str`. -/
def Component.bytes : Component → List UInt8
  | rootDir => [47]
  | curDir => [46]
  | parentDir => [46, 46]
  | normal name => name

/-- `Path::strip_prefix`, as components. -/
def stripComponents : List Component → List Component → Option (List Component)
  | [], path => some path
  | _ :: _, [] => none
  | r :: root, c :: path => if r = c then stripComponents root path else none

/-- The classifier in a file name without its extension, after `artifact-version`. -/
def classifierOf (base stem : Str) : Option (Option Str) :=
  (stripPrefix base stem).bind fun suffix =>
    if suffix = [] then some none else (stripPrefix ['-'] suffix).map some

/-- `parse_coordinate`. -/
def parseCoordinate (root path : PathBuf) : Option (ArtifactKey × Option Str) :=
  (stripComponents (pathComponents root) (pathComponents path)).bind fun relative =>
    (relative.mapM Component.text).bind fun components =>
      match components.reverse with
      | fileName :: version :: artifactId :: group :: groups =>
        (stripSuffix ".jar".toList fileName).bind fun stem =>
          (classifierOf (artifactId ++ '-' :: version) stem).map fun classifier =>
            ({ groupId := ['.'].intercalate (group :: groups).reverse, artifactId, version },
              classifier)
      | _ => none

/-- `relative_slash_path`. -/
def relativeSlashPath (root path : PathBuf) : Str :=
  replaceChar '\\' '/' (Utf8.decodeLossy
    (match stripComponents (pathComponents root) (pathComponents path) with
      | some relative => [47].intercalate (relative.map Component.bytes)
      | none => path))

/-- `repository_identity`. -/
def repositoryIdentity (root path : PathBuf) : Option JarIdentity :=
  (parseCoordinate root path).map fun (key, classifier) =>
    { key, classifier, relativePath := relativeSlashPath root path }

/-! ## 3. Siblings -/

/-- What follows `artifact-version` in a file name. -/
def classifierSuffix : Option Str → Str
  | none => []
  | some classifier => '-' :: classifier

theorem classifierOf_eq_some_iff {base stem : Str} {classifier : Option Str} :
    classifierOf base stem = some classifier ↔ stem = base ++ classifierSuffix classifier := by
  unfold classifierOf
  rw [Option.bind_eq_some_iff]
  constructor
  · rintro ⟨suffix, hsuffix, h⟩
    rw [stripPrefix_eq_some_iff.mp hsuffix]
    split at h
    · rename_i hempty
      rw [hempty, ← Option.some.inj h]
      rfl
    · obtain ⟨rest, hrest, heq⟩ := Option.map_eq_some_iff.mp h
      rw [stripPrefix_eq_some_iff.mp hrest, ← heq]
      rfl
  · intro h
    refine ⟨classifierSuffix classifier, stripPrefix_eq_some_iff.mpr h, ?_⟩
    cases classifier with
    | none => rfl
    | some classifier =>
      rw [classifierSuffix, if_neg (List.cons_ne_nil _ _)]
      rfl

theorem stripComponents_eq_some_iff {root path relative : List Component} :
    stripComponents root path = some relative ↔ path = root ++ relative := by
  induction root generalizing path with
  | nil =>
    rw [stripComponents, List.nil_append, Option.some_inj]
  | cons r root ih =>
    cases path with
    | nil =>
      rw [stripComponents]
      constructor
      · exact nofun
      · exact nofun
    | cons c path =>
      rw [stripComponents, List.cons_append, List.cons.injEq]
      split
      · rename_i heq
        rw [ih]
        exact ⟨fun h => ⟨heq.symm, h⟩, And.right⟩
      · rename_i hne
        constructor
        · exact nofun
        · rintro ⟨rfl, -⟩
          exact absurd rfl hne

/-- The texts of a path with one more name. -/
theorem mapM_text_concat {components : List Component} {name : List UInt8} {texts : List Str} :
    (components ++ [Component.normal name]).mapM Component.text = some texts ↔
      ∃ front text, components.mapM Component.text = some front ∧ Utf8.decode name = some text ∧
        texts = front ++ [text] := by
  rw [List.mapM_append]
  simp only [List.mapM_cons, List.mapM_nil, Component.text, Option.bind_eq_bind, Option.pure_def,
    Option.bind_eq_some_iff, Option.some.injEq]
  constructor
  · rintro ⟨front, hfront, last, ⟨text, htext, _, rfl, rfl⟩, rfl⟩
    exact ⟨front, text, hfront, htext, rfl⟩
  · rintro ⟨front, text, hfront, htext, rfl⟩
    exact ⟨front, hfront, [text], ⟨text, htext, [], rfl, rfl⟩, rfl⟩

/-- **The files beside a JAR.**  The file name of a JAR in repository layout is `base`, the
classifier and the extension; in the same directory the name of a file decides its classifier, and
the key stays. -/
theorem parseCoordinate_siblings {root : PathBuf} {names : List (List UInt8)} {last : List UInt8}
    (hnames : ∀ name ∈ names ++ [last], IsName name) {key : ArtifactKey} {classifier : Option Str}
    (h : parseCoordinate root (pathOf (names ++ [last])) = some (key, classifier)) :
    ∃ base : Str, Utf8.decode last = some (base ++ classifierSuffix classifier ++ ".jar".toList) ∧
      ∀ stem, IsName (Utf8.encode (stem ++ ".jar".toList)) →
        parseCoordinate root (pathOf (names ++ [Utf8.encode (stem ++ ".jar".toList)]))
          = (classifierOf base stem).map fun classifier => (key, classifier) := by
  have hne : ∀ name : List UInt8, names ++ [name] ≠ [] := fun name =>
    List.append_ne_nil_of_right_ne_nil _ (List.cons_ne_nil _ _)
  unfold parseCoordinate at h
  obtain ⟨relative, hrelative, h⟩ := Option.bind_eq_some_iff.mp h
  obtain ⟨components, hcomponents, h⟩ := Option.bind_eq_some_iff.mp h
  rw [stripComponents_eq_some_iff, pathComponents_pathOf (hne last) hnames, List.map_append,
    List.map_singleton, ← List.cons_append] at hrelative
  -- the file name is the last of the components below the root
  rcases List.eq_nil_or_concat' relative with rfl | ⟨front, x, rfl⟩
  · cases hcomponents
    cases h
  rw [← List.append_assoc] at hrelative
  obtain ⟨hfront, hx⟩ := List.append_inj' hrelative rfl
  rw [← (List.cons.inj hx).1] at hcomponents
  obtain ⟨texts, fileName, htexts, hdecode, rfl⟩ := mapM_text_concat.mp hcomponents
  rw [List.reverse_concat] at h
  match hreverse : texts.reverse, h with
  | version :: artifactId :: group :: groups, h =>
    simp only at h
    obtain ⟨stem, hstem, h⟩ := Option.bind_eq_some_iff.mp h
    obtain ⟨found, hfound, heq⟩ := Option.map_eq_some_iff.mp h
    obtain ⟨hkey, rfl⟩ := Prod.mk.inj heq
    have hsuffix : fileName = stem ++ ".jar".toList := stripSuffix_eq_some_iff.mp hstem
    refine ⟨artifactId ++ '-' :: version, ?_, fun stem' hname => ?_⟩
    · rw [hdecode, hsuffix, classifierOf_eq_some_iff.mp hfound]
    · have hnames' : ∀ name ∈ names ++ [Utf8.encode (stem' ++ ".jar".toList)], IsName name := by
        intro name hmem
        rcases List.mem_append.mp hmem with hmem | hmem
        · exact hnames name (List.mem_append_left _ hmem)
        · rw [List.mem_singleton.mp hmem]
          exact hname
      have hstrip : stripComponents (pathComponents root)
          (pathComponents (pathOf (names ++ [Utf8.encode (stem' ++ ".jar".toList)])))
          = some (front ++ [.normal (Utf8.encode (stem' ++ ".jar".toList))]) := by
        rw [stripComponents_eq_some_iff, pathComponents_pathOf (hne _) hnames', List.map_append,
          List.map_singleton, ← List.cons_append, hfront, List.append_assoc]
      have htexts' : (front ++ [Component.normal (Utf8.encode (stem' ++ ".jar".toList))]).mapM
          Component.text
          = some (texts ++ [stem' ++ ".jar".toList]) :=
        mapM_text_concat.mpr ⟨texts, _, htexts, Utf8.decode_encode _, rfl⟩
      unfold parseCoordinate
      rw [hstrip, Option.bind_some, htexts', Option.bind_some, List.reverse_concat, hreverse]
      simp only
      rw [stripSuffix_append, Option.bind_some, hkey]

end MavenMcp
