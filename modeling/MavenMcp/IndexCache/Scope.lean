/-
# Scopes of projects

Every classpath that `src/index_cache.rs` stores for a project has a key that begins with the
project's scope: its root as a JSON string, and a line break.  To forget a project is to delete what
begins with its scope.

JSON strings are told apart by any text behind them, whatever stands in the paths, so that a scope
begins the keys of its own project only (`projectScope_prefix_iff`).  The writer of the JSON text is
a parameter: any choice of escapes will do.
-/
import MavenMcp.IndexCache.Entries
import MavenMcp.Lib.Json

namespace MavenMcp
namespace IndexCache

open Json (StringWriter)

/-! ## 1. Keys -/

/-- `INDEX_CACHE_FORMAT`. -/
def indexCacheFormat : Nat := 4

inductive JavaEnvironment
  | inherit
  | jenv (root : PathBuf)
deriving DecidableEq, Repr

/-- What a classpath is requested with, besides the project. -/
structure ClasspathRequest where
  mavenExecutable : Option PathBuf
  executionRepository : Option PathBuf
  networkEnabled : Bool
  javaEnvironment : JavaEnvironment
  /-- The digest of the environment. -/
  environment : UInt64
deriving DecidableEq, Repr

def JavaEnvironment.text : JavaEnvironment → Str
  | inherit => "inherit".toList
  | jenv root => "jenv:".toList ++ Utf8.decodeLossy root

/-- Sixteen hexadecimal digits. -/
def hex16 (n : UInt64) : Str :=
  let digits := Nat.toDigits 16 n.toNat
  List.replicate (16 - digits.length) '0' ++ digits

variable (writer : StringWriter)

/-- `serde_json::to_string` of a path, which fails where the path is no text. -/
def pathJson (path : PathBuf) : Option Str := (Utf8.decode path).map writer.quoted

def optionalPathJson : Option PathBuf → Option Str
  | none => some "null".toList
  | some path => pathJson writer path

/-- `serde_json::to_string` of a `ClasspathContext`. -/
def contextJson (root : PathBuf) (request : ClasspathRequest) : Option Str := do
  let projectRoot ← pathJson writer root
  let mavenExecutable ← optionalPathJson writer request.mavenExecutable
  let executionRepository ← optionalPathJson writer request.executionRepository
  some (Char.ofNat 123 :: "\"format\":".toList ++ Nat.toDigits 10 indexCacheFormat
    ++ ",\"project_root\":".toList ++ projectRoot
    ++ ",\"classpath_scope\":\"test\",\"maven_executable\":".toList ++ mavenExecutable
    ++ ",\"execution_repository\":".toList ++ executionRepository
    ++ ",\"network_enabled\":".toList
    ++ (if request.networkEnabled then "true".toList else "false".toList)
    ++ ",\"java\":".toList ++ writer.quoted request.javaEnvironment.text
    ++ ",\"environment\":".toList ++ writer.quoted (hex16 request.environment) ++ [Char.ofNat 125])

def projectScope (root : PathBuf) : Str := (pathJson writer root).getD [] ++ ['\n']

def contextKey (root : PathBuf) (request : ClasspathRequest) : Str :=
  projectScope writer root ++ (contextJson writer root request).getD []

/-- `substr(key, 1, length(scope)) = scope` -/
def inScope (scope : Str) (row : Row) : Bool :=
  decide (row.entry.identity.kind = classpathKind)
    && decide (row.entry.identity.key.take scope.length = scope)

def forgetProjectClasspaths (root : PathBuf) (db : Database) : Database :=
  db.retain fun row => !inScope (projectScope writer root) row

/-- A classpath that was stored for a project. -/
def StoredFor (root : PathBuf) (row : Row) : Prop :=
  row.entry.identity.kind = classpathKind ∧
    ∃ request, row.entry.identity.key = contextKey writer root request

/-! ## 2. Isolation -/

section

variable {writer : StringWriter} {root : Str} {other : PathBuf}

theorem projectScope_encode (writer : StringWriter) (root : Str) :
    projectScope writer (Utf8.encode root) = writer.quoted root ++ ['\n'] := by
  rw [projectScope, pathJson, Utf8.decode_encode]
  rfl

/-- **A scope** begins the keys of its own project, and of no other. -/
theorem projectScope_prefix_iff {request : ClasspathRequest} :
    projectScope writer (Utf8.encode root) <+: contextKey writer other request ↔
      other = Utf8.encode root := by
  constructor
  · rintro ⟨tail, htail⟩
    rw [projectScope_encode, List.append_assoc, contextKey, projectScope, pathJson] at htail
    cases hdecode : Utf8.decode other with
    | none =>
      -- the key of a path that is no text begins with the line break
      rw [hdecode] at htail
      exact absurd (List.cons.inj htail).1 (by decide)
    | some text =>
      rw [hdecode, Option.map_some, Option.getD_some, List.append_assoc] at htail
      obtain ⟨rfl, -⟩ := StringWriter.quoted_append_inj htail
      exact Utf8.decode_eq_some_iff.mp hdecode
  · rintro rfl
    exact List.prefix_append _ _

theorem inScope_iff {scope : Str} {row : Row} :
    inScope scope row = true ↔
      row.entry.identity.kind = classpathKind ∧ scope <+: row.entry.identity.key := by
  rw [inScope, Bool.and_eq_true, decide_eq_true_eq, decide_eq_true_eq, List.prefix_iff_eq_take,
    eq_comm (a := scope)]

/-- What is in the scope of a project, among the classpaths that were stored for projects. -/
theorem inScope_iff_storedFor {row : Row} (h : StoredFor writer other row) :
    inScope (projectScope writer (Utf8.encode root)) row = true ↔ other = Utf8.encode root := by
  obtain ⟨hkind, request, hkey⟩ := h
  rw [inScope_iff, hkey, projectScope_prefix_iff]
  exact and_iff_right hkind

/-- **Projects are isolated**: no scope begins a key of another project, and to forget a project
deletes what was stored for it and nothing else. -/
theorem forgetProjectClasspaths_isolated (writer : StringWriter) (root : Str) :
    (∀ (other : Str) (request : ClasspathRequest), root ≠ other →
      ¬ projectScope writer (Utf8.encode root) <+: contextKey writer (Utf8.encode other) request) ∧
    ∀ (db : Database) (row : Row),
      (row.entry.identity.kind = classpathKind → ∃ other, StoredFor writer other row) →
      (row ∈ (forgetProjectClasspaths writer (Utf8.encode root) db).rows ↔
        row ∈ db.rows ∧ ¬ StoredFor writer (Utf8.encode root) row) := by
  constructor
  · intro other request hne hpre
    exact hne (Utf8.encode_injective (projectScope_prefix_iff.mp hpre).symm)
  · intro db row hstored
    rw [forgetProjectClasspaths, Database.retain, List.mem_filter, Bool.not_eq_true',
      ← Bool.not_eq_true]
    refine and_congr_right fun _ => not_congr ⟨fun hscope => ?_, fun hown => ?_⟩
    · obtain ⟨other, hother⟩ := hstored (inScope_iff.mp hscope).1
      rwa [← (inScope_iff_storedFor hother).mp hscope]
    · exact (inScope_iff_storedFor hown).mpr rfl

/-- The classpath of a project whose root goes on where that of another ends. -/
def nestedRow : Row where
  rowid := 1
  entry :=
    { identity :=
        { kind := classpathKind
          key := contextKey Json.minimalWriter (Utf8.encode "/a\"\n".toList)
            ⟨none, none, false, .inherit, 0⟩
          tool := [] }
      payload := []
      bytes := 0
      lastUsed := 0 }

theorem forgetProjectClasspaths_isolated_nested :
    nestedRow ∈ (forgetProjectClasspaths Json.minimalWriter (Utf8.encode "/a".toList)
      (Database.empty.upsert nestedRow.entry)).rows := by
  have h := forgetProjectClasspaths_isolated Json.minimalWriter "/a".toList
  refine (h.2 _ nestedRow fun _ => ⟨_, rfl, _, rfl⟩).mpr ⟨List.mem_singleton.mpr rfl, ?_⟩
  rintro ⟨-, request, hkey⟩
  have hdifferent := h.1 "/a\"\n".toList ⟨none, none, false, .inherit, 0⟩ (by decide)
  have hpre : projectScope Json.minimalWriter (Utf8.encode "/a".toList)
      <+: nestedRow.entry.identity.key := hkey ▸ List.prefix_append _ _
  exact hdifferent hpre

end

end IndexCache
end MavenMcp
