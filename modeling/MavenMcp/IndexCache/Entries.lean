/-
# The entries of the index cache

The table `entries` of `src/index_cache.rs`: one row for each kind, key and tool.  Rows are listed
by their rowids, and a row that is inserted gets the rowid after the last; one that replaces another
is a new row.
-/
import Mathlib.Data.List.Basic
import MavenMcp.Lib.Utf8
import MavenMcp.ProjectCache.Basic

namespace MavenMcp
namespace IndexCache

/-! ## 1. Rows -/

/-- `RECORD_KIND`. -/
def recordKind : Str := "record".toList

/-- `CLASSPATH_KIND`. -/
def classpathKind : Str := "classpath".toList

/-- The primary key of `entries`. -/
structure Identity where
  kind : Str
  key : Str
  tool : Str
deriving DecidableEq, Repr

/-- The columns of an entry; `lastUsed` is in milliseconds. -/
structure Entry where
  identity : Identity
  payload : List UInt8
  bytes : Nat
  lastUsed : Int
deriving DecidableEq, Repr

structure Row where
  rowid : Nat
  entry : Entry
deriving DecidableEq, Repr

structure Database where
  rows : List Row
  sorted : rows.Pairwise (·.rowid < ·.rowid)
  primary : rows.Pairwise (·.entry.identity ≠ ·.entry.identity)
deriving Repr

namespace Database

@[ext] theorem ext {a b : Database} (h : a.rows = b.rows) : a = b := by
  cases a
  cases b
  cases h
  rfl

def empty : Database := { rows := [], sorted := .nil, primary := .nil }

/-- The rowid of the next row. -/
def nextRowid (db : Database) : Nat := (db.rows.getLast?.map (·.rowid + 1)).getD 1

/-- `DELETE FROM entries WHERE NOT keep`. -/
def retain (keep : Row → Bool) (db : Database) : Database where
  rows := db.rows.filter keep
  sorted := db.sorted.filter keep
  primary := db.primary.filter keep

theorem lt_nextRowid {db : Database} {row : Row} (h : row ∈ db.rows) :
    row.rowid < db.nextRowid := by
  obtain ⟨front, last, hrows⟩ := List.eq_nil_or_concat db.rows |>.resolve_left
    (List.ne_nil_of_mem h)
  have hsorted := db.sorted
  rw [nextRowid, hrows, List.concat_eq_append, List.getLast?_append, List.getLast?_singleton]
  rw [hrows, List.concat_eq_append] at hsorted h
  rcases List.mem_append.mp h with hmem | hmem
  · have := (List.pairwise_append.mp hsorted).2.2 row hmem last List.mem_cons_self
    change _ < last.rowid + 1
    omega
  · cases List.mem_singleton.mp hmem
    exact Nat.lt_succ_self _

theorem eq_of_rowid {db : Database} {row other : Row} (hrow : row ∈ db.rows)
    (hother : other ∈ db.rows) (h : row.rowid = other.rowid) : row = other := by
  have hnodup : (db.rows.map (·.rowid)).Nodup := List.pairwise_map.mpr (db.sorted.imp Nat.ne_of_lt)
  exact List.inj_on_of_nodup_map hnodup hrow hother h

/-- `INSERT OR REPLACE`: the rowid is chosen before a row that is in the way is deleted. -/
def upsert (entry : Entry) (db : Database) : Database where
  rows := db.rows.filter (·.entry.identity ≠ entry.identity) ++ [⟨db.nextRowid, entry⟩]
  sorted := by
    refine List.pairwise_append.mpr ⟨db.sorted.filter _, List.pairwise_singleton _ _, ?_⟩
    intro row hrow other hother
    cases List.mem_singleton.mp hother
    exact lt_nextRowid (List.mem_of_mem_filter hrow)
  primary := by
    refine List.pairwise_append.mpr ⟨db.primary.filter _, List.pairwise_singleton _ _, ?_⟩
    intro row hrow other hother
    cases List.mem_singleton.mp hother
    exact of_decide_eq_true (List.mem_filter.mp hrow).2

theorem nextRowid_upsert (entry : Entry) (db : Database) :
    (db.upsert entry).nextRowid = db.nextRowid + 1 := by
  simp [nextRowid, upsert]

/-- `UPDATE entries SET last_used`, of one entry. -/
def touch (now : Int) (identity : Identity) (db : Database) : Database where
  rows := db.rows.map fun row =>
    if row.entry.identity = identity then { row with entry := { row.entry with lastUsed := now } }
    else row
  sorted := by
    refine List.pairwise_map.mpr (db.sorted.imp fun {a b} h => ?_)
    split <;> split <;> exact h
  primary := by
    refine List.pairwise_map.mpr (db.primary.imp fun {a b} h => ?_)
    split <;> split <;> exact h

end Database

end IndexCache
end MavenMcp
