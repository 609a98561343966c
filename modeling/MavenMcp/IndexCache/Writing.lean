/-
# Writes to the index cache

`PersistentIndexCache::try_write` of `src/index_cache.rs`: in one transaction it replaces the
entries of an update, touches the records that were reused, and evicts to the budget; after the
commit it hands free pages back to the file system.  Every statement may fail, which is a parameter:
a failure before the commit rolls the transaction back.

* `transact_completes`: what the transaction commits, where no statement of it fails.
* `applied`, `evicted`: what it commits is the content with the entries replaced and the records
  touched, less the shortest prefix by use that has to go.
* `tryWrite_atomic_iff`: so a write is atomic, except where the last statement fails after a commit
  that changed something.
-/
import MavenMcp.IndexCache.Entries
import MavenMcp.Lib.Eviction
import MavenMcp.Lib.Fallible
import MavenMcp.Lib.Text
import Mathlib.Data.List.Sort
import Mathlib.Data.Prod.Lex

namespace MavenMcp
namespace IndexCache

/-! ## 1. Updates -/

def i64Max : Nat := 2 ^ 63 - 1

structure PersistableRecord where
  path : PathBuf
  payload : List UInt8

structure CacheUpdate where
  classpath : Option (Str × List UInt8)
  records : List PersistableRecord
  reused : List PathBuf

structure PersistentIndexCache where
  maxBytes : Nat
  tool : Str

/-- The statements of a write. -/
inductive Statement where
  | connect
  | start
  | prepareUpsert
  | upsert (identity : Identity)
  | prepareTouch
  | touch (key : Str)
  | total
  | select
  | row (rowid : Nat)
  | prepareDelete
  | delete (rowid : Nat)
  | commit
  | vacuum
deriving DecidableEq, Repr

/-- A statement that has no answer. -/
def execute (fails : Statement → Bool) (statement : Statement) : Except Statement Unit :=
  if fails statement then .error statement else .ok ()

def entryBytes (key : Str) (payload : List UInt8) : Nat :=
  min (Text.byteLen key + payload.length) i64Max

namespace PersistentIndexCache

variable (cache : PersistentIndexCache) (fails : Statement → Bool) (now : Int)
variable (update : CacheUpdate) (db : Database)

/-- The row of a kind that is written at this time. -/
def entry (kind key : Str) (payload : List UInt8) : Entry where
  identity := { kind, key, tool := cache.tool }
  payload := payload
  bytes := entryBytes key payload
  lastUsed := now

/-- The entries of an update in the order in which they are written; a path that is no text has
none. -/
def entries : List Entry :=
  (update.classpath.toList.map fun (context, payload) =>
      cache.entry now classpathKind context payload) ++
    update.records.filterMap fun record => do
      let key ← Utf8.decode record.path
      return cache.entry now recordKind key record.payload

/-- The keys of the records that were reused. -/
def reusedKeys (update : CacheUpdate) : List Str := update.reused.filterMap Utf8.decode

/-- By last use, then by rowid. -/
def UsedBefore (a b : Row) : Prop :=
  a.entry.lastUsed < b.entry.lastUsed ∨ a.entry.lastUsed = b.entry.lastUsed ∧ a.rowid ≤ b.rowid

instance : DecidableRel UsedBefore := fun a b => by unfold UsedBefore; infer_instance

instance : Std.Total UsedBefore where
  total a b := by
    unfold UsedBefore
    omega

instance : IsTrans Row UsedBefore where
  trans a b c := by
    unfold UsedBefore
    omega

/-- `SELECT COALESCE(SUM(bytes), 0) FROM entries`, which fails where the sum leaves its type. -/
def totalBytes : Except Statement Nat := do
  execute fails .total
  let total := Eviction.load (·.entry.bytes) db.rows
  if total ≤ i64Max then return total else throw .total

/-- The rows that are read until the excess is gone. -/
def collectVictims : Int → List Row → Except Statement (List Nat)
  | _, [] => .ok []
  | excess, row :: rows =>
    if 0 < excess then do
      execute fails (.row row.rowid)
      let victims ← collectVictims (excess - row.entry.bytes) rows
      return row.rowid :: victims
    else .ok []

def evictToBudget : Except Statement Database := do
  let limit := min cache.maxBytes i64Max
  let total ← totalBytes fails db
  let excess : Int := total - limit
  if excess ≤ 0 then return db
  else do
    execute fails .select
    let victims ← collectVictims fails excess (db.rows.insertionSort UsedBefore)
    execute fails .prepareDelete
    victims.foldlM (fun db rowid => do
      execute fails (.delete rowid)
      return db.retain (·.rowid ≠ rowid)) db

/-- The statements of the transaction, on its copy of the content. -/
def transact : Except Statement Database := do
  execute fails .start
  execute fails .prepareUpsert
  let db ← (cache.entries now update).foldlM (fun db entry => do
    execute fails (.upsert entry.identity)
    return db.upsert entry) db
  execute fails .prepareTouch
  let db ← (reusedKeys update).foldlM (fun db key => do
    execute fails (.touch key)
    return db.touch now { kind := recordKind, key, tool := cache.tool }) db
  let db ← cache.evictToBudget fails db
  execute fails .commit
  return db

/-- What is answered, and the content afterwards. -/
def tryWrite : Except Statement Unit × Database :=
  if fails .connect then (.error .connect, db)
  else match cache.transact fails now update db with
    | .error statement => (.error statement, db)
    | .ok committed => (execute fails .vacuum, committed)

/-! ## 2. What the transaction commits -/

/-- The content once the entries are replaced and the records touched. -/
def applied : Database :=
  (reusedKeys update).foldl (fun db key =>
      db.touch now { kind := recordKind, key, tool := cache.tool })
    ((cache.entries now update).foldl (fun db entry => db.upsert entry) db)

/-- The rows in the order in which they are given up. -/
def byUse (db : Database) : List Row := db.rows.insertionSort UsedBefore

/-- What is held, in bytes. -/
def held (db : Database) : Nat := Eviction.load (·.entry.bytes) db.rows

/-- The rows that have to go. -/
def victims : List Row :=
  Eviction.victims (·.entry.bytes) (held db - cache.maxBytes) (byUse db)

/-- The content within the budget. -/
def evicted : Database := db.retain (· ∉ cache.victims db)

/-- No statement of the eviction fails. -/
structure EvictionSucceeds : Prop where
  total : fails .total = false
  sum : held db ≤ i64Max
  select : cache.maxBytes < held db → fails .select = false
  rows : ∀ row ∈ cache.victims db, fails (.row row.rowid) = false
  prepare : cache.maxBytes < held db → fails .prepareDelete = false
  deletes : ∀ row ∈ cache.victims db, fails (.delete row.rowid) = false

/-- No statement up to the commit fails. -/
structure StatementsSucceed : Prop where
  start : fails .start = false
  prepareUpsert : fails .prepareUpsert = false
  upserts : ∀ entry ∈ cache.entries now update, fails (.upsert entry.identity) = false
  prepareTouch : fails .prepareTouch = false
  touches : ∀ key ∈ reusedKeys update, fails (.touch key) = false
  eviction : EvictionSucceeds cache fails (cache.applied now update db)
  commit : fails .commit = false

theorem execute_completes (statement : Statement) :
    Completes (execute fails statement) (fails statement = false) () where
  ok h := by simp [execute, h]
  error h := ⟨statement, by simp [execute, h]⟩

theorem totalBytes_completes :
    Completes (totalBytes fails db) (fails .total = false ∧ held db ≤ i64Max) (held db) := by
  refine (execute_completes fails .total).bind ⟨fun h => if_pos h, fun h => ⟨.total, if_neg h⟩⟩

theorem collectVictims_completes (rows : List Row) (excess : Int) :
    Completes (collectVictims fails excess rows)
      (∀ row ∈ Eviction.victims (·.entry.bytes) excess rows, fails (.row row.rowid) = false)
      ((Eviction.victims (·.entry.bytes) excess rows).map (·.rowid)) := by
  induction rows generalizing excess with
  | nil => exact (Completes.pure []).congr (by simp [Eviction.victims])
  | cons row rows ih =>
    rw [collectVictims, Eviction.victims]
    split
    · exact ((execute_completes fails _).bind ((ih _).bind_pure _)).congr (by simp)
    · exact (Completes.pure []).congr (by simp)

/-- To delete rows one by one is to keep the others. -/
theorem foldl_retain (rowids : List Nat) (db : Database) :
    rowids.foldl (fun db rowid => db.retain (·.rowid ≠ rowid)) db
      = db.retain (·.rowid ∉ rowids) := by
  induction rowids generalizing db with
  | nil =>
    apply Database.ext
    simp [Database.retain]
  | cons rowid rowids ih =>
    rw [List.foldl_cons, ih]
    apply Database.ext
    simp [Database.retain, List.filter_filter, Bool.and_comm]

/-- A row is in the way of others by its rowid alone. -/
theorem retain_rowids {rows : List Row} (hrows : ∀ row ∈ rows, row ∈ db.rows) :
    db.retain (fun row => row.rowid ∉ rows.map (·.rowid)) = db.retain (· ∉ rows) := by
  apply Database.ext
  refine List.filter_congr fun row hrow => ?_
  simp only [decide_not, Bool.not_inj_iff, decide_eq_decide, List.mem_map]
  constructor
  · rintro ⟨other, hmem, heq⟩
    exact Database.eq_of_rowid (hrows other hmem) hrow heq ▸ hmem
  · exact fun hmem => ⟨row, hmem, rfl⟩

/-- **As few rows go** as can. -/
theorem shortestPrefix : Eviction.ShortestPrefix (·.entry.bytes) cache.maxBytes (byUse db)
    (cache.victims db) := by
  have hload : Eviction.load (·.entry.bytes) (byUse db) = held db :=
    Eviction.load_perm _ (List.perm_insertionSort _ _)
  rw [victims, ← hload]
  exact Eviction.shortestPrefix_victims cache.maxBytes (byUse db)

theorem mem_of_victims {row : Row} (h : row ∈ cache.victims db) : row ∈ db.rows :=
  (List.mem_insertionSort _).mp ((cache.shortestPrefix db).isPrefix.subset h)

theorem victims_of_held_le (h : held db ≤ cache.maxBytes) : cache.victims db = [] :=
  Eviction.victims_of_nonpos (by omega) _

theorem evicted_of_held_le (h : held db ≤ cache.maxBytes) : cache.evicted db = db := by
  apply Database.ext
  simp [evicted, cache.victims_of_held_le db h, Database.retain]

theorem evictToBudget_completes :
    Completes (cache.evictToBudget fails db) (EvictionSucceeds cache fails db)
      (cache.evicted db) := by
  have hloop := Completes.foldlM (fun (db : Database) (rowid : Nat) =>
    (execute_completes fails (.delete rowid)).bind_pure fun _ => db.retain (·.rowid ≠ rowid))
  -- a sum in its type is over the limit when it is over the budget
  have hlimit : held db ≤ i64Max →
      (((held db : Int) - (min cache.maxBytes i64Max : Nat) ≤ 0) ↔ held db ≤ cache.maxBytes) := by
    intro h
    omega
  have hvictims : held db ≤ i64Max → ¬ held db ≤ cache.maxBytes →
      Eviction.victims (·.entry.bytes) ((held db : Int) - (min cache.maxBytes i64Max : Nat))
        (db.rows.insertionSort UsedBefore) = cache.victims db := by
    intro h hover
    rw [victims, Nat.min_eq_left (by omega), byUse]
  refine ((totalBytes_completes fails db).bind (Completes.ite (fun _ => Completes.pure db) fun _ =>
    (execute_completes fails _).bind ((collectVictims_completes fails _ _).bind
      ((execute_completes fails _).bind (hloop _ db))))).congrAnswer ?_ |>.congr ?_
  · rintro ⟨⟨-, hsum⟩, -⟩
    simp only [hlimit hsum]
    split
    next hfits => rw [cache.evicted_of_held_le db hfits]
    next hover =>
      rw [hvictims hsum hover, foldl_retain, retain_rowids db fun row => cache.mem_of_victims db]
      rfl
  · constructor
    · rintro ⟨⟨htotal, hsum⟩, -, hrun⟩
      rw [hlimit hsum] at hrun
      by_cases hfits : held db ≤ cache.maxBytes
      · have hnil := cache.victims_of_held_le db hfits
        exact ⟨htotal, hsum, fun h => absurd hfits (by omega), by simp [hnil],
          fun h => absurd hfits (by omega), by simp [hnil]⟩
      · obtain ⟨hselect, hrows, hprepare, hdeletes⟩ := hrun hfits
        rw [hvictims hsum hfits] at hrows hdeletes
        exact ⟨htotal, hsum, fun _ => hselect, hrows, fun _ => hprepare,
          fun row hrow => hdeletes _ (List.mem_map_of_mem hrow)⟩
    · intro h
      refine ⟨⟨h.total, h.sum⟩, fun _ => trivial, fun hover => ?_⟩
      rw [hlimit h.sum] at hover
      rw [hvictims h.sum hover]
      exact ⟨h.select (by omega), h.rows, h.prepare (by omega), List.forall_mem_map.mpr h.deletes⟩

/-- **The transaction** commits the content within its budget, where no statement fails. -/
theorem transact_completes :
    Completes (cache.transact fails now update db) (StatementsSucceed cache fails now update db)
      (cache.evicted (cache.applied now update db)) := by
  have hupserts := Completes.foldlM (fun (db : Database) (entry : Entry) =>
    (execute_completes fails (.upsert entry.identity)).bind_pure fun _ => db.upsert entry)
  have htouches := Completes.foldlM (fun (db : Database) (key : Str) =>
    (execute_completes fails (.touch key)).bind_pure fun _ =>
      db.touch now { kind := recordKind, key, tool := cache.tool })
  refine ((execute_completes fails _).bind ((execute_completes fails _).bind
    ((hupserts _ db).bind ((execute_completes fails _).bind ((htouches _ _).bind
      ((cache.evictToBudget_completes fails _).bind
        ((execute_completes fails _).bind_pure _))))))).congr ?_
  constructor
  · rintro ⟨hstart, hprepare, hupserts, htouch, htouches, heviction, hcommit⟩
    exact ⟨hstart, hprepare, hupserts, htouch, htouches, heviction, hcommit⟩
  · intro h
    exact ⟨h.start, h.prepareUpsert, h.upserts, h.prepareTouch, h.touches, h.eviction, h.commit⟩

/-! ## 3. Replaced, touched and evicted -/

/-- The last entry of each identity. -/
def latest : List Entry → List Entry
  | [] => []
  | entry :: entries =>
    if entry.identity ∈ entries.map (·.identity) then latest entries else entry :: latest entries

theorem mem_of_latest {entry : Entry} : ∀ {entries : List Entry},
    entry ∈ latest entries → entry ∈ entries
  | first :: entries, h => by
    rw [latest] at h
    split at h
    · exact List.mem_cons_of_mem _ (mem_of_latest h)
    · cases h with
      | head => exact List.mem_cons_self
      | tail _ h => exact List.mem_cons_of_mem _ (mem_of_latest h)

/-- **Entries that are replaced** are new rows behind the others, in the order in which they were
written last. -/
theorem foldl_upsert (entries : List Entry) (db : Database) :
    ∃ fresh : List Row,
      (entries.foldl (fun db entry => db.upsert entry) db).rows
        = db.rows.filter (fun row => row.entry.identity ∉ entries.map (·.identity)) ++ fresh ∧
      fresh.map (·.entry) = latest entries ∧ ∀ row ∈ fresh, db.nextRowid ≤ row.rowid := by
  induction entries generalizing db with
  | nil => exact ⟨[], by simp, rfl, nofun⟩
  | cons entry entries ih =>
    obtain ⟨fresh, hrows, hentries, hrowids⟩ := ih (db.upsert entry)
    rw [Database.nextRowid_upsert] at hrowids
    rw [List.foldl_cons, hrows, Database.upsert, List.filter_append, List.filter_filter]
    have hold : db.rows.filter (fun row => decide (row.entry.identity ∉ entries.map (·.identity)) &&
        decide (row.entry.identity ≠ entry.identity))
        = db.rows.filter fun row => row.entry.identity ∉ (entry :: entries).map (·.identity) := by
      refine List.filter_congr fun row _ => ?_
      rw [← Bool.decide_and, decide_eq_decide, List.map_cons, List.mem_cons, not_or]
      exact and_comm
    rw [hold, List.append_assoc]
    by_cases hagain : entry.identity ∈ entries.map (·.identity)
    · refine ⟨fresh, ?_, ?_, fun row hrow => Nat.le_of_succ_le (hrowids row hrow)⟩
      · simp only [List.filter_cons, List.filter_nil, hagain, not_true_eq_false, decide_false,
          Bool.false_eq_true, if_false, List.nil_append]
      · rw [hentries, latest, if_pos hagain]
    · refine ⟨⟨db.nextRowid, entry⟩ :: fresh, ?_, ?_, ?_⟩
      · simp only [List.filter_cons, List.filter_nil, hagain, not_false_eq_true, decide_true,
          if_true, List.singleton_append]
      · rw [List.map_cons, hentries, latest, if_neg hagain]
      · exact List.forall_mem_cons.mpr ⟨Nat.le_refl _, fun row hrow =>
          Nat.le_of_succ_le (hrowids row hrow)⟩

/-- A row once the records are touched. -/
def touched (row : Row) : Row :=
  if row.entry.identity.kind = recordKind ∧ row.entry.identity.tool = cache.tool ∧
      row.entry.identity.key ∈ reusedKeys update
    then { row with entry := { row.entry with lastUsed := now } }
  else row

/-- Records that are touched one by one are touched at once. -/
theorem foldl_touch (keys : List Str) (db : Database) :
    (keys.foldl (fun db key =>
        db.touch now { kind := recordKind, key, tool := cache.tool }) db).rows
      = db.rows.map fun row =>
        if row.entry.identity.kind = recordKind ∧ row.entry.identity.tool = cache.tool ∧
            row.entry.identity.key ∈ keys
          then { row with entry := { row.entry with lastUsed := now } }
        else row := by
  induction keys generalizing db with
  | nil => simp
  | cons key keys ih =>
    rw [List.foldl_cons, ih, Database.touch, List.map_map]
    refine List.map_congr_left fun row _ => ?_
    rcases row with ⟨rowid, ⟨kind, other, tool⟩, payload, bytes, lastUsed⟩
    by_cases hrecord : kind = recordKind ∧ tool = cache.tool
    · obtain ⟨rfl, rfl⟩ := hrecord
      by_cases hkey : other = key
      · simp [hkey]
      · simp [hkey]
    · have hother : ¬ (kind = recordKind ∧ other = key ∧ tool = cache.tool) :=
        fun h => hrecord ⟨h.1, h.2.2⟩
      have hnone : ∀ keys : List Str, ¬ (kind = recordKind ∧ tool = cache.tool ∧ other ∈ keys) :=
        fun _ h => hrecord ⟨h.1, h.2.1⟩
      simp only [Function.comp_apply, Identity.mk.injEq, hother, if_false]
      rw [if_neg (hnone _), if_neg (hnone _)]

/-- What is written is used now. -/
theorem lastUsed_of_mem_entries {entry : Entry} (h : entry ∈ cache.entries now update) :
    entry.lastUsed = now := by
  rcases List.mem_append.mp h with h | h
  · obtain ⟨pair, -, rfl⟩ := List.mem_map.mp h
    rfl
  · obtain ⟨record, -, h⟩ := List.mem_filterMap.mp h
    obtain ⟨key, -, h⟩ := Option.bind_eq_some_iff.mp h
    cases h
    rfl

/-- **What is applied**, as a table: the entries of the update are new rows, the records that were
reused are touched, and all other rows are as they were. -/
theorem rows_applied :
    ∃ fresh : List Row,
      (cache.applied now update db).rows
        = (db.rows.filter fun row =>
            row.entry.identity ∉ (cache.entries now update).map (·.identity)).map
              (cache.touched now update) ++ fresh ∧
      fresh.map (·.entry) = latest (cache.entries now update) ∧
      ∀ row ∈ fresh, db.nextRowid ≤ row.rowid := by
  obtain ⟨fresh, hrows, hentries, hrowids⟩ := foldl_upsert (cache.entries now update) db
  refine ⟨fresh, ?_, hentries, hrowids⟩
  have hfresh : fresh.map (cache.touched now update) = fresh := by
    refine (List.map_congr_left fun row hrow => ?_).trans (List.map_id fresh)
    have hentry : row.entry ∈ latest (cache.entries now update) :=
      hentries ▸ List.mem_map_of_mem hrow
    have hnow := cache.lastUsed_of_mem_entries now update (mem_of_latest hentry)
    unfold touched
    split
    · rw [← hnow]
      rfl
    · rfl
  rw [applied, foldl_touch, hrows, List.map_append]
  exact congrArg _ hfresh

/-- What is left is what was not given up. -/
theorem perm_evicted :
    (cache.evicted db).rows.Perm ((byUse db).drop (cache.victims db).length) := by
  have hperm : (byUse db).Perm db.rows := List.perm_insertionSort _ _
  have hnodup : (byUse db).Nodup :=
    hperm.nodup_iff.mpr (db.sorted.imp fun h heq => absurd h (by rw [heq]; exact Nat.lt_irrefl _))
  obtain ⟨rest, hrest⟩ := (cache.shortestPrefix db).isPrefix
  refine (hperm.symm.filter _).trans (.of_eq ?_)
  rw [← hrest] at hnodup ⊢
  have hdisjoint : ∀ row ∈ rest, row ∉ cache.victims db := fun row hrow hmem =>
    (List.disjoint_of_nodup_append hnodup) hmem hrow
  have hfront : (cache.victims db).filter (· ∉ cache.victims db) = [] :=
    List.filter_eq_nil_iff.mpr fun row hrow => by simpa using hrow
  have hback : rest.filter (· ∉ cache.victims db) = rest :=
    List.filter_eq_self.mpr fun row hrow => decide_eq_true (hdisjoint row hrow)
  rw [List.filter_append, hfront, hback, List.nil_append, List.drop_left]

theorem held_evicted_le : held (cache.evicted db) ≤ cache.maxBytes := by
  rw [held, Eviction.load_perm _ (cache.perm_evicted db)]
  exact (cache.shortestPrefix db).fits

/-! ## 4. Atomic writes -/

/-- The content after a write: the entries of the update are new rows behind the others, the records
of this tool that were reused are touched, and of that the shortest prefix by use is gone that
brings it within the budget. -/
structure Written (after : Database) where
  between : Database
  fresh : List Row
  order : List Row
  front : List Row
  rows_between : between.rows = (db.rows.filter fun row =>
    row.entry.identity ∉ (cache.entries now update).map (·.identity)).map
      (cache.touched now update) ++ fresh
  entries_fresh : fresh.map (·.entry) = latest (cache.entries now update)
  rowids_fresh : ∀ row ∈ fresh, ∀ old ∈ db.rows, old.rowid < row.rowid
  perm_order : order.Perm between.rows
  sorted_order : order.Pairwise UsedBefore
  shortest : Eviction.ShortestPrefix (·.entry.bytes) cache.maxBytes order front
  rows_after : after.rows = between.rows.filter (· ∉ front)

/-- A write that succeeds does what it is for, and one that fails leaves the content as it was. -/
def Atomic (outcome : Except Statement Unit × Database) : Prop :=
  (outcome.1 = .ok () → held outcome.2 ≤ cache.maxBytes ∧
    Nonempty (Written cache now update db outcome.2)) ∧
  ∀ statement, outcome.1 = .error statement → outcome.2 = db

/-- What is committed is what a write is for. -/
theorem written_evicted :
    Nonempty (Written cache now update db (cache.evicted (cache.applied now update db))) := by
  obtain ⟨fresh, hrows, hentries, hrowids⟩ := cache.rows_applied now update db
  exact ⟨{
    between := cache.applied now update db
    fresh := fresh
    order := byUse (cache.applied now update db)
    front := cache.victims (cache.applied now update db)
    rows_between := hrows
    entries_fresh := hentries
    rowids_fresh := fun row hrow old hold =>
      Nat.lt_of_lt_of_le (Database.lt_nextRowid hold) (hrowids row hrow)
    perm_order := List.perm_insertionSort _ _
    sorted_order := List.pairwise_insertionSort _ _
    shortest := cache.shortestPrefix _
    rows_after := rfl }⟩

/-- **A write is atomic** exactly where the last statement succeeds, unless an earlier one fails or
the write changes nothing. -/
theorem tryWrite_atomic_iff :
    Atomic cache now update db (cache.tryWrite fails now update db) ↔
      (fails .vacuum = true → fails .connect = false →
        StatementsSucceed cache fails now update db →
        cache.evicted (cache.applied now update db) = db) := by
  have htransact := cache.transact_completes fails now update db
  unfold tryWrite
  cases hconnect : fails .connect with
  | true =>
    rw [if_pos rfl]
    exact iff_of_true ⟨nofun, fun _ _ => rfl⟩ nofun
  | false =>
    rw [if_neg Bool.false_ne_true]
    by_cases hsucceed : StatementsSucceed cache fails now update db
    · rw [htransact.ok hsucceed]
      have hwritten := cache.written_evicted now update db
      cases hvacuum : fails .vacuum with
      | true =>
        have herror : execute fails .vacuum = .error .vacuum := by simp [execute, hvacuum]
        simp only [herror]
        constructor
        · exact fun h _ _ _ => h.2 _ rfl
        · exact fun h => ⟨nofun, fun _ _ => h trivial trivial hsucceed⟩
      | false =>
        have hok : execute fails .vacuum = .ok () := by simp [execute, hvacuum]
        simp only [hok]
        exact iff_of_true ⟨fun _ => ⟨cache.held_evicted_le _, hwritten⟩, nofun⟩ nofun
    · obtain ⟨statement, herror⟩ := htransact.error hsucceed
      rw [herror]
      exact iff_of_true ⟨nofun, fun _ _ => rfl⟩ fun _ _ h => absurd h hsucceed

end PersistentIndexCache

/-! ## 5. A write that is not -/

/-- The record of one archive. -/
def oneRecord : CacheUpdate where
  classpath := none
  records := [{ path := Utf8.encode "/a.jar".toList, payload := [1, 2] }]
  reused := []

/-- Only the statement after the commit fails. -/
def onlyVacuum : Statement → Bool := fun statement => statement = .vacuum

/-- What is answered for it, and the content afterwards. -/
def failedWrite : Except Statement Unit × Database :=
  PersistentIndexCache.tryWrite { maxBytes := 1000, tool := "1".toList } onlyVacuum 5 oneRecord
    .empty

/-- **A failed write may stay**: the record is committed, and the write answers an error. -/
theorem failedWrite_stays :
    failedWrite.1 = .error .vacuum ∧
      failedWrite.2.rows.map (·.entry.identity.key) = ["/a.jar".toList] ∧
      Database.empty.rows = [] := by
  decide +kernel

end IndexCache
end MavenMcp
