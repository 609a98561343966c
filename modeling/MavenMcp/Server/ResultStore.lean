/-
# The store of tool results

`src/server/result_store.rs` keeps results that were too large for one response: at most
`MAX_STORED_RESULTS` of them, each for `STORED_RESULT_TTL`, within one byte budget across all
projects.  Three removals share the deque and its byte counter: expiry at every call, and the
count and the budget at an insert, which may refuse a result instead.

The reference says what is left of all this: of the results ever accepted, the longest suffix
that `fits` (unexpired, few enough, small enough).  `refines_reference` is the refinement over
all runs, with the counter, the identifiers and the eviction loop.

`Log` records a run for the proofs: the moment of the last call, the results accepted and the
identifiers handed out.
-/
import MavenMcp.Lib.Suffix
import MavenMcp.Paths

namespace MavenMcp

/-! ## 1. The store -/

/-- Results retained at the same time, across every project. -/
def maxStoredResults : Nat := 16

/-- How long a stored result stays readable after it was stored, in nanoseconds. -/
def storedResultTtl : Nat := 300 * 10 ^ 9

structure ResultTooLarge where
  retainedBytes : Nat
  limit : Nat
deriving DecidableEq, Repr

structure StoredResult where
  id : String
  projectRoot : PathBuf
  json : String
  storedAt : Nat
  retainedBytes : Nat
deriving DecidableEq, Repr

structure ResultStore where
  /-- Insertion order, so the front is always the oldest result. -/
  entries : List StoredResult
  maxBytes : Nat
  retainedBytes : Nat
  /-- Random per process, so an identifier means nothing to another server process. -/
  processKey : UInt64
  nextSequence : Nat
deriving DecidableEq, Repr

/-- `format!("{n:x}")`. -/
def hex (n : Nat) : List Char := Nat.toDigits 16 n

/-- `format!("{n:016x}")`. -/
def hex16 (n : Nat) : List Char := List.replicate (16 - (hex n).length) '0' ++ hex n

/-- `format!("r{processKey:016x}{sequence:x}")`. -/
def resultId (processKey : UInt64) (sequence : Nat) : String :=
  String.ofList ('r' :: (hex16 processKey.toNat ++ hex sequence))

def retainedSize (id : String) (projectRoot : PathBuf) (json : String) : Nat :=
  json.utf8ByteSize + id.utf8ByteSize + projectRoot.length

namespace StoredResult

/-- What `expire` asks of the front entry. -/
def expired (now : Nat) (e : StoredResult) : Bool := decide (storedResultTtl ≤ now - e.storedAt)

def cost (e : StoredResult) : Nat := retainedSize e.id e.projectRoot e.json

/-- What `get` looks for. -/
def isFor (id : String) (projectRoot : PathBuf) (e : StoredResult) : Bool :=
  decide (e.id = id) && decide (pathComponents e.projectRoot = pathComponents projectRoot)

end StoredResult

namespace ResultStore

def withProcessKey (maxBytes : Nat) (processKey : UInt64) : ResultStore :=
  { entries := [], maxBytes, retainedBytes := 0, processKey, nextSequence := 0 }

def evictOldest (s : ResultStore) : ResultStore :=
  match s.entries with
  | [] => s
  | evicted :: entries =>
    { s with entries, retainedBytes := s.retainedBytes - evicted.retainedBytes }

/-- One round of the loop of `expire`. -/
def expireRound (now : Nat) (s : ResultStore) : Option ResultStore :=
  if s.entries.head?.any (StoredResult.expired now) then some s.evictOldest else none

def expire (s : ResultStore) (now : Nat) : ResultStore :=
  Loop.run (expireRound now) s.entries.length s

/-- The condition of the loop of `insert`. -/
def overBudget (retainedBytes : Nat) (s : ResultStore) : Bool :=
  decide (maxStoredResults ≤ s.entries.length) ||
    decide (s.maxBytes < s.retainedBytes + retainedBytes)

/-- One round of the loop of `insert`. -/
def evictRound (retainedBytes : Nat) (s : ResultStore) : Option ResultStore :=
  if s.overBudget retainedBytes then some s.evictOldest else none

def nextId (s : ResultStore) : String × ResultStore :=
  (resultId s.processKey s.nextSequence, { s with nextSequence := s.nextSequence + 1 })

def insert (s : ResultStore) (projectRoot : PathBuf) (json : String) (now : Nat) :
    Except ResultTooLarge String × ResultStore :=
  let (id, s) := (s.expire now).nextId
  let retainedBytes := retainedSize id projectRoot json
  if s.maxBytes < retainedBytes then
    (.error { retainedBytes, limit := s.maxBytes }, s)
  else
    let s := Loop.run (evictRound retainedBytes) s.entries.length s
    let entry : StoredResult := { id, projectRoot, json, storedAt := now, retainedBytes }
    (.ok id,
      { s with retainedBytes := s.retainedBytes + retainedBytes, entries := s.entries ++ [entry] })

def get (s : ResultStore) (id : String) (projectRoot : PathBuf) (now : Nat) :
    Option String × ResultStore :=
  let s := s.expire now
  ((s.entries.find? (StoredResult.isFor id projectRoot)).map StoredResult.json, s)

end ResultStore

/-! ## 2. The reference -/

/-- What the store may hold at a moment: unexpired results, few enough and small enough. -/
def fits (maxBytes now : Nat) (results : List StoredResult) : Bool :=
  results.all (fun e => !e.expired now) && decide (results.length ≤ maxStoredResults) &&
    decide ((results.map StoredResult.cost).sum ≤ maxBytes)

/-- What the store holds of all results ever accepted. -/
def referenceContents (maxBytes now : Nat) (inserted : List StoredResult) : List StoredResult :=
  longestSuffix (fits maxBytes now) inserted

/-! ## 3. Runs -/

inductive StoreCall
  | insert (projectRoot : PathBuf) (json : String) (now : Nat)
  | get (id : String) (projectRoot : PathBuf) (now : Nat)
deriving DecidableEq, Repr

def StoreCall.now : StoreCall → Nat
  | .insert _ _ now => now
  | .get _ _ now => now

/-- A run of the store: the moment of the last call, the results accepted so far, and an
identifier for every insert, accepted or not. -/
structure Log where
  store : ResultStore
  clock : Nat
  inserted : List StoredResult
  issued : List String
deriving DecidableEq, Repr

namespace Log

def start (maxBytes : Nat) (processKey : UInt64) (clock : Nat) : Log :=
  { store := .withProcessKey maxBytes processKey, clock, inserted := [], issued := [] }

/-- One call, not before the last one. -/
def step (log : Log) (call : StoreCall) : Option Log :=
  if call.now < log.clock then none
  else
    match call with
    | .insert projectRoot json now =>
      let (answer, store) := log.store.insert projectRoot json now
      let issued := log.issued ++ [resultId log.store.processKey log.store.nextSequence]
      match answer with
      | .error _ => some { store, clock := now, inserted := log.inserted, issued }
      | .ok id =>
        let entry : StoredResult :=
          { id, projectRoot, json, storedAt := now,
            retainedBytes := retainedSize id projectRoot json }
        some { store, clock := now, inserted := log.inserted ++ [entry], issued }
    | .get id projectRoot now =>
      some { log with store := (log.store.get id projectRoot now).2, clock := now }

end Log

/-! ## 4. What each call leaves -/

namespace ResultStore

/-- The byte counter is the sum of the stored costs. -/
structure Sound (s : ResultStore) : Prop where
  costs : ∀ e ∈ s.entries, e.retainedBytes = e.cost
  retained : s.retainedBytes = (s.entries.map StoredResult.cost).sum

/-- What removals leave alone. -/
structure SameBut (s s' : ResultStore) : Prop where
  maxBytes : s'.maxBytes = s.maxBytes
  processKey : s'.processKey = s.processKey
  nextSequence : s'.nextSequence = s.nextSequence

theorem SameBut.trans {s t u : ResultStore} (h₁ : SameBut s t) (h₂ : SameBut t u) : SameBut s u :=
  ⟨h₂.maxBytes.trans h₁.maxBytes, h₂.processKey.trans h₁.processKey,
    h₂.nextSequence.trans h₁.nextSequence⟩

theorem sameBut_evictOldest (s : ResultStore) : SameBut s s.evictOldest := by
  unfold evictOldest
  split
  · exact ⟨rfl, rfl, rfl⟩
  · exact ⟨rfl, rfl, rfl⟩

theorem sameBut_expire (s : ResultStore) (now : Nat) : SameBut s (s.expire now) := by
  refine Loop.run_invariant (P := SameBut s) (fun t t' ht h => ?_) _ ⟨rfl, rfl, rfl⟩
  unfold expireRound at ht
  split at ht
  · cases ht
    exact h.trans (sameBut_evictOldest t)
  · cases ht

theorem evictOldest_of_cons {s : ResultStore} {a : StoredResult} {l : List StoredResult}
    (hs : s.Sound) (h : s.entries = a :: l) :
    s.evictOldest.entries = l ∧ s.evictOldest.Sound ∧ SameBut s s.evictOldest := by
  have he : s.evictOldest =
    { s with entries := l, retainedBytes := s.retainedBytes - a.retainedBytes } := by
    rw [evictOldest, h]
  have hsum : s.retainedBytes = a.cost + (l.map StoredResult.cost).sum := by
    rw [hs.retained, h, List.map_cons, List.sum_cons]
  have ha : a.retainedBytes = a.cost := hs.costs a (by rw [h]; exact List.mem_cons_self)
  rw [he]
  refine ⟨rfl, ⟨fun e hmem => hs.costs e (by rw [h]; exact List.mem_cons_of_mem a hmem), ?_⟩, rfl,
    rfl, rfl⟩
  calc s.retainedBytes - a.retainedBytes
      = a.cost + (l.map StoredResult.cost).sum - a.cost := by rw [hsum, ha]
    _ = (l.map StoredResult.cost).sum := Nat.add_sub_cancel_left _ _

/-- The property of the deque at which `expire` stops. -/
def freshFront (now : Nat) (results : List StoredResult) : Bool :=
  !results.head?.any (StoredResult.expired now)

theorem expire_spec {s : ResultStore} (hs : s.Sound) (now : Nat) :
    Loop.Exits (expireRound now) s (s.expire now) ∧
      (s.expire now).entries = longestSuffix (freshFront now) s.entries ∧
      (s.expire now).Sound ∧ SameBut s (s.expire now) := by
  refine exits_longestSuffix (p := freshFront now) (I := fun t => t.Sound ∧ SameBut s t) rfl
    ?_ ?_ _ s ⟨hs, rfl, rfl, rfl⟩ le_rfl
  · intro t _ hp
    have hhead : t.entries.head?.any (StoredResult.expired now) = false := by
      simpa [freshFront] using hp
    rw [expireRound, hhead]
    rfl
  · intro t a l ht hq hp
    have hhead : t.entries.head?.any (StoredResult.expired now) = true := by
      simpa [freshFront] using hp
    obtain ⟨hl, hsound, hsame⟩ := evictOldest_of_cons ht.1 hq
    refine ⟨t.evictOldest, ?_, hl, hsound, ht.2.trans hsame⟩
    rw [expireRound, hhead]
    rfl

/-- The property of the deque at which the loop of `insert` stops. -/
def hasRoom (maxBytes retainedBytes : Nat) (results : List StoredResult) : Bool :=
  decide (results.length < maxStoredResults) &&
    decide ((results.map StoredResult.cost).sum + retainedBytes ≤ maxBytes)

theorem hasRoom_entries {s : ResultStore} (hs : s.Sound) (retainedBytes : Nat) :
    hasRoom s.maxBytes retainedBytes s.entries = !s.overBudget retainedBytes := by
  have hc := hs.retained
  rw [Bool.eq_iff_iff]
  simp only [hasRoom, overBudget, Bool.and_eq_true, decide_eq_true_eq, Bool.not_eq_true',
    Bool.or_eq_false_iff, decide_eq_false_iff_not]
  omega

theorem evict_spec {s : ResultStore} (hs : s.Sound) {retainedBytes : Nat}
    (hle : retainedBytes ≤ s.maxBytes) :
    Loop.Exits (evictRound retainedBytes) s
        (Loop.run (evictRound retainedBytes) s.entries.length s) ∧
      (Loop.run (evictRound retainedBytes) s.entries.length s).entries
        = longestSuffix (hasRoom s.maxBytes retainedBytes) s.entries ∧
      (Loop.run (evictRound retainedBytes) s.entries.length s).Sound ∧
      SameBut s (Loop.run (evictRound retainedBytes) s.entries.length s) := by
  refine exits_longestSuffix (p := hasRoom s.maxBytes retainedBytes)
    (I := fun t => t.Sound ∧ SameBut s t) ?_ ?_ ?_ _ s ⟨hs, rfl, rfl, rfl⟩ le_rfl
  · simpa [hasRoom, maxStoredResults] using hle
  · intro t ht hp
    rw [← ht.2.maxBytes, hasRoom_entries ht.1, Bool.not_eq_true'] at hp
    rw [evictRound, hp]
    rfl
  · intro t a l ht hq hp
    rw [← ht.2.maxBytes, hasRoom_entries ht.1, Bool.not_eq_false'] at hp
    obtain ⟨hl, hsound, hsame⟩ := evictOldest_of_cons ht.1 hq
    refine ⟨t.evictOldest, ?_, hl, hsound, ht.2.trans hsame⟩
    rw [evictRound, hp]
    rfl

/-- The eviction loop finds the deque nonempty in every round. -/
theorem nonempty_of_overBudget {s t : ResultStore} (hs : s.Sound) {retainedBytes : Nat}
    (hle : retainedBytes ≤ s.maxBytes)
    (h : Relation.ReflTransGen (Loop.Round (evictRound retainedBytes)) s t)
    (ht : t.overBudget retainedBytes = true) : t.entries ≠ [] := by
  have hempty : ∀ u : ResultStore, u.Sound → SameBut s u → u.overBudget retainedBytes = true →
      u.entries ≠ [] := by
    intro u hu hsame hover hnil
    have hr := hu.retained
    rw [hnil] at hr
    simp only [overBudget, hnil, maxStoredResults, Bool.or_eq_true, decide_eq_true_eq,
      List.length_nil, hsame.maxBytes, hr, List.map_nil, List.sum_nil] at hover
    omega
  suffices hinv : t.Sound ∧ SameBut s t from hempty t hinv.1 hinv.2 ht
  clear ht
  induction h with
  | refl => exact ⟨hs, rfl, rfl, rfl⟩
  | tail _ hround ih =>
    rename_i u v _
    unfold Loop.Round evictRound at hround
    split at hround
    · rename_i hover
      cases hq : u.entries with
      | nil => exact absurd hq (hempty u ih.1 ih.2 hover)
      | cons a l =>
        obtain ⟨_, hsound, hsame⟩ := evictOldest_of_cons ih.1 hq
        cases hround
        exact ⟨hsound, ih.2.trans hsame⟩
    · cases hround

theorem insert_refused {s : ResultStore} {projectRoot : PathBuf} {json : String} {now : Nat}
    (h : (s.expire now).nextId.2.maxBytes
      < retainedSize (s.expire now).nextId.1 projectRoot json) :
    s.insert projectRoot json now
      = (.error { retainedBytes := retainedSize (s.expire now).nextId.1 projectRoot json,
                  limit := (s.expire now).nextId.2.maxBytes }, (s.expire now).nextId.2) := by
  simp only [insert]
  rw [if_pos h]

theorem insert_accepted {s : ResultStore} {projectRoot : PathBuf} {json : String} {now : Nat}
    (h : ¬ (s.expire now).nextId.2.maxBytes
      < retainedSize (s.expire now).nextId.1 projectRoot json) :
    s.insert projectRoot json now
      = let (id, s) := (s.expire now).nextId
        let retainedBytes := retainedSize id projectRoot json
        let s := Loop.run (evictRound retainedBytes) s.entries.length s
        (.ok id,
          { s with
            retainedBytes := s.retainedBytes + retainedBytes
            entries := s.entries ++
              [{ id, projectRoot, json, storedAt := now, retainedBytes }] }) := by
  simp only [insert]
  rw [if_neg h]

end ResultStore

/-! ## 5. The reference over time -/

/-- An accepted result has the next identifier and is within the byte budget. -/
theorem ResultStore.insert_eq_ok {s : ResultStore} {projectRoot : PathBuf} {json id : String}
    {now : Nat} (h : (s.insert projectRoot json now).1 = .ok id) :
    id = resultId s.processKey s.nextSequence ∧ retainedSize id projectRoot json ≤ s.maxBytes := by
  have hsame := sameBut_expire s now
  have hid : (s.expire now).nextId.1 = resultId s.processKey s.nextSequence := by
    rw [← hsame.processKey, ← hsame.nextSequence]
    rfl
  by_cases hbig : (s.expire now).nextId.2.maxBytes
      < retainedSize (s.expire now).nextId.1 projectRoot json
  · rw [insert_refused hbig] at h
    cases h
  · rw [insert_accepted hbig] at h
    cases h
    have hmax : (s.expire now).nextId.2.maxBytes = s.maxBytes := hsame.maxBytes
    exact ⟨hid, by rw [← hmax]; exact Nat.le_of_not_lt hbig⟩

theorem fits_nil (maxBytes now : Nat) : fits maxBytes now [] = true := by
  simp [fits]

theorem fits_mono {maxBytes now now' : Nat} (h : now ≤ now') (results : List StoredResult)
    (hf : fits maxBytes now' results = true) : fits maxBytes now results = true := by
  simp only [fits, Bool.and_eq_true, List.all_eq_true, Bool.not_eq_true', StoredResult.expired,
    decide_eq_false_iff_not] at hf ⊢
  refine ⟨⟨fun e he => ?_, hf.1.2⟩, hf.2⟩
  have := hf.1.1 e he
  omega

/-- Count and size are inherited by suffixes, so among them only expiry decides. -/
theorem fits_of_suffix {maxBytes now now' : Nat} {results rest : List StoredResult}
    (hf : fits maxBytes now results = true) (hs : rest <:+ results) :
    fits maxBytes now' rest = rest.all fun e => !e.expired now' := by
  obtain ⟨front, rfl⟩ := hs
  simp only [fits, Bool.and_eq_true, decide_eq_true_eq, List.length_append, List.map_append,
    List.sum_append] at hf
  have hlen : rest.length ≤ maxStoredResults := by omega
  have hsum : (rest.map StoredResult.cost).sum ≤ maxBytes := by omega
  simp [fits, hlen, hsum]

/-- Where results are in the order of their arrival, an unexpired front means nothing expired. -/
theorem freshFront_eq_all {now : Nat} {results : List StoredResult}
    (h : results.Pairwise fun a b => a.storedAt ≤ b.storedAt) :
    ResultStore.freshFront now results = results.all fun e => !e.expired now := by
  cases results with
  | nil => rfl
  | cons a l =>
    have ha := (List.pairwise_cons.mp h).1
    rw [Bool.eq_iff_iff]
    simp only [ResultStore.freshFront, List.head?_cons, Option.any_some, Bool.not_eq_true',
      StoredResult.expired, decide_eq_false_iff_not, List.all_eq_true, List.mem_cons,
      forall_eq_or_imp]
    constructor
    · intro hfirst
      refine ⟨hfirst, fun e he => ?_⟩
      have := ha e he
      omega
    · exact fun hall => hall.1

theorem longestSuffix_freshFront {now : Nat} {results : List StoredResult}
    (h : results.Pairwise fun a b => a.storedAt ≤ b.storedAt) :
    longestSuffix (ResultStore.freshFront now) results
      = results.filter fun e => !e.expired now := by
  have hall : longestSuffix (ResultStore.freshFront now) results
      = longestSuffix (fun s => s.all fun e => !e.expired now) results :=
    longestSuffix_congr fun s hs _ => freshFront_eq_all (h.sublist hs.sublist)
  rw [hall]
  refine longestSuffix_all_eq_filter (h.imp fun {a b} hab => ?_)
  simp only [StoredResult.expired, Bool.not_eq_true', decide_eq_false_iff_not]
  omega

/-- Expiry turns the contents at one moment into those at a later one. -/
theorem referenceContents_expire {maxBytes now now' : Nat} (hle : now ≤ now')
    {inserted : List StoredResult}
    (h : inserted.Pairwise fun a b => a.storedAt ≤ b.storedAt) :
    longestSuffix (ResultStore.freshFront now') (referenceContents maxBytes now inserted)
      = referenceContents maxBytes now' inserted := by
  have hsub : referenceContents maxBytes now inserted <:+ inserted := longestSuffix_suffix _ _
  have hfits : fits maxBytes now (referenceContents maxBytes now inserted) = true :=
    longestSuffix_holds (fits_nil maxBytes now) inserted
  calc longestSuffix (ResultStore.freshFront now') (referenceContents maxBytes now inserted)
      = longestSuffix (fits maxBytes now') (referenceContents maxBytes now inserted) := by
        refine longestSuffix_congr fun s hs _ => ?_
        rw [fits_of_suffix hfits hs]
        exact freshFront_eq_all (h.sublist (hs.trans hsub).sublist)
    _ = referenceContents maxBytes now' inserted :=
        longestSuffix_narrow (fits_mono hle) inserted

/-- Making room and pushing turns the contents into those with the new result. -/
theorem referenceContents_snoc {maxBytes now : Nat} {inserted : List StoredResult}
    {e : StoredResult} (hnow : e.storedAt = now) (hcost : e.cost ≤ maxBytes) :
    referenceContents maxBytes now (inserted ++ [e])
      = longestSuffix (ResultStore.hasRoom maxBytes e.cost)
          (referenceContents maxBytes now inserted) ++ [e] := by
  have hfresh : e.expired now = false := by
    simp [StoredResult.expired, storedResultTtl, hnow]
  have hone : fits maxBytes now [e] = true := by
    simp [fits, hfresh, maxStoredResults, hcost]
  have hfits : fits maxBytes now (referenceContents maxBytes now inserted) = true :=
    longestSuffix_holds (fits_nil maxBytes now) inserted
  have hdrop : ∀ s, fits maxBytes now (s ++ [e]) = true → fits maxBytes now s = true := by
    intro s hs
    simp only [fits, List.all_append, Bool.and_eq_true, List.length_append, List.map_append,
      List.sum_append, decide_eq_true_eq] at hs ⊢
    exact ⟨⟨hs.1.1.1, by omega⟩, by omega⟩
  rw [referenceContents, longestSuffix_snoc hone, ← longestSuffix_narrow hdrop]
  congr 1
  refine longestSuffix_congr fun s hs _ => ?_
  have hall : (s.all fun e => !e.expired now) = true := by
    simp only [fits, Bool.and_eq_true, List.all_eq_true] at hfits
    exact List.all_eq_true.mpr fun x hx => hfits.1.1 x (hs.subset hx)
  rw [Bool.eq_iff_iff]
  simp only [fits, ResultStore.hasRoom, List.all_append, hall, hfresh, List.all_cons, List.all_nil,
    Bool.not_false, Bool.and_true, Bool.true_and, List.length_append, List.length_cons,
    List.length_nil, List.map_append, List.sum_append, List.map_cons, List.map_nil, List.sum_cons,
    List.sum_nil, Nat.add_zero, Bool.and_eq_true, decide_eq_true_eq]
  omega

/-! ## 6. Identifiers -/

theorem hexDigit_injective {a b : Nat} (ha : a < 16) (hb : b < 16)
    (h : a.digitChar = b.digitChar) : a = b := by
  have key : ∀ a b : Fin 16, a.val.digitChar = b.val.digitChar → a = b := by decide
  exact congrArg Fin.val (key ⟨a, ha⟩ ⟨b, hb⟩ h)

theorem hex_injective : ∀ {a b : Nat}, hex a = hex b → a = b := by
  intro a
  induction a using Nat.strongRecOn with
  | ind a ih =>
    intro b h
    unfold hex at h
    rw [Nat.toDigits_eq_if (by decide), Nat.toDigits_eq_if (b := 16) (n := b) (by decide)] at h
    split at h
    · rename_i ha
      split at h
      · rename_i hb
        exact hexDigit_injective ha hb (List.singleton_inj.mp h)
      · have hlen := congrArg List.length h
        have := Nat.length_toDigits_pos (b := 16) (n := b / 16)
        simp only [List.length_append, List.length_cons, List.length_nil] at hlen
        omega
    · split at h
      · have hlen := congrArg List.length h
        have := Nat.length_toDigits_pos (b := 16) (n := a / 16)
        simp only [List.length_append, List.length_cons, List.length_nil] at hlen
        omega
      · obtain ⟨hhigh, hlow⟩ := List.append_inj' h rfl
        have hdiv : a / 16 = b / 16 := ih (a / 16) (by omega) hhigh
        have hmod : a % 16 = b % 16 :=
          hexDigit_injective (by omega) (by omega) (List.singleton_inj.mp hlow)
        omega

theorem resultId_injective (processKey : UInt64) {a b : Nat}
    (h : resultId processKey a = resultId processKey b) : a = b := by
  have hl := String.ofList_injective h
  rw [List.cons.injEq] at hl
  exact hex_injective (List.append_cancel_left hl.2)

/-! ## 7. Runs -/

namespace Log

/-- What holds after every call. -/
structure Refines (maxBytes : Nat) (processKey : UInt64) (log : Log) : Prop where
  limit : log.store.maxBytes = maxBytes
  key : log.store.processKey = processKey
  contents : log.store.entries = referenceContents maxBytes log.clock log.inserted
  sound : log.store.Sound
  sorted : log.inserted.Pairwise fun a b => a.storedAt ≤ b.storedAt
  before : ∀ e ∈ log.inserted, e.storedAt ≤ log.clock
  costs : ∀ e ∈ log.inserted, e.retainedBytes = e.cost
  issued : log.issued = (List.range log.store.nextSequence).map (resultId processKey)
  ids : (log.inserted.map StoredResult.id).Sublist log.issued

theorem Refines.start (maxBytes : Nat) (processKey : UInt64) (clock : Nat) :
    Refines maxBytes processKey (start maxBytes processKey clock) where
  limit := rfl
  key := rfl
  contents := rfl
  sound := ⟨by simp [Log.start, ResultStore.withProcessKey], rfl⟩
  sorted := List.Pairwise.nil
  before := by simp [Log.start]
  costs := by simp [Log.start]
  issued := rfl
  ids := List.Sublist.refl []

variable {maxBytes : Nat} {processKey : UInt64} {log log' : Log}

theorem Refines.entries_subset (h : Refines maxBytes processKey log) :
    log.store.entries <:+ log.inserted := by
  rw [h.contents]
  exact longestSuffix_suffix _ _

/-- Expiry at a later moment: the contents of that moment, and nothing live is lost. -/
theorem Refines.expire (h : Refines maxBytes processKey log) {now : Nat} (hle : log.clock ≤ now) :
    (log.store.expire now).entries = referenceContents maxBytes now log.inserted ∧
      (log.store.expire now).entries = log.store.entries.filter (fun e => !e.expired now) ∧
      (log.store.expire now).Sound ∧ ResultStore.SameBut log.store (log.store.expire now) := by
  obtain ⟨_, hentries, hsound, hsame⟩ := ResultStore.expire_spec h.sound now
  refine ⟨?_, ?_, hsound, hsame⟩
  · rw [hentries, h.contents]
    exact referenceContents_expire hle h.sorted
  · rw [hentries]
    exact longestSuffix_freshFront (h.sorted.sublist h.entries_subset.sublist)

/-- The run after a call that accepts nothing. -/
theorem Refines.kept (h : Refines maxBytes processKey log) {now : Nat} (hle : log.clock ≤ now) :
    Refines maxBytes processKey { log with store := log.store.expire now, clock := now } := by
  obtain ⟨hcontents, _, hsound, hsame⟩ := h.expire hle
  exact
    { limit := hsame.maxBytes.trans h.limit
      key := hsame.processKey.trans h.key
      contents := hcontents
      sound := hsound
      sorted := h.sorted
      before := fun e he => (h.before e he).trans hle
      costs := h.costs
      issued := by rw [hsame.nextSequence]; exact h.issued
      ids := h.ids }

/-- The run after an identifier was drawn for a result that is refused. -/
theorem Refines.refused (h : Refines maxBytes processKey log) {now : Nat} (hle : log.clock ≤ now) :
    Refines maxBytes processKey
      { store := (log.store.expire now).nextId.2, clock := now, inserted := log.inserted,
        issued := log.issued ++ [resultId log.store.processKey log.store.nextSequence] } := by
  have hk := h.kept hle
  obtain ⟨_, _, _, hsame⟩ := h.expire hle
  refine
    { limit := hk.limit
      key := hk.key
      contents := hk.contents
      sound := ⟨hk.sound.costs, hk.sound.retained⟩
      sorted := hk.sorted
      before := hk.before
      costs := hk.costs
      issued := ?_
      ids := hk.ids.trans (List.sublist_append_left _ _) }
  have hseq : (log.store.expire now).nextId.2.nextSequence = log.store.nextSequence + 1 :=
    congrArg (· + 1) hsame.nextSequence
  rw [hseq, List.range_succ, List.map_append, ← h.issued, h.key]
  rfl

/-- The run after an accepted result. -/
theorem Refines.accepted (h : Refines maxBytes processKey log) {now : Nat}
    (hle : log.clock ≤ now) {id : String} {projectRoot : PathBuf} {json : String}
    (hid : id = resultId log.store.processKey log.store.nextSequence)
    (hfit : retainedSize id projectRoot json ≤ maxBytes) {store : ResultStore}
    (hstore : store = Loop.run (ResultStore.evictRound (retainedSize id projectRoot json))
      (log.store.expire now).nextId.2.entries.length (log.store.expire now).nextId.2)
    {entry : StoredResult}
    (hentry : entry =
      { id, projectRoot, json, storedAt := now,
        retainedBytes := retainedSize id projectRoot json }) :
    Refines maxBytes processKey
      { store :=
          { store with
            retainedBytes := store.retainedBytes + retainedSize id projectRoot json
            entries := store.entries ++ [entry] }
        clock := now
        inserted := log.inserted ++ [entry]
        issued := log.issued ++ [id] } := by
  have hr := h.refused hle
  have hcost : entry.cost = retainedSize id projectRoot json := by rw [hentry]; rfl
  have hnow : entry.storedAt = now := by rw [hentry]
  have hfit' : retainedSize id projectRoot json ≤ (log.store.expire now).nextId.2.maxBytes := by
    rw [hr.limit]
    exact hfit
  obtain ⟨_, hentries, hsound, hsame⟩ := ResultStore.evict_spec hr.sound hfit'
  rw [← hstore] at hentries hsound hsame
  rw [hr.limit, hr.contents, ← hcost] at hentries
  refine
    { limit := hsame.maxBytes.trans hr.limit
      key := hsame.processKey.trans hr.key
      contents := ?_
      sound := ⟨?_, ?_⟩
      sorted := ?_
      before := ?_
      costs := ?_
      issued := ?_
      ids := ?_ }
  · rw [referenceContents_snoc hnow (by rw [hcost]; exact hfit), ← hentries]
  · intro e he
    rcases List.mem_append.mp he with he | he
    · exact hsound.costs e he
    · rw [List.mem_singleton.mp he, hentry]
      rfl
  · calc store.retainedBytes + retainedSize id projectRoot json
        = (store.entries.map StoredResult.cost).sum + entry.cost := by rw [hsound.retained, hcost]
      _ = ((store.entries ++ [entry]).map StoredResult.cost).sum := by simp
  · refine List.pairwise_append.mpr ⟨h.sorted, List.pairwise_singleton _ _, fun a ha b hb => ?_⟩
    rw [List.mem_singleton.mp hb, hnow]
    exact (h.before a ha).trans hle
  · intro e he
    rcases List.mem_append.mp he with he | he
    · exact (h.before e he).trans hle
    · rw [List.mem_singleton.mp he]
      exact hnow.le
  · intro e he
    rcases List.mem_append.mp he with he | he
    · exact h.costs e he
    · rw [List.mem_singleton.mp he, hentry]
      rfl
  · rw [hid]
    exact hr.issued.trans (by rw [hsame.nextSequence])
  · have hone : [entry].map StoredResult.id = [id] := by rw [hentry]; rfl
    rw [List.map_append, hone]
    exact h.ids.append (List.Sublist.refl [id])

/-- Every call keeps the refinement. -/
theorem Refines.step (h : Refines maxBytes processKey log) {call : StoreCall}
    (hs : log.step call = some log') : Refines maxBytes processKey log' := by
  unfold Log.step at hs
  split at hs
  · cases hs
  rename_i hlt
  have hle : log.clock ≤ call.now := Nat.le_of_not_lt hlt
  cases call with
  | get id projectRoot now =>
    cases hs
    exact h.kept hle
  | insert projectRoot json now =>
    have hr := h.refused hle
    obtain ⟨_, _, _, hsame⟩ := h.expire hle
    have hid : (log.store.expire now).nextId.1
        = resultId log.store.processKey log.store.nextSequence := by
      rw [← hsame.processKey, ← hsame.nextSequence]
      rfl
    by_cases hbig : (log.store.expire now).nextId.2.maxBytes
        < retainedSize (log.store.expire now).nextId.1 projectRoot json
    · simp only [ResultStore.insert_refused hbig] at hs
      cases hs
      exact hr
    · simp only [ResultStore.insert_accepted hbig] at hs
      cases hs
      rw [hid]
      refine h.accepted hle rfl ?_ rfl rfl
      rw [← hid, ← hr.limit]
      exact Nat.le_of_not_lt hbig

theorem Refines.of_run {clock : Nat}
    (h : Steps.Reaches Log.step (fun _ _ => True) (Log.start maxBytes processKey clock) log) :
    Refines maxBytes processKey log :=
  h.invariant (.start maxBytes processKey clock) fun _ _ _ hu _ hs => hu.step hs

/-- The store and the reference agree, after any run and in whatever call comes next. -/
structure Agrees (maxBytes : Nat) (log : Log) : Prop where
  /-- The contents are the longest suffix of the accepted results that fits. -/
  contents : log.store.entries = referenceContents maxBytes log.clock log.inserted
  retained : log.store.retainedBytes = (log.store.entries.map StoredResult.cost).sum
  issued : log.issued.Nodup
  ids : (log.inserted.map StoredResult.id).Nodup
  /-- The eviction loop comes to its exit and pops from a nonempty deque in every round. -/
  evicts : ∀ projectRoot json now, log.clock ≤ now →
    let (id, s) := (log.store.expire now).nextId
    let size := retainedSize id projectRoot json
    size ≤ s.maxBytes →
      Loop.Exits (ResultStore.evictRound size) s
        (Loop.run (ResultStore.evictRound size) s.entries.length s) ∧
      ∀ t, Relation.ReflTransGen (Loop.Round (ResultStore.evictRound size)) s t →
        t.overBudget size = true → t.entries ≠ []
  /-- A refused insert removes what has expired and nothing else. -/
  refused : ∀ projectRoot json now e, log.clock ≤ now →
    (log.store.insert projectRoot json now).1 = .error e →
      (log.store.insert projectRoot json now).2.entries
        = log.store.entries.filter fun x => !x.expired now
  /-- A text is found exactly for the identifier and the project of a stored, live result. -/
  got : ∀ id projectRoot now text, log.clock ≤ now →
    ((log.store.get id projectRoot now).1 = some text ↔
      ∃ e ∈ log.store.entries, e ∈ log.inserted ∧ e.id = id ∧
        pathComponents e.projectRoot = pathComponents projectRoot ∧ e.expired now = false ∧
        e.json = text)

theorem Refines.issued_nodup (h : Refines maxBytes processKey log) : log.issued.Nodup := by
  rw [h.issued]
  exact List.nodup_range.map fun _ _ => resultId_injective processKey

/-- At most one stored result has an identifier. -/
theorem Refines.eq_of_id (h : Refines maxBytes processKey log) {a b : StoredResult}
    (ha : a ∈ log.inserted) (hb : b ∈ log.inserted) (hid : a.id = b.id) : a = b :=
  List.inj_on_of_nodup_map (h.issued_nodup.sublist h.ids) ha hb hid

theorem Refines.got (h : Refines maxBytes processKey log) {now : Nat} (hle : log.clock ≤ now)
    (id : String) (projectRoot : PathBuf) (text : String) :
    (log.store.get id projectRoot now).1 = some text ↔
      ∃ e ∈ log.store.entries, e ∈ log.inserted ∧ e.id = id ∧
        pathComponents e.projectRoot = pathComponents projectRoot ∧ e.expired now = false ∧
        e.json = text := by
  obtain ⟨_, hlive, _, _⟩ := h.expire hle
  have hmem : ∀ e, e ∈ (log.store.expire now).entries ↔
      e ∈ log.store.entries ∧ e.expired now = false := by
    intro e
    rw [hlive, List.mem_filter, Bool.not_eq_true']
  have hfor : ∀ e : StoredResult, e.isFor id projectRoot = true ↔
      e.id = id ∧ pathComponents e.projectRoot = pathComponents projectRoot := by
    intro e
    simp [StoredResult.isFor]
  simp only [ResultStore.get, Option.map_eq_some_iff]
  constructor
  · rintro ⟨e, hfind, htext⟩
    obtain ⟨hid, hroot⟩ := (hfor e).mp (List.find?_some hfind)
    obtain ⟨he, hfresh⟩ := (hmem e).mp (List.mem_of_find?_eq_some hfind)
    exact ⟨e, he, h.entries_subset.subset he, hid, hroot, hfresh, htext⟩
  · rintro ⟨e, he, hins, hid, hroot, hfresh, htext⟩
    have hsome : ((log.store.expire now).entries.find?
      (StoredResult.isFor id projectRoot)).isSome :=
      List.find?_isSome.mpr ⟨e, (hmem e).mpr ⟨he, hfresh⟩, (hfor e).mpr ⟨hid, hroot⟩⟩
    obtain ⟨e', hfind⟩ := Option.isSome_iff_exists.mp hsome
    have hid' : e'.id = id := ((hfor e').mp (List.find?_some hfind)).1
    have he' := ((hmem e').mp (List.mem_of_find?_eq_some hfind)).1
    have heq : e' = e :=
      h.eq_of_id (h.entries_subset.subset he') hins (hid'.trans hid.symm)
    exact ⟨e', hfind, by rw [heq]; exact htext⟩

theorem Refines.agrees (h : Refines maxBytes processKey log) : Agrees maxBytes log where
  contents := h.contents
  retained := h.sound.retained
  issued := h.issued_nodup
  ids := h.issued_nodup.sublist h.ids
  evicts := by
    intro projectRoot json now hle
    have hr := h.refused hle
    intro hfit
    exact ⟨(ResultStore.evict_spec hr.sound hfit).1, fun t ht =>
      ResultStore.nonempty_of_overBudget hr.sound hfit ht⟩
  refused := by
    intro projectRoot json now e hle herr
    by_cases hbig : (log.store.expire now).nextId.2.maxBytes
        < retainedSize (log.store.expire now).nextId.1 projectRoot json
    · rw [ResultStore.insert_refused hbig]
      exact (h.expire hle).2.1
    · rw [ResultStore.insert_accepted hbig] at herr
      cases herr
  got := fun id projectRoot _ text hle => h.got hle id projectRoot text

end Log

/-- **The store refines the reference** in every run of inserts and gets whose moments do not go
back. -/
theorem refines_reference {maxBytes : Nat} {processKey : UInt64} {clock : Nat} {log : Log}
    (h : Steps.Reaches Log.step (fun _ _ => True) (Log.start maxBytes processKey clock) log) :
    log.Agrees maxBytes :=
  (Log.Refines.of_run h).agrees

/-- Two results do not fit in 60 bytes: the second evicts the first, and a third, too large
alone, evicts nothing. -/
theorem refines_reference_evicting :
    ∃ log, Steps.runWhile Log.step (fun _ _ => true) (Log.start 60 7 0)
        [.insert [47, 112] "[1,2,3,4,5,6,7,8,9]" 1, .insert [47, 113] "[9,8,7,6,5,4,3,2,1]" 2,
          .insert [47, 112] "[1,2,3,4,5,6,7,8,9,10,11,12,13,14,15,16,17,18]" 3,
          .get "r00000000000000071" [47, 113, 47] 4] = some log ∧
      log.store.entries.map StoredResult.json = ["[9,8,7,6,5,4,3,2,1]"] ∧ log.Agrees 60 := by
  have hplayed : (Steps.runWhile Log.step (fun _ _ => true) (Log.start 60 7 0)
        [.insert [47, 112] "[1,2,3,4,5,6,7,8,9]" 1, .insert [47, 113] "[9,8,7,6,5,4,3,2,1]" 2,
          .insert [47, 112] "[1,2,3,4,5,6,7,8,9,10,11,12,13,14,15,16,17,18]" 3,
          .get "r00000000000000071" [47, 113, 47] 4]).map
      (fun log => log.store.entries.map StoredResult.json) = some ["[9,8,7,6,5,4,3,2,1]"] := by
    decide +kernel
  obtain ⟨log, hlog, hjson⟩ := Option.map_eq_some_iff.mp hplayed
  have hrun := Steps.reaches_of_runWhile _ hlog
  exact ⟨log, hlog, hjson, refines_reference (hrun.mono fun _ _ _ => trivial)⟩

end MavenMcp
