/-
# The books of the cache

`retained_bytes` adds up four tables: cached runners and indexes, and the released runners,
released indexes and reservations that somebody still holds.  Read as ledgers (`indexAccounts`,
`runnerAccounts`, `reservations`), what an operation does to them is always the same: it moves
entries between the tables, sheds entries nobody holds, and adds what it took in.

`Settles` says this for one operation.  It composes, so the eviction loops need no invariant of
their own; the one operation that does not settle by itself is a publication that overwrites an
index of its root, because nothing moves the overwritten entry to `released`
(`placeIndex_settles`).
-/
import MavenMcp.Lib.Ledger
import MavenMcp.ProjectCache.Runs

namespace MavenMcp

open Ledger

variable {ρ ι : Type}

/-! ## 1. Ledgers -/

/-- What a state's index is charged as. -/
def ProjectState.indexAccount (st : ProjectState ρ ι) : Option ReleasedIndex :=
  st.index.map fun e => ⟨e.index.ptr, e.bytes⟩

/-- What a state's runner is charged as. -/
def ProjectState.runnerAccount (st : ProjectState ρ ι) : Option ReleasedRunner :=
  st.runner.map RunnerSnapshot.release

namespace ProjectCache

def cachedIndexes (c : ProjectCache ρ ι) : List ReleasedIndex :=
  c.states.pick ProjectState.indexAccount

def cachedRunners (c : ProjectCache ρ ι) : List ReleasedRunner :=
  c.states.pick ProjectState.runnerAccount

/-- Every index the cache charges for, cached or released. -/
def indexAccounts (c : ProjectCache ρ ι) : List ReleasedIndex := c.cachedIndexes ++ c.released

/-- Every runner the cache charges for, cached or released. -/
def runnerAccounts (c : ProjectCache ρ ι) : List ReleasedRunner :=
  c.cachedRunners ++ c.releasedRunners

/-- What `retained_bytes` adds up, ledger by ledger. -/
theorem retainedBytes_eq (held : Held) (c : ProjectCache ρ ι) :
    c.retainedBytes held =
      ((c.cachedIndexes.map ReleasedIndex.bytes).sum +
        ((c.released.filter fun x => held.indexes x.index).map ReleasedIndex.bytes).sum) +
      ((c.cachedRunners.map fun x => runnerBytes held x.runner x.fingerprintBytes).sum +
        ((c.releasedRunners.filter fun x => held.runners x.runner).map
          fun x => runnerBytes held x.runner x.fingerprintBytes).sum) +
      ((c.reservations.filter fun x => held.reservations x.ptr).map Reservation.bytes).sum := by
  have hstates : c.states.sumBy (ProjectState.bytes held) =
      (c.cachedRunners.map fun x => runnerBytes held x.runner x.fingerprintBytes).sum +
      (c.cachedIndexes.map ReleasedIndex.bytes).sum := by
    simp only [AList.sumBy, cachedRunners, cachedIndexes, AList.pick]
    induction c.states.values with
    | nil => rfl
    | cons st sts ih =>
      simp only [List.map_cons, List.sum_cons, List.filterMap_cons, ih, ProjectState.bytes,
        ProjectState.runnerAccount, ProjectState.indexAccount]
      cases st.runner with
      | none =>
        cases st.index <;> simp
        omega
      | some e =>
        cases st.index <;> simp [RunnerSnapshot.bytes, RunnerSnapshot.release] <;> omega
  have hrunners : (c.releasedRunners.map (ReleasedRunner.bytes held)).sum =
      ((c.releasedRunners.filter fun x => held.runners x.runner).map
        fun x => runnerBytes held x.runner x.fingerprintBytes).sum := by
    induction c.releasedRunners with
    | nil => rfl
    | cons x xs ih =>
      simp only [List.map_cons, List.sum_cons, ih, List.filter_cons, ReleasedRunner.bytes]
      split <;> simp
  unfold retainedBytes
  simp only [hstates, hrunners]
  omega

/-! ## 2. Settling -/

/-- `c'` keeps the books of `c`: the new entries `i`, `r` and `s` are taken in, and only entries
nobody holds are shed. -/
structure Settles (held : Held) (i : List ReleasedIndex) (r : List ReleasedRunner)
    (s : List Reservation) (c c' : ProjectCache ρ ι) : Prop where
  indexes : Sheds (fun x => held.indexes x.index) (c.indexAccounts ++ i) c'.indexAccounts
  runners : Sheds (fun x => held.runners x.runner) (c.runnerAccounts ++ r) c'.runnerAccounts
  reservations :
    Sheds (fun x => held.reservations x.ptr) (c.reservations ++ s) c'.reservations

/-- Books kept without anything new. -/
abbrev Keeps (held : Held) (c c' : ProjectCache ρ ι) : Prop := Settles held [] [] [] c c'

theorem Keeps.of_perm {held : Held} {c c' : ProjectCache ρ ι}
    (hi : c.indexAccounts.Perm c'.indexAccounts) (hr : c.runnerAccounts.Perm c'.runnerAccounts)
    (hs : c.reservations = c'.reservations) : Keeps held c c' where
  indexes := by rw [List.append_nil]; exact .of_perm hi
  runners := by rw [List.append_nil]; exact .of_perm hr
  reservations := by rw [List.append_nil, hs]; exact .refl _ _

/-- The counters of a cache are no part of its books. -/
theorem Keeps.of_tables {held : Held} {c c' : ProjectCache ρ ι} (h₁ : c'.states = c.states)
    (h₂ : c'.released = c.released) (h₃ : c'.releasedRunners = c.releasedRunners)
    (h₄ : c'.reservations = c.reservations) : Keeps held c c' := by
  refine .of_perm ?_ ?_ h₄.symm
  · simp only [indexAccounts, cachedIndexes, h₁, h₂]
    exact .refl _
  · simp only [runnerAccounts, cachedRunners, h₁, h₃]
    exact .refl _

theorem Keeps.refl (held : Held) (c : ProjectCache ρ ι) : Keeps held c c :=
  .of_perm (.refl _) (.refl _) rfl

/-- What was taken in before stays taken in while the books are kept. -/
theorem Settles.keep {held : Held} {i : List ReleasedIndex} {r : List ReleasedRunner}
    {s : List Reservation} {a b c : ProjectCache ρ ι} (h₁ : Settles held i r s a b)
    (h₂ : Keeps held b c) : Settles held i r s a c where
  indexes := h₁.indexes.trans (by simpa using h₂.indexes)
  runners := h₁.runners.trans (by simpa using h₂.runners)
  reservations := h₁.reservations.trans (by simpa using h₂.reservations)

theorem Keeps.settle {held : Held} {i : List ReleasedIndex} {r : List ReleasedRunner}
    {s : List Reservation} {a b c : ProjectCache ρ ι} (h₁ : Keeps held a b)
    (h₂ : Settles held i r s b c) : Settles held i r s a c where
  indexes := by
    have := h₁.indexes.append i
    rw [List.append_nil] at this
    exact this.trans h₂.indexes
  runners := by
    have := h₁.runners.append r
    rw [List.append_nil] at this
    exact this.trans h₂.runners
  reservations := by
    have := h₁.reservations.append s
    rw [List.append_nil] at this
    exact this.trans h₂.reservations

/-- Books kept under one pattern of holders are kept under another that holds the same indexes
and runners and no reservation that was dropped. -/
theorem Keeps.congr_held {held held' : Held} {c c' : ProjectCache ρ ι} (h : Keeps held c c')
    (hi : held'.indexes = held.indexes) (hr : held'.runners = held.runners)
    (hs : ∀ x ∈ c.reservations, held.reservations x.ptr = false →
      held'.reservations x.ptr = false) : Keeps held' c c' where
  indexes := by rw [hi]; exact h.indexes
  runners := by rw [hr]; exact h.runners
  reservations := h.reservations.weaken fun x hx => hs x (by simpa using hx)

theorem Keeps.trans {held : Held} {a b c : ProjectCache ρ ι} (h₁ : Keeps held a b)
    (h₂ : Keeps held b c) : Keeps held a c :=
  Settles.keep h₁ h₂

theorem Keeps.run {held : Held} {body : ProjectCache ρ ι → Option (ProjectCache ρ ι)}
    (h : ∀ c c', body c = some c' → Keeps held c c') (n : Nat) (c : ProjectCache ρ ι) :
    Keeps held c (Loop.run body n c) :=
  Loop.run_invariant (P := fun c' => Keeps held c c') (fun _ _ hb hc => hc.trans (h _ _ hb)) n
    (Keeps.refl held c)

/-! ## 3. The shared helpers -/

/-- An update that keeps the index and the runner of the state. -/
theorem update_keeps (held : Held) (c : ProjectCache ρ ι) (r : PathBuf)
    {f : ProjectState ρ ι → ProjectState ρ ι} (hi : ∀ st, (f st).index = st.index)
    (hr : ∀ st, (f st).runnerAccount = st.runnerAccount) : Keeps held c (c.update r f) := by
  refine .of_perm ?_ ?_ rfl
  · exact (AList.perm_pick_modify fun st _ => by
      simp only [ProjectState.indexAccount, hi st]).symm.append_right _
  · exact (AList.perm_pick_modify fun st _ => hr st).symm.append_right _

theorem prune_keeps (held : Held) (c : ProjectCache ρ ι) : Keeps held c (prune held c) := by
  have hi : (prune held c).cachedIndexes = c.cachedIndexes := by
    refine AList.pick_mapVals _ fun st => ?_
    unfold pruneMarker
    split <;> rfl
  have hr : (prune held c).cachedRunners = c.cachedRunners := by
    refine AList.pick_mapVals _ fun st => ?_
    unfold pruneMarker
    split <;> rfl
  refine ⟨?_, ?_, ?_⟩
  · rw [List.append_nil, indexAccounts, indexAccounts, hi]
    exact (sheds_filter _ _).append_left _
  · rw [List.append_nil, runnerAccounts, runnerAccounts, hr]
    exact (sheds_filter _ _).append_left _
  · rw [List.append_nil]
    exact sheds_filter _ _

/-- A released index moves from the states to `released`. -/
theorem releaseIndex_keeps (held : Held) (c : ProjectCache ρ ι) (r : PathBuf) :
    Keeps held c (releaseIndex held c r) := by
  unfold releaseIndex
  cases hg : (c.get r).bind ProjectState.index with
  | none => exact .refl held c
  | some e =>
    obtain ⟨st, hst, hi⟩ := Option.bind_eq_some_iff.mp hg
    refine Keeps.trans (b := { c.update r (fun st => { st with index := none }) with
      released := c.released ++ [⟨e.index.ptr, e.bytes⟩] }) ?_ (prune_keeps held _)
    have hst' : c.states.lookup r = some st := hst
    refine .of_perm ?_ ?_ rfl
    · have h₁ := AList.perm_pick_of_lookup ProjectState.indexAccount hst'
      have h₂ := AList.perm_pick_insert c.states r { st with index := none }
        ProjectState.indexAccount
      simp only [ProjectState.indexAccount, hi, Option.map_some, Option.map_none,
        Option.toList_some, Option.toList_none, List.nil_append] at h₁ h₂
      show (c.cachedIndexes ++ c.released).Perm
        (((c.states.modify r fun st => { st with index := none }).pick _) ++ (c.released ++ _))
      rw [AList.modify, hst']
      calc (c.cachedIndexes ++ c.released).Perm
            ([(⟨e.index.ptr, e.bytes⟩ : ReleasedIndex)] ++ (c.states.erase r).pick _ ++
              c.released) :=
            h₁.append_right _
        List.Perm _ ((c.states.erase r).pick _ ++ (c.released ++ [⟨e.index.ptr, e.bytes⟩])) := by
            rw [List.append_assoc, ← List.append_assoc _ c.released]
            exact List.perm_append_comm
        List.Perm _ _ := h₂.symm.append_right _
    · have hr : (c.states.modify r fun st => { st with index := none }).pick
          ProjectState.runnerAccount |>.Perm c.cachedRunners :=
        AList.perm_pick_modify fun st _ => rfl
      exact hr.symm.append_right _

/-- A released runner moves from the states to `releasedRunners`. -/
theorem releaseRunner_keeps (held : Held) (c : ProjectCache ρ ι) (r : PathBuf) :
    Keeps held c (c.releaseRunner r) := by
  unfold releaseRunner
  cases hg : (c.get r).bind ProjectState.runner with
  | none => exact .refl held c
  | some e =>
    obtain ⟨st, hst, hr⟩ := Option.bind_eq_some_iff.mp hg
    have hst' : c.states.lookup r = some st := hst
    refine .of_perm ?_ ?_ rfl
    · have hi : (c.states.modify r fun st => { st with runner := none }).pick
          ProjectState.indexAccount |>.Perm c.cachedIndexes :=
        AList.perm_pick_modify fun st _ => rfl
      exact hi.symm.append_right _
    · have h₁ := AList.perm_pick_of_lookup ProjectState.runnerAccount hst'
      have h₂ := AList.perm_pick_insert c.states r { st with runner := none }
        ProjectState.runnerAccount
      simp only [ProjectState.runnerAccount, hr, Option.map_some, Option.map_none,
        Option.toList_some, Option.toList_none, List.nil_append] at h₁ h₂
      show (c.cachedRunners ++ c.releasedRunners).Perm
        (((c.states.modify r fun st => { st with runner := none }).pick _) ++
          (c.releasedRunners ++ _))
      rw [AList.modify, hst']
      calc (c.cachedRunners ++ c.releasedRunners).Perm
            ([e.release] ++ (c.states.erase r).pick _ ++ c.releasedRunners) := h₁.append_right _
        List.Perm _ ((c.states.erase r).pick _ ++ (c.releasedRunners ++ [e.release])) := by
            rw [List.append_assoc, ← List.append_assoc _ c.releasedRunners]
            exact List.perm_append_comm
        List.Perm _ _ := h₂.symm.append_right _

theorem invalidate_keeps (held : Held) (c : ProjectCache ρ ι) (r : PathBuf) :
    Keeps held c (invalidate held c r) := by
  unfold invalidate
  cases hg : c.freshGeneration.get r with
  | none =>
    simp only [hg]
    exact .of_tables rfl rfl rfl rfl
  | some st =>
    simp only [hg]
    have hf : Keeps held c c.freshGeneration := .of_tables rfl rfl rfl rfl
    have hu := update_keeps held c.freshGeneration r
      (f := fun st => { st with generation := c.freshGeneration.nextGeneration, inFlight := none })
      (fun _ => rfl) fun _ => rfl
    have hc : Keeps held (c.freshGeneration.update r fun st =>
        { st with generation := c.freshGeneration.nextGeneration, inFlight := none })
        { (c.freshGeneration.update r fun st =>
          { st with generation := c.freshGeneration.nextGeneration, inFlight := none }) with
          invalidations := c.freshGeneration.invalidations + 1 } := .of_tables rfl rfl rfl rfl
    exact ((hf.trans hu).trans hc).trans (releaseIndex_keeps held _ r)

theorem evictIndex_keeps {held : Held} {p : Option PathBuf} {c c' : ProjectCache ρ ι}
    (h : c.evictLeastRecentlyUsedIndex held p = some c') : Keeps held c c' := by
  obtain ⟨root, _, _, _, _, rfl⟩ := evictIndex_victim h
  exact (releaseIndex_keeps held c root).trans (.of_tables rfl rfl rfl rfl)

theorem evictRunner_keeps {held : Held} {p : Option PathBuf} {c c' : ProjectCache ρ ι}
    (h : c.evictLeastRecentlyUsedRunner held p = some c') : Keeps held c c' := by
  obtain ⟨root, _, _, _, _, _, rfl⟩ := evictRunner_victim h
  exact releaseRunner_keeps held c root

theorem evictOr_keeps {held : Held} {p q : Option PathBuf} {c c' : ProjectCache ρ ι}
    (h : (c.evictLeastRecentlyUsedIndex held p).or (c.evictLeastRecentlyUsedRunner held q)
      = some c') : Keeps held c c' := by
  rcases Option.or_eq_some_iff.mp h with h | ⟨_, h⟩
  · exact evictIndex_keeps h
  · exact evictRunner_keeps h

theorem enforceLimits_keeps (held : Held) (p : Option PathBuf) (c : ProjectCache ρ ι) :
    Keeps held c (enforceLimits held p c) := by
  have h₁ (n : Nat) (c : ProjectCache ρ ι) :
      Keeps held c (Loop.run (enforceIndexesRound held p) n c) := by
    refine Keeps.run (fun c c' h => ?_) n c
    unfold enforceIndexesRound at h
    split at h
    · exact evictIndex_keeps h
    · cases h
  have h₂ (n : Nat) (c : ProjectCache ρ ι) :
      Keeps held c (Loop.run (enforceBytesRound held p) n c) := by
    refine Keeps.run (fun c c' h => ?_) n c
    unfold enforceBytesRound at h
    split at h
    · exact evictOr_keeps h
    · cases h
  have h₃ (n : Nat) (c : ProjectCache ρ ι) :
      Keeps held c (Loop.run (enforceRunnersRound held p) n c) := by
    refine Keeps.run (fun c c' h => ?_) n c
    unfold enforceRunnersRound at h
    split at h
    · exact evictRunner_keeps h
    · cases h
  unfold enforceLimits
  exact (((prune_keeps held c).trans (h₁ _ _)).trans (h₂ _ _)).trans (h₃ _ _)

/-- **Making room keeps the books**: idle states have neither an index nor a runner. -/
theorem enforce_keeps (held : Held) (p : Option PathBuf) (c : ProjectCache ρ ι) :
    Keeps held c (enforce held p c) := by
  have hidle : ∀ st : ProjectState ρ ι, st.isActive held = false →
      st.index = none ∧ st.runner = none := by
    intro st h
    simp only [ProjectState.isActive, Bool.or_eq_false_iff, Option.isSome_eq_false_iff,
      Option.isNone_iff_eq_none] at h
    exact ⟨h.1.2, h.1.1⟩
  unfold enforce
  refine (enforceLimits_keeps held p c).trans (.of_perm ?_ ?_ rfl)
  · have : (AList.retain (ProjectState.isActive held) (enforceLimits held p c).states).pick
        ProjectState.indexAccount = (enforceLimits held p c).cachedIndexes :=
      AList.pick_retain _ fun st h => by simp only [ProjectState.indexAccount, (hidle st h).1]; rfl
    simp only [indexAccounts, cachedIndexes, this]
    exact .refl _
  · have : (AList.retain (ProjectState.isActive held) (enforceLimits held p c).states).pick
        ProjectState.runnerAccount = (enforceLimits held p c).cachedRunners :=
      AList.pick_retain _ fun st h => by simp only [ProjectState.runnerAccount, (hidle st h).2]; rfl
    simp only [runnerAccounts, cachedRunners, this]
    exact .refl _

/-- The parts of the states after one is created or updated, next to those before. -/
theorem perm_pick_upsert {β : Type} (c : ProjectCache ρ ι) (r : PathBuf) (g : Nat)
    (f : ProjectState ρ ι → ProjectState ρ ι) (part : ProjectState ρ ι → Option β) :
    ∃ rest, (c.states.pick part).Perm (((c.get r).bind part).toList ++ rest) ∧
      ((c.upsert r g f).states.pick part).Perm
        ((part (f ((c.get r).getD (.new g)))).toList ++ rest) := by
  refine ⟨(c.states.erase r).pick part, ?_, AList.perm_pick_insert c.states r _ part⟩
  cases hg : c.get r with
  | none =>
    have hl : c.states.lookup r = none := hg
    rw [AList.pick_erase_of_none part hl]
    exact .refl _
  | some st =>
    have hl : c.states.lookup r = some st := hg
    exact AList.perm_pick_of_lookup part hl

/-- Creating or updating a state without touching its index and its runner. -/
theorem upsert_keeps (held : Held) (c : ProjectCache ρ ι) (r : PathBuf) (g : Nat)
    {f : ProjectState ρ ι → ProjectState ρ ι} (hi : ∀ st, (f st).index = st.index)
    (hr : ∀ st, (f st).runner = st.runner) : Keeps held c (c.upsert r g f) := by
  have part : ∀ {β : Type} (part : ProjectState ρ ι → Option β),
      (∀ st, part (f st) = part st) → part (.new g) = none →
      (c.states.pick part).Perm ((c.upsert r g f).states.pick part) := by
    intro β part hf hnew
    obtain ⟨rest, h₁, h₂⟩ := perm_pick_upsert c r g f part
    refine h₁.trans (.trans ?_ h₂.symm)
    rw [hf]
    cases c.get r with
    | none =>
      rw [Option.bind_none, Option.getD_none, hnew]
    | some st =>
      rw [Option.bind_some, Option.getD_some]
  refine .of_perm ?_ ?_ rfl
  · exact (part ProjectState.indexAccount
      (fun st => by simp only [ProjectState.indexAccount, hi]) rfl).append_right _
  · exact (part ProjectState.runnerAccount
      (fun st => by simp only [ProjectState.runnerAccount, hr]) rfl).append_right _

/-! ## 4. What operations take in -/

/-- **Installing a runner** takes in its entry; a replaced one moves to `releasedRunners`. -/
theorem placeRunner_settles (held : Held) (c : ProjectCache ρ ι) (r : PathBuf)
    (e : RunnerEntry ρ) : Settles held [] [e.release] [] c (c.placeRunner r e) := by
  let f : ProjectState ρ ι → ProjectState ρ ι := fun st =>
    { st with runner := some e, lastUsedTick := c.tick + 1 }
  have hstates : (c.placeRunner r e).states = (c.upsert r (c.nextGeneration + 1) f).states := rfl
  have hreleased : (c.placeRunner r e).releasedRunners = c.releasedRunners ++
      (((c.get r).bind ProjectState.runner).map RunnerSnapshot.release).toList := rfl
  have haccount : (c.get r).bind ProjectState.runnerAccount
      = ((c.get r).bind ProjectState.runner).map RunnerSnapshot.release := by
    cases c.get r <;> rfl
  refine ⟨.of_perm ?_, .of_perm ?_, ?_⟩
  · obtain ⟨rest, h₁, h₂⟩ := perm_pick_upsert c r (c.nextGeneration + 1) f
      ProjectState.indexAccount
    have hp : c.cachedIndexes.Perm (c.placeRunner r e).cachedIndexes := by
      refine h₁.trans (.trans ?_ h₂.symm)
      cases c.get r <;> exact .refl _
    rw [List.append_nil]
    exact hp.append_right _
  · obtain ⟨rest, h₁, h₂⟩ := perm_pick_upsert c r (c.nextGeneration + 1) f
      ProjectState.runnerAccount
    have hnew : ProjectState.runnerAccount (f ((c.get r).getD (.new (c.nextGeneration + 1))))
        = some e.release := rfl
    rw [haccount] at h₁
    rw [hnew, Option.toList_some] at h₂
    rw [runnerAccounts, runnerAccounts, cachedRunners, cachedRunners, hstates, hreleased]
    generalize (((c.get r).bind ProjectState.runner).map RunnerSnapshot.release).toList = old at h₁
    calc (c.states.pick ProjectState.runnerAccount ++ c.releasedRunners ++ [e.release]).Perm
          (old ++ rest ++ c.releasedRunners ++ [e.release]) :=
          (h₁.append_right _).append_right _
      List.Perm _ ([e.release] ++ rest ++ (c.releasedRunners ++ old)) := by
          rw [List.perm_iff_count]
          intro x
          simp only [List.count_append]
          omega
      List.Perm _ _ := h₂.symm.append_right _
  · rw [List.append_nil]
    exact .refl _ _

/-- **Publishing an index** takes in its entry.  The entry it overwrites is moved nowhere, so the
books are kept only if nobody holds that index any more. -/
theorem placeIndex_settles (held : Held) {c : ProjectCache ρ ι} {r : PathBuf}
    {st : ProjectState ρ ι} (hst : c.get r = some st) (e : CachedIndex ι)
    (hfree : ∀ old, st.index = some old → held.indexes old.index.ptr = false) :
    Settles held [⟨e.index.ptr, e.bytes⟩] [] [] c (c.placeIndex r e) := by
  let f : ProjectState ρ ι → ProjectState ρ ι := fun st =>
    { st with inFlight := none, index := some e, lastUsedTick := c.tick + 1 }
  have hl : c.states.lookup r = some st := hst
  have hstates : (c.placeIndex r e).states = c.states.insert r (f st) := by
    show c.states.modify r f = _
    rw [AList.modify, hl]
  refine ⟨?_, .of_perm ?_, ?_⟩
  · have h₁ := AList.perm_pick_of_lookup ProjectState.indexAccount hl
    have h₂ := AList.perm_pick_insert c.states r (f st) ProjectState.indexAccount
    have hnew : (f st).indexAccount = some ⟨e.index.ptr, e.bytes⟩ := rfl
    rw [hnew, Option.toList_some] at h₂
    refine ⟨st.indexAccount.toList, ?_, ?_⟩
    · show (c.states.pick _ ++ c.released ++ _).Perm
        ((c.placeIndex r e).states.pick _ ++ c.released ++ _)
      rw [hstates]
      generalize st.indexAccount.toList = old at h₁ ⊢
      generalize (⟨e.index.ptr, e.bytes⟩ : ReleasedIndex) = new at h₂ ⊢
      calc (c.states.pick ProjectState.indexAccount ++ c.released ++ [new]).Perm
            (old ++ (c.states.erase r).pick ProjectState.indexAccount ++ c.released ++ [new]) :=
            (h₁.append_right _).append_right _
        List.Perm _ ([new] ++ (c.states.erase r).pick ProjectState.indexAccount ++
            c.released ++ old) := by
            rw [List.perm_iff_count]
            intro x
            simp only [List.count_append]
            omega
        List.Perm _ _ := (h₂.symm.append_right _).append_right _
    · intro x hx
      cases hi : st.index with
      | none => simp [ProjectState.indexAccount, hi] at hx
      | some old =>
        simp only [ProjectState.indexAccount, hi, Option.map_some, Option.toList_some,
          List.mem_singleton] at hx
        rw [hx]
        exact hfree old hi
  · rw [List.append_nil]
    have hp : (c.placeIndex r e).cachedRunners.Perm c.cachedRunners :=
      AList.perm_pick_modify fun _ _ => rfl
    exact hp.symm.append_right _
  · rw [List.append_nil]
    exact .refl _ _

/-- An index too large for any budget is taken in as released. -/
theorem refused_settles (held : Held) (c : ProjectCache ρ ι) (r : PathBuf)
    (index : ReleasedIndex) : Settles held [index] [] [] c (c.refused held r index) := by
  have hp : Keeps held c ((prune held c).update r fun st => { st with inFlight := none }) :=
    (prune_keeps held c).trans (update_keeps held _ r (fun _ => rfl) fun _ => rfl)
  refine hp.settle ⟨.of_perm ?_, .of_perm ?_, ?_⟩
  · rw [indexAccounts, List.append_assoc]
    exact .refl _
  · rw [List.append_nil]
    exact .refl _
  · rw [List.append_nil]
    exact .refl _ _

theorem installRunner_settles (held : Held) (c : ProjectCache ρ ι) (r : PathBuf) (ru : Arc ρ)
    (fp : ProjectFingerprint) :
    Settles held [] [⟨ru.ptr, fp.estimatedBytes⟩] [] c (installRunner held c r ru fp).1 := by
  unfold installRunner
  simp only
  have hplace : ∀ c₁ : ProjectCache ρ ι, Settles held [] [⟨ru.ptr, fp.estimatedBytes⟩] [] c₁
      (enforce held (some r) (c₁.placeRunner r ⟨ru, fp, false⟩)) := fun c₁ =>
    (placeRunner_settles held c₁ r ⟨ru, fp, false⟩).keep (enforce_keeps held (some r) _)
  split
  · exact (invalidate_keeps held c r).settle (hplace _)
  · exact hplace c

theorem discardProject_keeps (held : Held) (c : ProjectCache ρ ι) (r : PathBuf) :
    Keeps held c (discardProject held c r) := by
  unfold discardProject
  exact ((invalidate_keeps held c r).trans (releaseRunner_keeps held _ r)).trans
    (enforce_keeps held none _)

theorem invalidateAfterMaven_keeps (held : Held) (c : ProjectCache ρ ι) (r : PathBuf) :
    Keeps held c (invalidateAfterMaven held c r) := by
  unfold invalidateAfterMaven
  refine (invalidate_keeps held c r).trans (update_keeps held _ r (fun _ => rfl) fun st => ?_)
  simp only [ProjectState.runnerAccount, Option.map_map]
  rfl

theorem joinBuild_keeps (held : Held) (c : ProjectCache ρ ι) (r : PathBuf) :
    Keeps held c (joinBuild c r).1 := by
  have hm : Keeps held c { c with misses := c.misses + 1 } := .of_tables rfl rfl rfl rfl
  unfold joinBuild
  simp only
  split
  · exact hm
  · exact (hm.trans (update_keeps held _ r (f := fun st => { st with inFlight := some _ })
      (fun _ => rfl) fun _ => rfl)).trans (.of_tables rfl rfl rfl rfl)

theorem lookupIndex_keeps (held : Held) (c : ProjectCache ρ ι) (r : PathBuf)
    (fp : ProjectFingerprint) : Keeps held c (lookupIndex held c r fp).1 := by
  have hp : Keeps held c (c.prepared r) :=
    (show Keeps held c c.nextTick.freshGeneration from .of_tables rfl rfl rfl rfl).trans
      (upsert_keeps held _ r _ (fun _ => rfl) fun _ => rfl)
  rw [lookupIndex_eq]
  cases (touched c r).index with
  | none => exact hp.trans (joinBuild_keeps held _ r)
  | some e =>
    simp only
    split
    · exact hp
    · -- the entry the lookup still holds is shed by none of this
      have hi := invalidate_keeps (held.holdIndex e.index.ptr) (c.prepared r) r
      have hk : Keeps held (c.prepared r)
          (invalidate (held.holdIndex e.index.ptr) (c.prepared r) r) := by
        refine ⟨?_, hi.runners, hi.reservations⟩
        obtain ⟨dead, hperm, hdead⟩ := hi.indexes
        refine ⟨dead, hperm, fun x hx => ?_⟩
        have := hdead x hx
        simp only [Held.holdIndex, Function.update_apply] at this
        split at this
        · cases this
        · exact this
      exact (hp.trans hk).trans (joinBuild_keeps held _ r)

/-- What a granted reservation is charged as. -/
def granted (bytes : Nat) : Except ReserveError Nat → List Reservation
  | .ok ptr => [⟨ptr, bytes⟩]
  | .error _ => []

theorem reserveRoom_keeps (held : Held) (c : ProjectCache ρ ι) (r : PathBuf) (bytes : Nat) :
    Keeps held c (c.reserveRoom held r bytes) := by
  refine (prune_keeps held c).trans (Keeps.run (fun c c' h => ?_) _ _)
  unfold reserveRound at h
  split at h
  · exact evictOr_keeps h
  · cases h

/-- **A reservation** is taken in when it is granted. -/
theorem reserve_settles {held held' : Held} {c : ProjectCache ρ ι} {r : PathBuf} {g bytes : Nat}
    (hi : held'.indexes = held.indexes) (hr : held'.runners = held.runners)
    (hs : ∀ x ∈ c.reservations, held.reservations x.ptr = false →
      held'.reservations x.ptr = false) :
    Settles held' [] [] (granted bytes (reserve held c r g bytes).2) c
      (reserve held c r g bytes).1 := by
  have hroom := (reserveRoom_keeps held c r bytes).congr_held hi hr hs
  rw [reserve_eq]
  simp only
  split
  · split
    · exact hroom
    · refine hroom.settle ⟨?_, ?_, ?_⟩
      · rw [List.append_nil]
        exact .refl _ _
      · rw [List.append_nil]
        exact .refl _ _
      · exact .refl _ _
  · exact (prune_keeps held c).congr_held hi hr hs

theorem finishFailed_keeps (held : Held) (c : ProjectCache ρ ι) (r : PathBuf) (g : Nat) :
    Keeps held c (finishFailed held c r g) := by
  unfold finishFailed
  refine (update_keeps held c r (fun st => ?_) fun st => ?_).trans (enforce_keeps held none _)
  · split <;> rfl
  · split <;> rfl

variable [EstimatedBytes ι]

/-- **A publication** takes in its index, unless it is stale.  Placing it keeps the books when
no request holds the index it overwrites. -/
theorem publish_settles {held : Held} {c : ProjectCache ρ ι} {r : PathBuf} {g : Nat}
    {index : Arc ι} {build : FinishedBuild} {fp : ProjectFingerprint} {res : Nat}
    (hfree : ∀ st old, c.get r = some st → st.generation = g → st.index = some old →
      publishedBytes index build ≤ c.limits.maxBytes → held.indexes old.index.ptr = false) :
    Settles (held.dropReservation res)
      (if (publish held c r g index build fp res).2 = .stale then []
        else [⟨index.ptr, publishedBytes index build⟩]) [] []
      c (publish held c r g index build fp res).1 := by
  rw [publish_eq]
  simp only
  split
  · rename_i hcur
    obtain ⟨st, hst, hg⟩ := isCurrent_iff.mp hcur
    split
    · exact refused_settles _ c r _
    · rename_i hb
      have hplaced : Settles (held.dropReservation res) [⟨index.ptr, publishedBytes index build⟩]
          [] [] c (c.placed (held.dropReservation res) r (publishedEntry index build fp)) := by
        have hp : (prune (held.dropReservation res) c).get r
            = some (pruneMarker (held.dropReservation res) st) := by
          rw [get_prune, hst]
          rfl
        have hpl := placeIndex_settles (held.dropReservation res) hp
          (publishedEntry index build fp) fun old hold => by
            have hkept := (pruneMarker_fades (held.dropReservation res) True True st).index
            refine hfree st old hst hg ?_ (Nat.not_lt.mp hb)
            rw [← hold]
            exact (hkept.resolve_right fun h => h.2 trivial).symm
        exact ((prune_keeps _ c).settle hpl).keep (enforce_keeps _ (some r) _)
      split
      · exact hplaced.keep (releaseIndex_keeps _ _ r)
      · exact hplaced
  · exact prune_keeps _ c

end ProjectCache

end MavenMcp
