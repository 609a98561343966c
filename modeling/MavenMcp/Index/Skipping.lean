/-
# What a skipped artifact costs

The build skips an artifact whose archive is malformed or cannot be read.  Its preflight reserves
every entry as it meets it, and nothing is given back: a skipped artifact costs the entries that
were met before the failure (`walkedNames`).

* `preflight_spends`: what a preflight that meets no limit takes from the budget.
* `skipped_costs_walked`: the build goes on after a skipped artifact with that much less.
-/
import MavenMcp.Index.CentralDirectory
import MavenMcp.Index.Build

namespace MavenMcp

/-! ## 1. The entries that are met -/

/-- The lengths of the names in the central headers that a walk meets. -/
def headerNames (bytes : List UInt8) (size : Nat) : (n pos consumed : Nat) → List Nat
  | 0, _, _ => []
  | n + 1, pos, consumed =>
    if size - consumed < 46 then []
    else
      match readExact bytes pos 46 with
      | none => []
      | some header =>
        if !hasSignature header 0 0x01 0x02 then []
        else
          let variableBytes := leAt header 28 2 + leAt header 30 2 + leAt header 32 2
          leAt header 28 2 ::
            if size < consumed + 46 + variableBytes then []
            else headerNames bytes size n (pos + 46 + variableBytes) (consumed + 46 + variableBytes)

/-- The lengths of the names of the files before the first entry that cannot be read. -/
def directoryNames : List (Option DirEntry) → List Nat
  | [] => []
  | none :: _ => []
  | some entry :: walk =>
    if entry.isFile then entry.relative.length :: directoryNames walk else directoryNames walk

/-- The lengths of the names in the central directory of a JAR, as far as it is well formed. -/
def archiveNames (bytes : List UInt8) : List Nat :=
  match readEndRecord bytes with
  | .error _ => []
  | .ok record =>
    if record.centralEnd < record.size then []
    else headerNames bytes record.size record.size (record.centralEnd - record.size) 0

/-- The lengths of the names that a preflight meets. -/
def walkedNames : Content → List Nat
  | .missing => []
  | .file bytes => archiveNames bytes
  | .directory walk => directoryNames walk

/-! ## 2. What they cost -/

/-- The budget pays for names of these lengths, and this is what is left. -/
structure Pays (names : List Nat) (before after : ArchiveBudget) : Prop where
  entries : after.entries + names.length = before.entries
  names : after.names + names.sum = before.names
  jarEntries : after.jarEntries = before.jarEntries

theorem Pays.nil (budget : ArchiveBudget) : Pays [] budget budget := ⟨rfl, rfl, rfl⟩

theorem Pays.cons {name : Nat} {names : List Nat} {before paid after : ArchiveBudget}
    (hone : before.reserve name = (.ok (), paid)) (h : Pays names paid after) :
    Pays (name :: names) before after := by
  obtain ⟨hentries, hnames, hjar⟩ := reserve_eq_ok hone
  have hrestEntries := h.entries
  have hrestNames := h.names
  refine ⟨?_, ?_, h.jarEntries.trans hjar⟩
  · rw [List.length_cons]
    omega
  · rw [List.sum_cons]
    omega

/-- Nothing is paid exactly when nothing was met. -/
theorem Pays.eq_iff {names : List Nat} {before after : ArchiveBudget}
    (h : Pays names before after) :
    after = before ↔ names = [] := by
  constructor
  · rintro rfl
    have hentries := h.entries
    exact List.eq_nil_of_length_eq_zero (by omega)
  · rintro rfl
    obtain ⟨entries, left, jarEntries⟩ := after
    have hentries := h.entries
    have hnames := h.names
    have hjar := h.jarEntries
    simp only [List.length_nil, List.sum_nil, Nat.add_zero] at hentries hnames hjar
    rw [hentries, hnames, hjar]

/-- The result is no limit. -/
def NoLimit {ρ : Type} (result : Except PreflightError ρ) : Prop :=
  ∀ name, result ≠ .error (.limit name)

theorem noLimit_ok {ρ : Type} (r : ρ) : NoLimit (.ok r) := by
  intro name h
  cases h

theorem reserve_cases {budget after : ArchiveBudget} {name : Nat}
    {result : Except PreflightError Unit} (h : budget.reserve name = (result, after)) :
    result = .ok () ∨ ∃ limit, result = .error (.limit limit) := by
  unfold ArchiveBudget.reserve at h
  split at h
  · exact .inr ⟨_, (Prod.mk.inj h).1.symm⟩
  · simp only at h
    split at h
    · exact .inr ⟨_, (Prod.mk.inj h).1.symm⟩
    · exact .inl (Prod.mk.inj h).1.symm

theorem walkHeaders_spends {bytes : List UInt8} {size : Nat} :
    ∀ (n pos consumed k : Nat) {budget after : ArchiveBudget} {result : Except PreflightError Nat},
      walkHeaders bytes size n pos consumed k budget = (result, after) → NoLimit result →
        Pays (headerNames bytes size n pos consumed) budget after := by
  intro n
  induction n with
  | zero =>
    intro pos consumed k budget after result h _
    unfold walkHeaders at h
    obtain ⟨-, rfl⟩ := Prod.mk.inj h
    exact .nil budget
  | succ n ih =>
    intro pos consumed k budget after result h hlimit
    unfold walkHeaders at h
    unfold headerNames
    by_cases hend : size ≤ consumed
    · rw [if_pos hend] at h
      obtain ⟨-, rfl⟩ := Prod.mk.inj h
      rw [if_pos (by omega)]
      exact .nil budget
    rw [if_neg hend] at h
    by_cases htruncated : size - consumed < 46
    · rw [if_pos htruncated] at h ⊢
      obtain ⟨-, rfl⟩ := Prod.mk.inj h
      exact .nil budget
    rw [if_neg htruncated] at h ⊢
    cases hread : readExact bytes pos 46 with
    | none =>
      simp only [hread] at h ⊢
      obtain ⟨-, rfl⟩ := Prod.mk.inj h
      exact .nil budget
    | some header =>
      cases hsig : hasSignature header 0 0x01 0x02 with
      | false =>
        simp only [hread, hsig, Bool.not_false, if_true] at h ⊢
        obtain ⟨-, rfl⟩ := Prod.mk.inj h
        exact .nil budget
      | true =>
        simp only [hread, hsig, Bool.not_true, Bool.false_eq_true, if_false] at h ⊢
        split at h
        · exact absurd (Prod.mk.inj h).1.symm (hlimit _)
        split at h
        · exact absurd (Prod.mk.inj h).1.symm (hlimit _)
        split at h
        · rename_i hreserve
          obtain ⟨rfl, -⟩ := Prod.mk.inj h
          rcases reserve_cases hreserve with hok | ⟨limit, herror⟩
          · cases hok
          · rw [Except.error.inj herror] at hlimit
            exact absurd rfl (hlimit limit)
        · rename_i paid hreserve
          refine Pays.cons hreserve ?_
          split at h
          · rename_i hexceeds
            rw [if_pos hexceeds]
            obtain ⟨-, rfl⟩ := Prod.mk.inj h
            exact .nil _
          · rename_i hexceeds
            rw [if_neg hexceeds]
            exact ih _ _ _ h hlimit

theorem walkDirectory_spends {walk : List (Option DirEntry)} {k : Nat}
    {budget after : ArchiveBudget} {result : Except PreflightError Unit}
    (h : walkDirectory k walk budget = (result, after)) (hlimit : NoLimit result) :
    Pays (directoryNames walk) budget after := by
  induction walk generalizing k budget with
  | nil =>
    obtain ⟨-, rfl⟩ := Prod.mk.inj h
    exact .nil budget
  | cons entry walk ih =>
    cases entry with
    | none =>
      obtain ⟨-, rfl⟩ := Prod.mk.inj h
      exact .nil budget
    | some entry =>
      unfold walkDirectory at h
      cases hfile : entry.isFile with
      | false =>
        rw [directoryNames, hfile, if_neg Bool.false_ne_true]
        rw [hfile] at h
        exact ih h
      | true =>
        rw [directoryNames, hfile, if_pos rfl]
        simp only [hfile, Bool.not_true, Bool.false_eq_true, if_false] at h
        split at h
        · exact absurd (Prod.mk.inj h).1.symm (hlimit _)
        split at h
        · exact absurd (Prod.mk.inj h).1.symm (hlimit _)
        split at h
        · rename_i hreserve
          obtain ⟨rfl, -⟩ := Prod.mk.inj h
          rcases reserve_cases hreserve with hok | ⟨limit, herror⟩
          · cases hok
          · rw [Except.error.inj herror] at hlimit
            exact absurd rfl (hlimit limit)
        · rename_i paid hreserve
          exact Pays.cons hreserve (ih h)

/-- The check of the count neither charges nor meets a limit. -/
theorem checkCount_spends {count : Nat} {walked : Except PreflightError Nat × ArchiveBudget}
    {result : Except PreflightError Unit} {after : ArchiveBudget}
    (h : checkCount count walked = (result, after)) (hlimit : NoLimit result) :
    walked.2 = after ∧ NoLimit walked.1 := by
  obtain ⟨_ | entries, budget⟩ := walked
  · rename_i e
    obtain ⟨rfl, rfl⟩ := Prod.mk.inj h
    exact ⟨rfl, fun name heq => hlimit name (by rw [Except.error.inj heq])⟩
  · by_cases hcount : entries ≠ count
    · rw [checkCount, if_pos hcount] at h
      exact ⟨(Prod.mk.inj h).2, noLimit_ok entries⟩
    · rw [checkCount, if_neg hcount] at h
      exact ⟨(Prod.mk.inj h).2, noLimit_ok entries⟩

theorem preflightArchive_spends {bytes : List UInt8} {budget after : ArchiveBudget}
    {result : Except PreflightError Unit} (h : preflightArchive bytes budget = (result, after))
    (hlimit : NoLimit result) : Pays (archiveNames bytes) budget after := by
  unfold preflightArchive at h
  unfold archiveNames
  cases hrecord : readEndRecord bytes with
  | error e =>
    rw [hrecord] at h
    obtain ⟨-, rfl⟩ := Prod.mk.inj h
    exact .nil budget
  | ok record =>
    simp only [hrecord] at h ⊢
    split at h
    · exact absurd (Prod.mk.inj h).1.symm (hlimit _)
    split at h
    · exact absurd (Prod.mk.inj h).1.symm (hlimit _)
    split at h
    · exact absurd (Prod.mk.inj h).1.symm (hlimit _)
    split at h
    · rename_i hstart
      obtain ⟨-, rfl⟩ := Prod.mk.inj h
      rw [if_pos hstart]
      exact .nil budget
    · rename_i hstart
      rw [if_neg hstart]
      obtain ⟨hafter, hwalk⟩ := checkCount_spends h hlimit
      rcases hheaders : walkHeaders bytes record.size record.size (record.centralEnd - record.size)
        0 0 budget with ⟨walked, paid⟩
      rw [hheaders] at hafter hwalk
      rw [← hafter]
      exact walkHeaders_spends _ _ _ _ hheaders hwalk

/-- **What a preflight takes** from the budget, when it meets no limit. -/
theorem preflight_spends {content : Content} {budget after : ArchiveBudget}
    {result : Except PreflightError Unit} (h : preflight content budget = (result, after))
    (hlimit : NoLimit result) : Pays (walkedNames content) budget after := by
  cases content with
  | missing =>
    obtain ⟨-, rfl⟩ := Prod.mk.inj h
    exact .nil budget
  | directory walk => exact walkDirectory_spends h hlimit
  | file bytes => exact preflightArchive_spends h hlimit

/-! ## 3. Builds -/

namespace Index

variable {P : Type} {env : BuildEnv P}

theorem restoreArtifact_miss {persisted : Option (PathBuf → Option P)} {path : PathBuf}
    {identity : JarIdentity} {budget after : ArchiveBudget}
    (h : env.restoreArtifact persisted path identity budget = (.ok none, after)) :
    after = budget := by
  unfold BuildEnv.restoreArtifact at h
  split at h
  · exact (Prod.mk.inj h).2.symm
  · split at h
    · unfold restore at h
      split at h
      · exact (Prod.mk.inj h).2.symm
      · split at h
        · exact (Prod.mk.inj h).2.symm
        · split at h
          · exact (Prod.mk.inj h).2.symm
          · split at h
            · cases h
            · cases h
    · exact (Prod.mk.inj h).2.symm

/-- The artifact is skipped: the build goes on without a record of it. -/
def Skips (env : BuildEnv P) (persisted : Option (PathBuf → Option P)) (jar : PathBuf × JarIdentity)
    (s t : BuildState P) : Prop :=
  env.buildArtifact persisted jar.1 jar.2 s = (.ok (), t) ∧ t.records = s.records

/-- **A skipped artifact** changes nothing but the budget, which pays for what was met. -/
theorem pays_of_skips {persisted : Option (PathBuf → Option P)} {jar : PathBuf × JarIdentity}
    {s t : BuildState P} (h : Skips env persisted jar s t) :
    t.reuse = s.reuse ∧ Pays (walkedNames (env.content jar.1)) s.budget t.budget := by
  obtain ⟨hbuild, hrecords⟩ := h
  unfold BuildEnv.buildArtifact at hbuild
  split at hbuild
  · cases (Prod.mk.inj hbuild).1
  · -- A restored record would be one more record.
    obtain ⟨-, rfl⟩ := Prod.mk.inj hbuild
    exact absurd hrecords (by simp)
  · rename_i budget hmiss
    rw [restoreArtifact_miss hmiss] at hbuild
    unfold BuildEnv.readArtifact at hbuild
    split at hbuild
    · cases (Prod.mk.inj hbuild).1
    · rename_i hpreflight
      obtain ⟨-, rfl⟩ := Prod.mk.inj hbuild
      exact ⟨rfl, preflight_spends hpreflight nofun⟩
    · rename_i hpreflight
      split at hbuild
      · obtain ⟨-, rfl⟩ := Prod.mk.inj hbuild
        exact ⟨rfl, preflight_spends hpreflight nofun⟩
      · obtain ⟨-, rfl⟩ := Prod.mk.inj hbuild
        exact absurd hrecords (by simp)

/-- The loop, up to the first of some later artifacts. -/
theorem buildRecords_append {persisted : Option (PathBuf → Option P)}
    {front rest : List (PathBuf × JarIdentity)} {s u : BuildState P}
    (h : env.buildRecords persisted front s = (.ok (), u)) :
    env.buildRecords persisted (front ++ rest) s = env.buildRecords persisted rest u := by
  induction front generalizing s with
  | nil =>
    obtain ⟨-, rfl⟩ := Prod.mk.inj h
    rfl
  | cons jar front ih =>
    obtain ⟨path, identity⟩ := jar
    rw [BuildEnv.buildRecords] at h
    rw [List.cons_append, BuildEnv.buildRecords]
    rcases hjar : env.buildArtifact persisted path identity s with ⟨_ | _, paid⟩
    · rw [hjar] at h
      cases (Prod.mk.inj h).1
    · rw [hjar] at h
      exact ih h

/-- **A skipped artifact costs what was met of it.**  Wherever it stands in the list, the build goes
on with the records and the reuse it had, and with a budget that paid one entry and the bytes of its
name for each entry its preflight met.  Where none was met, the later artifacts fare as if the
skipped one were not in the list. -/
theorem skipped_costs_walked (persisted : Option (PathBuf → Option P))
    (front rest : List (PathBuf × JarIdentity)) (jar : PathBuf × JarIdentity) (s u v : BuildState P)
    (hfront : env.buildRecords persisted front s = (.ok (), u))
    (hskips : Skips env persisted jar u v) :
    v = { u with budget := v.budget } ∧
      Pays (walkedNames (env.content jar.1)) u.budget v.budget ∧
      (v.budget = u.budget ↔ walkedNames (env.content jar.1) = []) ∧
      env.buildRecords persisted (front ++ jar :: rest) s = env.buildRecords persisted rest v ∧
      env.buildRecords persisted (front ++ rest) s = env.buildRecords persisted rest u ∧
      (walkedNames (env.content jar.1) = [] →
        env.buildRecords persisted (front ++ jar :: rest) s
          = env.buildRecords persisted (front ++ rest) s) := by
  obtain ⟨hreuse, hpays⟩ := pays_of_skips hskips
  obtain ⟨hbuild, hrecords⟩ := hskips
  have hstate : v = { u with budget := v.budget } := by
    obtain ⟨budget, records, reuse⟩ := v
    simp only at hreuse hrecords
    rw [hreuse, hrecords]
  have hwith : env.buildRecords persisted (front ++ jar :: rest) s
      = env.buildRecords persisted rest v := by
    rw [buildRecords_append hfront, BuildEnv.buildRecords, hbuild]
  have hwithout :
      env.buildRecords persisted (front ++ rest) s = env.buildRecords persisted rest u :=
    buildRecords_append hfront
  refine ⟨hstate, hpays, hpays.eq_iff, hwith, hwithout, fun hnone => ?_⟩
  rw [hwith, hwithout, hstate, hpays.eq_iff.mpr hnone]

/-- The small JAR, whose end record counts no entry. -/
def forgedJar : List UInt8 :=
  [80, 75, 1, 2] ++ List.replicate 24 0 ++ [1, 0] ++ List.replicate 16 0 ++ [97] ++
    ([80, 75, 5, 6] ++ List.replicate 4 0 ++ [0, 0, 0, 0, 47, 0, 0, 0] ++ List.replicate 6 0)

/-- The sample artifacts, and one more whose archive is malformed. -/
def forgedEnv : BuildEnv StoredRecord :=
  { sampleEnv with
    content := fun path => if path = [47, 98] then .file forgedJar else sampleEnv.content path }

/-- A build with budget for one more entry. -/
def tightState : BuildState StoredRecord :=
  { budget := { entries := 1, names := 4, jarEntries := 10 }, records := []
    reuse := { reused := [], built := 0, persistable := [] } }

/-- The malformed JAR takes the last entry of the budget, and the artifact after it, which fits
without it, meets the limit. -/
theorem skipped_costs_forged :
    (∃ v, Skips forgedEnv none ([47, 98], sampleIdentity) tightState v ∧
        v.budget ≠ tightState.budget) ∧
      (forgedEnv.buildRecords none [([47, 98], sampleIdentity), ([47, 106], sampleIdentity)]
        tightState).1 = .error (.limit "MAX_INDEX_ENTRIES") ∧
      (forgedEnv.buildRecords none [([47, 106], sampleIdentity)] tightState).1 = .ok () :=
  ⟨⟨{ tightState with budget := { entries := 0, names := 3, jarEntries := 10 } },
      ⟨by decide +kernel, by decide +kernel⟩, by decide +kernel⟩,
    by decide +kernel, by decide +kernel⟩

theorem skipped_costs_walked_forged :
    ∃ v, v = { tightState with budget := v.budget } ∧
      Pays (walkedNames (forgedEnv.content [47, 98])) tightState.budget v.budget ∧
      (v.budget = tightState.budget ↔ walkedNames (forgedEnv.content [47, 98]) = []) ∧
      forgedEnv.buildRecords none ([] ++ ([47, 98], sampleIdentity) :: []) tightState
        = forgedEnv.buildRecords none [] v ∧
      forgedEnv.buildRecords none ([] ++ []) tightState
        = forgedEnv.buildRecords none [] tightState ∧
      (walkedNames (forgedEnv.content [47, 98]) = [] →
        forgedEnv.buildRecords none ([] ++ ([47, 98], sampleIdentity) :: []) tightState
          = forgedEnv.buildRecords none ([] ++ []) tightState) :=
  ⟨{ tightState with budget := { entries := 0, names := 3, jarEntries := 10 } },
    skipped_costs_walked none [] [] ([47, 98], sampleIdentity) tightState tightState _ rfl
      ⟨by decide +kernel, by decide +kernel⟩⟩

end Index
end MavenMcp
