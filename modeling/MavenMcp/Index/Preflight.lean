/-
# What a preflight charges

A preflight walks the entries of an artifact and reserves each one while the budget lasts.
Whether it meets the end of the artifact, a malformed entry or a limit seems to depend on the
budget it starts with; but once it has met the end with one budget, every other budget either
covers the same charge or runs into a limit (`Charges`).  A charge recorded in one build
therefore stands for the preflight in any other (`preflight_charges`).
-/
import MavenMcp.Index.Archive

namespace MavenMcp

/-- The budget after a charge. -/
def ArchiveBudget.spend (budget : ArchiveBudget) (entries names : Nat) : ArchiveBudget :=
  { budget with entries := budget.entries - entries, names := budget.names - names }

/-- A budget covers `n` entries with `m` name bytes, after `k` entries of the same artifact. -/
def Fits (k n m : Nat) (budget : ArchiveBudget) : Prop :=
  (n = 0 ∨ k + n ≤ budget.jarEntries) ∧ n ≤ budget.entries ∧ m ≤ budget.names

/-- After `k` entries, the rest of a preflight charges `n` entries and `m` name bytes to every
budget that covers them, and runs into a limit with every other. -/
def Charges {ρ : Type} (k : Nat) (f : ArchiveBudget → Except PreflightError ρ × ArchiveBudget)
    (n m : Nat) (result : ρ) : Prop :=
  ∀ budget, (Fits k n m budget → f budget = (.ok result, budget.spend n m)) ∧
    (¬ Fits k n m budget → ∃ name budget', f budget = (.error (.limit name), budget'))

variable {ρ : Type}

theorem charges_done (k : Nat) (result : ρ) :
    Charges k (fun budget => (.ok result, budget)) 0 0 result := by
  intro budget
  have hfits : Fits k 0 0 budget := ⟨.inl rfl, Nat.zero_le _, Nat.zero_le _⟩
  exact ⟨fun _ => rfl, fun h => absurd hfits h⟩

theorem reserve_of_fits {budget : ArchiveBudget} {x : Nat} (he : 1 ≤ budget.entries)
    (hx : x ≤ budget.names) : budget.reserve x = (.ok (), budget.spend 1 x) := by
  simp only [ArchiveBudget.reserve, ArchiveBudget.spend]
  rw [if_neg (by omega), if_neg (by omega)]

theorem reserve_of_not_fits {budget : ArchiveBudget} {x : Nat}
    (h : ¬ (1 ≤ budget.entries ∧ x ≤ budget.names)) :
    ∃ name budget', budget.reserve x = (.error (.limit name), budget') := by
  simp only [ArchiveBudget.reserve]
  by_cases he : budget.entries < 1
  · exact ⟨_, _, if_pos he⟩
  · rw [if_neg he, if_pos (by omega)]
    exact ⟨_, _, rfl⟩

/-- The preflight of one entry more, whose name has `x` bytes, in front of `f`. -/
def withEntry (k x : Nat) (f : ArchiveBudget → Except PreflightError ρ × ArchiveBudget)
    (budget : ArchiveBudget) : Except PreflightError ρ × ArchiveBudget :=
  if budget.jarEntries < k + 1 then (.error (.limit "MAX_JAR_ENTRIES"), budget)
  else
    match budget.reserve x with
    | (.error e, budget) => (.error e, budget)
    | (.ok (), budget) => f budget

theorem Charges.cons {k n m x : Nat} {result : ρ}
    {f : ArchiveBudget → Except PreflightError ρ × ArchiveBudget} (h : Charges (k + 1) f n m result)
    {g : ArchiveBudget → Except PreflightError ρ × ArchiveBudget}
    (hg : ∀ budget, g budget = withEntry k x f budget) : Charges k g (n + 1) (m + x) result := by
  intro budget
  rw [hg budget, withEntry]
  by_cases hjar : budget.jarEntries < k + 1
  · rw [if_pos hjar]
    refine ⟨fun hfits => ?_, fun _ => ⟨_, _, rfl⟩⟩
    have := hfits.1
    omega
  rw [if_neg hjar]
  by_cases hone : 1 ≤ budget.entries ∧ x ≤ budget.names
  · rw [reserve_of_fits hone.1 hone.2]
    have hiff : Fits k (n + 1) (m + x) budget ↔ Fits (k + 1) n m (budget.spend 1 x) := by
      simp only [Fits, ArchiveBudget.spend]
      omega
    obtain ⟨hok, herr⟩ := h (budget.spend 1 x)
    rw [hiff]
    refine ⟨fun hfits => ?_, herr⟩
    have hspend : (budget.spend 1 x).spend n m = budget.spend (n + 1) (m + x) := by
      simp only [ArchiveBudget.spend, Nat.sub_sub, Nat.add_comm 1 n, Nat.add_comm x m]
    rw [← hspend]
    exact hok hfits
  · obtain ⟨name, budget', hreserve⟩ := reserve_of_not_fits hone
    rw [hreserve]
    refine ⟨fun hfits => absurd ⟨?_, ?_⟩ hone, fun _ => ⟨_, _, rfl⟩⟩
    · have := hfits.2.1
      omega
    · have := hfits.2.2
      omega

/-- A preflight that once met the end of a class directory. -/
theorem walkDirectory_charges : ∀ (walk : List (Option DirEntry)) (k : Nat)
    {budget budget' : ArchiveBudget}, walkDirectory k walk budget = (.ok (), budget') →
      ∃ n m, Charges k (walkDirectory k walk) n m ()
  | [], k, _, _, _ => ⟨0, 0, charges_done k ()⟩
  | none :: _, _, _, _, h => by simp [walkDirectory] at h
  | some entry :: walk, k, budget, budget', h => by
    by_cases hfile : entry.isFile = true
    · by_cases hname : maxEntryNameBytes < entry.relative.length
      · simp only [walkDirectory, hfile, hname, Bool.not_true, Bool.false_eq_true, if_false,
          if_true] at h
        split at h <;> simp at h
      · have heq : ∀ b, walkDirectory k (some entry :: walk) b =
            withEntry k entry.relative.length (walkDirectory (k + 1) walk) b := by
          intro b
          simp only [walkDirectory, hfile, hname, Bool.not_true, Bool.false_eq_true, if_false]
          rfl
        rw [heq, withEntry] at h
        split at h
        · simp at h
        · split at h
          · simp at h
          · obtain ⟨n, m, hrest⟩ := walkDirectory_charges walk (k + 1) h
            exact ⟨n + 1, m + entry.relative.length, hrest.cons heq⟩
    · have hskip : ∀ b, walkDirectory k (some entry :: walk) b = walkDirectory k walk b := by
        intro b
        simp [walkDirectory, hfile]
      rw [hskip] at h
      obtain ⟨n, m, hrest⟩ := walkDirectory_charges walk k h
      refine ⟨n, m, ?_⟩
      rw [funext hskip]
      exact hrest

/-- Rounds beyond the size of the directory are never taken. -/
theorem walkHeaders_enough (bytes : List UInt8) (size : Nat) : ∀ (f pos consumed k : Nat)
    (budget : ArchiveBudget), size - consumed ≤ f →
      walkHeaders bytes size (f + 1) pos consumed k budget
        = walkHeaders bytes size f pos consumed k budget
  | 0, pos, consumed, k, budget, h => by
    unfold walkHeaders
    exact if_pos (by omega)
  | f + 1, pos, consumed, k, budget, h => by
    unfold walkHeaders
    by_cases hend : size ≤ consumed
    · rw [if_pos hend, if_pos hend]
    · simp only [if_neg hend]
      have hrest := fun pos names k budget =>
        walkHeaders_enough bytes size f pos (consumed + 46 + names) k budget (by omega)
      simp only [hrest]

/-- A walk over central headers that once met the end of the directory. -/
theorem walkHeaders_charges (bytes : List UInt8) (size : Nat) : ∀ (f pos consumed k : Nat)
    {budget budget' : ArchiveBudget} {entries : Nat},
    walkHeaders bytes size f pos consumed k budget = (.ok entries, budget') →
      ∃ n m, entries = k + n ∧ Charges k (walkHeaders bytes size f pos consumed k) n m entries
  | 0, pos, consumed, k, _, _, _, h => by
    cases h
    exact ⟨0, 0, rfl, charges_done k k⟩
  | f + 1, pos, consumed, k, budget, budget', entries, h => by
    by_cases hend : size ≤ consumed
    · have heq : ∀ b, walkHeaders bytes size (f + 1) pos consumed k b = (.ok k, b) := by
        intro b
        rw [walkHeaders, if_pos hend]
      rw [heq] at h
      cases h
      refine ⟨0, 0, rfl, ?_⟩
      rw [funext heq]
      exact charges_done k k
    by_cases htrunc : size - consumed < 46
    · rw [walkHeaders, if_neg hend, if_pos htrunc] at h
      cases h
    cases hread : readExact bytes pos 46 with
    | none =>
      simp only [walkHeaders, hend, htrunc, hread, if_false] at h
      cases h
    | some header =>
      by_cases hsig : hasSignature header 0 0x01 0x02 = true
      · by_cases hname : maxEntryNameBytes < leAt header 28 2
        · simp only [walkHeaders, hend, htrunc, hread, hsig, hname, Bool.not_true,
            Bool.false_eq_true, if_false, if_true] at h
          split at h <;> cases h
        · -- What is left is the general shape of an entry, and what follows it.
          have heq : ∀ b, walkHeaders bytes size (f + 1) pos consumed k b =
              withEntry k (leAt header 28 2) (fun b =>
                if size < consumed + 46 + (leAt header 28 2 + leAt header 30 2 + leAt header 32 2)
                then (.error (.malformed "central entry exceeds directory size"), b)
                else
                  walkHeaders bytes size f
                    (pos + 46 + (leAt header 28 2 + leAt header 30 2 + leAt header 32 2))
                    (consumed + 46 + (leAt header 28 2 + leAt header 30 2 + leAt header 32 2))
                    (k + 1) b) b := by
            intro b
            simp only [walkHeaders, hend, htrunc, hread, hsig, hname, Bool.not_true,
              Bool.false_eq_true, if_false]
            rfl
          rw [heq, withEntry] at h
          split at h
          · cases h
          split at h
          · cases h
          rename_i b hreserve
          by_cases hexceeds : size
              < consumed + 46 + (leAt header 28 2 + leAt header 30 2 + leAt header 32 2)
          · rw [if_pos hexceeds] at h
            cases h
          · rw [if_neg hexceeds] at h
            obtain ⟨n, m, hentries, hrest⟩ := walkHeaders_charges bytes size f _ _ (k + 1) h
            refine ⟨n + 1, m + leAt header 28 2, by omega, hrest.cons fun b => ?_⟩
            rw [heq b]
            simp only [if_neg hexceeds]
      · simp only [walkHeaders, hend, htrunc, hread, hsig, if_false] at h
        simp at h

/-- A preflight of a JAR, once its end record is read and the content is found in order. -/
def preflightWalk (bytes : List UInt8) (record : EndRecord) (budget : ArchiveBudget) :
    Except PreflightError Unit × ArchiveBudget :=
  if budget.jarEntries < record.count then (.error (.limit "MAX_JAR_ENTRIES"), budget)
  else if budget.entries < record.count then (.error (.limit "MAX_INDEX_ENTRIES"), budget)
  else
    checkCount record.count
      (walkHeaders bytes record.size record.size (record.centralEnd - record.size) 0 0 budget)

theorem checkCount_eq_ok {count : Nat} {r : Except PreflightError Nat × ArchiveBudget}
    {budget : ArchiveBudget} (h : checkCount count r = (.ok (), budget)) :
    r = (.ok count, budget) := by
  obtain ⟨_ | entries, b⟩ := r
  · cases h
  · by_cases hcount : entries = count
    · rw [checkCount, if_neg (not_not.mpr hcount)] at h
      rw [hcount, (Prod.mk.inj h).2]
    · rw [checkCount, if_pos hcount] at h
      cases h

theorem preflightWalk_charges {bytes : List UInt8} {record : EndRecord}
    {budget budget' : ArchiveBudget} (h : preflightWalk bytes record budget = (.ok (), budget')) :
    ∃ n m, Charges 0 (preflightWalk bytes record) n m () := by
  unfold preflightWalk at h
  split at h
  · cases h
  split at h
  · cases h
  have hwalk := checkCount_eq_ok h
  obtain ⟨n, m, hn, hcharges⟩ := walkHeaders_charges bytes _ _ _ _ _ hwalk
  refine ⟨n, m, fun b => ?_⟩
  obtain ⟨hok, herr⟩ := hcharges b
  unfold preflightWalk
  constructor
  · intro hfits
    have hjar := hfits.1
    have hentries := hfits.2.1
    rw [if_neg (by omega), if_neg (by omega), hok hfits]
    exact if_neg (not_not.mpr rfl)
  · intro hfits
    obtain ⟨name, b', hlimit⟩ := herr hfits
    split
    · exact ⟨_, _, rfl⟩
    split
    · exact ⟨_, _, rfl⟩
    rw [hlimit]
    exact ⟨_, _, rfl⟩

/-- A preflight that gets through either reads a record and walks, with any budget. -/
theorem preflightArchive_eq {bytes : List UInt8} {budget budget' : ArchiveBudget}
    (h : preflightArchive bytes budget = (.ok (), budget')) :
    ∃ record, preflightArchive bytes = preflightWalk bytes record := by
  unfold preflightArchive at h
  cases hrecord : readEndRecord bytes with
  | error e =>
    rw [hrecord] at h
    cases h
  | ok record =>
    rw [hrecord] at h
    by_cases hsize : maxCentralDirectoryBytes < record.size
    · simp only [if_pos hsize] at h
      split at h
      · cases h
      · split at h <;> cases h
    by_cases hstart : record.centralEnd < record.size
    · simp only [if_neg hsize, if_pos hstart] at h
      split at h
      · cases h
      · split at h <;> cases h
    refine ⟨record, funext fun b => ?_⟩
    unfold preflightArchive preflightWalk
    rw [hrecord]
    simp only [if_neg hsize, if_neg hstart]

/-- **A preflight that succeeded once** charges the same to every budget that covers it, and runs
into a limit with every other. -/
theorem preflight_charges {content : Content} {budget budget' : ArchiveBudget}
    (h : preflight content budget = (.ok (), budget')) :
    ∃ n m, Charges 0 (preflight content) n m () := by
  cases content with
  | missing => cases h
  | directory walk =>
    have heq : preflight (.directory walk) = walkDirectory 0 walk := rfl
    rw [heq] at h ⊢
    exact walkDirectory_charges walk 0 h
  | file bytes =>
    have heq : preflight (.file bytes) = preflightArchive bytes := rfl
    rw [heq] at h ⊢
    obtain ⟨record, hrecord⟩ := preflightArchive_eq h
    rw [hrecord] at h ⊢
    exact preflightWalk_charges h

end MavenMcp
