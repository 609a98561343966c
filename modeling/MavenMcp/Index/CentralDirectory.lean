/-
# What a preflight of a JAR has checked

The preflight of a JAR reads its offsets and counts from the JAR.  `Machine` holds the same program
with the arithmetic of the machine: an overflow, an index out of bounds and a loop that has not come
to its end within the rounds given to it are all `none`.

* `machine_preflightArchive`: none of these happens, on any content.
* `headers_of_preflightArchive`: a JAR that passes has a central directory that consists of exactly
  the declared number of headers, within the limits, and the budget pays for these.
-/
import MavenMcp.Index.Preflight
import MavenMcp.Lib.Safe

namespace MavenMcp

/-! ## 1. The arithmetic of the machine

`usize` has at least 32 bits: what fits there fits on every target. -/

namespace Machine

/-- `as i64`, where it keeps the value. -/
def asI64 (n : Nat) : Option Nat := if n < 2 ^ 63 then some n else none

/-- `u16_at(i + offset)`. -/
def u16At (tail : List UInt8) (i offset : Nat) : Option Nat := do
  let i ← checkedAdd 32 i offset
  let _ ← checkedSlice tail i 2
  some (leAt tail i 2)

/-- `u32_at(i + offset)`. -/
def u32At (tail : List UInt8) (i offset : Nat) : Option Nat := do
  let i ← checkedAdd 32 i offset
  let _ ← checkedSlice tail i 4
  some (leAt tail i 4)

/-- The search for the end record below a position. -/
def findEnd (tail : List UInt8) : Nat → Option (Option Nat)
  | 0 => some none
  | i + 1 => do
    let _ ← checkedSlice tail i 4
    if hasSignature tail i 0x05 0x06 then
      let comment ← u16At tail i 20
      let stop ← checkedAdd 32 i 22
      let stop ← checkedAdd 32 stop comment
      if stop = tail.length then some (some i) else findEnd tail i
    else findEnd tail i

def readEndRecord (bytes : List UInt8) : Option (Except PreflightError EndRecord) := do
  let tailSize := min bytes.length 65557
  let tailSize ← asI64 tailSize
  let start ← checkedSub bytes.length tailSize
  let tail := bytes.drop start
  match ← findEnd tail (tail.length - 21) with
  | none => some (.error (.malformed "ZIP end of central directory missing"))
  | some e =>
    let disk ← u16At tail e 4
    let startDisk ← u16At tail e 6
    if disk ≠ 0 ∨ startDisk ≠ 0 then
      some (.error (.malformed "multi-disk ZIP is unsupported"))
    else
      let count ← u16At tail e 10
      let size ← u32At tail e 12
      let front ← checkedSub bytes.length tailSize
      let centralEnd ← checkedAdd 64 front e
      let offset ← u32At tail e 16
      if count ≠ 65535 ∧ size ≠ 2 ^ 32 - 1 ∧ offset ≠ 2 ^ 32 - 1 then
        some (.ok { count, size, centralEnd })
      else if centralEnd < 20 then some (.error (.malformed "ZIP64 locator missing"))
      else
        match readExact bytes (centralEnd - 20) 20 with
        | none => some (.error (.malformed "failed to fill whole buffer"))
        | some locator =>
          if !hasSignature locator 0 0x06 0x07 then
            some (.error (.malformed "invalid ZIP64 locator"))
          else
            match readExact bytes (leAt locator 8 8) 56 with
            | none => some (.error (.malformed "failed to fill whole buffer"))
            | some header =>
              if !hasSignature header 0 0x06 0x06 then
                some (.error (.malformed "invalid ZIP64 end record"))
              else if maxCentralDirectoryBytes < leAt header 4 8 then
                some (.error (.limit "MAX_CENTRAL_DIRECTORY_BYTES"))
              else
                some (.ok { count := leAt header 32 8, size := leAt header 40 8
                            centralEnd := leAt locator 8 8 })

/-- The walk over the central headers, for at most so many rounds. -/
def walkHeaders (bytes : List UInt8) (size : Nat) :
    (rounds pos consumed entries : Nat) → ArchiveBudget →
      Option (Except PreflightError Nat × ArchiveBudget)
  | 0, _, _, _, _ => none
  | n + 1, pos, consumed, entries, budget =>
    if size ≤ consumed then some (.ok entries, budget)
    else do
      let left ← checkedSub size consumed
      if left < 46 then some (.error (.malformed "truncated central directory"), budget)
      else
        match readExact bytes pos 46 with
        | none => some (.error (.malformed "failed to fill whole buffer"), budget)
        | some header =>
          if !hasSignature header 0 0x01 0x02 then
            some (.error (.malformed "invalid central directory entry"), budget)
          else
            let entries ← checkedAdd 32 entries 1
            if budget.jarEntries < entries then
              some (.error (.limit "MAX_JAR_ENTRIES"), budget)
            else
              let names ← u16At header 0 28
              if maxEntryNameBytes < names then
                some (.error (.limit "MAX_ENTRY_NAME_BYTES"), budget)
              else
                match budget.reserve names with
                | (.error e, budget) => some (.error e, budget)
                | (.ok (), budget) =>
                  let extra ← u16At header 0 30
                  let comment ← u16At header 0 32
                  let variableBytes ← checkedAdd 32 names extra
                  let variableBytes ← checkedAdd 32 variableBytes comment
                  let step ← checkedAdd 64 46 variableBytes
                  let consumed ← checkedAdd 64 consumed step
                  if size < consumed then
                    some (.error (.malformed "central entry exceeds directory size"), budget)
                  else
                    let variableBytes ← asI64 variableBytes
                    walkHeaders bytes size n (pos + 46 + variableBytes) consumed entries budget

def preflightArchive (rounds : Nat) (bytes : List UInt8) (budget : ArchiveBudget) :
    Option (Except PreflightError Unit × ArchiveBudget) := do
  match ← readEndRecord bytes with
  | .error e => some (.error e, budget)
  | .ok record =>
    if budget.jarEntries < record.count then some (.error (.limit "MAX_JAR_ENTRIES"), budget)
    else if budget.entries < record.count then some (.error (.limit "MAX_INDEX_ENTRIES"), budget)
    else if maxCentralDirectoryBytes < record.size then
      some (.error (.limit "MAX_CENTRAL_DIRECTORY_BYTES"), budget)
    else if record.centralEnd < record.size then
      some (.error (.malformed "invalid central directory size"), budget)
    else
      (walkHeaders bytes record.size rounds (record.centralEnd - record.size) 0 0 budget).map
        (checkCount record.count)

end Machine

/-! ## 2. Nothing overflows -/

theorem leAt_lt (bytes : List UInt8) (pos n : Nat) : leAt bytes pos n < 256 ^ n := by
  have hfold : ∀ l : List UInt8,
      l.foldr (fun b acc => b.toNat + 256 * acc) 0 < 256 ^ l.length := by
    intro l
    induction l with
    | nil => exact Nat.one_pos
    | cons b l ih =>
      have hb := b.toNat_lt
      rw [List.foldr_cons, List.length_cons, Nat.pow_succ]
      omega
  have hlength : ((bytes.drop pos).take n).length ≤ n := List.length_take_le _ _
  exact Nat.lt_of_lt_of_le (hfold _) (Nat.pow_le_pow_right (by decide) hlength)

namespace Machine

theorem asI64_eq_some {n : Nat} (h : n < 2 ^ 63) : asI64 n = some n := if_pos h

theorem u16At_eq {tail : List UInt8} {i offset : Nat} (hlength : tail.length ≤ 65557)
    (h : i + offset + 2 ≤ tail.length) : u16At tail i offset = some (leAt tail (i + offset) 2) := by
  unfold u16At
  rw [checkedAdd_eq_some (by omega), Option.bind_eq_bind, Option.bind_some,
    checkedSlice_eq_some h, Option.bind_eq_bind, Option.bind_some]

theorem u32At_eq {tail : List UInt8} {i offset : Nat} (hlength : tail.length ≤ 65557)
    (h : i + offset + 4 ≤ tail.length) : u32At tail i offset = some (leAt tail (i + offset) 4) := by
  unfold u32At
  rw [checkedAdd_eq_some (by omega), Option.bind_eq_bind, Option.bind_some,
    checkedSlice_eq_some h, Option.bind_eq_bind, Option.bind_some]

/-- The search is that for the last place. -/
theorem findEnd_eq {tail : List UInt8} (hlength : tail.length ≤ 65557) {n : Nat}
    (h : n ≤ tail.length - 21) :
    findEnd tail n = some ((List.range n).reverse.find? fun i =>
      hasSignature tail i 0x05 0x06 && decide (i + 22 + leAt tail (i + 20) 2 = tail.length)) := by
  induction n with
  | zero => rfl
  | succ i ih =>
    have hcomment := leAt_lt tail (i + 20) 2
    have hwindow : checkedSlice tail i 4 = some ((tail.drop i).take 4) :=
      checkedSlice_eq_some (by omega)
    have hstart : checkedAdd 32 i 22 = some (i + 22) := checkedAdd_eq_some (by omega)
    have hend : checkedAdd 32 (i + 22) (leAt tail (i + 20) 2)
        = some (i + 22 + leAt tail (i + 20) 2) := checkedAdd_eq_some (by omega)
    rw [List.range_succ, List.reverse_concat, List.find?_cons]
    unfold findEnd
    simp only [hwindow, u16At_eq hlength (show i + 20 + 2 ≤ tail.length by omega), hstart, hend,
      Option.bind_eq_bind, Option.bind_some]
    by_cases hsig : hasSignature tail i 0x05 0x06 = true
    · by_cases hstop : i + 22 + leAt tail (i + 20) 2 = tail.length
      · simp only [hsig, hstop, if_true, decide_true, Bool.and_self]
      · simp only [hsig, hstop, if_true, if_false, decide_false, Bool.and_false]
        exact ih (by omega)
    · rw [Bool.not_eq_true] at hsig
      simp only [hsig, Bool.false_eq_true, if_false, Bool.false_and]
      exact ih (by omega)

theorem findEnd_eq_some {tail : List UInt8} {e : Nat} (h : MavenMcp.findEnd tail = some e) :
    e + 22 ≤ tail.length := by
  have hmem := List.mem_of_find?_eq_some h
  rw [List.mem_reverse, List.mem_range] at hmem
  omega

/-- **The end records** are read without an overflow. -/
theorem readEndRecord_eq {bytes : List UInt8} (hbytes : bytes.length < 2 ^ 64) :
    readEndRecord bytes = some (MavenMcp.readEndRecord bytes) := by
  have hsize : asI64 (min bytes.length 65557) = some (min bytes.length 65557) :=
    asI64_eq_some (by omega)
  have hstart : checkedSub bytes.length (min bytes.length 65557)
      = some (bytes.length - min bytes.length 65557) := checkedSub_eq_some (by omega)
  have hdrop : (bytes.drop (bytes.length - min bytes.length 65557)).length
      = min bytes.length 65557 := by
    rw [List.length_drop]
    omega
  unfold readEndRecord MavenMcp.readEndRecord
  simp only [hsize, hstart, Option.bind_eq_bind, Option.bind_some]
  generalize bytes.drop (bytes.length - min bytes.length 65557) = tail at hdrop ⊢
  have htail : tail.length ≤ 65557 := by omega
  have hfind : findEnd tail (tail.length - 21) = some (MavenMcp.findEnd tail) :=
    findEnd_eq htail (Nat.le_refl _)
  rw [hfind, Option.bind_some]
  cases hend : MavenMcp.findEnd tail with
  | none => rfl
  | some e =>
    have hbound := findEnd_eq_some hend
    have hcentral : checkedAdd 64 (bytes.length - min bytes.length 65557) e
        = some (bytes.length - min bytes.length 65557 + e) := checkedAdd_eq_some (by omega)
    simp only [u16At_eq htail (show e + 4 + 2 ≤ tail.length by omega),
      u16At_eq htail (show e + 6 + 2 ≤ tail.length by omega),
      u16At_eq htail (show e + 10 + 2 ≤ tail.length by omega),
      u32At_eq htail (show e + 12 + 4 ≤ tail.length by omega),
      u32At_eq htail (show e + 16 + 4 ≤ tail.length by omega), hcentral, Option.bind_some]
    -- what is left are the same cases on both sides
    by_cases hdisk : leAt tail (e + 4) 2 ≠ 0 ∨ leAt tail (e + 6) 2 ≠ 0
    · rw [if_pos hdisk, if_pos hdisk]
    rw [if_neg hdisk, if_neg hdisk]
    by_cases hplain : leAt tail (e + 10) 2 ≠ 65535 ∧ leAt tail (e + 12) 4 ≠ 2 ^ 32 - 1 ∧
        leAt tail (e + 16) 4 ≠ 2 ^ 32 - 1
    · rw [if_pos hplain, if_pos hplain]
    rw [if_neg hplain, if_neg hplain]
    by_cases hfront : bytes.length - min bytes.length 65557 + e < 20
    · rw [if_pos hfront, if_pos hfront]
    rw [if_neg hfront, if_neg hfront]
    cases readExact bytes (bytes.length - min bytes.length 65557 + e - 20) 20 with
    | none => rfl
    | some locator =>
      cases hlocator : hasSignature locator 0 0x06 0x07 with
      | false => simp only [hlocator, Bool.not_false, if_true]
      | true =>
        simp only [hlocator, Bool.not_true, Bool.false_eq_true, if_false]
        cases readExact bytes (leAt locator 8 8) 56 with
        | none => rfl
        | some header =>
          simp only
          split_ifs
          all_goals rfl

theorem length_of_readExact {bytes part : List UInt8} {pos n : Nat}
    (h : readExact bytes pos n = some part) : part.length = n := by
  unfold readExact at h
  simp only at h
  split at h
  · rename_i hlength
    rw [← Option.some.inj h]
    exact hlength
  · cases h

/-- **The walk** comes to its end without an overflow. -/
theorem walkHeaders_eq {bytes : List UInt8} {size : Nat} (hsize : size ≤ maxCentralDirectoryBytes) :
    ∀ (n pos consumed entries : Nat) (budget : ArchiveBudget), size - consumed ≤ n →
      entries ≤ consumed → consumed ≤ size →
        walkHeaders bytes size (n + 1) pos consumed entries budget
          = some (MavenMcp.walkHeaders bytes size n pos consumed entries budget) := by
  have hlimit : maxCentralDirectoryBytes = 67108864 := rfl
  intro n
  induction n with
  | zero =>
    intro pos consumed entries budget hleft hentries hconsumed
    have hend : size ≤ consumed := by omega
    unfold walkHeaders MavenMcp.walkHeaders
    exact if_pos hend
  | succ n ih =>
    intro pos consumed entries budget hleft hentries hconsumed
    unfold walkHeaders MavenMcp.walkHeaders
    by_cases hend : size ≤ consumed
    · rw [if_pos hend, if_pos hend]
    rw [if_neg hend, if_neg hend, checkedSub_eq_some (by omega), Option.bind_eq_bind,
      Option.bind_some]
    by_cases htruncated : size - consumed < 46
    · rw [if_pos htruncated, if_pos htruncated]
    rw [if_neg htruncated, if_neg htruncated]
    cases hread : readExact bytes pos 46 with
    | none => rfl
    | some header =>
      have hheader := length_of_readExact hread
      have hnames := leAt_lt header 28 2
      have hextra := leAt_lt header 30 2
      have hcomment := leAt_lt header 32 2
      have hfield : ∀ offset, offset + 2 ≤ 46 →
          u16At header 0 offset = some (leAt header offset 2) := by
        intro offset hoffset
        have hat := @u16At_eq header 0 offset (by omega) (by omega)
        rwa [Nat.zero_add] at hat
      simp only
      cases hsig : hasSignature header 0 0x01 0x02 with
      | false => rfl
      | true =>
        simp only [Bool.not_true, Bool.false_eq_true, if_false, hfield 28 (by decide),
          hfield 30 (by decide), hfield 32 (by decide), Option.bind_some]
        rw [checkedAdd_eq_some (by omega), Option.bind_some]
        by_cases hjar : budget.jarEntries < entries + 1
        · rw [if_pos hjar, if_pos hjar]
        rw [if_neg hjar, if_neg hjar]
        by_cases hname : maxEntryNameBytes < leAt header 28 2
        · rw [if_pos hname, if_pos hname]
        rw [if_neg hname, if_neg hname]
        cases budget.reserve (leAt header 28 2) with
        | mk result budget =>
          cases result with
          | error e => rfl
          | ok _ =>
            simp only
            have hsum : checkedAdd 32 (leAt header 28 2) (leAt header 30 2)
                = some (leAt header 28 2 + leAt header 30 2) := checkedAdd_eq_some (by omega)
            have hvariable : checkedAdd 32 (leAt header 28 2 + leAt header 30 2) (leAt header 32 2)
                = some (leAt header 28 2 + leAt header 30 2 + leAt header 32 2) :=
              checkedAdd_eq_some (by omega)
            simp only [hsum, hvariable, Option.bind_some]
            obtain ⟨width, hwidth⟩ : ∃ width,
              leAt header 28 2 + leAt header 30 2 + leAt header 32 2 = width := ⟨_, rfl⟩
            rw [hwidth, checkedAdd_eq_some (by omega), Option.bind_some,
              checkedAdd_eq_some (by omega), Option.bind_some, asI64_eq_some (by omega),
              Nat.add_assoc consumed 46 width]
            by_cases hexceeds : size < consumed + (46 + width)
            · rw [if_pos hexceeds, if_pos hexceeds]
            rw [if_neg hexceeds, if_neg hexceeds, Option.bind_some]
            exact ih _ _ _ _ (by omega) (by omega) (by omega)

end Machine

/-- More rounds than the directory has bytes make no difference. -/
theorem walkHeaders_eq_of_le {bytes : List UInt8} {size n : Nat} (h : size ≤ n)
    (pos : Nat) (budget : ArchiveBudget) :
    walkHeaders bytes size n pos 0 0 budget = walkHeaders bytes size size pos 0 0 budget := by
  induction n, h using Nat.le_induction with
  | base => rfl
  | succ n hle ih => rw [walkHeaders_enough bytes size n pos 0 0 budget (by omega), ih]

/-- **No overflow, and an end**: the program of the machine is the preflight. -/
theorem machine_preflightArchive {bytes : List UInt8} (hbytes : bytes.length < 2 ^ 64)
    (budget : ArchiveBudget) {rounds : Nat} (hrounds : maxCentralDirectoryBytes < rounds) :
    Machine.preflightArchive rounds bytes budget = some (preflightArchive bytes budget) := by
  unfold Machine.preflightArchive preflightArchive
  rw [Machine.readEndRecord_eq hbytes, Option.bind_eq_bind, Option.bind_some]
  cases readEndRecord bytes with
  | error e => rfl
  | ok record =>
    simp only
    by_cases hjar : budget.jarEntries < record.count
    · rw [if_pos hjar, if_pos hjar]
    rw [if_neg hjar, if_neg hjar]
    by_cases hentries : budget.entries < record.count
    · rw [if_pos hentries, if_pos hentries]
    rw [if_neg hentries, if_neg hentries]
    by_cases hsize : maxCentralDirectoryBytes < record.size
    · rw [if_pos hsize, if_pos hsize]
    rw [if_neg hsize, if_neg hsize]
    by_cases hstart : record.centralEnd < record.size
    · rw [if_pos hstart, if_pos hstart]
    rw [if_neg hstart, if_neg hstart]
    obtain ⟨n, rfl⟩ : ∃ n, rounds = n + 1 := ⟨rounds - 1, by omega⟩
    rw [Machine.walkHeaders_eq (Nat.le_of_not_lt hsize) n _ 0 0 budget (by omega) (Nat.le_refl _)
      (Nat.zero_le _), Option.map_some, walkHeaders_eq_of_le (by omega)]

/-! ## 3. The central directory -/

/-- The region from `pos` to `stop` consists of central headers, with names of these lengths. -/
inductive Headers (bytes : List UInt8) : Nat → Nat → List Nat → Prop
  | done {pos : Nat} : Headers bytes pos pos []
  | cons {pos stop : Nat} {header : List UInt8} {names : List Nat}
      (hread : readExact bytes pos 46 = some header)
      (hsignature : hasSignature header 0 0x01 0x02 = true)
      (hrest : Headers bytes
        (pos + (46 + (leAt header 28 2 + leAt header 30 2 + leAt header 32 2))) stop names) :
      Headers bytes pos stop (leAt header 28 2 :: names)

/-- What is known of a central directory that passed: where it ends, and its names. -/
structure DirectoryChecked (bytes : List UInt8) (record : EndRecord) (names : List Nat)
    (before after : ArchiveBudget) : Prop where
  declared : readEndRecord bytes = .ok record
  start : record.size ≤ record.centralEnd
  inside : record.centralEnd ≤ bytes.length
  headers : Headers bytes (record.centralEnd - record.size) record.centralEnd names
  count : names.length = record.count
  maxSize : record.size ≤ maxCentralDirectoryBytes
  maxCount : record.count ≤ before.jarEntries
  maxName : ∀ name ∈ names, name ≤ maxEntryNameBytes
  entries : after.entries + record.count = before.entries
  names : after.names + names.sum = before.names
  jarEntries : after.jarEntries = before.jarEntries

theorem reserve_eq_ok {budget after : ArchiveBudget} {names : Nat}
    (h : budget.reserve names = (.ok (), after)) :
    after.entries + 1 = budget.entries ∧ after.names + names = budget.names ∧
      after.jarEntries = budget.jarEntries := by
  unfold ArchiveBudget.reserve at h
  split at h
  · cases h
  · simp only at h
    split at h
    · cases h
    · obtain ⟨-, rfl⟩ := Prod.mk.inj h
      refine ⟨?_, ?_, rfl⟩
      · show budget.entries - 1 + 1 = budget.entries
        omega
      · show budget.names - names + names = budget.names
        omega

/-- **The walk** splits what is left of the directory into headers, and pays for each. -/
theorem headers_of_walkHeaders {bytes : List UInt8} {size : Nat} :
    ∀ (n pos consumed k : Nat) {budget after : ArchiveBudget} {entries : Nat},
      size - consumed ≤ n → consumed ≤ size →
        walkHeaders bytes size n pos consumed k budget = (.ok entries, after) →
          ∃ names, Headers bytes pos (pos + (size - consumed)) names ∧ entries = k + names.length ∧
            (∀ name ∈ names, name ≤ maxEntryNameBytes) ∧
            after.entries + names.length = budget.entries ∧
            after.names + names.sum = budget.names ∧ after.jarEntries = budget.jarEntries := by
  intro n
  induction n with
  | zero =>
    intro pos consumed k budget after entries hleft hconsumed h
    unfold walkHeaders at h
    obtain ⟨hk, rfl⟩ := Prod.mk.inj h
    have hend : size - consumed = 0 := by omega
    rw [hend]
    exact ⟨[], .done, (Except.ok.inj hk).symm, List.forall_mem_nil _, rfl, rfl, rfl⟩
  | succ n ih =>
    intro pos consumed k budget after entries hleft hconsumed h
    unfold walkHeaders at h
    split at h
    · obtain ⟨hk, rfl⟩ := Prod.mk.inj h
      have hend : size - consumed = 0 := by omega
      rw [hend]
      exact ⟨[], .done, (Except.ok.inj hk).symm, List.forall_mem_nil _, rfl, rfl, rfl⟩
    split at h
    · cases h
    split at h
    · cases h
    rename_i header hread
    split at h
    · cases h
    rename_i hsig
    split at h
    · cases h
    simp only at h
    split at h
    · cases h
    rename_i hname
    split at h
    · cases h
    rename_i paid hreserve
    split at h
    · cases h
    rename_i hexceeds
    obtain ⟨names, hheaders, hentries, hnames, hpaid, hpaidNames, hjar⟩ :=
      ih _ _ _ (by omega) (by omega) h
    obtain ⟨hone, honeNames, honeJar⟩ := reserve_eq_ok hreserve
    rw [Bool.not_eq_true, Bool.not_eq_false'] at hsig
    refine ⟨leAt header 28 2 :: names, .cons hread hsig ?_, ?_, ?_, ?_, ?_, ?_⟩
    · rw [← Nat.add_assoc pos 46]
      have hstop : pos + 46 + (leAt header 28 2 + leAt header 30 2 + leAt header 32 2) +
          (size - (consumed + 46 + (leAt header 28 2 + leAt header 30 2 + leAt header 32 2)))
          = pos + (size - consumed) := by omega
      rw [← hstop]
      exact hheaders
    · rw [hentries, List.length_cons]
      omega
    · intro name hmem
      rcases List.mem_cons.mp hmem with rfl | hmem
      · exact Nat.le_of_not_lt hname
      · exact hnames name hmem
    · rw [List.length_cons]
      omega
    · rw [List.sum_cons]
      omega
    · rw [hjar, honeJar]

theorem readExact_inside {bytes part : List UInt8} {pos n : Nat}
    (h : readExact bytes pos n = some part) (hn : 0 < n) : pos + n ≤ bytes.length := by
  unfold readExact at h
  simp only at h
  split at h
  · rename_i hlength
    rw [List.length_take, List.length_drop] at hlength
    omega
  · cases h

theorem centralEnd_inside {bytes : List UInt8} {record : EndRecord}
    (h : readEndRecord bytes = .ok record) : record.centralEnd ≤ bytes.length := by
  unfold readEndRecord at h
  simp only at h
  split at h
  · cases h
  rename_i e hend
  have hbound := Machine.findEnd_eq_some hend
  rw [List.length_drop] at hbound
  split at h
  · cases h
  split at h
  · rw [← Except.ok.inj h]
    show bytes.length - min bytes.length 65557 + e ≤ bytes.length
    omega
  split at h
  · cases h
  split at h
  · cases h
  split at h
  · cases h
  split at h
  · cases h
  rename_i header hread
  split at h
  · cases h
  split at h
  · cases h
  rw [← Except.ok.inj h]
  exact Nat.le_trans (Nat.le_add_right _ 56) (readExact_inside hread (by decide))

/-- **A JAR that passes** has a central directory of well-formed headers, as many as declared. -/
theorem headers_of_preflightArchive {bytes : List UInt8} {budget after : ArchiveBudget}
    (h : preflightArchive bytes budget = (.ok (), after)) :
    ∃ record names, DirectoryChecked bytes record names budget after := by
  unfold preflightArchive at h
  split at h
  · cases h
  rename_i record hrecord
  split at h
  · cases h
  rename_i hjar
  split at h
  · cases h
  split at h
  · cases h
  rename_i hsize
  split at h
  · cases h
  rename_i hstart
  have hwalk := checkCount_eq_ok h
  obtain ⟨names, hheaders, hcount, hnames, hentries, hsum, hjarEntries⟩ :=
    headers_of_walkHeaders _ _ _ _ (by omega) (Nat.zero_le _) hwalk
  have hstop : record.centralEnd - record.size + (record.size - 0) = record.centralEnd := by omega
  rw [hstop] at hheaders
  exact ⟨record, names, hrecord, Nat.le_of_not_lt hstart, centralEnd_inside hrecord, hheaders,
    by omega, Nat.le_of_not_lt hsize, Nat.le_of_not_lt hjar, hnames, by omega, hsum, hjarEntries⟩

/-- **The preflight cannot be bypassed**: it ends without an overflow on every content, and what
passes has been checked to its end and paid for. -/
theorem preflightArchive_sound (bytes : List UInt8) (hbytes : bytes.length < 2 ^ 64)
    (budget : ArchiveBudget) :
    (∀ rounds, maxCentralDirectoryBytes < rounds →
      Machine.preflightArchive rounds bytes budget = some (preflightArchive bytes budget)) ∧
    ∀ after, preflightArchive bytes budget = (.ok (), after) →
      ∃ record names, DirectoryChecked bytes record names budget after :=
  ⟨fun _ => machine_preflightArchive hbytes budget, fun _ => headers_of_preflightArchive⟩

/-- A JAR with one empty entry of the name `a`. -/
def smallJar : List UInt8 :=
  [80, 75, 1, 2] ++ List.replicate 24 0 ++ [1, 0] ++ List.replicate 16 0 ++ [97] ++
    ([80, 75, 5, 6] ++ List.replicate 4 0 ++ [1, 0, 1, 0, 47, 0, 0, 0] ++ List.replicate 6 0)

def smallBudget : ArchiveBudget := { entries := 5, names := 5, jarEntries := 5 }

theorem preflightArchive_sound_small :
    preflightArchive smallJar smallBudget
        = (.ok (), { entries := 4, names := 4, jarEntries := 5 }) ∧
      (∀ rounds, maxCentralDirectoryBytes < rounds →
        Machine.preflightArchive rounds smallJar smallBudget
          = some (preflightArchive smallJar smallBudget)) ∧
      ∀ after, preflightArchive smallJar smallBudget = (.ok (), after) →
        ∃ record names, DirectoryChecked smallJar record names smallBudget after :=
  ⟨by decide +kernel, preflightArchive_sound smallJar (by decide) _⟩

end MavenMcp
