/-
# The longest suffix with a property

A bounded queue that forgets its oldest entries holds, at every moment, the longest suffix of
what was ever pushed that still fits.  `longestSuffix p l` is that suffix.

* `longestSuffix_narrow`: dropping for a weaker reason first does not change what a stronger one
  leaves, so the queue can be trimmed at every operation instead of once at the end.
* `longestSuffix_snoc`: trimming for the next entry and then pushing it is trimming after it.
* `exits_longestSuffix`: `while !p(queue) { queue.pop_front() }` leaves it, and finds the queue
  nonempty whenever it pops.
-/
import MavenMcp.Lib.Loop

variable {α : Type}

/-- The longest suffix of `l` that satisfies `p`; `[]` when none does. -/
def longestSuffix (p : List α → Bool) : List α → List α
  | [] => []
  | a :: l => if p (a :: l) then a :: l else longestSuffix p l

theorem longestSuffix_suffix (p : List α → Bool) : ∀ l, longestSuffix p l <:+ l
  | [] => List.suffix_rfl
  | a :: l => by
    unfold longestSuffix
    split
    · exact List.suffix_rfl
    · exact (longestSuffix_suffix p l).trans (List.suffix_cons a l)

theorem longestSuffix_holds {p : List α → Bool} (h : p [] = true) :
    ∀ l, p (longestSuffix p l) = true
  | [] => h
  | a :: l => by
    unfold longestSuffix
    split
    · assumption
    · exact longestSuffix_holds h l

/-- No suffix with the property is longer. -/
theorem suffix_longestSuffix {p : List α → Bool} {s : List α} (hs : p s = true) :
    ∀ {l : List α}, s <:+ l → s <:+ longestSuffix p l
  | [], h => h
  | a :: l, h => by
    unfold longestSuffix
    split
    · exact h
    · rename_i hp
      rcases List.suffix_cons_iff.mp h with rfl | h
      · exact absurd hs hp
      · exact suffix_longestSuffix hs h

theorem longestSuffix_of_holds {p : List α → Bool} {l : List α} (h : p l = true) :
    longestSuffix p l = l := by
  cases l with
  | nil => rfl
  | cons a l => rw [longestSuffix, if_pos h]

/-- Two properties that agree on the suffixes of `l` have the same longest suffix. -/
theorem longestSuffix_congr {p q : List α → Bool} :
    ∀ {l : List α}, (∀ s, s <:+ l → s ≠ [] → p s = q s) → longestSuffix p l = longestSuffix q l
  | [], _ => rfl
  | a :: l, h => by
    have ha := h (a :: l) List.suffix_rfl (by simp)
    have hl := longestSuffix_congr fun s hs => h s (hs.trans (List.suffix_cons a l))
    rw [longestSuffix, longestSuffix, ha, hl]

/-- What a weaker property drops, the stronger one drops too. -/
theorem longestSuffix_narrow {p q : List α → Bool} (h : ∀ s, q s = true → p s = true) :
    ∀ l, longestSuffix q (longestSuffix p l) = longestSuffix q l
  | [] => rfl
  | a :: l => by
    rw [longestSuffix]
    split
    · rfl
    · rename_i hp
      have hq : ¬ q (a :: l) = true := fun hq => hp (h _ hq)
      rw [longestSuffix_narrow h l]
      rw [longestSuffix, if_neg hq]

/-- Make room for the next entry, then push it. -/
theorem longestSuffix_snoc {p : List α → Bool} {a : α} (h : p [a] = true) :
    ∀ l, longestSuffix p (l ++ [a]) = longestSuffix (fun s => p (s ++ [a])) l ++ [a]
  | [] => by
    have : longestSuffix p [a] = [a] := longestSuffix_of_holds h
    exact this
  | b :: l => by
    rw [List.cons_append, longestSuffix, longestSuffix, List.cons_append]
    split
    · rfl
    · exact longestSuffix_snoc h l

/-- For a property of single entries that later entries inherit, nothing else is dropped. -/
theorem longestSuffix_all_eq_filter {f : α → Bool} :
    ∀ {l : List α}, l.Pairwise (fun a b => f a = true → f b = true) →
      longestSuffix (fun s => s.all f) l = l.filter f
  | [], _ => rfl
  | a :: l, h => by
    obtain ⟨ha, hl⟩ := List.pairwise_cons.mp h
    rw [longestSuffix]
    by_cases hf : f a = true
    · have hall : (a :: l).all f = true := by
        rw [List.all_eq_true]
        intro b hb
        rcases List.mem_cons.mp hb with rfl | hb
        · exact hf
        · exact ha b hb hf
      rw [if_pos hall]
      exact (List.filter_eq_self.mpr (List.all_eq_true.mp hall)).symm
    · have hall : ¬ (a :: l).all f = true := by simp [hf]
      rw [if_neg hall, longestSuffix_all_eq_filter hl, List.filter_cons_of_neg hf]

/-! ## The loop that pops -/

/-- A queue with state around it, popped from the front while `p` fails.  The loop exits with
the longest suffix, and never finds the queue empty when it pops. -/
theorem exits_longestSuffix {σ : Type} {body : σ → Option σ} {queue : σ → List α}
    {p : List α → Bool} {I : σ → Prop} (hnil : p [] = true)
    (hexit : ∀ s, I s → p (queue s) = true → body s = none)
    (hround : ∀ s a l, I s → queue s = a :: l → p (queue s) = false →
      ∃ s', body s = some s' ∧ queue s' = l ∧ I s') :
    ∀ (n : Nat) (s : σ), I s → (queue s).length ≤ n →
      Loop.Exits body s (Loop.run body n s) ∧
        queue (Loop.run body n s) = longestSuffix p (queue s) ∧
        I (Loop.run body n s) := by
  intro n
  induction n with
  | zero =>
    intro s hI hn
    have hq : queue s = [] := List.eq_nil_of_length_eq_zero (Nat.le_zero.mp hn)
    have hp : p (queue s) = true := by rw [hq]; exact hnil
    exact ⟨⟨.refl, hexit s hI hp⟩, by rw [hq]; exact hq, hI⟩
  | succ n ih =>
    intro s hI hn
    by_cases hp : p (queue s) = true
    · have hb := hexit s hI hp
      have hrun : Loop.run body (n + 1) s = s := by rw [Loop.run, hb]
      rw [hrun]
      exact ⟨⟨.refl, hb⟩, (longestSuffix_of_holds hp).symm, hI⟩
    · have hpf : p (queue s) = false := by simpa using hp
      cases hq : queue s with
      | nil => rw [hq] at hp; exact absurd hnil hp
      | cons a l =>
        obtain ⟨s', hb, hq', hI'⟩ := hround s a l hI hq hpf
        have hrun : Loop.run body (n + 1) s = Loop.run body n s' := by rw [Loop.run, hb]
        have hlen : (queue s').length ≤ n := by
          rw [hq']
          rw [hq] at hn
          simpa using hn
        obtain ⟨hex, hqueue, hend⟩ := ih s' hI' hlen
        rw [hrun]
        refine ⟨⟨.head hb hex.1, hex.2⟩, ?_, hend⟩
        rw [hqueue, hq', longestSuffix, if_neg (by rw [← hq]; exact hp)]
