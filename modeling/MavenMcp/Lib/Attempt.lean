/-
# Attempts

An attempt reads and writes a state and answers a value or an error; what it wrote before an error
stays written.  `Triple P x Q E` says that from a state in `P` the attempt ends in `Q` of its
answer, or fails in `E`.  There is one rule for each way to build an attempt from others; a caller's
proof follows the text of the attempt, and invents an invariant at a loop only.
-/
import Mathlib.Logic.Basic

/-- Attempts with errors `ε` on a state `σ`. -/
abbrev Attempt (ε σ α : Type) := ExceptT ε (StateM σ) α

namespace Attempt

variable {ε ε' σ α β : Type} {P R : σ → Prop} {Q : α → σ → Prop} {E : σ → Prop}

/-- An attempt by its function. -/
def of (f : σ → Except ε α × σ) : Attempt ε σ α := f

/-- The answer to a state, and the state afterwards. -/
def answer (x : Attempt ε σ α) (s : σ) : Except ε α × σ := x s

@[simp] theorem answer_of (f : σ → Except ε α × σ) (s : σ) : (of f).answer s = f s := rfl

theorem answer_bind (x : Attempt ε σ α) (f : α → Attempt ε σ β) (s : σ) :
    (x >>= f).answer s =
      match x.answer s with
      | (.ok a, s') => (f a).answer s'
      | (.error e, s') => (.error e, s') := by
  simp only [answer, bind, ExceptT.bind, ExceptT.mk, StateT.bind]
  rcases x s with ⟨e | a, s'⟩
  · rfl
  · rfl

/-- An attempt that leaves the state alone. -/
def lift (x : Except ε α) : Attempt ε σ α := of fun s => (x, s)

/-- Another error for the same failure. -/
def mapError (f : ε → ε') (x : Attempt ε σ α) : Attempt ε' σ α :=
  of fun s => ((x.answer s).1.mapError f, (x.answer s).2)

def Triple (P : σ → Prop) (x : Attempt ε σ α) (Q : α → σ → Prop) (E : σ → Prop) : Prop :=
  ∀ s, P s →
    match x.answer s with
    | (.ok a, s') => Q a s'
    | (.error _, s') => E s'

namespace Triple

theorem intro {x : Attempt ε σ α}
    (hok : ∀ s a s', P s → x.answer s = (.ok a, s') → Q a s')
    (herror : ∀ s e s', P s → x.answer s = (.error e, s') → E s') : Triple P x Q E := by
  intro s hs
  rcases hx : x.answer s with ⟨e | a, s'⟩
  · exact herror s e s' hs hx
  · exact hok s a s' hs hx

theorem ok {x : Attempt ε σ α} (h : Triple P x Q E) {s s' : σ} {a : α} (hs : P s)
    (hx : x.answer s = (.ok a, s')) : Q a s' := by
  have := h s hs
  rwa [hx] at this

theorem error {x : Attempt ε σ α} (h : Triple P x Q E) {s s' : σ} {e : ε} (hs : P s)
    (hx : x.answer s = (.error e, s')) : E s' := by
  have := h s hs
  rwa [hx] at this

theorem conseq {P' : σ → Prop} {Q' : α → σ → Prop} {E' : σ → Prop} {x : Attempt ε σ α}
    (h : Triple P x Q E) (hP : ∀ s, P' s → P s) (hQ : ∀ a s, Q a s → Q' a s)
    (hE : ∀ s, E s → E' s) : Triple P' x Q' E' := by
  intro s hs
  have := h s (hP s hs)
  split at this
  · exact hQ _ _ this
  · exact hE _ this

theorem weaken {P' : σ → Prop} {x : Attempt ε σ α} (h : Triple P x Q E) (hP : ∀ s, P' s → P s) :
    Triple P' x Q E := h.conseq hP (fun _ _ => id) fun _ => id

/-- A triple state by state, so that the answer may be compared with the state before. -/
theorem each {x : Attempt ε σ α} (h : ∀ s, P s → Triple (· = s) x Q E) : Triple P x Q E :=
  fun s hs => h s hs s rfl

/-- A fact about values goes into the context. -/
theorem assume {p : Prop} {x : Attempt ε σ α} (h : p → Triple P x Q E) :
    Triple (fun s => p ∧ P s) x Q E := fun s hs => h hs.1 s hs.2

/-- Two triples of one attempt. -/
theorem and {P' : σ → Prop} {Q' : α → σ → Prop} {E' : σ → Prop} {x : Attempt ε σ α}
    (h : Triple P x Q E) (h' : Triple P' x Q' E') :
    Triple (fun s => P s ∧ P' s) x (fun a s => Q a s ∧ Q' a s) fun s => E s ∧ E' s := by
  intro s hs
  have h₁ := h s hs.1
  have h₂ := h' s hs.2
  generalize x.answer s = r at h₁ h₂ ⊢
  rcases r with ⟨e | a, s'⟩
  · exact ⟨h₁, h₂⟩
  · exact ⟨h₁, h₂⟩

theorem pure {a : α} (h : ∀ s, P s → Q a s) : Triple P (pure a : Attempt ε σ α) Q E := h

theorem throw {e : ε} (h : ∀ s, P s → E s) : Triple P (throw e : Attempt ε σ α) Q E := h

theorem bind {x : Attempt ε σ α} {f : α → Attempt ε σ β} {Q' : β → σ → Prop}
    (hx : Triple P x Q E) (hf : ∀ a, Triple (Q a) (f a) Q' E) : Triple P (x >>= f) Q' E := by
  intro s hs
  have h := hx s hs
  rw [answer_bind]
  generalize x.answer s = r at h ⊢
  rcases r with ⟨e | a, s'⟩
  · exact h
  · exact hf a s' h

theorem lift {x : Except ε α} (hok : ∀ s a, P s → x = .ok a → Q a s)
    (herror : ∀ s, P s → E s) : Triple P (Attempt.lift x) Q E := by
  intro s hs
  change match (x, s) with
    | (.ok a, s') => Q a s'
    | (.error _, s') => E s'
  cases hx : x with
  | ok a => exact hok s a hs hx
  | error e => exact herror s hs

theorem ite {p : Prop} [Decidable p] {x y : Attempt ε σ α} (hx : p → Triple P x Q E)
    (hy : ¬p → Triple P y Q E) : Triple P (if p then x else y) Q E := by
  split
  · rename_i h
    exact hx h
  · rename_i h
    exact hy h

theorem get {Q : σ → σ → Prop} (h : ∀ s, P s → Q s s) :
    Triple P (MonadState.get : Attempt ε σ σ) Q E := h

theorem modify {f : σ → σ} {Q : PUnit → σ → Prop} (h : ∀ s, P s → Q ⟨⟩ (f s)) :
    Triple P (modify f : Attempt ε σ PUnit) Q E := h

theorem mapError {x : Attempt ε σ α} {f : ε → ε'} (h : Triple P x Q E) :
    Triple P (x.mapError f) Q E := by
  intro s hs
  have hx := h s hs
  change match ((x.answer s).1.mapError f, (x.answer s).2) with
    | (.ok a, s') => Q a s'
    | (.error _, s') => E s'
  generalize x.answer s = r at hx ⊢
  rcases r with ⟨e | a, s'⟩
  · exact hx
  · exact hx

/-- **Loops.** -/
theorem foldlM {I : β → σ → Prop} {f : β → α → Attempt ε σ β} {l : List α}
    (h : ∀ a ∈ l, ∀ b, Triple (I b) (f b a) I E) (b : β) : Triple (I b) (l.foldlM f b) I E := by
  induction l generalizing b with
  | nil => exact pure fun _ hs => hs
  | cons a l ih =>
    rw [List.foldlM_cons]
    exact (h a List.mem_cons_self b).bind fun b' =>
      ih (fun a ha => h a (List.mem_cons_of_mem _ ha)) b'

end Triple

end Attempt
