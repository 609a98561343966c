/-
# Delimited words

Words are written one after another, each followed by a mark.  Words without the mark can be read
back (`header_cut`), and words that may have it cannot.

Between the two are lists of named words: the names are known and have no mark, the words are
arbitrary.  `Shifted` says that a name stands, between marks, where it would end the word in front
of it, or at the beginning of its own word.  `written_injective_iff` says that this is the only way
in which a list of named words shares its text with another one of the same names.
-/
import Mathlib.Data.List.Basic
import Mathlib.Data.List.Infix

namespace Delimited

variable {α : Type*} {mark : α} {a b s t : List α}

/-! ## 1. One word -/

/-- The word in front of the first mark. -/
theorem cut (ha : mark ∉ a) (hb : mark ∉ b) (h : a ++ mark :: s = b ++ mark :: t) :
    a = b ∧ s = t := by
  induction a generalizing b with
  | nil =>
    cases b with
    | nil => exact ⟨rfl, (List.cons.inj h).2⟩
    | cons x b =>
      obtain ⟨rfl, -⟩ := List.cons.inj h
      exact absurd List.mem_cons_self hb
  | cons x a ih =>
    cases b with
    | nil =>
      obtain ⟨rfl, -⟩ := List.cons.inj h
      exact absurd List.mem_cons_self ha
    | cons y b =>
      obtain ⟨rfl, hrest⟩ := List.cons.inj h
      obtain ⟨rfl, rfl⟩ := ih (fun hmem => ha (List.mem_cons_of_mem _ hmem))
        (fun hmem => hb (List.mem_cons_of_mem _ hmem)) hrest
      exact ⟨rfl, rfl⟩

/-- A word without the mark, in front of a word that may have it. -/
theorem cut_prefix (hb : mark ∉ b) (h : a ++ mark :: s = b ++ mark :: t) :
    ∃ more, a ++ [mark] = b ++ mark :: more ∧ t = more ++ s := by
  induction b generalizing a with
  | nil =>
    cases a with
    | nil => exact ⟨[], rfl, (List.cons.inj h).2.symm⟩
    | cons x a =>
      obtain ⟨rfl, ht⟩ := List.cons.inj h
      exact ⟨a ++ [x], rfl, by simp [← ht]⟩
  | cons y b ih =>
    cases a with
    | nil =>
      obtain ⟨rfl, -⟩ := List.cons.inj h
      exact absurd List.mem_cons_self hb
    | cons x a =>
      obtain ⟨rfl, hrest⟩ := List.cons.inj h
      obtain ⟨more, hmore, ht⟩ := ih (fun hmem => hb (List.mem_cons_of_mem _ hmem)) hrest
      exact ⟨more, congrArg (List.cons x) hmore, ht⟩

/-! ## 2. Words without the mark -/

/-- Words, each with a mark behind it, and another mark. -/
def header (mark : α) (words : List (List α)) : List α :=
  words.flatMap (· ++ [mark]) ++ [mark]

theorem header_cons (word : List α) (words : List (List α)) :
    header mark (word :: words) = word ++ mark :: header mark words := by
  simp [header]

/-- **Words are read back**, where only the first may be empty. -/
theorem header_cut {words words' : List (List α)} (hmark : ∀ word ∈ words, mark ∉ word)
    (hmark' : ∀ word ∈ words', mark ∉ word) (hne : [] ∉ words) (hne' : [] ∉ words')
    (h : header mark words ++ s = header mark words' ++ t) : words = words' ∧ s = t := by
  induction words generalizing words' with
  | nil =>
    cases words' with
    | nil => exact ⟨rfl, (List.cons.inj h).2⟩
    | cons word' words' =>
      -- the mark at the end would begin a word
      rw [header_cons, List.append_assoc] at h
      cases word' with
      | nil => exact absurd List.mem_cons_self hne'
      | cons x word' =>
        obtain ⟨rfl, -⟩ := List.cons.inj h
        exact absurd List.mem_cons_self (hmark' _ List.mem_cons_self)
  | cons word words ih =>
    rw [header_cons, List.append_assoc] at h
    cases words' with
    | nil =>
      cases word with
      | nil => exact absurd List.mem_cons_self hne
      | cons x word =>
        obtain ⟨rfl, -⟩ := List.cons.inj h
        exact absurd List.mem_cons_self (hmark _ List.mem_cons_self)
    | cons word' words' =>
      rw [header_cons, List.append_assoc] at h
      obtain ⟨rfl, hrest⟩ := cut (hmark _ List.mem_cons_self) (hmark' _ List.mem_cons_self) h
      obtain ⟨rfl, rfl⟩ := ih (fun w hw => hmark w (List.mem_cons_of_mem _ hw))
        (fun w hw => hmark' w (List.mem_cons_of_mem _ hw))
        (fun hmem => hne (List.mem_cons_of_mem _ hmem))
        (fun hmem => hne' (List.mem_cons_of_mem _ hmem)) hrest
      exact ⟨rfl, rfl⟩

/-! ## 3. Named words -/

/-- Names and words, each with a mark behind it. -/
def written (mark : α) (pairs : List (List α × List α)) : List α :=
  pairs.flatMap fun (name, word) => name ++ mark :: (word ++ [mark])

@[simp] theorem written_nil : written mark [] = [] := rfl

theorem written_cons (name word : List α) (pairs : List (List α × List α)) :
    written mark ((name, word) :: pairs)
      = name ++ mark :: (word ++ mark :: written mark pairs) := by
  simp [written]

theorem written_append (front back : List (List α × List α)) :
    written mark (front ++ back) = written mark front ++ written mark back := by
  simp [written]

/-- A name stands between marks in its own word, or at the end of the one in front of it. -/
def Shifted (mark : α) (pairs : List (List α × List α)) : Prop :=
  ∃ front first last name word back, pairs = front ++ (first, last) :: (name, word) :: back ∧
    (mark :: (name ++ [mark]) <:+: last ++ [mark] ∨ mark :: (name ++ [mark]) <:+: mark :: word)

section

variable {pairs pairs' : List (List α × List α)}

theorem Shifted.cons (pair : List α × List α) (h : Shifted mark pairs) :
    Shifted mark (pair :: pairs) := by
  obtain ⟨front, first, last, name, word, back, rfl, hshift⟩ := h
  exact ⟨pair :: front, first, last, name, word, back, rfl, hshift⟩

/-- **A shifted list** shares its text with another list of the same names. -/
theorem exists_of_shifted (h : Shifted mark pairs) :
    ∃ pairs', pairs'.map Prod.fst = pairs.map Prod.fst ∧
      written mark pairs' = written mark pairs ∧ pairs' ≠ pairs := by
  obtain ⟨front, first, last, name, word, back, rfl, ⟨x, y, hlast⟩ | ⟨x, y, hword⟩⟩ := h
  · -- the name ends the word in front of it
    refine ⟨front ++ (first, x) :: (name, y ++ name ++ mark :: word) :: back, by simp, ?_, ?_⟩
    · have htext : ∀ rest, last ++ mark :: rest = x ++ mark :: (name ++ mark :: (y ++ rest)) :=
        fun rest => calc
          last ++ mark :: rest = (last ++ [mark]) ++ rest := by simp
          _ = (x ++ mark :: (name ++ [mark]) ++ y) ++ rest := by rw [hlast]
          _ = x ++ mark :: (name ++ mark :: (y ++ rest)) := by simp
      simp [written_append, written_cons, htext]
    · intro heq
      have hx : x = last := (by simpa using heq : x = last ∧ _).1
      have hlength := congrArg List.length hlast
      simp [hx] at hlength
  · -- the name begins its own word
    refine ⟨front ++ (first, last ++ mark :: (name ++ x)) :: (name, y) :: back, by simp, ?_, ?_⟩
    · have htext : ∀ rest, mark :: (word ++ rest) = x ++ mark :: (name ++ mark :: (y ++ rest)) :=
        fun rest => calc
          mark :: (word ++ rest) = (mark :: word) ++ rest := by simp
          _ = (x ++ mark :: (name ++ [mark]) ++ y) ++ rest := by rw [hword]
          _ = x ++ mark :: (name ++ mark :: (y ++ rest)) := by simp
      simp [written_append, written_cons, htext]
    · intro heq
      simp at heq

/-- What begins with a word and a mark, and goes on with named words. -/
theorem exists_of_pushed (hmark : ∀ pair ∈ pairs, mark ∉ pair.1)
    (hnames : pairs'.map Prod.fst = pairs.map Prod.fst)
    (h : written mark pairs = s ++ mark :: written mark pairs') :
    ∃ front name word back, pairs = front ++ (name, word) :: back ∧
      mark :: (name ++ [mark]) <:+: mark :: word := by
  induction pairs generalizing pairs' s with
  | nil => exact absurd h.symm (by simp)
  | cons pair pairs ih =>
    obtain ⟨name, word⟩ := pair
    cases pairs' with
    | nil => cases hnames
    | cons pair' pairs' =>
      obtain ⟨name', word'⟩ := pair'
      simp only [List.map_cons, List.cons.injEq] at hnames
      obtain ⟨rfl, hnames⟩ := hnames
      rw [written_cons, written_cons] at h
      -- `s` is the name and what of its word came to the word in front of it
      obtain ⟨more, hmore, hrest⟩ := cut_prefix (hmark _ List.mem_cons_self) h.symm
      have hlater : ∀ s', written mark pairs = s' ++ mark :: written mark pairs' →
          ∃ front name word' back, (name', word) :: pairs = front ++ (name, word') :: back ∧
            mark :: (name ++ [mark]) <:+: mark :: word' := by
        intro s' h'
        obtain ⟨front, name, word', back, rfl, hinfix⟩ :=
          ih (fun pair hpair => hmark pair (List.mem_cons_of_mem _ hpair)) hnames h'
        exact ⟨(name', _) :: front, name, word', back, rfl, hinfix⟩
      rw [← List.append_assoc] at hrest
      rcases List.append_eq_append_iff.mp hrest with ⟨tail, hword, htail⟩ | ⟨tail, hword, htail⟩
      · cases tail with
        | nil => exact hlater word' (List.cons.inj htail).2
        | cons x tail =>
          obtain ⟨rfl, hlast⟩ := List.cons.inj htail
          refine hlater (tail ++ mark :: word') ?_
          rw [List.append_assoc]
          exact hlast
      · cases tail with
        | nil => exact hlater word' (List.cons.inj htail).2.symm
        | cons x tail =>
          obtain ⟨rfl, -⟩ := List.cons.inj htail
          -- the name begins its own word, and there is a mark in front of it
          obtain ⟨z, last, hz⟩ := (List.eq_nil_or_concat (mark :: more)).resolve_left
            (List.cons_ne_nil _ _)
          have hlast : last = mark := by
            rw [hz, List.concat_eq_append, ← List.append_assoc] at hmore
            exact (List.append_singleton_inj.mp hmore).2.symm
          refine ⟨[], name', word, pairs, rfl, z, tail, ?_⟩
          calc z ++ mark :: (name' ++ [mark]) ++ tail
              = (z ++ [mark]) ++ (name' ++ mark :: tail) := by simp
            _ = (mark :: more) ++ (name' ++ mark :: tail) := by
              rw [hz, hlast, List.concat_eq_append]
            _ = mark :: word := by simp [hword]

/-- **Two lists** with the same names and the same text. -/
theorem shifted_of_written_eq (hmark : ∀ pair ∈ pairs, mark ∉ pair.1)
    (hnames : pairs'.map Prod.fst = pairs.map Prod.fst)
    (h : written mark pairs' = written mark pairs) (hne : pairs' ≠ pairs) :
    Shifted mark pairs := by
  induction pairs generalizing pairs' with
  | nil => exact absurd (List.map_eq_nil_iff.mp hnames) hne
  | cons pair pairs ih =>
    obtain ⟨name, word⟩ := pair
    have hmark' : ∀ pair ∈ pairs, mark ∉ pair.1 := fun pair hpair =>
      hmark pair (List.mem_cons_of_mem _ hpair)
    cases pairs' with
    | nil => cases hnames
    | cons pair' pairs' =>
      obtain ⟨name', word'⟩ := pair'
      simp only [List.map_cons, List.cons.injEq] at hnames
      obtain ⟨rfl, hnames⟩ := hnames
      rw [written_cons, written_cons, List.append_cancel_left_eq, List.cons.injEq] at h
      have hsame : word' = word → written mark pairs' = written mark pairs →
          Shifted mark ((name', word) :: pairs) := by
        rintro rfl hrest
        exact (ih hmark' hnames hrest fun heq => hne (by rw [heq])).cons _
      rcases List.append_eq_append_iff.mp h.2 with ⟨tail, hword, htail⟩ | ⟨tail, hword, htail⟩
      · cases tail with
        | nil => exact hsame (by simpa using hword.symm) (List.cons.inj htail).2
        | cons x tail =>
          obtain ⟨rfl, hrest⟩ := List.cons.inj htail
          -- the next name begins in this word
          cases pairs with
          | nil =>
            rw [List.map_eq_nil_iff.mp hnames] at hrest
            exact absurd hrest.symm (by simp)
          | cons next pairs =>
            obtain ⟨name, last⟩ := next
            cases pairs' with
            | nil => cases hnames
            | cons next' pairs' =>
              simp only [List.map_cons, List.cons.injEq] at hnames
              rw [← Prod.eta next', written_cons, hnames.1] at hrest
              obtain ⟨more, hmore, -⟩ := cut_prefix (hmark' _ List.mem_cons_self) hrest.symm
              refine ⟨[], name', word, name, last, pairs, rfl, .inl ⟨word', more, ?_⟩⟩
              rw [hword, List.append_assoc, List.append_assoc, List.cons_append, List.cons_append,
                hmore]
              simp
      · cases tail with
        | nil => exact hsame (by simpa using hword) (List.cons.inj htail).2.symm
        | cons x tail =>
          obtain ⟨rfl, hrest⟩ := List.cons.inj htail
          obtain ⟨front, name, last, back, rfl, hinfix⟩ := exists_of_pushed hmark' hnames hrest
          obtain ⟨before, first, hbefore⟩ :=
            (List.eq_nil_or_concat ((name', word) :: front)).resolve_left (List.cons_ne_nil _ _)
          refine ⟨before, first.1, first.2, name, last, back, ?_, .inr hinfix⟩
          rw [← List.cons_append, hbefore, List.concat_eq_append, List.append_assoc,
            List.singleton_append]

/-- **Named words are read back** exactly where no name stands in a wrong place. -/
theorem written_injective_iff (hmark : ∀ pair ∈ pairs, mark ∉ pair.1) :
    (∀ pairs', pairs'.map Prod.fst = pairs.map Prod.fst → written mark pairs' = written mark pairs →
      pairs' = pairs) ↔ ¬ Shifted mark pairs := by
  constructor
  · intro h hshifted
    obtain ⟨pairs', hnames, hwritten, hne⟩ := exists_of_shifted hshifted
    exact hne (h pairs' hnames hwritten)
  · intro hshifted pairs' hnames hwritten
    by_contra hne
    exact hshifted (shifted_of_written_eq hmark hnames hwritten hne)

end

end Delimited
