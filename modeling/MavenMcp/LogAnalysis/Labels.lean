/-
# Labels of groups

`disambiguate_labels` numbers the labels that occur more than once.  `disambiguateLabels_at` says
what it answers and what it charges; `disambiguated_nodup_iff` that the labels differ, unless a
numbered label is that of another group.
-/
import MavenMcp.Lib.Delimited
import MavenMcp.LogAnalysis.Groups

namespace MavenMcp.LogAnalysis

open Attempt (Triple)
open Text

/-! ## 1. Suffixes -/

section

variable {start : StateBudget} {n : Nat} {all front : List Str}

/-- The number of a label behind others. -/
def suffixOf (all front : List Str) (label : Str) : Option Nat :=
  if all.count label < 2 then none else some (front.count label + 1)

def suffixesFrom (all : List Str) : List Str → List Str → List (Option Nat)
  | _, [] => []
  | front, label :: rest => suffixOf all front label :: suffixesFrom all (front ++ [label]) rest

/-- The tables are charged, beside `n` other bytes. -/
def Tabled (start : StateBudget) (n : Nat) (s : StateBudget × Nat) : Prop := At start (n + s.2) s.1

theorem chargeTables_tabled (bytes : Nat) :
    Triple (Tabled start n) (chargeTables bytes) (fun _ => Tabled start n) (Tabled start n) := by
  intro s h
  rw [chargeTables, Attempt.answer_of]
  rcases At.charge h bytes with ⟨after, hok, hat⟩ | herror
  · rw [hok]
    exact hat.congr (Nat.add_assoc _ _ _)
  · rw [herror]
    exact h

theorem chargeUnseen_tabled (sizes : GroupSizes) (index : Option Nat) :
    Triple (Tabled start n) (chargeUnseen sizes index) (fun _ => Tabled start n)
      (Tabled start n) := by
  cases index with
  | none => exact chargeTables_tabled _
  | some index => exact .pure fun _ => id

theorem lookup_occurrencesOf (groups : List GroupCount) (label : Str) :
    ((occurrencesOf groups).lookup label).getD 0 = (groups.map GroupCount.group).count label := by
  have hloop : ∀ (groups : List GroupCount) (map : StrMap Nat),
      ((groups.foldl (fun map group =>
          map.insert group.group ((map.lookup group.group).getD 0 + 1)) map).lookup label).getD 0
        = (map.lookup label).getD 0 + (groups.map GroupCount.group).count label := by
    intro groups
    induction groups with
    | nil => exact fun map => rfl
    | cons group groups ih =>
      intro map
      rw [List.foldl_cons, ih, OrderedMap.lookup_insert, List.map_cons, List.count_cons]
      by_cases heq : label = group.group
      · subst heq
        simp only [if_true, Option.getD_some, beq_self_eq_true]
        omega
      · simp [heq, Ne.symm heq]
  exact (hloop groups .empty).trans (Nat.zero_add _)

/-- The labels that have numbers were seen as often as the table says. -/
def Seen (all front : List Str) (s : Suffixes) : Prop :=
  ∀ label, ¬ all.count label < 2 → (s.seen.lookup label).getD 0 = front.count label

theorem suffixGroup_spec {sizes : GroupSizes} {occurrences : StrMap Nat} {s : Suffixes}
    (hcount : ∀ label, (occurrences.lookup label).getD 0 = all.count label) (h : Seen all front s)
    (group : GroupCount) :
    Triple (Tabled start n) (suffixGroup sizes occurrences s group)
      (fun s' st => (s'.suffixes = s.suffixes ++ [suffixOf all front group.group] ∧
        Seen all (front ++ [group.group]) s') ∧ Tabled start n st) (Tabled start n) := by
  rw [suffixGroup, hcount]
  refine .ite (fun honce => .pure fun st hst => ⟨⟨?_, fun label hlabel => ?_⟩, hst⟩) fun hmore => ?_
  · rw [suffixOf, if_pos honce]
  · have hne : label ≠ group.group := fun heq => hlabel (heq ▸ honce)
    rw [h label hlabel, List.count_append]
    simp [Ne.symm hne]
  · refine (chargeUnseen_tabled sizes _).bind fun _ => .pure fun st hst =>
      ⟨⟨?_, fun label hlabel => ?_⟩, hst⟩
    · rw [suffixOf, if_neg hmore, h _ hmore]
    · rw [OrderedMap.lookup_insert, List.count_append]
      by_cases heq : label = group.group
      · subst heq
        rw [if_pos rfl, h _ hlabel]
        simp
      · rw [if_neg heq, h label hlabel]
        simp [Ne.symm heq]

theorem collectSuffixes_spec (sizes : GroupSizes) (groups : List GroupCount) :
    Triple (Tabled start n) (collectSuffixes sizes groups)
      (fun suffixes st => suffixes = suffixesFrom (groups.map GroupCount.group) []
        (groups.map GroupCount.group) ∧ Tabled start n st) (Tabled start n) := by
  have hloop : ∀ (rest : List GroupCount) (front : List Str) (s : Suffixes),
      Seen (groups.map GroupCount.group) front s →
        Triple (Tabled start n) (rest.foldlM (suffixGroup sizes (occurrencesOf groups)) s)
          (fun s' st => s'.suffixes = s.suffixes ++ suffixesFrom (groups.map GroupCount.group) front
            (rest.map GroupCount.group) ∧ Tabled start n st) (Tabled start n) := by
    intro rest
    induction rest with
    | nil => exact fun front s _ => .pure fun st hst => ⟨(List.append_nil _).symm, hst⟩
    | cons group rest ih =>
      intro front s h
      rw [List.foldlM_cons]
      refine (suffixGroup_spec (lookup_occurrencesOf groups) h group).bind fun s' =>
        .assume fun ⟨hsuffixes, h'⟩ => ?_
      refine (ih _ s' h').conseq (fun _ => id) (fun s'' st ⟨hrest, hst⟩ => ⟨?_, hst⟩) fun _ => id
      rw [hrest, hsuffixes, List.append_assoc]
      rfl
  refine (chargeTables_tabled _).bind fun _ => ?_
  refine (hloop groups [] { seen := .empty, suffixes := [] } fun _ _ => rfl).bind fun s => ?_
  exact .pure fun st h => h

/-! ## 2. Labels -/

def displayed (entry : GroupCount × Option Nat) : GroupCount :=
  match entry.2 with
  | none => entry.1
  | some index => { entry.1 with group := numbered entry.1.group index }

/-- The groups with their numbers. -/
def disambiguated (groups : List GroupCount) : List GroupCount :=
  let labels := groups.map GroupCount.group
  (groups.zip (suffixesFrom labels [] labels)).map displayed

/-- The bytes of the labels. -/
def groupBytes (groups : List GroupCount) : Nat := (groups.map fun group => byteLen group.group).sum

@[simp] theorem groupBytes_nil : groupBytes [] = 0 := rfl

theorem groupBytes_cons (group : GroupCount) (groups : List GroupCount) :
    groupBytes (group :: groups) = byteLen group.group + groupBytes groups := rfl

theorem byteLen_le_numbered (label : Str) (index : Nat) :
    byteLen label ≤ byteLen (numbered label index) := by
  rw [numbered, byteLen_append, byteLen_append, byteLen_append]
  omega

theorem applySuffix_at (entry : GroupCount × Option Nat) :
    Triple (At start (n + byteLen entry.1.group)) (applySuffix entry)
      (fun group budget => group = displayed entry ∧
        At start (n + byteLen (displayed entry).group) budget) (Sound start n) := by
  obtain ⟨group, suffix⟩ := entry
  cases suffix with
  | none => exact .pure fun _ h => ⟨rfl, h⟩
  | some index =>
    refine (triple_charge (Nat.le_add_right n _)).bind fun _ => .pure fun _ h => ⟨rfl, h.congr ?_⟩
    have hle := byteLen_le_numbered group.group index
    simp only [displayed]
    omega

theorem mapM_applySuffix_at (entries : List (GroupCount × Option Nat)) :
    Triple (At start (n + groupBytes (entries.map Prod.fst))) (entries.mapM applySuffix)
      (fun groups budget =>
        groups = entries.map displayed ∧ At start (n + groupBytes groups) budget)
      (Sound start n) := by
  induction entries generalizing n with
  | nil => exact .pure fun _ h => ⟨rfl, h⟩
  | cons entry entries ih =>
    have hlow : ∀ m budget, Sound start (n + m) budget → Sound start n budget := by
      rintro m budget ⟨k, hle, hat⟩
      exact hat.sound (by omega)
    rw [List.mapM_cons]
    refine Triple.bind (Q := fun group budget => group = displayed entry ∧
      At start (n + groupBytes (entries.map Prod.fst) + byteLen (displayed entry).group) budget)
      ?_ fun group => .assume ?_
    · refine (applySuffix_at (n := n + groupBytes (entries.map Prod.fst)) entry).conseq
        (fun _ h => h.congr ?_) (fun _ _ => id) (hlow _)
      rw [List.map_cons, groupBytes_cons]
      omega
    · rintro rfl
      refine ((ih (n := n + byteLen (displayed entry).group)).conseq (fun _ h => h.congr (by omega))
        (fun _ _ => id) (hlow _)).bind fun groups => .assume ?_
      rintro rfl
      refine .pure fun _ h => ⟨rfl, h.congr ?_⟩
      rw [groupBytes_cons]
      omega

theorem length_suffixesFrom (all : List Str) : ∀ front rest : List Str,
    (suffixesFrom all front rest).length = rest.length
  | _, [] => rfl
  | front, label :: rest => congrArg (· + 1) (length_suffixesFrom all (front ++ [label]) rest)

theorem length_disambiguated (groups : List GroupCount) :
    (disambiguated groups).length = groups.length := by
  rw [disambiguated, List.length_map, List.length_zip, length_suffixesFrom, List.length_map,
    Nat.min_self]

theorem map_count_disambiguated (groups : List GroupCount) :
    (disambiguated groups).map GroupCount.count = groups.map GroupCount.count := by
  have hcount : ∀ entry : GroupCount × Option Nat, (displayed entry).count = entry.1.count := by
    rintro ⟨group, _ | index⟩
    · rfl
    · rfl
  have hfst : (groups.zip (suffixesFrom (groups.map GroupCount.group) []
      (groups.map GroupCount.group))).map Prod.fst = groups :=
    List.map_fst_zip (by rw [length_suffixesFrom, List.length_map])
  rw [disambiguated, List.map_map]
  conv_rhs => rw [← hfst, List.map_map]
  exact List.map_congr_left fun entry _ => hcount entry

theorem disambiguateLabels_at (sizes : GroupSizes) (groups : List GroupCount) :
    Triple (At start (n + groupBytes groups)) (disambiguateLabels sizes groups)
      (fun out budget => out = disambiguated groups ∧ At start (n + groupBytes out) budget)
      (Sound start n) := by
  refine Triple.bind (Q := fun suffixes budget => suffixes = suffixesFrom
    (groups.map GroupCount.group) [] (groups.map GroupCount.group) ∧
      At start (n + groupBytes groups) budget) ?_ fun suffixes => .assume ?_
  · intro budget h
    have hsuffixes := @collectSuffixes_spec start (n + groupBytes groups) sizes groups (budget, 0) h
    rw [Attempt.answer_of]
    generalize (collectSuffixes sizes groups).answer (budget, 0) = r at hsuffixes ⊢
    rcases r with ⟨e | suffixes, budget, tables⟩
    · exact (At.release hsuffixes (Nat.le_add_left _ _)).sound (by omega)
    · exact ⟨hsuffixes.1, (At.release hsuffixes.2 (Nat.le_add_left _ _)).congr (by omega)⟩
  · rintro rfl
    have hzip : (groups.zip (suffixesFrom (groups.map GroupCount.group) []
        (groups.map GroupCount.group))).map Prod.fst = groups :=
      List.map_fst_zip (by rw [length_suffixesFrom, List.length_map])
    have hmap := @mapM_applySuffix_at start n
      (groups.zip (suffixesFrom (groups.map GroupCount.group) [] (groups.map GroupCount.group)))
    rwa [hzip] at hmap

end

/-! ## 3. Distinct labels -/

section

variable {labels : List Str}

theorem numbered_injective {a b : Str} {i j : Nat} (h : numbered a i = numbered b j) :
    a = b ∧ i = j := by
  have hdigits : ∀ k, '[' ∉ (Nat.toDigits 10 k).reverse := by
    intro k hmem
    have := Nat.isDigit_of_mem_toDigits (by decide) (by decide) (List.mem_reverse.mp hmem)
    cases this
  have hreverse : ∀ (c : Str) (k : Nat), (numbered c k).reverse
      = ']' :: ((Nat.toDigits 10 k).reverse ++ '[' :: (' ' :: c.reverse)) := by
    intro c k
    simp [numbered]
  have hcut := congrArg List.reverse h
  rw [hreverse, hreverse, List.cons.injEq] at hcut
  obtain ⟨hij, hab⟩ := Delimited.cut (hdigits i) (hdigits j) hcut.2
  refine ⟨List.reverse_injective (List.cons.inj hab).2, ?_⟩
  have hvalue := congrArg (fun digits => Nat.ofDigitChars 10 digits.reverse 0) hij
  simpa only [List.reverse_reverse, Nat.ofDigitChars_ten_toDigits] using hvalue

/-- A label with the number that it has behind others. -/
def shownLabel (all front : List Str) (label : Str) : Str :=
  match suffixOf all front label with
  | none => label
  | some index => numbered label index

theorem shownLabel_once {front : List Str} {label : Str} (h : labels.count label < 2) :
    shownLabel labels front label = label := by rw [shownLabel, suffixOf, if_pos h]

theorem shownLabel_repeated {front : List Str} {label : Str} (h : ¬ labels.count label < 2) :
    shownLabel labels front label = numbered label (front.count label + 1) := by
  rw [shownLabel, suffixOf, if_neg h]

theorem shown_getElem? (all : List Str) : ∀ (groups : List GroupCount) (front : List Str) (i : Nat),
    (((groups.zip (suffixesFrom all front (groups.map GroupCount.group))).map displayed).map
        GroupCount.group)[i]?
      = (groups.map GroupCount.group)[i]?.map
        (shownLabel all (front ++ (groups.map GroupCount.group).take i))
  | [], _, _ => rfl
  | group :: groups, front, 0 => by
    simp only [List.map_cons, suffixesFrom, List.zip_cons_cons, List.getElem?_cons_zero,
      Option.map_some, List.take_zero, List.append_nil, shownLabel, displayed]
    split
    · rfl
    · rfl
  | group :: groups, front, i + 1 => by
    simp only [List.map_cons, suffixesFrom, List.zip_cons_cons, List.getElem?_cons_succ,
      List.take_succ_cons]
    rw [shown_getElem? all groups (front ++ [group.group]) i, List.append_assoc]
    rfl

/-- A label that occurs once is a numbered label of another group. -/
def Clashes (labels : List Str) : Prop :=
  ∃ label other index, labels.count label = 1 ∧ 2 ≤ labels.count other ∧ 1 ≤ index ∧
    index ≤ labels.count other ∧ label = numbered other index

theorem exists_occurrence (label : Str) : ∀ (labels : List Str) (index : Nat), 1 ≤ index →
    index ≤ labels.count label →
      ∃ i, labels[i]? = some label ∧ (labels.take i).count label + 1 = index
  | [], index, hpos, hle => by
    rw [List.count_nil] at hle
    omega
  | other :: labels, index, hpos, hle => by
    by_cases heq : other = label
    · subst heq
      rw [List.count_cons_self] at hle
      rcases Nat.eq_or_lt_of_le hpos with rfl | hlt
      · exact ⟨0, rfl, rfl⟩
      · obtain ⟨i, hi, hcount⟩ := exists_occurrence other labels (index - 1) (by omega) (by omega)
        refine ⟨i + 1, hi, ?_⟩
        rw [List.take_succ_cons, List.count_cons_self]
        omega
    · rw [List.count_cons_of_ne heq] at hle
      obtain ⟨i, hi, hcount⟩ := exists_occurrence label labels index hpos hle
      refine ⟨i + 1, hi, ?_⟩
      rw [List.take_succ_cons, List.count_cons_of_ne heq, hcount]

theorem count_take_lt {label : Str} {i j : Nat} (hij : i < j) (hi : labels[i]? = some label) :
    (labels.take i).count label < (labels.take j).count label := by
  have hlt : i < labels.length := by
    by_contra hge
    rw [List.getElem?_eq_none (by omega)] at hi
    cases hi
  have hsucc : labels.take (i + 1) = labels.take i ++ [label] := by
    rw [List.take_add_one, hi]
    rfl
  have hle : (labels.take (i + 1)).count label ≤ (labels.take j).count label :=
    (List.take_sublist_take_left (by omega)).count_le label
  rw [hsucc, List.count_append, List.count_singleton_self] at hle
  omega

/-- A label that occurs once has one place. -/
theorem eq_of_count_lt {label : Str} {i j : Nat} (h : labels.count label < 2)
    (hi : labels[i]? = some label) (hj : labels[j]? = some label) : ¬ i < j := by
  intro hij
  have hlt := count_take_lt hij hi
  have hlast := count_take_lt (Nat.lt_of_lt_of_le (Nat.lt_succ_self j)
    (Nat.le_max_left (j + 1) labels.length)) hj
  rw [List.take_of_length_le (Nat.le_max_right _ _)] at hlast
  omega

/-- What is shown at a place. -/
def shownAt (labels : List Str) (i : Nat) : Option Str :=
  labels[i]?.map (shownLabel labels (labels.take i))

theorem shownAt_ne_of_not_clashes (h : ¬ Clashes labels) {i j : Nat} (hij : i < j)
    (hj : j < labels.length) : shownAt labels i ≠ shownAt labels j := by
  have hi : i < labels.length := Nat.lt_trans hij hj
  have hgeti : labels[i]? = some labels[i] := List.getElem?_eq_getElem hi
  have hgetj : labels[j]? = some labels[j] := List.getElem?_eq_getElem hj
  have hpos : ∀ {label : Str} {k : Nat}, labels[k]? = some label → 1 ≤ labels.count label :=
    fun hget => List.one_le_count_iff.mpr (List.mem_of_getElem? hget)
  -- the number of a place is at most the number of places
  have hle : ∀ {label : Str} {k : Nat}, labels[k]? = some label →
      (labels.take k).count label + 1 ≤ labels.count label := by
    intro label k hget
    have hlt := count_take_lt (Nat.lt_of_lt_of_le (Nat.lt_succ_self k)
      (Nat.le_max_left (k + 1) labels.length)) hget
    rwa [List.take_of_length_le (Nat.le_max_right _ _)] at hlt
  rw [shownAt, shownAt, hgeti, hgetj, Option.map_some, Option.map_some]
  intro heq
  have heq := Option.some.inj heq
  by_cases honce : labels.count labels[i] < 2
  · rw [shownLabel_once honce] at heq
    by_cases honce' : labels.count labels[j] < 2
    · rw [shownLabel_once honce'] at heq
      exact eq_of_count_lt honce hgeti (heq ▸ hgetj) hij
    · rw [shownLabel_repeated honce'] at heq
      have := hpos hgeti
      exact h ⟨_, _, _, by omega, by omega, by omega, hle hgetj, heq⟩
  · rw [shownLabel_repeated honce] at heq
    by_cases honce' : labels.count labels[j] < 2
    · rw [shownLabel_once honce'] at heq
      have := hpos hgetj
      exact h ⟨_, _, _, by omega, by omega, by omega, hle hgeti, heq.symm⟩
    · rw [shownLabel_repeated honce'] at heq
      obtain ⟨hlabel, hindex⟩ := numbered_injective heq
      have hlt := count_take_lt hij hgeti
      rw [← hlabel] at hindex
      omega

theorem exists_shownAt_eq (h : Clashes labels) :
    ∃ i j, i < j ∧ j < labels.length ∧ shownAt labels i = shownAt labels j := by
  obtain ⟨label, other, index, honce, hmore, hpos, hle, hlabel⟩ := h
  obtain ⟨p, hp, -⟩ := exists_occurrence label labels 1 le_rfl (by omega)
  obtain ⟨q, hq, hcount⟩ := exists_occurrence other labels index hpos hle
  have hlt : ∀ {k : Nat} {l : Str}, labels[k]? = some l → k < labels.length := fun hget =>
    (List.getElem?_eq_some_iff.mp hget).1
  have heq : shownAt labels p = shownAt labels q := by
    rw [shownAt, shownAt, hp, hq, Option.map_some, Option.map_some, shownLabel_once (by omega),
      shownLabel_repeated (by omega), hcount, hlabel]
  have hne : p ≠ q := by
    rintro rfl
    have hsame : label = other := Option.some.inj (hp.symm.trans hq)
    rw [hsame] at honce
    omega
  rcases Nat.lt_or_gt_of_ne hne with hpq | hqp
  · exact ⟨p, q, hpq, hlt hq, heq⟩
  · exact ⟨q, p, hqp, hlt hp, heq.symm⟩

theorem disambiguated_nodup_iff (groups : List GroupCount) :
    ((disambiguated groups).map GroupCount.group).Nodup
      ↔ ¬ Clashes (groups.map GroupCount.group) := by
  have hlength : ((disambiguated groups).map GroupCount.group).length
      = (groups.map GroupCount.group).length := by
    rw [List.length_map, length_disambiguated, List.length_map]
  have hshown : ∀ i, ((disambiguated groups).map GroupCount.group)[i]?
      = shownAt (groups.map GroupCount.group) i := shown_getElem? _ groups []
  rw [List.nodup_iff_getElem?_ne_getElem?]
  simp only [hshown, hlength]
  constructor
  · intro h hclash
    obtain ⟨i, j, hij, hj, heq⟩ := exists_shownAt_eq hclash
    exact h i j hij hj heq
  · exact fun h i j => shownAt_ne_of_not_clashes h

end

end MavenMcp.LogAnalysis
