/-
# Trees of files with symbolic links

A tree has directories, files and links, each known by the names that lead to it from the root.  A
path is a list of steps, and the operating system takes them one after the other: a name is looked
up in the directory reached so far, `..` leaves it, and the steps of a link that is met are taken
instead of its name.  The last name of a path may be a link that is not followed.  A separator at
the end of a path stands for one more `.`.

`resolve` is this with a limit on the links of one path, as the operating system has it.  `Leads`
has no limit, so that it composes: what the first steps of a path lead to decides about the whole
path (`Leads.append_missing`, `leads_append_iff`).
-/
import Mathlib.Data.List.Induction

namespace FileTree

variable {N : Type}

/-! ## 1. Trees and paths -/

inductive Step (N : Type)
  | root
  /-- `.` -/
  | here
  /-- `..` -/
  | up
  | name (n : N)
deriving DecidableEq, Repr

inductive Node (N : Type)
  | directory
  | file
  | link (target : List (Step N))
deriving DecidableEq, Repr

structure Tree (N : Type) where
  /-- What is found where these names lead from the root. -/
  node : List N → Option (Node N)
  root : node [] = some .directory
  /-- Only directories have entries. -/
  nested : ∀ names name, node (names ++ [name]) ≠ none → node names = some .directory
  /-- More links are not followed for one path. -/
  maxLinks : Nat

inductive Outcome (N : Type)
  | found (names : List N)
  /-- The first name that is missing, and the directory it is missing in. -/
  | missing (directory : List N) (name : N)
  /-- A file is used as a directory. -/
  | notDirectory
  | tooManyLinks
deriving DecidableEq, Repr

/-- Take the steps; `jump` goes on where a link is followed. -/
def walk (node : List N → Option (Node N)) (jump : List N → List (Step N) → Outcome N)
    (follow : Bool) : List N → List (Step N) → Outcome N
  | cur, [] => .found cur
  | _, .root :: rest => walk node jump follow [] rest
  | cur, .here :: rest => walk node jump follow cur rest
  | cur, .up :: rest => walk node jump follow cur.dropLast rest
  | cur, .name n :: rest =>
    match node (cur ++ [n]) with
    | none => .missing cur n
    | some .directory => walk node jump follow (cur ++ [n]) rest
    | some .file => if rest.isEmpty then .found (cur ++ [n]) else .notDirectory
    | some (.link target) =>
      if rest.isEmpty && !follow then .found (cur ++ [n]) else jump cur (target ++ rest)

/-- The path of these names, without links. -/
def fromRoot (names : List N) : List (Step N) := .root :: names.map .name

namespace Tree

variable (tree : Tree N)

/-- Take the steps, and follow at most `links` links. -/
def resolveWith : (links : Nat) → (follow : Bool) → List N → List (Step N) → Outcome N
  | 0, follow => walk tree.node (fun _ _ => .tooManyLinks) follow
  | links + 1, follow => walk tree.node (resolveWith links follow) follow

/-- The path from the root; its last name is followed like the others. -/
def resolve (path : List (Step N)) : Outcome N := tree.resolveWith tree.maxLinks true [] path

/-- The path from the root, where the last name may be a link. -/
def resolveNoFollow (path : List (Step N)) : Outcome N :=
  tree.resolveWith tree.maxLinks false [] path

/-- **Where the steps lead**, however many links are followed. -/
inductive Leads (follow : Bool) : List N → List (Step N) → Outcome N → Prop
  | nil (cur : List N) : Leads follow cur [] (.found cur)
  | root {cur : List N} {rest : List (Step N)} {o : Outcome N} (h : Leads follow [] rest o) :
      Leads follow cur (.root :: rest) o
  | here {cur : List N} {rest : List (Step N)} {o : Outcome N} (h : Leads follow cur rest o) :
      Leads follow cur (.here :: rest) o
  | up {cur : List N} {rest : List (Step N)} {o : Outcome N}
      (h : Leads follow cur.dropLast rest o) : Leads follow cur (.up :: rest) o
  | missing {cur : List N} {n : N} {rest : List (Step N)} (hnode : tree.node (cur ++ [n]) = none) :
      Leads follow cur (.name n :: rest) (.missing cur n)
  | enter {cur : List N} {n : N} {rest : List (Step N)} {o : Outcome N}
      (hnode : tree.node (cur ++ [n]) = some .directory) (h : Leads follow (cur ++ [n]) rest o) :
      Leads follow cur (.name n :: rest) o
  | file {cur : List N} {n : N} (hnode : tree.node (cur ++ [n]) = some .file) :
      Leads follow cur [.name n] (.found (cur ++ [n]))
  | notDirectory {cur : List N} {n : N} {rest : List (Step N)}
      (hnode : tree.node (cur ++ [n]) = some .file) (hrest : rest ≠ []) :
      Leads follow cur (.name n :: rest) .notDirectory
  | stay {cur : List N} {n : N} {target : List (Step N)}
      (hnode : tree.node (cur ++ [n]) = some (.link target)) (hfollow : follow = false) :
      Leads follow cur [.name n] (.found (cur ++ [n]))
  | jump {cur : List N} {n : N} {target rest : List (Step N)} {o : Outcome N}
      (hnode : tree.node (cur ++ [n]) = some (.link target)) (hfollow : rest ≠ [] ∨ follow = true)
      (h : Leads follow cur (target ++ rest) o) : Leads follow cur (.name n :: rest) o

variable {tree : Tree N} {follow : Bool} {cur : List N} {steps : List (Step N)} {o o' : Outcome N}

theorem leads_of_walk {jump : List N → List (Step N) → Outcome N}
    (hjump : ∀ cur steps o, jump cur steps = o → o ≠ .tooManyLinks →
      tree.Leads follow cur steps o)
    (h : walk tree.node jump follow cur steps = o) (ho : o ≠ .tooManyLinks) :
    tree.Leads follow cur steps o := by
  induction steps generalizing cur with
  | nil =>
    rw [walk] at h
    exact h ▸ .nil cur
  | cons step rest ih =>
    cases step with
    | root => exact .root (ih h)
    | here => exact .here (ih h)
    | up => exact .up (ih h)
    | name n =>
      rw [walk] at h
      split at h
      · rename_i hnode
        exact h ▸ .missing hnode
      · rename_i hnode
        exact .enter hnode (ih h)
      · rename_i hnode
        split at h
        · rename_i hrest
          obtain rfl := List.isEmpty_iff.mp hrest
          exact h ▸ .file hnode
        · rename_i hrest
          exact h ▸ .notDirectory hnode fun hnil => hrest (List.isEmpty_iff.mpr hnil)
      · rename_i target hnode
        split at h
        · rename_i hrest
          rw [Bool.and_eq_true, List.isEmpty_iff, Bool.not_eq_true'] at hrest
          obtain ⟨rfl, hfollow⟩ := hrest
          exact h ▸ .stay hnode hfollow
        · rename_i hrest
          rw [Bool.and_eq_true, List.isEmpty_iff, Bool.not_eq_true', not_and_or,
            Bool.not_eq_false] at hrest
          exact .jump hnode hrest (hjump _ _ _ h ho)

/-- **The operating system goes where the steps lead**, unless it meets too many links. -/
theorem leads_of_resolveWith (links : Nat) (h : tree.resolveWith links follow cur steps = o)
    (ho : o ≠ .tooManyLinks) : tree.Leads follow cur steps o := by
  induction links generalizing cur steps o with
  | zero => exact leads_of_walk (fun _ _ _ h ho => absurd h.symm ho) h ho
  | succ links ih => exact leads_of_walk (fun _ _ _ h ho => ih h ho) h ho

theorem leads_of_resolve (h : tree.resolve steps = o) (ho : o ≠ .tooManyLinks) :
    tree.Leads true [] steps o := leads_of_resolveWith _ h ho

theorem leads_of_resolveNoFollow (h : tree.resolveNoFollow steps = o) (ho : o ≠ .tooManyLinks) :
    tree.Leads false [] steps o := leads_of_resolveWith _ h ho

/-- There is one outcome at most. -/
theorem Leads.det (h : tree.Leads follow cur steps o) (h' : tree.Leads follow cur steps o') :
    o = o' := by
  induction h with
  | nil cur =>
    cases h'
    rfl
  | root _ ih => cases h' with | root h' => exact ih h'
  | here _ ih => cases h' with | here h' => exact ih h'
  | up _ ih => cases h' with | up h' => exact ih h'
  | missing hnode => cases h' <;> simp_all
  | enter hnode _ ih => cases h' <;> simp_all
  | file hnode => cases h' <;> simp_all
  | notDirectory hnode hrest => cases h' <;> simp_all
  | stay hnode hfollow => cases h' <;> simp_all
  | jump hnode hfollow _ ih =>
    cases h' with
    | jump hnode' _ h' =>
      obtain rfl : _ = _ := Node.link.inj (Option.some.inj (hnode.symm.trans hnode'))
      exact ih h'
    | _ => simp_all

/-! ## 2. Composition -/

theorem leads_root_iff {rest : List (Step N)} :
    tree.Leads follow cur (.root :: rest) o ↔ tree.Leads follow [] rest o :=
  ⟨fun h => by cases h; assumption, .root⟩

theorem leads_here_iff {rest : List (Step N)} :
    tree.Leads follow cur (.here :: rest) o ↔ tree.Leads follow cur rest o :=
  ⟨fun h => by cases h; assumption, .here⟩

theorem leads_up_iff {rest : List (Step N)} :
    tree.Leads follow cur (.up :: rest) o ↔ tree.Leads follow cur.dropLast rest o :=
  ⟨fun h => by cases h; assumption, .up⟩

theorem leads_enter_iff {n : N} {rest : List (Step N)}
    (hnode : tree.node (cur ++ [n]) = some .directory) :
    tree.Leads follow cur (.name n :: rest) o ↔ tree.Leads follow (cur ++ [n]) rest o := by
  refine ⟨fun h => ?_, .enter hnode⟩
  cases h with
  | enter _ h => exact h
  | _ => simp_all

theorem leads_jump_iff {n : N} {target rest : List (Step N)}
    (hnode : tree.node (cur ++ [n]) = some (.link target)) (hfollow : rest ≠ [] ∨ follow = true) :
    tree.Leads follow cur (.name n :: rest) o ↔ tree.Leads follow cur (target ++ rest) o := by
  refine ⟨fun h => ?_, .jump hnode hfollow⟩
  cases h with
  | jump hnode' _ h =>
    obtain rfl := Node.link.inj (Option.some.inj (hnode.symm.trans hnode'))
    exact h
  | _ => simp_all

/-- **A missing name stops the whole path.** -/
theorem Leads.append_missing {a b : List (Step N)} {d : List N} {n : N}
    (h : tree.Leads true cur a (.missing d n)) (hb : b ≠ [] ∨ follow = true) :
    tree.Leads follow cur (a ++ b) (.missing d n) := by
  generalize ho : Outcome.missing d n = o at h
  induction h with
  | nil | notDirectory | file | stay => cases ho
  | root _ ih => exact .root (ih ho)
  | here _ ih => exact .here (ih ho)
  | up _ ih => exact .up (ih ho)
  | missing hnode =>
    cases ho
    exact .missing hnode
  | enter hnode _ ih => exact .enter hnode (ih ho)
  | jump hnode _ _ ih =>
    have hrest := ih ho
    rw [List.append_assoc] at hrest
    refine .jump hnode ?_ hrest
    exact hb.imp_left fun hb hnil => hb (List.append_eq_nil_iff.mp hnil).2

/-- **What the first steps lead to decides**: from there, the rest leads on. -/
theorem leads_append_iff {a b : List (Step N)} {p : List N}
    (h : tree.Leads true cur a (.found p)) (hp : tree.node p = some .directory)
    (hb : b ≠ [] ∨ follow = true) :
    tree.Leads follow cur (a ++ b) o ↔ tree.Leads follow p b o := by
  generalize hfound : Outcome.found p = found at h
  induction h with
  | nil =>
    cases hfound
    rfl
  | missing | notDirectory => cases hfound
  | stay _ hfollow => cases hfollow
  | file hnode =>
    cases hfound
    rw [hp] at hnode
    cases hnode
  | root _ ih => exact leads_root_iff.trans (ih hfound)
  | here _ ih => exact leads_here_iff.trans (ih hfound)
  | up _ ih => exact leads_up_iff.trans (ih hfound)
  | enter hnode _ ih => exact (leads_enter_iff hnode).trans (ih hfound)
  | jump hnode _ _ ih =>
    have hrest := ih hfound
    rw [List.append_assoc] at hrest
    exact (leads_jump_iff hnode
      (hb.imp_left fun hb hnil => hb (List.append_eq_nil_iff.mp hnil).2)).trans hrest

/-! ## 3. Directories -/

theorem dropLast_directory (h : tree.node cur = some .directory) :
    tree.node cur.dropLast = some .directory := by
  induction cur using List.reverseRecOn with
  | nil => exact h
  | append_singleton cur n _ =>
    rw [List.dropLast_concat]
    exact tree.nested cur n (by simp [h])

/-- What a path that starts in a directory comes to. -/
theorem Leads.nodes (h : tree.Leads follow cur steps o)
    (hcur : tree.node cur = some .directory) :
    (∀ p, o = .found p → tree.node p ≠ none ∧
        (follow = true → tree.node p = some .directory ∨ tree.node p = some .file)) ∧
      ∀ d n, o = .missing d n →
        tree.node d = some .directory ∧ tree.node (d ++ [n]) = none := by
  induction h with
  | nil =>
    refine ⟨fun p hp => ?_, nofun⟩
    cases hp
    exact ⟨by simp [hcur], fun _ => .inl hcur⟩
  | root _ ih => exact ih tree.root
  | here _ ih => exact ih hcur
  | up _ ih => exact ih (dropLast_directory hcur)
  | missing hnode =>
    refine ⟨nofun, fun d n h => ?_⟩
    cases h
    exact ⟨hcur, hnode⟩
  | enter hnode _ ih => exact ih hnode
  | file hnode =>
    refine ⟨fun p hp => ?_, nofun⟩
    cases hp
    exact ⟨by simp [hnode], fun _ => .inr hnode⟩
  | notDirectory => exact ⟨nofun, nofun⟩
  | stay hnode hfollow =>
    refine ⟨fun p hp => ?_, nofun⟩
    cases hp
    exact ⟨by simp [hnode], fun hf => by simp [hfollow] at hf⟩
  | jump _ _ _ ih => exact ih hcur

/-- A file is no directory. -/
theorem Leads.append_file {a b : List (Step N)} {p : List N}
    (h : tree.Leads true cur a (.found p)) (hcur : tree.node cur = some .directory)
    (hp : tree.node p = some .file) (hb : b ≠ []) :
    tree.Leads follow cur (a ++ b) .notDirectory := by
  generalize hfound : Outcome.found p = found at h
  induction h with
  | nil =>
    cases hfound
    rw [hcur] at hp
    cases hp
  | missing | notDirectory => cases hfound
  | stay _ hfollow => cases hfollow
  | file hnode => exact .notDirectory hnode hb
  | root _ ih => exact .root (ih tree.root hfound)
  | here _ ih => exact .here (ih hcur hfound)
  | up _ ih => exact .up (ih (dropLast_directory hcur) hfound)
  | enter hnode _ ih => exact .enter hnode (ih hnode hfound)
  | jump hnode _ _ ih =>
    have hrest := ih hcur hfound
    rw [List.append_assoc] at hrest
    exact .jump hnode (.inl fun hnil => hb (List.append_eq_nil_iff.mp hnil).2) hrest

/-- The names of a directory lead there. -/
theorem leads_names (names : List N) (h : tree.node names = some .directory) :
    tree.Leads true [] (names.map .name) (.found names) := by
  induction names using List.reverseRecOn with
  | nil => exact .nil []
  | append_singleton names n ih =>
    have hnames := tree.nested names n (by simp [h])
    rw [List.map_append, List.map_singleton, leads_append_iff (ih hnames) hnames (.inr rfl),
      leads_enter_iff h]
    exact .nil _

/-- Steps behind the path of a directory start there. -/
theorem leads_fromRoot_append_iff {names : List N} (h : tree.node names = some .directory)
    {b : List (Step N)} (hb : b ≠ [] ∨ follow = true) :
    tree.Leads follow cur (fromRoot names ++ b) o ↔ tree.Leads follow names b o := by
  have hpath : tree.Leads true cur (fromRoot names) (.found names) := .root (leads_names names h)
  exact leads_append_iff hpath h hb

/-- The path without links of what was found leads there. -/
theorem leads_fromRoot {p : List N} (h : tree.node p = some .directory ∨ tree.node p = some .file) :
    tree.Leads true cur (fromRoot p) (.found p) := by
  rcases h with h | h
  · exact .root (leads_names p h)
  · induction p using List.reverseRecOn with
    | nil =>
      rw [tree.root] at h
      cases h
    | append_singleton names n _ =>
      have hnames := tree.nested names n (by simp [h])
      rw [fromRoot, List.map_append, List.map_singleton, leads_root_iff,
        leads_append_iff (leads_names names hnames) hnames (.inr rfl)]
      exact .file h

/-- **A path may be replaced by another one that leads to the same place.** -/
theorem leads_append_congr {a a' b : List (Step N)} {p : List N}
    (hcur : tree.node cur = some .directory) (h : tree.Leads true cur a (.found p))
    (h' : tree.Leads true cur a' (.found p)) :
    tree.Leads true cur (a ++ b) o ↔ tree.Leads true cur (a' ++ b) o := by
  rcases ((h.nodes hcur).1 p rfl).2 rfl with hp | hp
  · exact (leads_append_iff h hp (.inr rfl)).trans (leads_append_iff h' hp (.inr rfl)).symm
  · by_cases hb : b = []
    · subst hb
      rw [List.append_nil, List.append_nil]
      exact ⟨fun ho => ho.det h ▸ h', fun ho => ho.det h' ▸ h⟩
    · have hfile : tree.Leads true cur (a ++ b) .notDirectory := h.append_file hcur hp hb
      have hfile' : tree.Leads true cur (a' ++ b) .notDirectory := h'.append_file hcur hp hb
      exact ⟨fun ho => ho.det hfile ▸ hfile', fun ho => ho.det hfile' ▸ hfile⟩

/-! ## 4. The end of a path -/

theorem leads_append_here_iff {s : List (Step N)} (hs : ∀ step ∈ s, step = .here) :
    tree.Leads true cur s o ↔ o = .found cur := by
  induction s with
  | nil => exact ⟨fun h => h.det (.nil cur), fun h => h ▸ .nil cur⟩
  | cons step s ih =>
    obtain ⟨rfl, hrest⟩ := List.forall_mem_cons.mp hs
    exact leads_here_iff.trans (ih hrest)

/-- A directory that a path leads to is the same without `.` at the end of the path. -/
theorem Leads.of_append_here {a s : List (Step N)} {p : List N}
    (h : tree.Leads true cur (a ++ s) (.found p)) (hs : ∀ step ∈ s, step = .here) :
    tree.Leads true cur a (.found p) := by
  generalize hsteps : a ++ s = steps at h
  generalize ho : Outcome.found p = o at h
  induction h generalizing a with
  | nil =>
    obtain ⟨rfl, -⟩ := List.append_eq_nil_iff.mp hsteps
    exact .nil _
  | missing | notDirectory => cases ho
  | stay _ hfollow => cases hfollow
  | @here cur rest o hrest ih =>
    cases a with
    | nil =>
      obtain rfl : s = .here :: rest := hsteps
      obtain rfl := (leads_append_here_iff (List.forall_mem_cons.mp hs).2).mp hrest
      exact .nil cur
    | cons step a =>
      obtain ⟨rfl, hrest⟩ := List.cons.inj hsteps
      exact .here (ih hrest ho)
  | root _ ih =>
    cases a with
    | nil => simp_all
    | cons step a =>
      obtain ⟨rfl, hrest⟩ := List.cons.inj hsteps
      exact .root (ih hrest ho)
  | up _ ih =>
    cases a with
    | nil => simp_all
    | cons step a =>
      obtain ⟨rfl, hrest⟩ := List.cons.inj hsteps
      exact .up (ih hrest ho)
  | enter hnode _ ih =>
    cases a with
    | nil => simp_all
    | cons step a =>
      obtain ⟨rfl, hrest⟩ := List.cons.inj hsteps
      exact .enter hnode (ih hrest ho)
  | file hnode =>
    cases a with
    | nil => simp_all
    | cons step a =>
      obtain ⟨rfl, hrest⟩ := List.cons.inj hsteps
      obtain ⟨rfl, -⟩ := List.append_eq_nil_iff.mp hrest
      exact .file hnode
  | @jump cur n target rest o hnode _ _ ih =>
    cases a with
    | nil => simp_all
    | cons step a =>
      obtain ⟨rfl, hrest⟩ := List.cons.inj hsteps
      change a ++ s = rest at hrest
      refine .jump hnode (.inr rfl) (ih ?_ ho)
      rw [List.append_assoc, hrest]

/-- **A link that a path comes to** is in the directory that the path without its last name leads
to. -/
theorem Leads.exists_parent {q : List N} {target : List (Step N)}
    (h : tree.Leads false cur steps (.found q)) (hq : tree.node q = some (.link target))
    (hcur : tree.node cur = some .directory) :
    ∃ a x directory, steps = a ++ [.name x] ∧ tree.Leads true cur a (.found directory) ∧
      tree.node directory = some .directory ∧ q = directory ++ [x] := by
  generalize ho : Outcome.found q = o at h
  induction h with
  | nil =>
    cases ho
    rw [hcur] at hq
    cases hq
  | missing | notDirectory => cases ho
  | root _ ih =>
    obtain ⟨a, x, directory, rfl, ha, hd, rfl⟩ := ih tree.root ho
    exact ⟨.root :: a, x, directory, rfl, .root ha, hd, rfl⟩
  | here _ ih =>
    obtain ⟨a, x, directory, rfl, ha, hd, rfl⟩ := ih hcur ho
    exact ⟨.here :: a, x, directory, rfl, .here ha, hd, rfl⟩
  | up _ ih =>
    obtain ⟨a, x, directory, rfl, ha, hd, rfl⟩ := ih (dropLast_directory hcur) ho
    exact ⟨.up :: a, x, directory, rfl, .up ha, hd, rfl⟩
  | enter hnode _ ih =>
    obtain ⟨a, x, directory, rfl, ha, hd, rfl⟩ := ih hnode ho
    exact ⟨.name _ :: a, x, directory, rfl, .enter hnode ha, hd, rfl⟩
  | file hnode =>
    cases ho
    rw [hnode] at hq
    cases hq
  | stay hnode _ =>
    cases ho
    exact ⟨[], _, _, rfl, .nil _, hcur, rfl⟩
  | @jump cur n followed rest o hnode hrest _ ih =>
    obtain ⟨a, x, directory, hsteps, ha, hd, rfl⟩ := ih hcur ho
    have hne : rest ≠ [] := hrest.resolve_right Bool.false_ne_true
    obtain ⟨init, last, hconcat⟩ := (List.eq_nil_or_concat rest).resolve_left hne
    rw [List.concat_eq_append] at hconcat
    subst hconcat
    rw [← List.append_assoc] at hsteps
    obtain ⟨rfl, hlast⟩ := List.append_inj' hsteps rfl
    obtain rfl := (List.cons.inj hlast).1
    exact ⟨.name n :: init, x, directory, rfl, .jump hnode (.inr rfl) ha, hd, rfl⟩

/-- Not to follow the last name changes something only where it is a link. -/
theorem walk_noFollow {jump jump' : List N → List (Step N) → Outcome N}
    (hjump : ∀ cur steps, jump' cur steps = jump cur steps ∨
      ∃ file target, jump' cur steps = .found file ∧ tree.node file = some (.link target)) :
    walk tree.node jump' false cur steps = walk tree.node jump true cur steps ∨
      ∃ file target, walk tree.node jump' false cur steps = .found file ∧
        tree.node file = some (.link target) := by
  induction steps generalizing cur with
  | nil => exact .inl rfl
  | cons step rest ih =>
    cases step with
    | root => exact ih
    | here => exact ih
    | up => exact ih
    | name n =>
      simp only [walk]
      split
      · exact .inl rfl
      · exact ih
      · exact .inl rfl
      · rename_i target hnode
        by_cases hrest : rest.isEmpty = true
        · simp only [hrest, Bool.not_false, Bool.and_self, if_true]
          exact .inr ⟨_, target, rfl, hnode⟩
        · simp only [hrest, Bool.false_and, Bool.false_eq_true, if_false]
          exact hjump _ _

theorem resolveNoFollow_cases (tree : Tree N) (steps : List (Step N)) :
    tree.resolveNoFollow steps = tree.resolve steps ∨
      ∃ file target, tree.resolveNoFollow steps = .found file ∧
        tree.node file = some (.link target) := by
  have hall : ∀ (links : Nat) (cur : List N) (steps : List (Step N)),
      tree.resolveWith links false cur steps = tree.resolveWith links true cur steps ∨
        ∃ file target, tree.resolveWith links false cur steps = .found file ∧
          tree.node file = some (.link target) := by
    intro links
    induction links with
    | zero => exact fun _ _ => walk_noFollow fun _ _ => .inl rfl
    | succ links ih => exact fun _ _ => walk_noFollow ih
  exact hall _ _ _

theorem resolve_of_missing {d : List N} {n : N} (h : tree.resolveNoFollow steps = .missing d n) :
    tree.resolve steps = .missing d n := by
  rcases resolveNoFollow_cases tree steps with heq | ⟨file, target, hfile, -⟩
  · exact heq ▸ h
  · rw [h] at hfile
    cases hfile

theorem exists_found_of_resolve {p : List N} (h : tree.resolve steps = .found p) :
    ∃ q, tree.resolveNoFollow steps = .found q := by
  rcases resolveNoFollow_cases tree steps with heq | ⟨file, target, hfile, -⟩
  · exact ⟨p, heq.trans h⟩
  · exact ⟨file, hfile⟩

/-! ## 5. Missing names within the limit -/

theorem walk_append_missing {jump jump' : List N → List (Step N) → Outcome N}
    {a b : List (Step N)} {d : List N} {n : N}
    (hjump : ∀ cur steps, jump cur steps = .missing d n → jump' cur (steps ++ b) = .missing d n)
    (hb : b ≠ [] ∨ follow = true) (h : walk tree.node jump true cur a = .missing d n) :
    walk tree.node jump' follow cur (a ++ b) = .missing d n := by
  induction a generalizing cur with
  | nil => cases h
  | cons step a ih =>
    cases step with
    | root => exact ih h
    | here => exact ih h
    | up => exact ih h
    | name m =>
      rw [walk] at h
      rw [List.cons_append, walk]
      split at h
      · exact h
      · exact ih h
      · split at h <;> cases h
      · simp only [Bool.not_true, Bool.and_false, Bool.false_eq_true, if_false] at h
        have hlast : ((a ++ b).isEmpty && !follow) = false := by
          rcases hb with hb | hb
          · simp [hb]
          · simp [hb]
        rw [hlast, if_neg Bool.false_ne_true, ← List.append_assoc]
        exact hjump _ _ h

/-- A missing name stops the whole path, with no more links followed. -/
theorem resolveNoFollow_append_missing {a b : List (Step N)} {d : List N} {n : N}
    (h : tree.resolve a = .missing d n) (hb : b ≠ []) :
    tree.resolveNoFollow (a ++ b) = .missing d n := by
  have hall : ∀ (links : Nat) (cur : List N) (a : List (Step N)),
      tree.resolveWith links true cur a = .missing d n →
        tree.resolveWith links false cur (a ++ b) = .missing d n := by
    intro links
    induction links with
    | zero =>
      exact fun _ _ => walk_append_missing (by intro _ _ h; cases h) (.inl hb)
    | succ links ih => exact fun _ _ => walk_append_missing ih (.inl hb)
  exact hall _ _ _ h

theorem walk_here {jump : List N → List (Step N) → Outcome N} {s : List (Step N)}
    (hs : ∀ step ∈ s, step = .here) : walk tree.node jump follow cur s = .found cur := by
  induction s with
  | nil => rfl
  | cons step s ih =>
    obtain ⟨rfl, hrest⟩ := List.forall_mem_cons.mp hs
    exact ih hrest

theorem walk_of_append_here {jump jump' : List N → List (Step N) → Outcome N}
    {a s : List (Step N)} {d : List N} {n : N}
    (hjump : ∀ cur steps, jump cur (steps ++ s) = .missing d n → jump' cur steps = .missing d n)
    (hs : ∀ step ∈ s, step = .here) (h : walk tree.node jump true cur (a ++ s) = .missing d n) :
    walk tree.node jump' true cur a = .missing d n := by
  induction a generalizing cur with
  | nil =>
    rw [List.nil_append, walk_here hs] at h
    cases h
  | cons step a ih =>
    cases step with
    | root => exact ih h
    | here => exact ih h
    | up => exact ih h
    | name m =>
      rw [List.cons_append, walk] at h
      rw [walk]
      split at h
      · exact h
      · exact ih h
      · split at h <;> cases h
      · simp only [Bool.not_true, Bool.and_false, Bool.false_eq_true, if_false] at h ⊢
        rw [← List.append_assoc] at h
        exact hjump _ _ h

/-- What is missing is missing without the `.` at the end of the path too. -/
theorem resolve_of_append_here {a s : List (Step N)} {d : List N} {n : N}
    (hs : ∀ step ∈ s, step = .here) (h : tree.resolve (a ++ s) = .missing d n) :
    tree.resolve a = .missing d n := by
  have hall : ∀ (links : Nat) (cur : List N) (a : List (Step N)),
      tree.resolveWith links true cur (a ++ s) = .missing d n →
        tree.resolveWith links true cur a = .missing d n := by
    intro links
    induction links with
    | zero => exact fun _ _ => walk_of_append_here (by intro _ _ h; cases h) hs
    | succ links ih => exact fun _ _ => walk_of_append_here ih hs
  exact hall _ _ _ h

/-! ## 6. Trees from their entries -/

/-- What the entries say about a path of names; the root is a directory. -/
def entryAt [DecidableEq N] (entries : List (List N × Node N)) (names : List N) : Option (Node N) :=
  if names = [] then some .directory else (entries.find? fun e => e.1 = names).map Prod.snd

/-- The tree with these entries, each in a directory. -/
def ofEntries [DecidableEq N] (entries : List (List N × Node N)) (maxLinks : Nat)
    (h : ∀ e ∈ entries, entryAt entries e.1.dropLast = some .directory) : Tree N where
  node := entryAt entries
  root := rfl
  nested names name hnode := by
    rw [entryAt, if_neg (by simp), ne_eq, Option.map_eq_none_iff] at hnode
    obtain ⟨e, he⟩ := Option.ne_none_iff_exists'.mp hnode
    have hnames : e.1 = names ++ [name] := by simpa using List.find?_some he
    have hparent := h e (List.mem_of_find?_eq_some he)
    rwa [hnames, List.dropLast_concat] at hparent
  maxLinks

end Tree

end FileTree
