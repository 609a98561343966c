/-
# Who works on a cell

A build takes the owner lock of its cell and hands it to every blocking job, so that the job of a
cancelled request keeps it until the work has stopped.  `Exclusive` is what this gives, in every
state of every run: beside a build that has the lock no job of its cell is left, at most one job
of a cell is left at all, and the cell of such a job is not filled.
-/
import MavenMcp.Server.Tickets

namespace MavenMcp

open ProjectCache (Op performAll)

variable {W M : Type}

namespace Server

/-- **The work on a cell is exclusive.** -/
structure Exclusive (s : Server M) : Prop where
  /-- A job that carries a build holds its lock. -/
  working : ∀ id job t, s.HasJob id job → job.build = some t → job.effect = .nothing
  alone : ∀ id t b id' job t', s.Builds id t b → b ≠ .locking → s.HasJob id' job →
    job.build = some t' → t'.cell ≠ t.cell
  oneJob : ∀ id id' job job' t t', s.HasJob id job → s.HasJob id' job' → job.build = some t →
    job'.build = some t' → t.cell = t'.cell → id = id'
  unfilled : ∀ id job t, s.HasJob id job → job.build = some t → s.filled.lookup t.cell = none

theorem exclusive_start (host : Host W M) : Exclusive (start host) where
  working := by
    intro id job t h
    cases h
  alone := by
    rintro id t b id' job t' ⟨req, h, _⟩
    cases h
  oneJob := by
    intro id id' job job' t t' h
    cases h
  unfilled := by
    intro id job t h
    cases h

/-- A job that carries a build is a party. -/
theorem HasJob.party {s : Server M} {id : Nat} {job : Job M} {t : Ticket M}
    (h : s.HasJob id job) (hb : job.build = some t) : s.Party job.root t :=
  .inr ⟨id, job, h, rfl, hb⟩

/-- The lock of a job that carries a build is taken. -/
theorem Exclusive.taken {s : Server M} (h : Exclusive s) {id : Nat} {job : Job M} {t : Ticket M}
    (hjob : s.HasJob id job) (hb : job.build = some t) : s.taken t.owner = true := by
  rw [Server.taken, Bool.or_eq_true]
  refine .inr (List.any_eq_true.mpr ⟨job, AList.mem_values.mpr ⟨id, hjob⟩, ?_⟩)
  simp only [Job.owns, h.working id job t hjob hb, hb, Option.map_some, decide_true]

/-- Fewer builders and fewer jobs: the cells are as before. -/
theorem Exclusive.frame {s s' : Server M} (h : Exclusive s) (hf : s'.filled = s.filled)
    (hbuild : ∀ id t b, s'.Builds id t b → s.Builds id t b)
    (hjob : ∀ id job t, s'.HasJob id job → job.build = some t → s.HasJob id job) :
    Exclusive s' where
  working id job t hj hb := h.working id job t (hjob id job t hj hb) hb
  alone id t b id' job t' hbuilds hne hj hb :=
    h.alone id t b id' job t' (hbuild id t b hbuilds) hne (hjob id' job t' hj hb) hb
  oneJob id id' job job' t t' hj hj' hb hb' :=
    h.oneJob id id' job job' t t' (hjob id job t hj hb) (hjob id' job' t' hj' hb') hb hb'
  unfilled id job t hj hb := by
    rw [hf]
    exact h.unfilled id job t (hjob id job t hj hb) hb

theorem Exclusive.take {host : Host W M} {s : Server M} (h : Exclusive s) (hc : Coherent s)
    {id : Nat} {req : Request M} {reply : Reply} {m : Move M} (hreq : s.Has id req)
    (hm : Moves host s req req.stage reply m) : Exclusive (s.take id req m) where
  working := h.working
  alone := by
    intro id' t b id'' job t' hb hne hjob hjb hcell
    replace hjob : s.HasJob id'' job := hjob
    rcases builds_of_moves hm hb with ⟨_, hold⟩ | ⟨rfl, hst', ⟨rfl, _⟩ | ⟨b₀, hst, hbm⟩⟩
    · exact h.alone id' t b id'' job t' hold hne hjob hjb hcell
    · exact hne rfl
    · by_cases hlock : b₀ = .locking
      · -- the lock was free, so no job of the cell had it
        subst hlock
        have hfree : s.taken t.owner = false := by
          cases hbm with
          | locked b hfree _ => exact hfree
          | resolves b hr => cases hr
        have hparty : s.Party req.root t :=
          .inl ⟨id', req, hreq, rfl, by simp only [Request.ticket, hst, Stage.ticket]⟩
        have howner : t'.owner = t.owner := by
          rw [(hc.issued _ t' (hjob.party hjb)).1, (hc.issued _ t hparty).1, hcell]
        have htaken := h.taken hjob hjb
        rw [howner, hfree] at htaken
        cases htaken
      · exact h.alone id' t b₀ id'' job t' ⟨req, hreq, hst⟩ hlock hjob hjb hcell
  oneJob := h.oneJob
  unfilled := by
    intro id' job t hjob hjb
    rw [Option.eq_none_iff_forall_ne_some]
    intro o ho
    rcases filled_take hreq (ticketStep_of_moves hm) ho with hold | ⟨t₀, hb₀, hcell, _⟩
    · rw [h.unfilled id' job t hjob hjb] at hold
      cases hold
    · exact h.alone id t₀ _ id' job t hb₀ (by simp) hjob hjb hcell.symm

theorem Exclusive.cancel {s : Server M} (h : Exclusive s) (hc : Coherent s) {id : Nat}
    {req : Request M} {left : Option (Job M)} {leavesJob : Bool} (hreq : s.Has id req)
    (hleft : leftover req = some left) :
    Exclusive (s.abandon id req (if leavesJob then left else none)) := by
  -- a job with a build is an old one, or it goes on with the build of the request
  have origin : ∀ {id' job t},
      (s.abandon id req (if leavesJob then left else none)).HasJob id' job →
      job.build = some t → s.HasJob id' job ∨
        (id' = s.nextArc ∧ job.effect = .nothing ∧
          ∃ b, req.stage = .building t b ∧ b ≠ .locking) := by
    intro id' job t hjob hb
    rcases hasJob_abandon hjob with hold | ⟨hid, hnew⟩ | hwake
    · exact .inl hold
    · cases leavesJob with
      | false => cases hnew
      | true =>
        simp only [if_true] at hnew
        subst hnew
        obtain ⟨he, b, hst, hne, _⟩ := (build_of_leftover hleft).2 t hb
        exact .inr ⟨hid, he, b, hst, hne⟩
    · obtain ⟨t', _, rfl⟩ := Option.map_eq_some_iff.mp hwake
      cases hb
  refine ⟨fun id' job t hjob hb => ?_, ?_, ?_, fun id' job t hjob hb => ?_⟩
  · rcases origin hjob hb with hold | ⟨_, he, _⟩
    · exact h.working id' job t hold hb
    · exact he
  · rintro id' t b id'' job t' ⟨req', hreq', hst⟩ hne hjob hb hcell
    obtain ⟨hid, hreq'⟩ := AList.lookup_erase_eq_some.mp hreq'
    have hbuilds : s.Builds id' t b := ⟨req', hreq', hst⟩
    rcases origin hjob hb with hold | ⟨_, _, b', hst', _⟩
    · exact h.alone id' t b id'' job t' hbuilds hne hold hb hcell
    · exact hid (hc.oneBuilder _ _ _ _ _ _ hbuilds ⟨req, hreq, hst'⟩ hcell.symm)
  · intro id₁ id₂ job₁ job₂ t₁ t₂ hjob₁ hjob₂ hb₁ hb₂ hcell
    rcases origin hjob₁ hb₁ with hold₁ | ⟨hid₁, _, b₁, hst₁, hne₁⟩
    · rcases origin hjob₂ hb₂ with hold₂ | ⟨_, _, b₂, hst₂, hne₂⟩
      · exact h.oneJob _ _ _ _ _ _ hold₁ hold₂ hb₁ hb₂ hcell
      · exact absurd hcell (h.alone _ _ _ _ _ _ ⟨req, hreq, hst₂⟩ hne₂ hold₁ hb₁)
    · rcases origin hjob₂ hb₂ with hold₂ | ⟨hid₂, _⟩
      · exact absurd hcell.symm (h.alone _ _ _ _ _ _ ⟨req, hreq, hst₁⟩ hne₁ hold₂ hb₂)
      · exact hid₁.trans hid₂.symm
  · rcases origin hjob hb with hold | ⟨_, _, b, hst, _⟩
    · exact h.unfilled id' job t hold hb
    · exact hc.unfilled id t b ⟨req, hreq, hst⟩

theorem Exclusive.step {host : Host W M} {s s' : Server M} {a : Action} (h : Exclusive s)
    (hc : Coherent s) (hs : Stepped host s a s') : Exclusive s' := by
  cases hs with
  | advanced id req reply m hreq hm => exact h.take hc hreq hm
  | cancelled id leavesJob req job hreq hjob => exact h.cancel hc hreq hjob
  | arrived id root purpose hn =>
    refine h.frame rfl (fun id' t b hb => ?_) fun _ _ _ hj _ => hj
    obtain ⟨req, hreq, hst⟩ := hb
    rcases AList.lookup_insert_eq_some.mp hreq with ⟨_, rfl⟩ | ⟨_, hold⟩
    · cases purpose <;> cases hst
    · exact ⟨req, hold, hst⟩
  | woke id effective job owner hjob he hfree =>
    refine h.frame rfl (fun _ _ _ hb => hb) fun id' job' t hj hb => ?_
    rcases AList.lookup_insert_eq_some.mp hj with ⟨_, rfl⟩ | ⟨_, hold⟩
    · rw [h.working id job t hjob hb] at he
      cases he
    · exact hold
  | ended id effective job write hjob hw =>
    exact h.frame rfl (fun _ _ _ hb => hb) fun _ _ _ hj _ => (AList.lookup_erase_eq_some.mp hj).2
  | left id req answer hreq hst =>
    refine h.frame rfl (fun id' t b hb => ?_) fun _ _ _ hj _ => hj
    obtain ⟨req', hreq', hst'⟩ := hb
    exact ⟨req', (AList.lookup_erase_eq_some.mp hreq').2, hst'⟩
  | edit => exact h.frame rfl (fun _ _ _ hb => hb) fun _ _ _ hj _ => hj
  | evicted => exact h.frame rfl (fun _ _ _ hb => hb) fun _ _ _ hj _ => hj
  | tested => exact h.frame rfl (fun _ _ _ hb => hb) fun _ _ _ hj _ => hj

end Server

end MavenMcp
