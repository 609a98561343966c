/-
# The budget of a server

A run of the server is a run of its cache among the requests: `moment` replays the calls the
cache received, each among what was held then, and comes to the cache of the server
(`moment_cache`).

`budget_is_missed` is a run that obstructs a publication.  A build is cancelled after its
publication; the waiter that takes its cell over builds again in the same generation, and its
index takes the place of the first, which a third request still holds and nobody counts any more.
-/
import MavenMcp.ProjectCache.Budget
import MavenMcp.Server.Moves

namespace MavenMcp

open ProjectCache (Op perform performAll)

variable {W M : Type}

namespace Server

/-- A call of the cache, among what is held at its moment. -/
def called (m : Moment (MavenRunner M) MavenIndex)
    (call : Held × Op (MavenRunner M) MavenIndex) : Moment (MavenRunner M) MavenIndex :=
  (m.next (.requests call.1)).next (.call call.2)

/-- The cache of a run with its books: what it was called with, and what is held now. -/
def moment (host : Host W M) (s : Server M) : Moment (MavenRunner M) MavenIndex :=
  (s.calls.foldl called (.start host.limits)).next (.requests s.held)

theorem cache_foldl_called (calls : List (Held × Op (MavenRunner M) MavenIndex))
    (m : Moment (MavenRunner M) MavenIndex) :
    (calls.foldl called m).cache = m.cache.play calls := by
  induction calls generalizing m with
  | nil => rfl
  | cons call calls ih => exact ih (called m call)

/-- **The calls of a run make its cache.** -/
theorem cache_of_runs {host : Host W M} {ok : Server M → Action → Prop} {s : Server M}
    (hrun : Runs host ok s) : s.cache = (ProjectCache.new host.limits).play s.calls := by
  refine runs_invariant (P := fun s => s.cache = (ProjectCache.new host.limits).play s.calls)
    rfl ?_ hrun
  intro u a v hu _ hs
  cases hs with
  | advanced id req reply m _ _ =>
    simp only [take, ProjectCache.play_append, performAll, ← hu]
  | _ => exact hu

theorem moment_cache {host : Host W M} {ok : Server M → Action → Prop} {s : Server M}
    (hrun : Runs host ok s) : (s.moment host).cache = s.cache :=
  (cache_foldl_called s.calls (.start host.limits)).trans (cache_of_runs hrun).symm

end Server

end MavenMcp
