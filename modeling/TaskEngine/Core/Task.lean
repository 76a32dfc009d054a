import Mathlib.Data.List.Basic
import Mathlib.Tactic

/-!
# TaskEngine.Core.Task — tasks, results, samples and envelopes

The vocabulary of `core/`.  A `Task` is what its `execute()` does; an instant and a duration are
signed nanosecond counts.  `TaskResult` can only be built by the three factories of the source, so it
carries the proofs that its state is terminal and that only a failure has a message.

The shared states behind the promises are a heap, `List Promise`; an envelope owns the index of its
own.  `set_value` succeeds once, and destroying an envelope whose promise is unset breaks it.
-/

namespace TaskEngine

/-! ## Identity, state, errors -/

/-- `std::uint64_t`: below `2 ^ 64`, counted modulo `2 ^ 64`. -/
abbrev TaskId := ℕ

inductive TaskState
  | Queued
  | Running
  | Succeeded
  | Failed
  | Rejected
  deriving DecidableEq

/-- The three states from which no further transition is possible. -/
def is_terminal (state : TaskState) : Bool :=
  decide (state = .Succeeded) || decide (state = .Failed) || decide (state = .Rejected)

structure TaskError where
  message : String
  deriving DecidableEq

/-- `TaskError{}`. -/
def TaskError.none : TaskError := ⟨""⟩

/-- `TaskError::empty`. -/
def TaskError.empty (error : TaskError) : Bool := decide (error.message = "")

/-- The exceptions that the engine itself throws, with their texts, and that of a vector asked for more
than it can ever hold. -/
inductive Exception
  | invalid_argument (what : String)
  | logic_error (what : String)
  | length_error
  deriving DecidableEq

/-! ## Timings -/

/-- A reading of `steady_clock`, in nanoseconds. -/
abbrev TimePoint := ℤ

abbrev Duration := ℤ

structure TaskTimings where
  submitted : TimePoint
  dequeued : TimePoint
  finished : TimePoint
  deriving DecidableEq

namespace TaskTimings

def queue_wait (timings : TaskTimings) : Duration := timings.dequeued - timings.submitted

def execution_time (timings : TaskTimings) : Duration := timings.finished - timings.dequeued

def total_latency (timings : TaskTimings) : Duration := timings.finished - timings.submitted

/-- The instants are in order. -/
structure Causal (timings : TaskTimings) : Prop where
  dequeued : timings.submitted ≤ timings.dequeued
  finished : timings.dequeued ≤ timings.finished

instance (timings : TaskTimings) : Decidable timings.Causal :=
  decidable_of_iff (timings.submitted ≤ timings.dequeued ∧ timings.dequeued ≤ timings.finished)
    ⟨fun h => ⟨h.1, h.2⟩, fun h => ⟨h.dequeued, h.finished⟩⟩

end TaskTimings

/-! ## Results and samples -/

/-- The outcome of one submitted task. -/
structure TaskResult where
  id : TaskId
  state : TaskState
  error : TaskError
  timings : TaskTimings
  terminal : is_terminal state = true
  error_empty : state ≠ .Failed → error = .none
  deriving DecidableEq

namespace TaskResult

def succeeded (id : TaskId) (timings : TaskTimings) : TaskResult :=
  ⟨id, .Succeeded, .none, timings, rfl, fun _ => rfl⟩

def failed (id : TaskId) (error : TaskError) (timings : TaskTimings) : TaskResult :=
  ⟨id, .Failed, error, timings, rfl, fun h => absurd rfl h⟩

/-- `dequeued` is set to `finished`: there was no execution window. -/
def rejected (id : TaskId) (submitted finished : TimePoint) : TaskResult :=
  ⟨id, .Rejected, .none, ⟨submitted, finished, finished⟩, rfl, fun _ => rfl⟩

end TaskResult

/-- One measured task, as the metrics path carries it. -/
structure Sample where
  id : TaskId
  state : TaskState
  timings : TaskTimings
  deriving DecidableEq

/-! ## Tasks and envelopes -/

/-- How a call of `execute()` ends. -/
inductive Outcome
  | returns
  | throws (what : String)
  | throwsOther
  deriving DecidableEq

/-- A task, as far as the engine can tell: what its `execute()` does. -/
structure Task where
  execute : Outcome
  deriving DecidableEq

/-- A task with its identity, its submission instant and its promise. -/
structure TaskEnvelope where
  id : TaskId
  task : Task
  submitted : TimePoint
  promise : ℕ
  deriving DecidableEq

namespace TaskEnvelope

/-- The error that `run` catches, if any. -/
def caught (e : TaskEnvelope) : Option TaskError :=
  match e.task.execute with
  | .returns => none
  | .throws what => some ⟨what⟩
  | .throwsOther => some ⟨"unknown exception"⟩

/-- What `run` puts into the promise. -/
def result (e : TaskEnvelope) (dequeued finished : TimePoint) : TaskResult :=
  match e.caught with
  | some error => .failed e.id error ⟨e.submitted, dequeued, finished⟩
  | none => .succeeded e.id ⟨e.submitted, dequeued, finished⟩

/-- What `run` returns. -/
def sample (e : TaskEnvelope) (dequeued finished : TimePoint) : Sample :=
  ⟨e.id, if e.caught.isSome then .Failed else .Succeeded, ⟨e.submitted, dequeued, finished⟩⟩

/-- What `reject` puts into the promise. -/
def rejection (e : TaskEnvelope) (finished : TimePoint) : TaskResult :=
  .rejected e.id e.submitted finished

@[simp] theorem result_id (e : TaskEnvelope) (d f : TimePoint) : (e.result d f).id = e.id := by
  unfold result; split <;> rfl

@[simp] theorem sample_id (e : TaskEnvelope) (d f : TimePoint) : (e.sample d f).id = e.id := rfl

@[simp] theorem rejection_id (e : TaskEnvelope) (f : TimePoint) : (e.rejection f).id = e.id := rfl

@[simp] theorem rejection_state (e : TaskEnvelope) (f : TimePoint) :
    (e.rejection f).state = .Rejected := rfl

/-- The state that a run of the task ends in. -/
def outcome (e : TaskEnvelope) : TaskState := if e.caught.isSome then .Failed else .Succeeded

@[simp] theorem result_state (e : TaskEnvelope) (d f : TimePoint) :
    (e.result d f).state = e.outcome := by
  unfold result outcome; split <;> simp_all [TaskResult.failed, TaskResult.succeeded]

@[simp] theorem sample_state (e : TaskEnvelope) (d f : TimePoint) :
    (e.sample d f).state = e.outcome := rfl

@[simp] theorem result_timings (e : TaskEnvelope) (d f : TimePoint) :
    (e.result d f).timings = ⟨e.submitted, d, f⟩ := by
  unfold result; split <;> rfl

@[simp] theorem sample_timings (e : TaskEnvelope) (d f : TimePoint) :
    (e.sample d f).timings = ⟨e.submitted, d, f⟩ := rfl

@[simp] theorem rejection_timings (e : TaskEnvelope) (f : TimePoint) :
    (e.rejection f).timings = ⟨e.submitted, f, f⟩ := rfl

theorem outcome_ne_rejected (e : TaskEnvelope) : e.outcome ≠ .Rejected := by
  unfold outcome; split <;> decide

theorem outcome_cases (e : TaskEnvelope) : e.outcome = .Succeeded ∨ e.outcome = .Failed := by
  unfold outcome; split <;> simp

theorem outcome_eq_succeeded (e : TaskEnvelope) : e.outcome = .Succeeded ↔ e.task.execute = .returns := by
  unfold outcome caught; cases e.task.execute <;> simp

theorem outcome_eq_failed (e : TaskEnvelope) : e.outcome = .Failed ↔ e.task.execute ≠ .returns := by
  unfold outcome caught; cases e.task.execute <;> simp

/-- The message of the result of a run: what was caught. -/
theorem result_error (e : TaskEnvelope) (d f : TimePoint) :
    (e.result d f).error = e.caught.getD .none := by
  unfold result; split <;> simp_all [TaskResult.failed, TaskResult.succeeded]

/-- What the future of a run tells of it: the id, the state and the error message. -/
def delivery (e : TaskEnvelope) : TaskId × TaskState × String :=
  (e.id, e.outcome, (e.caught.getD .none).message)

end TaskEnvelope

/-! ## Promises -/

/-- The state shared by a promise and its future. -/
inductive Promise
  | unset
  | value (result : TaskResult)
  | broken_promise
  deriving DecidableEq

/-- `std::promise::set_value`: `none` when the promise was already satisfied, where it throws. -/
def set_value (promises : List Promise) (k : ℕ) (r : TaskResult) : Option (List Promise) :=
  match promises[k]? with
  | some .unset => some (promises.set k (.value r))
  | _ => none

/-- The destructor of an envelope that still owns its promise. -/
def destroy (promises : List Promise) (e : TaskEnvelope) : List Promise :=
  match promises[e.promise]? with
  | some .unset => promises.set e.promise .broken_promise
  | _ => promises

/-- What a future tells of its task: the id, the state and the error message. -/
def Promise.delivery : Promise → Option (TaskId × TaskState × String)
  | .value r => some (r.id, r.state, r.error.message)
  | _ => none

theorem Promise.delivery_result (e : TaskEnvelope) (d f : TimePoint) :
    (Promise.value (e.result d f)).delivery = some e.delivery := by
  simp [Promise.delivery, TaskEnvelope.delivery, TaskEnvelope.result_error]

theorem Promise.delivery_rejection (e : TaskEnvelope) (f : TimePoint) :
    (Promise.value (e.rejection f)).delivery = some (e.id, .Rejected, "") := rfl

theorem set_value_of_unset {promises : List Promise} {k : ℕ} (r : TaskResult)
    (h : promises[k]? = some .unset) : set_value promises k r = some (promises.set k (.value r)) := by
  simp [set_value, h]

/-- Destroying a fulfilled envelope changes nothing. -/
theorem destroy_of_value {promises : List Promise} {e : TaskEnvelope} {r : TaskResult}
    (h : promises[e.promise]? = some (.value r)) : destroy promises e = promises := by
  simp [destroy, h]

theorem foldl_destroy_of_value {promises : List Promise} {es : List TaskEnvelope}
    (h : ∀ e ∈ es, ∃ r, promises[e.promise]? = some (.value r)) :
    es.foldl destroy promises = promises := by
  induction es with
  | nil => rfl
  | cons e es ih =>
    obtain ⟨r, hr⟩ := h e (by simp)
    rw [List.foldl_cons, destroy_of_value hr]
    exact ih fun e he => h e (by simp [he])

@[simp] theorem destroy_length (promises : List Promise) (e : TaskEnvelope) :
    (destroy promises e).length = promises.length := by
  unfold destroy; split <;> simp

@[simp] theorem foldl_destroy_length (promises : List Promise) (es : List TaskEnvelope) :
    (es.foldl destroy promises).length = promises.length := by
  induction es generalizing promises with
  | nil => rfl
  | cons e es ih => rw [List.foldl_cons, ih, destroy_length]

theorem set_value_length {promises promises' : List Promise} {k : ℕ} {r : TaskResult}
    (h : set_value promises k r = some promises') : promises'.length = promises.length := by
  unfold set_value at h
  split at h
  · cases h; simp
  · cases h

end TaskEngine
