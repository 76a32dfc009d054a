import TaskEngine.Cli.Options
import TaskEngine.Engine.Model
import TaskEngine.Tasks.ComputeTask

/-!
# TaskEngine.App.Model — `run`: the submission loop, the interrupt flag and the exit code

`app/main.cpp`.  The main thread is the one client of the engine; a signal handler may set
`g_interrupted` between any two steps, on whatever thread it runs.  The main thread is at a point of
`run` (`Frame`), or inside a call of the engine that it has made from there, in which case the frame
is the one that it returns to.  What is printed, and the wall time, are left out.
-/

namespace TaskEngine

open Interleaving

/-- The exit code of `main` when it catches the exception. -/
def Exception.exit_code : Exception → ℕ
  | .invalid_argument _ => kExitUsage
  | .logic_error _ => kExitTaskFailure
  | .length_error => kExitTaskFailure

namespace App

/-! ## Tasks -/

section Tasks

/-- `FailingTask`. -/
def FailingTask : Task := ⟨.throws "injected failure"⟩

/-- `make_task`: every `fail_every`-th task throws. -/
def make_task (options : Options) (index : ℕ) : Task :=
  if options.fail_every ≠ 0 ∧ (index + 1) % 2 ^ 64 % options.fail_every = 0 then FailingTask
  else (ComputeTask.create options.work index).task

end Tasks

/-! ## Places and events -/

/-- The main thread, and whichever thread a signal handler runs on. -/
inductive Client
  | main
  | handler
  deriving DecidableEq

instance : Fintype Client := ⟨{.main, .handler}, by rintro (_ | _) <;> simp⟩

/-- `g_interrupted` and the engine of `run`. -/
structure Process (W : ℕ) where
  interrupted : Bool
  engine : Engine W Client

/-- The points of `run` between its calls of the engine. -/
inductive Frame
  /-- the head of the loop -/
  | loop (submitted : ℕ)
  /-- past the check of the flag in the loop -/
  | body (submitted : ℕ)
  /-- past the loop -/
  | after (submitted : ℕ)
  /-- past the second reading of the flag -/
  | stop (interrupted : Bool)
  /-- past the shutdown -/
  | stopped (interrupted : Bool)
  /-- `engine.summary()` has been called -/
  | summing (interrupted : Bool)
  /-- the exit code is known; with the summary, unless `summary()` threw -/
  | leaving (code : ℕ) (summary : Option RunSummary)
  /-- `~TaskEngine` has been called -/
  | destroying (code : ℕ) (summary : Option RunSummary)
  | exited (code : ℕ) (summary : Option RunSummary)

/-- The main thread: its frame, and where it is in the engine. -/
structure MainPc where
  frame : Frame
  call : Engine.ClientPc

variable {W : ℕ}

/-- The places of a thread. -/
@[reducible] def Pc : Thread W Client → Type
  | .inl _ => ThreadPool.WorkerPc
  | .inr .main => MainPc
  | .inr .handler => Unit

/-- What a step did. -/
inductive Event (W : ℕ)
  | engine (ev : Engine.Event W)
  | signal
  | poll (interrupted : Bool)
  | ended
  | read (interrupted : Bool)
  | exit (code : ℕ)

/-! ## The steps -/

section Rules

/-- A step of worker `w`: one of the engine. -/
inductive WorkerRule (w : Fin W) :
    Process W → ThreadPool.WorkerPc → Event W → Process W → ThreadPool.WorkerPc → Prop
  | engine {m : Process W} {p ev engine p'} (h : Engine.WorkerRule w m.engine p ev engine p') :
      WorkerRule w m p (.engine ev) { m with engine := engine } p'

/-- A signal is handled. -/
inductive HandlerRule : Process W → Event W → Process W → Prop
  | signal {m} : HandlerRule m .signal { m with interrupted := true }

/-- A step of the main thread. -/
inductive MainRule (options : Options) : Process W → MainPc → Event W → Process W → MainPc → Prop
  | poll {m n} (hn : n < options.tasks) (hf : m.interrupted = false) :
      MainRule options m ⟨.loop n, .pool .idle⟩ (.poll false) m ⟨.body n, .pool .idle⟩
  | interrupt {m n} (hn : n < options.tasks) (hf : m.interrupted = true) :
      MainRule options m ⟨.loop n, .pool .idle⟩ (.poll true) m ⟨.after n, .pool .idle⟩
  | ended {m n} (hn : options.tasks ≤ n) :
      MainRule options m ⟨.loop n, .pool .idle⟩ .ended m ⟨.after n, .pool .idle⟩
  /-- `engine.submit(make_task(options, submitted))`, and `++submitted` on its return -/
  | submit {m : Process W} {n id engine p}
      (h : Engine.ClientRule options.queue_capacity .main m.engine (.pool .idle)
        (.assign id (make_task options n)) engine p) :
      MainRule options m ⟨.body n, .pool .idle⟩ (.engine (.assign id (make_task options n)))
        { m with engine := engine } ⟨.loop (n + 1), p⟩
  | read {m n} :
      MainRule options m ⟨.after n, .pool .idle⟩ (.read m.interrupted) m
        ⟨.stop m.interrupted, .pool .idle⟩
  | shutdown {m : Process W} {engine p}
      (h : Engine.ClientRule options.queue_capacity .main m.engine (.pool .idle)
        (.pool (.shutdown .shutdown)) engine p) :
      MainRule options m ⟨.stop false, .pool .idle⟩ (.engine (.pool (.shutdown .shutdown)))
        { m with engine := engine } ⟨.stopped false, p⟩
  | shutdown_now {m : Process W} {engine p}
      (h : Engine.ClientRule options.queue_capacity .main m.engine (.pool .idle)
        (.pool .shutdown_now) engine p) :
      MainRule options m ⟨.stop true, .pool .idle⟩ (.engine (.pool .shutdown_now))
        { m with engine := engine } ⟨.stopped true, p⟩
  | summary {m : Process W} {interrupted engine p}
      (h : Engine.ClientRule options.queue_capacity .main m.engine (.pool .idle) .summary engine p) :
      MainRule options m ⟨.stopped interrupted, .pool .idle⟩ (.engine .summary)
        { m with engine := engine } ⟨.summing interrupted, p⟩
  /-- `summary()` returns, and `run` does: 1 when interrupted, else `exit_code_for` -/
  | summarized {m : Process W} {interrupted engine} {summary : RunSummary}
      (h : Engine.ClientRule options.queue_capacity .main m.engine (.summing (.done (.ok summary)))
        (.summarized (.ok summary)) engine (.pool .idle)) :
      MainRule options m ⟨.summing interrupted, .summing (.done (.ok summary))⟩
        (.engine (.summarized (.ok summary))) { m with engine := engine }
        ⟨.leaving (if interrupted then kExitTaskFailure
          else exit_code_for summary.failed summary.rejected) (some summary), .pool .idle⟩
  /-- `summary()` throws, and `main` catches it -/
  | threw {m : Process W} {interrupted engine e}
      (h : Engine.ClientRule options.queue_capacity .main m.engine (.summing (.done (.error e)))
        (.summarized (.error e)) engine (.pool .idle)) :
      MainRule options m ⟨.summing interrupted, .summing (.done (.error e))⟩
        (.engine (.summarized (.error e))) { m with engine := engine }
        ⟨.leaving e.exit_code none, .pool .idle⟩
  /-- the scope of `run` ends -/
  | destructor {m : Process W} {code summary engine p}
      (h : Engine.ClientRule options.queue_capacity .main m.engine (.pool .idle)
        (.pool (.shutdown .destructor)) engine p) :
      MainRule options m ⟨.leaving code summary, .pool .idle⟩
        (.engine (.pool (.shutdown .destructor))) { m with engine := engine }
        ⟨.destroying code summary, p⟩
  | exit {m code summary} :
      MainRule options m ⟨.destroying code summary, .pool .idle⟩ (.exit code) m
        ⟨.exited code summary, .pool .idle⟩
  /-- a step inside a call, its return included -/
  | call {m : Process W} {frame p ev engine p'} (hp : p ≠ .pool .idle)
      (hev : ∀ result, ev ≠ .summarized result)
      (h : Engine.ClientRule options.queue_capacity .main m.engine p ev engine p') :
      MainRule options m ⟨frame, p⟩ (.engine ev) { m with engine := engine } ⟨frame, p'⟩

/-- The process: the workers of its engine, the main thread and the handler. -/
def rules (options : Options) : Rules (Process W) (Event W) (Pc (W := W))
  | .inl w => WorkerRule w
  | .inr .main => MainRule options
  | .inr .handler => fun m _ ev m' _ => HandlerRule m ev m'

end Rules

/-- A configuration of the process. -/
abbrev System (W : ℕ) := Config (Process W) (Pc (W := W))

/-- The engine has been constructed, and no interrupt has come so far. -/
def init : System W where
  shared := ⟨false, (Engine.init (W := W) (ι := Client)).shared⟩
  pc
    | .inl _ => .starting
    | .inr .main => ⟨.loop 0, .pool .idle⟩
    | .inr .handler => ()

/-- Up to the loop: the constructor may throw, and then the process exits with the code given. -/
def launch (options : Options) : Except ℕ (System options.workers) :=
  match Engine.construct (ι := Client) options.workers options.queue_capacity with
  | .ok _ => .ok init
  | .error e => .error e.exit_code

/-! ## The engine of the process -/

section Engine

/-- Where a thread stands with respect to the engine. -/
def place : (t : Thread W Client) → Pc t → Engine.Pc t
  | .inl _, p => p
  | .inr .main, p => MainPc.call p
  | .inr .handler, _ => Engine.ClientPc.pool .idle

/-- What a step of the process is for the engine. -/
def Event.engine? : Event W → Option (Engine.Event W)
  | .engine ev => some ev
  | _ => none

/-- One step of the process, seen through its engine. -/
theorem rule_toEngine {options : Options} {t : Thread W Client} {m m' : Process W} {p p' : Pc t}
    {ev : Event W} (h : rules options t m p ev m' p') :
    ev.engine?.elim (m'.engine = m.engine ∧ place t p' = place t p) fun ev' =>
      Engine.rules options.queue_capacity t m.engine (place t p) ev' m'.engine (place t p') := by
  rcases t with w | _ | _
  · cases (h : WorkerRule w _ _ _ _ _) with
    | engine h => exact h
  · cases (h : MainRule options _ _ _ _ _) with
    | poll _ _ => exact ⟨rfl, rfl⟩
    | interrupt _ _ => exact ⟨rfl, rfl⟩
    | ended _ => exact ⟨rfl, rfl⟩
    | read => exact ⟨rfl, rfl⟩
    | exit => exact ⟨rfl, rfl⟩
    | call _ _ h => exact h
    | submit h => exact h
    | shutdown h => exact h
    | shutdown_now h => exact h
    | summary h => exact h
    | summarized h => exact h
    | threw h => exact h
    | destructor h => exact h
  · cases (h : HandlerRule _ _ _) with
    | signal => exact ⟨rfl, rfl⟩

/-- **The process uses a `TaskEngine`**, from the main thread. -/
def toEngine (options : Options) :
    Projection (rules (W := W) options) (Engine.rules (W := W) (ι := Client) options.queue_capacity) where
  mem m := m.engine
  place := place
  event := Event.engine?
  seen _ _ _ _ _ _ _ h he := by
    have := rule_toEngine h
    rw [he] at this
    exact this
  unseen _ _ _ _ _ _ h he := by
    have := rule_toEngine h
    rw [he] at this
    exact this

/-- The steps of the engine in a log. -/
def engineLog (log : List (Thread W Client × Event W)) : List (Thread W Client × Engine.Event W) :=
  log.filterMap fun l => l.2.engine?.map (Prod.mk l.1)

@[simp] theorem engineLog_nil : engineLog ([] : List (Thread W Client × Event W)) = [] := rfl

@[simp] theorem engineLog_append (l₁ l₂ : List (Thread W Client × Event W)) :
    engineLog (l₁ ++ l₂) = engineLog l₁ ++ engineLog l₂ := List.filterMap_append

theorem toEngine_init {options : Options} :
    (toEngine (W := W) options).config init = Engine.init := by
  simp only [Projection.config, toEngine, init, Engine.init, Config.mk.injEq, true_and]
  funext t
  rcases t with w | _ | _ <;> rfl

theorem engine_run {options : Options} {c : System W} {log : List (Thread W Client × Event W)}
    (h : Run (rules options) init log c) :
    Run (Engine.rules options.queue_capacity) Engine.init (engineLog log)
      ((toEngine options).config c) := by
  have := (toEngine options).run h
  rwa [toEngine_init] at this

end Engine

/-! ## Computing the steps -/

section Act

/-- The choice of a thread: one inside the engine, or the next step of `run` or of the handler. -/
inductive Act (W : ℕ)
  | engine (a : Engine.Act W Client)
  | go

def MainPc.act (options : Options) (m : Process W) :
    MainPc → Act W → Option (Event W × Process W × MainPc)
  | ⟨.loop n, .pool .idle⟩, .go =>
    if n < options.tasks then
      if m.interrupted then some (.poll true, m, ⟨.after n, .pool .idle⟩)
      else some (.poll false, m, ⟨.body n, .pool .idle⟩)
    else some (.ended, m, ⟨.after n, .pool .idle⟩)
  | ⟨.after _, .pool .idle⟩, .go => some (.read m.interrupted, m, ⟨.stop m.interrupted, .pool .idle⟩)
  | ⟨.destroying code summary, .pool .idle⟩, .go =>
    some (.exit code, m, ⟨.exited code summary, .pool .idle⟩)
  | ⟨.body n, .pool .idle⟩, .go => enter m (.assign (make_task options n)) (.loop (n + 1))
  | ⟨.stop false, .pool .idle⟩, .go => enter m (.pool (.shutdown .shutdown)) (.stopped false)
  | ⟨.stop true, .pool .idle⟩, .go => enter m (.pool .shutdown_now) (.stopped true)
  | ⟨.stopped interrupted, .pool .idle⟩, .go => enter m .summary (.summing interrupted)
  | ⟨.leaving code summary, .pool .idle⟩, .go =>
    enter m (.pool (.shutdown .destructor)) (.destroying code summary)
  | ⟨.summing interrupted, .summing (.done (.ok summary))⟩, .go =>
    some (.engine (.summarized (.ok summary)), m,
      ⟨.leaving (if interrupted then kExitTaskFailure
        else exit_code_for summary.failed summary.rejected) (some summary), .pool .idle⟩)
  | ⟨.summing _, .summing (.done (.error e))⟩, .go =>
    some (.engine (.summarized (.error e)), m, ⟨.leaving e.exit_code none, .pool .idle⟩)
  | ⟨_, .pool .idle⟩, _ => none
  | ⟨_, .summing (.done _)⟩, _ => none
  | ⟨frame, p⟩, .engine a =>
    (Engine.ClientPc.act options.queue_capacity .main m.engine p a).map fun r =>
      (.engine r.1, { m with engine := r.2.1 }, ⟨frame, r.2.2⟩)
  | _, _ => none
where
  /-- Calls the engine, to return to `frame`. -/
  enter (m : Process W) (a : Engine.Act W Client) (frame : Frame) :
      Option (Event W × Process W × MainPc) :=
    (Engine.ClientPc.act options.queue_capacity .main m.engine (.pool .idle) a).map fun r =>
      (.engine r.1, { m with engine := r.2.1 }, ⟨frame, r.2.2⟩)

def act (options : Options) : (t : Thread W Client) → Act W → Process W → Pc t →
    Option (Event W × Process W × Pc t)
  | .inl w, .engine a, m, p =>
    (Engine.act options.queue_capacity (.inl w) a m.engine p).map fun r =>
      (.engine r.1, { m with engine := r.2.1 }, r.2.2)
  | .inr .main, a, m, p => MainPc.act options m p a
  | .inr .handler, .go, m, p => some (.signal, { m with interrupted := true }, p)
  | _, _, _, _ => none

variable {options : Options} {m m' : Process W} {ev : Event W}

/-- A call of the engine that can be made: the step is the call itself. -/
theorem enter_eq {a : Engine.Act W Client} {frame : Frame} {p : MainPc}
    (h : MainPc.act.enter options m a frame = some (ev, m', p)) : ∃ ev' engine call,
      Engine.ClientRule options.queue_capacity .main m.engine (.pool .idle) ev' engine call ∧
      Engine.ClientPc.act options.queue_capacity .main m.engine (.pool .idle) a =
        some (ev', engine, call) ∧
      ev = .engine ev' ∧ m' = { m with engine := engine } ∧ p = ⟨frame, call⟩ := by
  obtain ⟨⟨ev', engine, call⟩, hr, he⟩ := Option.map_eq_some_iff.mp h
  cases he
  exact ⟨ev', engine, call, Engine.ClientPc.act_sound hr, hr, rfl, rfl, rfl⟩

theorem MainPc.act_sound {p p' : MainPc} {a : Act W} (h : p.act options m a = some (ev, m', p')) :
    MainRule options m p ev m' p' := by
  unfold MainPc.act at h
  split at h
  · split_ifs at h with hn hf
    · cases h; exact .interrupt hn hf
    · cases h; exact .poll hn (Bool.not_eq_true _ ▸ hf)
    · cases h; exact .ended (not_lt.mp hn)
  · cases h; exact .read
  · cases h; exact .exit
  · obtain ⟨ev', engine, call, hr, ha, rfl, rfl, rfl⟩ := enter_eq h
    simp only [Engine.ClientPc.act, Option.ite_none_right_eq_some, Option.some.injEq,
      Prod.mk.injEq] at ha
    obtain ⟨-, rfl, rfl, rfl⟩ := ha
    exact .submit hr
  · obtain ⟨ev', engine, call, hr, ha, rfl, rfl, rfl⟩ := enter_eq h
    by_cases hl : m.engine.pool.lifetime = .alive
    · simp [Engine.ClientPc.act, Engine.poolAct, ThreadPool.ClientPc.act, hl] at ha
      obtain ⟨rfl, rfl, rfl⟩ := ha
      exact .shutdown hr
    · simp [Engine.ClientPc.act, Engine.poolAct, ThreadPool.ClientPc.act, hl] at ha
  · obtain ⟨ev', engine, call, hr, ha, rfl, rfl, rfl⟩ := enter_eq h
    by_cases hl : m.engine.pool.lifetime = .alive
    · simp [Engine.ClientPc.act, Engine.poolAct, ThreadPool.ClientPc.act, hl] at ha
      obtain ⟨rfl, rfl, rfl⟩ := ha
      exact .shutdown_now hr
    · simp [Engine.ClientPc.act, Engine.poolAct, ThreadPool.ClientPc.act, hl] at ha
  · obtain ⟨ev', engine, call, hr, ha, rfl, rfl, rfl⟩ := enter_eq h
    simp only [Engine.ClientPc.act, Option.ite_none_right_eq_some, Option.some.injEq,
      Prod.mk.injEq] at ha
    obtain ⟨-, rfl, rfl, rfl⟩ := ha
    exact .summary hr
  · obtain ⟨ev', engine, call, hr, ha, rfl, rfl, rfl⟩ := enter_eq h
    by_cases hl : m.engine.pool.lifetime = .alive
    · simp [Engine.ClientPc.act, Engine.poolAct, ThreadPool.ClientPc.act, hl] at ha
      obtain ⟨rfl, rfl, rfl⟩ := ha
      exact .destructor hr
    · simp [Engine.ClientPc.act, Engine.poolAct, ThreadPool.ClientPc.act, hl] at ha
  · cases h; exact .summarized .summarized
  · cases h; exact .threw .summarized
  · cases h
  · cases h
  · next frame p a hidle hdone =>
    obtain ⟨⟨ev', engine, call⟩, hr, he⟩ := Option.map_eq_some_iff.mp h
    clear h
    cases he
    have hs := Engine.ClientPc.act_sound hr
    clear hr
    refine .call hidle ?_ hs
    intro result hev
    subst hev
    cases hs with
    | sum h => cases h
    | summarized => exact hdone _ rfl
  · cases h

theorem act_sound (t : Thread W Client) (a : Act W) (m : Process W) (p : Pc t) (ev : Event W)
    (m' : Process W) (p' : Pc t) (h : act options t a m p = some (ev, m', p')) :
    rules options t m p ev m' p' := by
  rcases t with w | _ | _
  · cases a with
    | engine a =>
      obtain ⟨⟨ev, engine, p'⟩, hp, he⟩ := Option.map_eq_some_iff.mp h
      cases he
      exact .engine (Engine.act_sound (.inl w) a _ _ _ _ _ hp)
    | go => cases h
  · exact MainPc.act_sound h
  · cases a with
    | engine a => cases h
    | go =>
      cases h
      exact .signal

end Act

end App

end TaskEngine
