import TaskEngine.Interleaving.Linearizability
import TaskEngine.Queue.Progress

/-!
# TaskEngine.Queue.Linearizable — the queue as one atomic object

`is_closed` and `size` are calls too, of one critical section each: `observed` are the rules of threads
that call any of the six functions.  `bounded` is what the queue is for its callers, one call at a time:
a bounded sequence that can be closed, where a `push` on a full open queue and a `pop` on an empty open
one cannot be carried out.

Every history of the queue is linearizable with respect to `bounded` (`linearizable`), and where no call
goes on, those in progress are calls that `bounded` cannot carry out either (`waits_as_specified`).
-/

namespace TaskEngine

open Interleaving

namespace BlockingQueue

variable {T θ : Type}

/-! ## The observers -/

section Observers

def is_closed (q : BlockingQueue T θ) : Bool := q.closed

/-- A momentary snapshot. -/
def size (q : BlockingQueue T θ) : ℕ := q.items.length

inductive Query
  | is_closed
  | size
  deriving DecidableEq

inductive Answer (T : Type)
  | returned (res : Result T)
  | is_closed (closed : Bool)
  | size (n : ℕ)
  deriving DecidableEq

def Query.read (q : BlockingQueue T θ) : Query → Answer T
  | .is_closed => .is_closed q.is_closed
  | .size => .size q.size

/-- What a thread can call, the observers included. -/
inductive Call (T : Type)
  | op (op : Op T)
  | query (query : Query)
  deriving DecidableEq

/-- Where a thread stands; `answered` is about to return from an observer. -/
inductive ObservedPlace (T : Type)
  | queue (p : Place T)
  | querying (query : Query)
  | answered (query : Query) (answer : Answer T)
  deriving DecidableEq

inductive ObservedLabel (T : Type)
  | queue (l : Label T)
  | ask (query : Query)
  | read
  | answer (answer : Answer T)
  deriving DecidableEq

variable [DecidableEq θ]

/-- A step of thread `t`: one of the queue, or of an observer. -/
inductive ObservedRule (capacity : ℕ) (t : θ) :
    BlockingQueue T θ → ObservedPlace T → ObservedLabel T → BlockingQueue T θ → ObservedPlace T → Prop
  | queue {q p l q' p'} (h : Rule capacity t q p l q' p') :
      ObservedRule capacity t q (.queue p) (.queue l) q' (.queue p')
  | ask {q} (query : Query) : ObservedRule capacity t q (.queue .idle) (.ask query) q (.querying query)
  | read {q query} : ObservedRule capacity t q (.querying query) .read q (.answered query (query.read q))
  | answer {q query answer} :
      ObservedRule capacity t q (.answered query answer) (.answer answer) q (.queue .idle)

/-- The queue, with its observers. -/
def observed (capacity : ℕ) :
    Rules (BlockingQueue T θ) (ObservedLabel T) (fun _ : θ => ObservedPlace T) :=
  fun t => ObservedRule capacity t

abbrev Observed (T θ : Type) := Config (BlockingQueue T θ) (fun _ : θ => ObservedPlace T)

/-- A new queue that no thread uses yet. -/
def Observed.init : Observed T θ := ⟨empty, fun _ => .queue .idle⟩

def ObservedPlace.place : ObservedPlace T → Place T
  | .queue p => p
  | _ => .idle

def ObservedLabel.label : ObservedLabel T → Option (Label T)
  | .queue l => some l
  | _ => none

/-- The observers change nothing. -/
def toQueue (capacity : ℕ) :
    Projection (observed (T := T) (θ := θ) capacity) (rules (T := T) (θ := θ) capacity) where
  mem := id
  place _ := ObservedPlace.place
  event := ObservedLabel.label
  seen t q p l q' p' l' h he := by
    cases (h : ObservedRule _ _ _ _ _ _ _) with
    | queue h => cases he; exact h
    | _ => cases he
  unseen t q p l q' p' h he := by
    cases (h : ObservedRule _ _ _ _ _ _ _) with
    | queue h => cases he
    | _ => exact ⟨rfl, rfl⟩

theorem observed_run {capacity : ℕ} {c : Observed T θ} {log : List (θ × ObservedLabel T)}
    (h : Run (observed capacity) Observed.init log c) :
    Run (rules capacity) init ((toQueue capacity).log log) ((toQueue capacity).config c) :=
  (toQueue capacity).run h

/-- A thread's choice. -/
inductive ObservedMove (T θ : Type)
  | queue (mv : Move T θ)
  | ask (query : Query)
  | go

def observedMove (capacity : ℕ) (t : θ) (q : BlockingQueue T θ) :
    ObservedPlace T → ObservedMove T θ → Option (ObservedLabel T × BlockingQueue T θ × ObservedPlace T)
  | .queue p, .queue mv => (move capacity t q p mv).map fun r => (.queue r.1, r.2.1, .queue r.2.2)
  | .queue .idle, .ask query => some (.ask query, q, .querying query)
  | .querying query, .go => some (.read, q, .answered query (query.read q))
  | .answered _ answer, .go => some (.answer answer, q, .queue .idle)
  | _, _ => none

theorem observedMove_sound {capacity : ℕ} {t : θ} {q q' : BlockingQueue T θ} {p p' : ObservedPlace T}
    {mv : ObservedMove T θ} {l : ObservedLabel T} (h : observedMove capacity t q p mv = some (l, q', p')) :
    ObservedRule capacity t q p l q' p' := by
  unfold observedMove at h
  split at h
  · obtain ⟨⟨l, r, p'⟩, hm, he⟩ := Option.map_eq_some_iff.mp h
    cases he
    exact .queue (move_sound hm)
  · cases h; exact .ask _
  · cases h; exact .read
  · cases h; exact .answer
  · cases h

end Observers

/-! ## The sequential object -/

section Specification

/-- One call at a time. -/
inductive Performs (capacity : ℕ) : Fifo T → Call T → Answer T → Fifo T → Prop
  | push {items value} (hs : items.length < capacity) :
      Performs capacity ⟨items, false⟩ (.op (.push value)) (.returned (.push true)) ⟨items ++ [value], false⟩
  | refuse {items value} :
      Performs capacity ⟨items, true⟩ (.op (.push value)) (.returned (.push false)) ⟨items, true⟩
  | pop {item rest closed} :
      Performs capacity ⟨item :: rest, closed⟩ (.op .pop) (.returned (.pop (some item))) ⟨rest, closed⟩
  | nullopt : Performs capacity ⟨[], true⟩ (.op .pop) (.returned (.pop none)) ⟨[], true⟩
  | close {items closed} :
      Performs capacity ⟨items, closed⟩ (.op .close) (.returned .close) ⟨items, true⟩
  | close_and_drain {items closed} :
      Performs capacity ⟨items, closed⟩ (.op .close_and_drain) (.returned (.close_and_drain items)) ⟨[], true⟩
  | is_closed {items closed} :
      Performs capacity ⟨items, closed⟩ (.query .is_closed) (.is_closed closed) ⟨items, closed⟩
  | size {items closed} :
      Performs capacity ⟨items, closed⟩ (.query .size) (.size items.length) ⟨items, closed⟩

/-- The bounded queue that can be closed, new. -/
def bounded (T : Type) (capacity : ℕ) : SeqObject (Fifo T) (Call T) (Answer T) where
  initial := ⟨[], false⟩
  Perform := Performs capacity

end Specification

/-! ## The critical sections carry out the calls -/

section Implementation

def PushPc.stage : PushPc T → Stage (Call T) (Answer T)
  | .enter value | .waiting value => .pending (.op (.push value))
  | .notifying value | .done value => .performed (.op (.push value)) (.returned (.push true))
  | .refused value => .performed (.op (.push value)) (.returned (.push false))

def PopPc.stage : PopPc T → Stage (Call T) (Answer T)
  | .enter | .waiting => .pending (.op .pop)
  | .notifying item => .performed (.op .pop) (.returned (.pop (some item)))
  | .done item => .performed (.op .pop) (.returned (.pop item))

def ClosePc.stage : ClosePc → Stage (Call T) (Answer T)
  | .enter => .pending (.op .close)
  | _ => .performed (.op .close) (.returned .close)

def DrainPc.stage : DrainPc T → Stage (Call T) (Answer T)
  | .enter => .pending (.op .close_and_drain)
  | .notifyingEmpty drained | .notifyingFull drained | .done drained =>
    .performed (.op .close_and_drain) (.returned (.close_and_drain drained))

/-- How far the call of a thread has come: past its critical section it has been carried out. -/
def ObservedPlace.stage : ObservedPlace T → Stage (Call T) (Answer T)
  | .queue .idle => .idle
  | .queue (.push p) => p.stage
  | .queue (.pop p) => p.stage
  | .queue (.close p) => p.stage
  | .queue (.drain p) => p.stage
  | .querying query => .pending (.query query)
  | .answered query answer => .performed (.query query) answer

/-- What the caller sees of a step. -/
def ObservedLabel.action : ObservedLabel T → Option (Interaction (Call T) (Answer T))
  | .queue (.call op) => some (.call (.op op))
  | .queue (.ret res) => some (.ret (.returned res))
  | .ask query => some (.call (.query query))
  | .answer a => some (.ret a)
  | _ => none

/-- What a step is for an object that a call is carried out on under the mutex. -/
abbrev Does (capacity : ℕ) (q : BlockingQueue T θ) (st : Stage (Call T) (Answer T))
    (a : Option (Interaction (Call T) (Answer T))) (q' : BlockingQueue T θ) (st' : Stage (Call T) (Answer T)) :
    Prop :=
  (bounded T capacity).Does ⟨q.items, q.closed⟩ st a ⟨q'.items, q'.closed⟩ st'

variable [DecidableEq θ] {capacity : ℕ} {t : θ} {q q' : BlockingQueue T θ} {ev : Event T}

theorem pushSection_does {value : T} {p : PushPc T} (h : pushSection capacity t q value = (ev, q', p)) :
    Does capacity q (.pending (.op (.push value))) none q' p.stage := by
  cases pushSection_cases h with
  | refuse hc =>
    refine .perform ?_
    rw [hc]
    exact .refuse
  | insert hc hs =>
    refine .perform ?_
    rw [hc]
    exact .push hs
  | block _ _ => exact .silent

theorem popSection_does {p : PopPc T} (h : popSection t q = (ev, q', p)) :
    Does capacity q (.pending (.op .pop)) none q' p.stage := by
  cases popSection_cases h with
  | exhaust hc hi =>
    refine .perform ?_
    rw [hc, hi]
    exact .nullopt
  | take hi =>
    refine .perform ?_
    rw [hi]
    exact .pop
  | block _ _ => exact .silent

theorem PushRule.does {p p' : PushPc T} (h : PushRule capacity t q p ev q' p') :
    Does capacity q p.stage none q' p'.stage := by
  cases h with
  | enter h => exact pushSection_does h
  | resume _ h => exact pushSection_does (q := { q with not_full := q.not_full.resume t }) h
  | spurious _ => exact .silent
  | notify_one _ => exact .silent

theorem PopRule.does {p p' : PopPc T} (h : PopRule t q p ev q' p') :
    Does capacity q p.stage none q' p'.stage := by
  cases h with
  | enter h => exact popSection_does h
  | resume _ h => exact popSection_does (q := { q with not_empty := q.not_empty.resume t }) h
  | spurious _ => exact .silent
  | notify_one _ => exact .silent

theorem CloseRule.does {p p' : ClosePc} (h : CloseRule q p ev q' p') :
    Does capacity q p.stage none q' p'.stage := by
  cases h with
  | enter h =>
    cases closeSection_cases h with
    | again hc =>
      refine .perform ?_
      rw [hc]
      exact .close
    | close _ => exact .perform .close
  | notify_empty => exact .silent
  | notify_full => exact .silent

theorem DrainRule.does {p p' : DrainPc T} (h : DrainRule q p ev q' p') :
    Does capacity q p.stage none q' p'.stage := by
  cases h with
  | enter h =>
    cases h
    exact .perform .close_and_drain
  | notify_empty => exact .silent
  | notify_full => exact .silent

/-- What a call that is about to return has been carried out with. -/
theorem stage_of_result {p : Place T} {res : Result T} (h : p.result = some res) :
    ∃ op, (ObservedPlace.queue p).stage = .performed op (.returned res) := by
  unfold Place.result at h
  split at h
  all_goals
    cases h
  all_goals exact ⟨_, rfl⟩

theorem ObservedRule.does {p p' : ObservedPlace T} {l : ObservedLabel T}
    (h : ObservedRule capacity t q p l q' p') : Does capacity q p.stage l.action q' p'.stage := by
  cases h with
  | ask query => exact .call _
  | @read query => cases query <;> exact .perform (by first | exact .is_closed | exact .size)
  | answer => exact .ret
  | queue h =>
    cases h with
    | call op => cases op <;> exact .call _
    | push h => exact h.does
    | pop h => exact h.does
    | close h => exact h.does
    | drain h => exact h.does
    | ret h =>
      obtain ⟨op, hst⟩ := stage_of_result h
      rw [hst]
      exact .ret

/-- **The queue implements `bounded`**, each call by its critical section. -/
def implements (capacity : ℕ) :
    Implements (observed (T := T) (θ := θ) capacity) (bounded T capacity) where
  state q := ⟨q.items, q.closed⟩
  stage _ := ObservedPlace.stage
  action := ObservedLabel.action
  does _ _ _ _ _ _ h := ObservedRule.does h

/-- The calls and the returns in a log. -/
abbrev history (capacity : ℕ) (log : List (θ × ObservedLabel T)) : History θ (Call T) (Answer T) :=
  (implements capacity).history log

end Implementation

/-! ## What the callers can rely on -/

section Callers

variable [DecidableEq θ] {capacity : ℕ} {c : Observed T θ} {log : List (θ × ObservedLabel T)}

/-- **Linearizability.**  For any threads calling `push`, `pop`, `close`, `close_and_drain`, `is_closed`
and `size`, in any interleaving, there is one order of the calls, with the answers returned and never
against the order of two calls that did not overlap, in which a bounded queue that can be closed answers
the same one call at a time. -/
theorem linearizable (h : Run (observed capacity) Observed.init log c) :
    Linearizable (bounded T capacity) (history capacity log) :=
  (implements capacity).linearizes h rfl fun _ => rfl

/-- A schedule for a queue of one: thread 0 fills it and blocks on a second item, and thread 1, which
asked for the size while it was still empty, reads it now. -/
def snapshotSchedule : List (Fin 2 × ObservedMove ℕ (Fin 2)) :=
  [(1, .ask .size), (0, .queue (.call (.push 7))), (0, .queue (.act .lock)),
   (0, .queue (.act (.notify none))), (0, .queue .ret), (0, .queue (.call (.push 8))),
   (0, .queue (.act .lock)), (1, .go), (1, .go)]

/-- Its log, and the configuration that it ends in. -/
def snapshotRun : List (Fin 2 × ObservedLabel ℕ) × Observed ℕ (Fin 2) :=
  (play (fun t mv q p => observedMove 1 t q p mv) snapshotSchedule Observed.init).get rfl

theorem snapshotRun_run : Run (observed 1) Observed.init snapshotRun.1 snapshotRun.2 :=
  play_run (fun _ _ _ _ _ _ _ => observedMove_sound) rfl

/-- The size returned is 1, so the call comes after the push that it overlapped. -/
theorem linearizable_snapshotRun :
    Linearizable (bounded ℕ 1) (history 1 snapshotRun.1) ∧
      history 1 snapshotRun.1 =
        [(1, .call (.query .size)), (0, .call (.op (.push 7))), (0, .ret (.returned (.push true))),
         (0, .call (.op (.push 8))), (1, .ret (.size 1))] :=
  ⟨linearizable snapshotRun_run, rfl⟩

/-- A call goes on or returns. -/
def ObservedLabel.goes : ObservedLabel T → Bool
  | .queue l => l.goes
  | .ask _ => false
  | _ => true

variable [Fintype θ]

/-- **Calls wait only as specified.**  Where no call goes on or returns but by spurious wake-ups, every
call in progress has not been carried out, and `bounded` cannot carry it out in the state that the queue
is in: it is a `push` on a full open queue, or a `pop` on an empty open one. -/
theorem waits_as_specified (h : Run (observed capacity) Observed.init log c)
    (hstuck : ∀ l c', Step (observed capacity) c l c' → l.2.goes = false) (t : θ) :
    (c.pc t).stage = .idle ∨ ∃ op, (c.pc t).stage = .pending op ∧
      ∀ answer s, ¬ Performs capacity ⟨c.shared.items, c.shared.closed⟩ op answer s := by
  have hrun := observed_run h
  have hno : ∀ {u p l m p'}, c.pc u = p → ObservedRule capacity u c.shared p l m p' → l.goes = false := by
    rintro u - l m p' rfl hr
    exact hstuck (u, l) _ (.mk (R := observed capacity) hr)
  have hall : ∀ u, ((toQueue capacity).config c).pc u ≠ .idle →
      BlockedEmpty ((toQueue capacity).config c) u ∨ BlockedFull ((toQueue capacity).config c) u := by
    intro u
    refine @blocked_of_stuck _ _ _ _ capacity _ ?_
    rintro ⟨v, l⟩ c' hs
    cases hs with
    | mk hr =>
      change Rule capacity v c.shared (c.pc v).place l _ _ at hr
      cases hp : c.pc v with
      | queue p =>
        rw [hp] at hr
        exact hno hp (.queue hr)
      | querying query => cases hno hp .read
      | answered query a => cases hno hp .answer
  -- with every call blocked, the queue is open and each of them has to wait
  obtain ⟨hempty, hfull⟩ := (awake hrun).open_of_all_blocked hall
  have hat := hall t
  have hemptyt := hempty t
  have hfullt := hfull t
  unfold BlockedEmpty at hat hemptyt
  unfold BlockedFull at hat hfullt
  change (c.pc t).place ≠ .idle →
    (c.pc t).place.consuming = true ∧ t ∈ c.shared.not_empty.waiting ∨
      (c.pc t).place.producing = true ∧ t ∈ c.shared.not_full.waiting at hat
  change (c.pc t).place.consuming = true ∧ t ∈ c.shared.not_empty.waiting →
    c.shared.closed = false ∧ c.shared.items = [] at hemptyt
  change (c.pc t).place.producing = true ∧ t ∈ c.shared.not_full.waiting →
    c.shared.closed = false ∧ capacity ≤ c.shared.items.length at hfullt
  cases hp : c.pc t with
  | querying query => cases hno hp .read
  | answered query a => cases hno hp .answer
  | queue p =>
    rw [hp] at hat hemptyt hfullt
    by_cases hidle : p = .idle
    · exact .inl (by rw [hidle]; rfl)
    · refine .inr ?_
      rcases hat hidle with hb | hb
      · obtain ⟨hc, hi⟩ := hemptyt hb
        obtain rfl : p = .pop .waiting := by
          rcases p with _ | _ | (_ | _ | _ | _) | _ | _ <;> first | rfl | cases hb.1
        refine ⟨.op .pop, rfl, ?_⟩
        rw [hc, hi]
        rintro answer s ⟨⟩
      · obtain ⟨hc, hi⟩ := hfullt hb
        obtain ⟨value, rfl⟩ : ∃ value, p = .push (.waiting value) := by
          rcases p with _ | (_ | _ | _ | _ | _) | _ | _ | _ <;> first | exact ⟨_, rfl⟩ | cases hb.1
        refine ⟨.op (.push value), rfl, ?_⟩
        rw [hc]
        generalize c.shared.items = items at hi ⊢
        intro answer s hperf
        cases hperf with
        | push hs => omega

/-- Where thread 0 is left blocked, the second push is indeed one that has to wait. -/
theorem waits_as_specified_snapshotRun :
    (snapshotRun.2.pc 0).stage = .pending (.op (.push 8)) ∧
      ∀ answer s, ¬ Performs 1 ⟨[7], false⟩ (.op (.push 8)) answer s := by
  refine ⟨rfl, ?_⟩
  have hstuck : ∀ l c', Step (observed 1) snapshotRun.2 l c' → l.2.goes = false := by
    rintro ⟨t, l⟩ c' hs
    cases hs with
    | mk hr =>
      fin_cases t
      · change ObservedRule 1 (0 : Fin 2) snapshotRun.2.shared (.queue (.push (.waiting 8))) l _ _ at hr
        cases hr with
        | queue h =>
          cases h with
          | push h =>
            cases h with
            | resume hw _ => exact absurd (by decide) hw
            | spurious _ => rfl
          | ret h => cases h
      · change ObservedRule 1 (1 : Fin 2) snapshotRun.2.shared (.queue .idle) l _ _ at hr
        cases hr with
        | queue h =>
          cases h with
          | call op => rfl
          | ret h => cases h
        | ask query => rfl
  rcases waits_as_specified snapshotRun_run hstuck 0 with h | ⟨op, hst, hno⟩
  · cases h
  · obtain rfl : Call.op (.push 8) = op := by
      have : (.pending (.op (.push 8)) : Stage (Call ℕ) (Answer ℕ)) = .pending op := hst
      exact Stage.pending.inj this
    exact hno

end Callers

end BlockingQueue

end TaskEngine
