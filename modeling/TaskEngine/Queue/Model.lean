import TaskEngine.Interleaving.Run
import TaskEngine.Interleaving.CondVar

/-!
# TaskEngine.Queue.Model — `BlockingQueue<T>` and the threads inside it

`push`, `pop`, `close` and `close_and_drain` of `blocking_queue.hpp`.  What one of them does under
`mutex_` is one function (`pushSection`, …) and one atomic step; blocking, waking and notifying,
which happens after the mutex has been released, are steps of their own.  The place of a thread is
how far its call has come (`PushPc`, …).

Each section has its inversion (`pushSection_cases`, …), and `Rule` puts the four operations, their
calls and their returns together for a thread that uses the queue.
-/

namespace TaskEngine

open Interleaving

/-- The members of a queue, its mutex apart.  `capacity_` is a constant of the rules. -/
structure BlockingQueue (T θ : Type) where
  items : List T
  closed : Bool
  not_empty : CondVar θ
  not_full : CondVar θ

namespace BlockingQueue

variable {T θ : Type}

/-- A queue as its constructor leaves it. -/
def empty : BlockingQueue T θ := ⟨[], false, .idle, .idle⟩

/-! ## Places and events -/

/-- Inside `push(value)`.  Past the insertion `value` is the moved-from argument; in `refused` it is
untouched, and `false` is about to be returned. -/
inductive PushPc (T : Type)
  | enter (value : T)
  | waiting (value : T)
  | notifying (value : T)
  | done (value : T)
  | refused (value : T)
  deriving DecidableEq

/-- Inside `pop()`; `done` is about to return its item, `none` for `std::nullopt`. -/
inductive PopPc (T : Type)
  | enter
  | waiting
  | notifying (item : T)
  | done (item : Option T)
  deriving DecidableEq

/-- Inside `close()`; `notifyingEmpty` owes `notify_all` to both variables, `notifyingFull` to
`not_full_` only. -/
inductive ClosePc
  | enter
  | notifyingEmpty
  | notifyingFull
  | done
  deriving DecidableEq

/-- Inside `close_and_drain()`, with the items removed. -/
inductive DrainPc (T : Type)
  | enter
  | notifyingEmpty (drained : List T)
  | notifyingFull (drained : List T)
  | done (drained : List T)
  deriving DecidableEq

/-- What a step inside the queue did.  `silent` is a step that neither decides a call nor touches
`items_` or `closed_`. -/
inductive Event (T : Type)
  | push (value : T)
  | refuse (value : T)
  | pop (item : T)
  | exhaust
  | close
  | drain (items : List T)
  | silent
  | spurious
  deriving DecidableEq

def Event.pushed : Event T → List T
  | .push value => [value]
  | _ => []

def Event.refused : Event T → List T
  | .refuse value => [value]
  | _ => []

def Event.popped : Event T → List T
  | .pop item => [item]
  | _ => []

def Event.drained : Event T → List T
  | .drain items => items
  | _ => []

attribute [simp] Event.pushed.eq_1 Event.pushed.eq_2 Event.refused.eq_1 Event.refused.eq_2
  Event.popped.eq_1 Event.popped.eq_2 Event.drained.eq_1 Event.drained.eq_2

/-! ## The critical sections -/

section Sections

variable [DecidableEq θ] (capacity : ℕ) (t : θ)

/-- `push` under the mutex: the predicate of the wait, and, past it, the refusal or the insertion. -/
def pushSection (q : BlockingQueue T θ) (value : T) : Event T × BlockingQueue T θ × PushPc T :=
  if q.closed || decide (q.items.length < capacity) then
    if q.closed then (.refuse value, q, .refused value)
    else (.push value, { q with items := q.items ++ [value] }, .notifying value)
  else (.silent, { q with not_full := q.not_full.wait t }, .waiting value)

/-- `pop` under the mutex. -/
def popSection (q : BlockingQueue T θ) : Event T × BlockingQueue T θ × PopPc T :=
  if q.closed || !q.items.isEmpty then
    match q.items with
    | [] => (.exhaust, q, .done none)
    | item :: rest => (.pop item, { q with items := rest }, .notifying item)
  else (.silent, { q with not_empty := q.not_empty.wait t }, .waiting)

/-- `close` under the mutex: a second close returns at once. -/
def closeSection (q : BlockingQueue T θ) : Event T × BlockingQueue T θ × ClosePc :=
  if q.closed then (.silent, q, .done)
  else (.close, { q with closed := true }, .notifyingEmpty)

/-- `close_and_drain` under the mutex. -/
def drainSection (q : BlockingQueue T θ) : Event T × BlockingQueue T θ × DrainPc T :=
  (.drain q.items, { q with items := [], closed := true }, .notifyingEmpty q.items)

variable {capacity t}

/-- The three outcomes of `push` under the mutex. -/
inductive PushSection (capacity : ℕ) (t : θ) (q : BlockingQueue T θ) (value : T) :
    Event T → BlockingQueue T θ → PushPc T → Prop
  | refuse (hc : q.closed = true) : PushSection capacity t q value (.refuse value) q (.refused value)
  | insert (hc : q.closed = false) (hs : q.items.length < capacity) :
      PushSection capacity t q value (.push value) { q with items := q.items ++ [value] }
        (.notifying value)
  | block (hc : q.closed = false) (hs : capacity ≤ q.items.length) :
      PushSection capacity t q value .silent { q with not_full := q.not_full.wait t } (.waiting value)

theorem pushSection_cases {q q' : BlockingQueue T θ} {value : T} {ev : Event T} {p : PushPc T}
    (h : pushSection capacity t q value = (ev, q', p)) : PushSection capacity t q value ev q' p := by
  unfold pushSection at h
  cases hc : q.closed with
  | true =>
    simp only [hc, Bool.true_or, if_true, Prod.mk.injEq] at h
    obtain ⟨rfl, rfl, rfl⟩ := h
    exact .refuse hc
  | false =>
    by_cases hs : q.items.length < capacity
    · simp only [hc, hs, decide_true, Bool.or_true, if_true, Bool.false_eq_true, if_false,
        Prod.mk.injEq] at h
      obtain ⟨rfl, rfl, rfl⟩ := h
      simpa [hc] using PushSection.insert hc hs
    · simp only [hc, hs, decide_false, Bool.or_false, Bool.false_eq_true, if_false,
        Prod.mk.injEq] at h
      obtain ⟨rfl, rfl, rfl⟩ := h
      simpa [hc] using PushSection.block hc (not_lt.mp hs)

/-- The three outcomes of `pop` under the mutex. -/
inductive PopSection (t : θ) (q : BlockingQueue T θ) :
    Event T → BlockingQueue T θ → PopPc T → Prop
  | exhaust (hc : q.closed = true) (hi : q.items = []) : PopSection t q .exhaust q (.done none)
  | take {item : T} {rest : List T} (hi : q.items = item :: rest) :
      PopSection t q (.pop item) { q with items := rest } (.notifying item)
  | block (hc : q.closed = false) (hi : q.items = []) :
      PopSection t q .silent { q with not_empty := q.not_empty.wait t } .waiting

theorem popSection_cases {q q' : BlockingQueue T θ} {ev : Event T} {p : PopPc T}
    (h : popSection t q = (ev, q', p)) : PopSection t q ev q' p := by
  obtain ⟨items, closed, ne, nf⟩ := q
  cases items with
  | nil =>
    cases closed <;> simp [popSection] at h <;> obtain ⟨rfl, rfl, rfl⟩ := h
    · exact .block rfl rfl
    · exact .exhaust rfl rfl
  | cons item rest =>
    cases closed <;> simp [popSection] at h <;> obtain ⟨rfl, rfl, rfl⟩ := h <;> exact .take rfl

/-- The two outcomes of `close` under the mutex. -/
inductive CloseSection (q : BlockingQueue T θ) : Event T → BlockingQueue T θ → ClosePc → Prop
  | again (hc : q.closed = true) : CloseSection q .silent q .done
  | close (hc : q.closed = false) : CloseSection q .close { q with closed := true } .notifyingEmpty

omit [DecidableEq θ] in
theorem closeSection_cases {q q' : BlockingQueue T θ} {ev : Event T} {p : ClosePc}
    (h : closeSection q = (ev, q', p)) : CloseSection q ev q' p := by
  unfold closeSection at h
  cases hc : q.closed with
  | true =>
    simp only [hc, if_true, Prod.mk.injEq] at h
    obtain ⟨rfl, rfl, rfl⟩ := h
    exact .again hc
  | false =>
    simp only [hc, Bool.false_eq_true, if_false, Prod.mk.injEq] at h
    obtain ⟨rfl, rfl, rfl⟩ := h
    exact .close hc

end Sections

/-! ## The steps of each operation -/

section Rules

variable [DecidableEq θ]

/-- A step of thread `t` inside `push`.  A waiting thread runs again once it is no longer blocked,
notified or not, and takes the mutex to test the predicate anew. -/
inductive PushRule (capacity : ℕ) (t : θ) :
    BlockingQueue T θ → PushPc T → Event T → BlockingQueue T θ → PushPc T → Prop
  | enter {q value ev q' p} (h : pushSection capacity t q value = (ev, q', p)) :
      PushRule capacity t q (.enter value) ev q' p
  | resume {q value ev q' p} (hw : t ∉ q.not_full.waiting)
      (h : pushSection capacity t { q with not_full := q.not_full.resume t } value = (ev, q', p)) :
      PushRule capacity t q (.waiting value) ev q' p
  | spurious {q value} (hw : t ∈ q.not_full.waiting) :
      PushRule capacity t q (.waiting value) .spurious { q with not_full := q.not_full.wake t }
        (.waiting value)
  | notify_one {q value cv} (h : CondVar.NotifyOne q.not_empty cv) :
      PushRule capacity t q (.notifying value) .silent { q with not_empty := cv } (.done value)

/-- A step of thread `t` inside `pop`. -/
inductive PopRule (t : θ) :
    BlockingQueue T θ → PopPc T → Event T → BlockingQueue T θ → PopPc T → Prop
  | enter {q ev q' p} (h : popSection t q = (ev, q', p)) : PopRule t q .enter ev q' p
  | resume {q ev q' p} (hw : t ∉ q.not_empty.waiting)
      (h : popSection t { q with not_empty := q.not_empty.resume t } = (ev, q', p)) :
      PopRule t q .waiting ev q' p
  | spurious {q} (hw : t ∈ q.not_empty.waiting) :
      PopRule t q .waiting .spurious { q with not_empty := q.not_empty.wake t } .waiting
  | notify_one {q item cv} (h : CondVar.NotifyOne q.not_full cv) :
      PopRule t q (.notifying item) .silent { q with not_full := cv } (.done (some item))

/-- A step inside `close`. -/
inductive CloseRule : BlockingQueue T θ → ClosePc → Event T → BlockingQueue T θ → ClosePc → Prop
  | enter {q ev q' p} (h : closeSection q = (ev, q', p)) : CloseRule q .enter ev q' p
  | notify_empty {q} :
      CloseRule q .notifyingEmpty .silent { q with not_empty := q.not_empty.notify_all } .notifyingFull
  | notify_full {q} :
      CloseRule q .notifyingFull .silent { q with not_full := q.not_full.notify_all } .done

/-- A step inside `close_and_drain`. -/
inductive DrainRule :
    BlockingQueue T θ → DrainPc T → Event T → BlockingQueue T θ → DrainPc T → Prop
  | enter {q ev q' p} (h : drainSection q = (ev, q', p)) : DrainRule q .enter ev q' p
  | notify_empty {q drained} :
      DrainRule q (.notifyingEmpty drained) .silent { q with not_empty := q.not_empty.notify_all }
        (.notifyingFull drained)
  | notify_full {q drained} :
      DrainRule q (.notifyingFull drained) .silent { q with not_full := q.not_full.notify_all }
        (.done drained)

/-! ## Threads that use the queue -/

/-- Where a thread stands with respect to the queue. -/
inductive Place (T : Type)
  | idle
  | push (p : PushPc T)
  | pop (p : PopPc T)
  | close (p : ClosePc)
  | drain (p : DrainPc T)
  deriving DecidableEq

/-- What a thread can call. -/
inductive Op (T : Type)
  | push (value : T)
  | pop
  | close
  | close_and_drain
  deriving DecidableEq

/-- The place at which a call starts. -/
def Op.start : Op T → Place T
  | .push value => .push (.enter value)
  | .pop => .pop .enter
  | .close => .close .enter
  | .close_and_drain => .drain .enter

/-- What a call returns. -/
inductive Result (T : Type)
  | push (accepted : Bool)
  | pop (item : Option T)
  | close
  | close_and_drain (drained : List T)
  deriving DecidableEq

/-- The place at which a call is about to return, with what it returns. -/
def Place.result : Place T → Option (Result T)
  | .push (.done _) => some (.push true)
  | .push (.refused _) => some (.push false)
  | .pop (.done item) => some (.pop item)
  | .close .done => some .close
  | .drain (.done drained) => some (.close_and_drain drained)
  | _ => none

/-- A call, a step inside it, or its return. -/
inductive Label (T : Type)
  | call (op : Op T)
  | act (ev : Event T)
  | ret (res : Result T)
  deriving DecidableEq

/-- A step of thread `t`. -/
inductive Rule (capacity : ℕ) (t : θ) :
    BlockingQueue T θ → Place T → Label T → BlockingQueue T θ → Place T → Prop
  | call {q} (op : Op T) : Rule capacity t q .idle (.call op) q op.start
  | push {q p ev q' p'} (h : PushRule capacity t q p ev q' p') :
      Rule capacity t q (.push p) (.act ev) q' (.push p')
  | pop {q p ev q' p'} (h : PopRule t q p ev q' p') : Rule capacity t q (.pop p) (.act ev) q' (.pop p')
  | close {q p ev q' p'} (h : CloseRule q p ev q' p') :
      Rule capacity t q (.close p) (.act ev) q' (.close p')
  | drain {q p ev q' p'} (h : DrainRule q p ev q' p') :
      Rule capacity t q (.drain p) (.act ev) q' (.drain p')
  | ret {q place res} (h : place.result = some res) : Rule capacity t q place (.ret res) q .idle

/-- The queue as an interleaving of any threads. -/
def rules (capacity : ℕ) : Rules (BlockingQueue T θ) (Label T) (fun _ : θ => Place T) :=
  fun t => Rule capacity t

/-- A configuration of the queue: its members and where the threads that use it are. -/
abbrev System (T θ : Type) := Config (BlockingQueue T θ) (fun _ : θ => Place T)

/-- A new queue that no thread uses yet. -/
def init : System T θ := ⟨empty, fun _ => .idle⟩

end Rules

/-! ## Computing the steps -/

section Act

variable [DecidableEq θ]

/-- The choice of a thread inside the queue: to take the mutex, to wake up for no reason, or to
notify, with the thread that `notify_one` picks. -/
inductive Act (θ : Type)
  | lock
  | wake
  | notify (u : Option θ)

def PushPc.act (capacity : ℕ) (t : θ) (q : BlockingQueue T θ) :
    PushPc T → Act θ → Option (Event T × BlockingQueue T θ × PushPc T)
  | .enter value, .lock => some (pushSection capacity t q value)
  | .waiting value, .lock =>
    if t ∈ q.not_full.waiting then none
    else some (pushSection capacity t { q with not_full := q.not_full.resume t } value)
  | .waiting value, .wake =>
    if t ∈ q.not_full.waiting then
      some (.spurious, { q with not_full := q.not_full.wake t }, .waiting value)
    else none
  | .notifying value, .notify u =>
    (q.not_empty.notify_one u).map fun cv => (.silent, { q with not_empty := cv }, .done value)
  | _, _ => none

def PopPc.act (t : θ) (q : BlockingQueue T θ) :
    PopPc T → Act θ → Option (Event T × BlockingQueue T θ × PopPc T)
  | .enter, .lock => some (popSection t q)
  | .waiting, .lock =>
    if t ∈ q.not_empty.waiting then none
    else some (popSection t { q with not_empty := q.not_empty.resume t })
  | .waiting, .wake =>
    if t ∈ q.not_empty.waiting then
      some (.spurious, { q with not_empty := q.not_empty.wake t }, .waiting)
    else none
  | .notifying item, .notify u =>
    (q.not_full.notify_one u).map fun cv => (.silent, { q with not_full := cv }, .done (some item))
  | _, _ => none

def ClosePc.act (q : BlockingQueue T θ) : ClosePc → Option (Event T × BlockingQueue T θ × ClosePc)
  | .enter => some (closeSection q)
  | .notifyingEmpty =>
    some (.silent, { q with not_empty := q.not_empty.notify_all }, .notifyingFull)
  | .notifyingFull => some (.silent, { q with not_full := q.not_full.notify_all }, .done)
  | .done => none

def DrainPc.act (q : BlockingQueue T θ) :
    DrainPc T → Option (Event T × BlockingQueue T θ × DrainPc T)
  | .enter => some (drainSection q)
  | .notifyingEmpty drained =>
    some (.silent, { q with not_empty := q.not_empty.notify_all }, .notifyingFull drained)
  | .notifyingFull drained =>
    some (.silent, { q with not_full := q.not_full.notify_all }, .done drained)
  | .done _ => none

variable {capacity : ℕ} {t : θ} {q q' : BlockingQueue T θ} {ev : Event T}

theorem PushPc.act_sound {p p' : PushPc T} {a : Act θ}
    (h : p.act capacity t q a = some (ev, q', p')) : PushRule capacity t q p ev q' p' := by
  cases p <;> cases a <;> simp only [PushPc.act, reduceCtorEq] at h
  case enter.lock value => exact .enter (Option.some.inj h)
  case waiting.lock value =>
    split_ifs at h with hw
    exact .resume hw (Option.some.inj h)
  case waiting.wake value =>
    split_ifs at h with hw
    cases h
    exact .spurious hw
  case notifying.notify value u =>
    obtain ⟨cv, hcv, h⟩ := Option.map_eq_some_iff.mp h
    cases h
    exact .notify_one (CondVar.notify_one_sound hcv)

theorem PopPc.act_sound {p p' : PopPc T} {a : Act θ}
    (h : p.act t q a = some (ev, q', p')) : PopRule t q p ev q' p' := by
  cases p <;> cases a <;> simp only [PopPc.act, reduceCtorEq] at h
  case enter.lock => exact .enter (Option.some.inj h)
  case waiting.lock =>
    split_ifs at h with hw
    exact .resume hw (Option.some.inj h)
  case waiting.wake =>
    split_ifs at h with hw
    cases h
    exact .spurious hw
  case notifying.notify item u =>
    obtain ⟨cv, hcv, h⟩ := Option.map_eq_some_iff.mp h
    cases h
    exact .notify_one (CondVar.notify_one_sound hcv)

theorem ClosePc.act_sound {p p' : ClosePc} (h : p.act q = some (ev, q', p')) :
    CloseRule q p ev q' p' := by
  cases p <;> simp only [ClosePc.act, reduceCtorEq] at h
  case enter => exact .enter (Option.some.inj h)
  case notifyingEmpty => cases h; exact .notify_empty
  case notifyingFull => cases h; exact .notify_full

theorem DrainPc.act_sound {p p' : DrainPc T} (h : p.act q = some (ev, q', p')) :
    DrainRule q p ev q' p' := by
  cases p <;> simp only [DrainPc.act, reduceCtorEq] at h
  case enter => exact .enter (Option.some.inj h)
  case notifyingEmpty => cases h; exact .notify_empty
  case notifyingFull => cases h; exact .notify_full

/-- A thread calls, acts inside its call, or returns. -/
inductive Move (T θ : Type)
  | call (op : Op T)
  | act (a : Act θ)
  | ret

/-- The step that a thread's choice leads to. -/
def move (capacity : ℕ) (t : θ) (q : BlockingQueue T θ) :
    Place T → Move T θ → Option (Label T × BlockingQueue T θ × Place T)
  | .idle, .call op => some (.call op, q, op.start)
  | .push p, .act a => (p.act capacity t q a).map fun r => (.act r.1, r.2.1, .push r.2.2)
  | .pop p, .act a => (p.act t q a).map fun r => (.act r.1, r.2.1, .pop r.2.2)
  | .close p, .act _ => (p.act q).map fun r => (.act r.1, r.2.1, .close r.2.2)
  | .drain p, .act _ => (p.act q).map fun r => (.act r.1, r.2.1, .drain r.2.2)
  | place, .ret => place.result.map fun res => (.ret res, q, .idle)
  | _, _ => none

theorem move_sound {place place' : Place T} {mv : Move T θ} {l : Label T}
    (h : move capacity t q place mv = some (l, q', place')) :
    Rule capacity t q place l q' place' := by
  cases place <;> cases mv <;> simp only [move, reduceCtorEq, Option.map_eq_some_iff] at h
  case idle.call op => cases h; exact .call op
  case push.act p a =>
    obtain ⟨⟨ev, r, p'⟩, h, he⟩ := h
    cases he
    exact .push (PushPc.act_sound h)
  case pop.act p a =>
    obtain ⟨⟨ev, r, p'⟩, h, he⟩ := h
    cases he
    exact .pop (PopPc.act_sound h)
  case close.act p a =>
    obtain ⟨⟨ev, r, p'⟩, h, he⟩ := h
    cases he
    exact .close (ClosePc.act_sound h)
  case drain.act p a =>
    obtain ⟨⟨ev, r, p'⟩, h, he⟩ := h
    cases he
    exact .drain (DrainPc.act_sound h)
  all_goals
    obtain ⟨res, hres, he⟩ := h
    cases he
    exact .ret hres

end Act

end BlockingQueue

end TaskEngine
