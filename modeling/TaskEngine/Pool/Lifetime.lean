import TaskEngine.Interleaving.Extension
import TaskEngine.Pool.Progress

/-!
# TaskEngine.Pool.Lifetime — who still uses the queue when it is destroyed

The destructor closes the queue and joins the workers; the clients that are already inside a call it
does not wait for.  As no call starts once it is entered, the users of `queue_` and `rejected_` that
are left when the members go were users then.  Entered with no client left in the queue or before its
count, the destructor outlives every user (`Alone.abandoned`); entered with one left, it may get to
its end before that one (`overtaken`).  `queue_outlives_users` puts the two together.
-/

namespace TaskEngine

open Interleaving

namespace ThreadPool

variable {W : ℕ} {ι : Type}

/-! ## Users -/

section Users

/-- A step that accesses `queue_` or `rejected_`. -/
def Event.touches : Event W → Bool
  | .queue _ | .refuse _ | .count _ => true
  | _ => false

/-- A worker goes back to the queue until it exits. -/
def WorkerPc.uses : WorkerPc → Bool
  | .exited => false
  | _ => true

/-- A client inside the queue, or before its `rejected_.fetch_add`. -/
def ClientPc.uses : ClientPc → Bool
  | .idle | .joining _ _ => false
  | _ => true

/-- The same of any thread. -/
def uses : (t : Thread W ι) → Pc t → Bool
  | .inl _, p => WorkerPc.uses p
  | .inr _, p => ClientPc.uses p

/-- The destructor has joined: the members are being destroyed, or they have been. -/
def Destroying (c : System W ι) : Prop :=
  (∃ i, c.pc (.inr i) = .joining (.close .destructor) .done) ∨ c.shared.lifetime = .destroyed

variable [DecidableEq ι]

/-- No thread is inside the queue, and none will touch `queue_` or `rejected_` any more. -/
structure Abandoned (capacity : ℕ) (c : System W ι) : Prop where
  outside : ∀ t, place t (c.pc t) = .idle
  untouched : ∀ log c', Run (rules capacity) c log c' → ∀ l ∈ log, l.2.touches = false

/-- When the destructor is entered, no client is a user. -/
def EntersAlone (c : System W ι) (l : Thread W ι × Event W) : Prop :=
  l.2 = .shutdown .destructor → ∀ i, (c.pc (.inr i)).uses = false

end Users

/-! ## The steps -/

section Steps

variable [DecidableEq ι] {capacity : ℕ} {i : ι} {m m' : ThreadPool W ι} {ev : Event W}

/-- Once the destructor has been entered, the pool does not come back to life. -/
theorem rule_lifetime {t : Thread W ι} {p p' : Pc t} (h : rules capacity t m p ev m' p')
    (hl : m.lifetime ≠ .alive) : m'.lifetime ≠ .alive := by
  rcases t with w | i
  · rw [WorkerRule.lifetime (w := w) h]
    exact hl
  · cases ClientRule.lifetime (i := i) h with
    | keep hl' _ => rwa [hl']
    | enter _ ha _ _ _ => exact absurd ha hl
    | leave hl' _ _ => simp [hl']

theorem rule_destructor {t : Thread W ι} {p p' : Pc t} (h : rules capacity t m p ev m' p')
    (hev : ev = .shutdown .destructor) : m.lifetime = .alive ∧ m'.lifetime = .dying := by
  rcases t with w | i
  · cases (h : WorkerRule w _ _ _ _ _) <;> cases hev
  · cases (h : ClientRule capacity i _ _ _ _ _) with
    | destructor hl => exact ⟨hl, rfl⟩
    | join h => cases h <;> cases hev
    | _ => cases hev

/-- Once it has been entered, who is no user touches nothing and does not become one. -/
theorem rule_unused {t : Thread W ι} {p p' : Pc t} (h : rules capacity t m p ev m' p')
    (hl : m.lifetime ≠ .alive) (hp : uses t p = false) : ev.touches = false ∧ uses t p' = false := by
  rcases t with w | i
  · cases (h : WorkerRule w _ _ _ _ _) <;> simp [uses, WorkerPc.uses] at hp
  · cases (h : ClientRule capacity i _ _ _ _ _) with
    | submit _ ha _ => exact absurd ha hl
    | shutdown ha => exact absurd ha hl
    | destructor ha => exact absurd ha hl
    | shutdown_now ha => exact absurd ha hl
    | join h => cases h <;> exact ⟨rfl, rfl⟩
    | leave => exact ⟨rfl, rfl⟩
    | _ => simp [uses, ClientPc.uses] at hp

omit [DecidableEq ι] in
theorem place_of_unused {t : Thread W ι} {p : Pc t} (hp : uses t p = false) : place t p = .idle := by
  rcases t with w | i
  · cases (p : WorkerPc) <;> simp_all [uses, WorkerPc.uses, place, WorkerPc.place]
  · cases (p : ClientPc) <;> simp_all [uses, ClientPc.uses, place, ClientPc.place]

end Steps

/-! ## Abandoned members -/

section Abandoned

variable [DecidableEq ι] {capacity : ℕ} {c c' : System W ι} {log : List (Thread W ι × Event W)}

/-- Without a user the members are abandoned, as no call starts any more. -/
theorem abandoned_of_unused (hl : c.shared.lifetime ≠ .alive) (hu : ∀ t, uses t (c.pc t) = false) :
    Abandoned capacity c := by
  refine ⟨fun t => place_of_unused (hu t), ?_⟩
  intro log c' h
  suffices hinv : (c'.shared.lifetime ≠ .alive ∧ ∀ t, uses t (c'.pc t) = false) ∧
      ∀ l ∈ log, l.2.touches = false from hinv.2
  refine h.induct (I := fun log d => (d.shared.lifetime ≠ .alive ∧ ∀ t, uses t (d.pc t) = false) ∧
    ∀ l ∈ log, l.2.touches = false) ⟨⟨hl, hu⟩, by simp⟩ ?_
  rintro log d t ev m p - ⟨⟨hl, hu⟩, hlog⟩ hr
  obtain ⟨hev, hp⟩ := rule_unused hr hl (hu t)
  refine ⟨⟨rule_lifetime hr hl, ?_⟩, ?_⟩
  · exact (Function.forall_update_iff d.pc fun u q => uses u q = false).mpr ⟨hp, fun u _ => hu u⟩
  · intro l hl
    rcases List.mem_append.mp hl with hl | hl
    · exact hlog l hl
    · rw [List.mem_singleton.mp hl]
      exact hev

theorem client_step {i : ι} {ev : Event W} {m : ThreadPool W ι} {p p' : ClientPc}
    (hp : c.pc (.inr i) = p) (h : ClientRule capacity i c.shared p ev m p') :
    Step (rules capacity) c (.inr i, ev) ⟨m, Function.update c.pc (.inr i) p'⟩ := by
  subst hp
  exact .mk (R := rules capacity) (t := .inr i) h

theorem discarding_counts {i : ι} {finished : TimePoint} {rejected rest : List TaskEnvelope}
    (hp : c.pc (.inr i) = .discarding finished rejected rest) :
    ∃ log c' discarded, Run (rules capacity) c log c' ∧ (.inr i, .count discarded) ∈ log := by
  -- on what is left in the loop
  induction rest generalizing c rejected with
  | nil =>
    exact ⟨_, _, rejected, Run.single (client_step hp .count), List.mem_singleton.mpr rfl⟩
  | cons e rest ih =>
    obtain ⟨d, hs, hd⟩ : ∃ d, Step (rules capacity) c (.inr i, .discard e (e.rejection finished)) d ∧
        d.pc (.inr i) = .discarding finished (rejected ++ [e]) rest :=
      ⟨_, client_step hp .discard, Function.update_self _ _ _⟩
    obtain ⟨log, c', discarded, hrun, hlog⟩ := ih hd
    exact ⟨_, c', discarded, (Run.single hs).trans hrun, List.mem_append_right _ hlog⟩

/-- No client is a user of abandoned members. -/
theorem Abandoned.unused (ha : Abandoned capacity c) (i : ι) : (c.pc (.inr i)).uses = false := by
  have hplace : ClientPc.place (c.pc (.inr i)) = .idle := ha.outside (.inr i)
  generalize hp : c.pc (.inr i) = p at hplace
  cases p with
  | idle => rfl
  | joining k p => rfl
  | pushing p => cases hplace
  | closing k p => cases hplace
  | draining p => cases hplace
  | counting e =>
    have := ha.untouched _ _ (Run.single (client_step hp .refuse)) _ (List.mem_singleton.mpr rfl)
    simp [Event.touches] at this
  | discarding finished rejected rest =>
    obtain ⟨log, c', discarded, hrun, hlog⟩ := discarding_counts hp
    have := ha.untouched _ _ hrun _ hlog
    simp [Event.touches] at this

end Abandoned

/-! ## A destructor that was entered alone -/

section Alone

/-- One client at most is in the destructor, between its call and the end of the members; and once it
has been called, no other is a user. -/
structure Alone (c : System W ι) : Prop where
  one : ∀ i j, (c.pc (.inr i)).destroys = true → (c.pc (.inr j)).destroys = true → i = j
  called : ∀ i, (c.pc (.inr i)).destroys = true → c.shared.lifetime = .dying
  users : c.shared.lifetime ≠ .alive → ∀ i, (c.pc (.inr i)).uses = true →
    (c.pc (.inr i)).destroys = true

variable [DecidableEq ι] {capacity : ℕ} {c c' : System W ι} {log : List (Thread W ι × Event W)}

omit [DecidableEq ι] in
theorem Alone.keep (ha : Alone c) (hl : c'.shared.lifetime = c.shared.lifetime)
    (hd : ∀ i, (c'.pc (.inr i)).destroys = (c.pc (.inr i)).destroys)
    (hu : c.shared.lifetime ≠ .alive → ∀ i, (c'.pc (.inr i)).uses = true →
      (c.pc (.inr i)).uses = true) : Alone c' where
  one i j hi hj := ha.one i j (hd i ▸ hi) (hd j ▸ hj)
  called i hi := hl.trans (ha.called i (hd i ▸ hi))
  users hne i hi := by
    rw [hl] at hne
    rw [hd]
    exact ha.users hne i (hu hne i hi)

omit [DecidableEq ι] in
theorem Alone.enter (ha : Alone c) {i : ι} (hother : ∀ j ≠ i, c'.pc (.inr j) = c.pc (.inr j))
    (hl : c.shared.lifetime = .alive) (hl' : c'.shared.lifetime = .dying)
    (hp' : c'.pc (.inr i) = .closing .destructor .enter) (hok : ∀ j, (c.pc (.inr j)).uses = false) :
    Alone c' := by
  have hthis : ∀ j, (c'.pc (.inr j)).destroys = true → j = i := by
    intro j hj
    by_contra hne
    rw [hother j hne] at hj
    have hdying := ha.called j hj
    rw [hl] at hdying
    cases hdying
  refine ⟨fun j k hj hk => (hthis j hj).trans (hthis k hk).symm, fun _ _ => hl', ?_⟩
  intro _ j hj
  by_cases hne : j = i
  · rw [hne, hp']
    rfl
  · rw [hother j hne, hok j] at hj
    cases hj

omit [DecidableEq ι] in
theorem Alone.leave (ha : Alone c) {i : ι} (hother : ∀ j ≠ i, c'.pc (.inr j) = c.pc (.inr j))
    (hp : c.pc (.inr i) = .joining (.close .destructor) .done) (hp' : c'.pc (.inr i) = .idle) :
    Alone c' := by
  have hin : (c.pc (.inr i)).destroys = true := by rw [hp]; rfl
  have hnone : ∀ j, (c'.pc (.inr j)).destroys ≠ true := by
    intro j hj
    by_cases hne : j = i
    · rw [hne, hp'] at hj
      cases hj
    · rw [hother j hne] at hj
      exact hne (ha.one j i hj hin)
  refine ⟨fun j _ hj => absurd hj (hnone j), fun j hj => absurd hj (hnone j), ?_⟩
  intro _ j hj
  by_cases hne : j = i
  · rw [hne, hp'] at hj
    cases hj
  · rw [hother j hne] at hj ⊢
    have hdying := ha.called i hin
    exact ha.users (by rw [hdying]; simp) j hj

theorem Alone.step (ha : Alone c) {l : Thread W ι × Event W} (hs : Step (rules capacity) c l c')
    (hok : EntersAlone c l) : Alone c' := by
  cases hs with
  | @mk t ev m p hr =>
  rcases t with w | i
  · exact ha.keep (WorkerRule.lifetime hr) (fun j => by simp) fun _ j hj => by simpa using hj
  · have hother : ∀ j ≠ i, Function.update c.pc (.inr i) p (.inr j) = c.pc (.inr j) := fun j hj =>
      update_client_of_ne c hj p
    have hown : Function.update c.pc (.inr i) p (.inr i) = p := Function.update_self _ _ _
    cases ClientRule.lifetime (i := i) hr with
    | keep hl hd =>
      refine ha.keep hl ?_ ?_
      · intro j
        by_cases hj : j = i
        · subst hj
          simpa only [hown] using hd
        · simp only [hother j hj]
      · intro hne j hu
        by_cases hj : j = i
        · subst hj
          by_contra hp
          have hp' : p.uses = false := (rule_unused hr hne (Bool.not_eq_true _ ▸ hp)).2
          simp only [hown, hp', Bool.false_eq_true] at hu
        · simpa only [hother j hj] using hu
    | enter hev hl hl' _ hp' => exact ha.enter hother hl hl' (hown.trans hp') (hok hev)
    | leave _ hp hp' => exact ha.leave hother hp (hown.trans hp')

/-- A pool is alone with its destructor when that is always entered so. -/
theorem alone (h : RunWith (rules capacity) EntersAlone init log c) : Alone c := by
  induction h with
  | refl => exact ⟨by simp [init, ClientPc.destroys], by simp [init, ClientPc.destroys], by simp [init, fresh]⟩
  | tail _ hp hs ih => exact ih.step hs hp

theorem Alone.run (ha : Alone c) (hl : c.shared.lifetime ≠ .alive) (h : Run (rules capacity) c log c') :
    Alone c' ∧ c'.shared.lifetime ≠ .alive := by
  induction h with
  | refl => exact ⟨ha, hl⟩
  | tail _ hs ih =>
    obtain ⟨hd, hne⟩ := ih
    cases hs with
    | mk hr =>
      refine ⟨hd.step (.mk hr) fun hev => ?_, rule_lifetime hr hne⟩
      exact absurd (rule_destructor hr hev).1 hne

/-- The members are destroyed only after the join. -/
theorem joined_of_destroying (h : Run (rules capacity) init log c) (hd : Destroying c) :
    c.shared.joined = true := by
  rcases hd with ⟨i, hp⟩ | hd
  · exact joined_of_done h hp
  · revert hd
    refine h.induct (I := fun _ d => d.shared.lifetime = .destroyed → d.shared.joined = true)
      (by simp [init, fresh]) ?_
    intro log d t ev m p hrun ih hr hd
    have hjoined := (rule_guarantee ((joins hrun).2 t) hr).joined
    rcases t with w | i
    · rw [WorkerRule.lifetime (w := w) hr] at hd
      exact hjoined (ih hd)
    · cases ClientRule.lifetime (i := i) hr with
      | keep hl _ => exact hjoined (ih (hl ▸ hd))
      | enter _ _ hl' _ _ =>
        rw [hl'] at hd
        cases hd
      | leave _ hp _ => exact hjoined (joined_of_done hrun hp)

/-- **Alone, the destructor outlives every user.** -/
theorem Alone.abandoned (ha : Alone c) (h : Run (rules capacity) init log c) (hd : Destroying c) :
    Abandoned capacity c := by
  have hne : c.shared.lifetime ≠ .alive := by
    rcases hd with ⟨i, hp⟩ | hd
    · rw [ha.called i (by rw [hp]; rfl)]
      simp
    · rw [hd]
      simp
  refine abandoned_of_unused hne ?_
  rintro (w | i)
  · have hw := (finished_of_joined h (joined_of_destroying h hd) w).2
    simp only [uses, hw]
    rfl
  · show (c.pc (.inr i)).uses = false
    by_contra hu
    have hin := ha.users hne i (by simpa using hu)
    rcases hd with ⟨j, hp⟩ | hd
    · obtain rfl : i = j := ha.one i j hin (by rw [hp]; rfl)
      rw [hp] at hu
      exact hu rfl
    · rw [ha.called i hin] at hd
      cases hd

end Alone

/-! ## A destructor that overtakes a user -/

section Overtaken

variable [DecidableEq ι] {capacity : ℕ} {i j : ι} {c d : System W ι}
  {log : List (Thread W ι × Event W)}

/-- On a closed queue client `i` is in the destructor, and client `j` is a user that nobody waits for:
it owes the workers no notification. -/
structure Overtaking (capacity : ℕ) (i j : ι) (c : System W ι) : Prop where
  reachable : ∃ log, Run (rules capacity) init log c
  closed : c.shared.queue.closed = true
  ne : i ≠ j
  destroys : (c.pc (.inr i)).destroys = true
  user : (c.pc (.inr j)).uses = true
  owes : (c.pc (.inr j)).place.owesAllEmpty = false

/-- Until the destructor has joined, a thread other than the user can go on. -/
theorem Overtaking.canMove [Fintype ι] (ho : Overtaking capacity i j c) :
    ∃ t, t ≠ .inr j ∧ CanMove capacity c t := by
  obtain ⟨log, hrun⟩ := ho.reachable
  obtain ⟨-, hj⟩ := joins hrun
  have hawake := queue_awake hrun
  by_cases hw : ∀ w, c.pc (.inl w) = .exited
  -- no worker is left: the holder of the mutex goes on, or the destructor itself
  · cases hm : c.shared.shutdown_mutex with
    | some k =>
      obtain ⟨l, n, hloop⟩ := (ClientPc.Joins.mutex (hj (.inr k))).mp hm
      refine ⟨.inr k, ?_, loop_canMove hj hw hloop⟩
      rintro hk
      obtain rfl : k = j := by simpa using hk
      have hu := ho.user
      rw [hloop] at hu
      cases hu
    | none =>
      have hin := ho.destroys
      refine ⟨.inr i, by simpa using ho.ne, client_canMove hj ?_ hm ?_⟩
      · intro hwait
        have hplace : (c.pc (.inr i)).place.producing = true := hawake.producers.waiting _ hwait
        generalize c.pc (.inr i) = p at hin hplace
        cases p <;> simp [ClientPc.destroys] at hin <;> simp [ClientPc.place] at hplace
      · intro hidle
        rw [hidle] at hin
        cases hin
  -- a worker goes on, or it is blocked and somebody other than the user owes the `notify_all`
  · obtain ⟨w, hw⟩ := not_forall.mp hw
    by_cases hwait : .inl w ∈ c.shared.queue.not_empty.waiting
    · obtain ⟨t, ht⟩ := hawake.closed_empty ho.closed ⟨_, hwait⟩
      refine ⟨t, ?_, owes_canMove (.inl ht)⟩
      rintro rfl
      have howes : (c.pc (.inr j)).place.owesAllEmpty = true := ht
      rw [ho.owes] at howes
      cases howes
    · exact ⟨.inl w, by simp, worker_canMove hwait hw⟩

theorem Overtaking.step (ho : Overtaking capacity i j c)
    (hp : c.pc (.inr i) ≠ .joining (.close .destructor) .done) {t : Thread W ι} (ht : t ≠ .inr j)
    {ev : Event W} {m : ThreadPool W ι} {p : Pc t} (hr : rules capacity t c.shared (c.pc t) ev m p)
    (hn : ev.starts = false) : Overtaking capacity i j ⟨m, Function.update c.pc t p⟩ := by
  obtain ⟨log, hrun⟩ := ho.reachable
  have hsame : Function.update c.pc t p (.inr j) = c.pc (.inr j) := Function.update_of_ne (Ne.symm ht) _ _
  refine ⟨⟨_, hrun.tail (.mk hr)⟩, (rule_queue hr).1 ho.closed, ho.ne, ?_, ?_, ?_⟩
  · by_cases hti : .inr i = t
    · subst hti
      have hown : Function.update c.pc (.inr i) p (.inr i) = p := Function.update_self _ _ _
      simp only [hown]
      cases ClientRule.lifetime (i := i) hr with
      | keep _ hd => exact hd.trans ho.destroys
      | enter hev _ _ _ _ =>
        rw [hev] at hn
        cases hn
      | leave _ hp' _ => exact absurd hp' hp
    · simp only [Function.update_of_ne hti]
      exact ho.destroys
  · simp only [hsame]
    exact ho.user
  · simp only [hsame]
    exact ho.owes

/-- **The user is overtaken**: the destructor can get to the end of its join first. -/
theorem Overtaking.reaches [Fintype ι] (ho : Overtaking capacity i j c) :
    ∃ log c', Run (rules capacity) c log c' ∧ (c'.pc (.inr j)).uses = true ∧
      c'.pc (.inr i) = .joining (.close .destructor) .done := by
  have hlower : ∀ d : System W ι, Overtaking capacity i j d → d.pc (.inr i) ≠ .joining (.close .destructor) .done →
      ∃ l d', Step (rules capacity) d l d' ∧ True ∧ Overtaking capacity i j d' ∧
        (winding_down capacity).total d' < (winding_down capacity).total d := by
    intro d hd hp
    obtain ⟨t, ht, ev, m, p, hr, -, hn⟩ := hd.canMove
    have hs : Step (rules capacity) d (t, ev) ⟨m, Function.update d.pc t p⟩ := .mk hr
    exact ⟨_, _, hs, trivial, hd.step hp ht hr hn, Measure.step _ hd.closed (l := (t, ev)) hn hs⟩
  obtain ⟨log, c', hrun, -, hd, hp⟩ := Run.reaches _ hlower ho
  exact ⟨log, c', hrun, hd.user, hp⟩

/-- A user that owes the workers a notification can send it, and is a user still. -/
theorem notifies (capacity : ℕ) (hu : (c.pc (.inr j)).uses = true) :
    ∃ log d, Run (rules capacity) c log d ∧ (d.pc (.inr j)).uses = true ∧
      (d.pc (.inr j)).place.owesAllEmpty = false ∧ ∀ k ≠ j, d.pc (.inr k) = c.pc (.inr k) := by
  by_cases ho : (c.pc (.inr j)).place.owesAllEmpty = true
  · obtain ⟨ev, m, p, hr, hp, hp'⟩ : ∃ ev m p, ClientRule capacity j c.shared (c.pc (.inr j)) ev m p ∧
        p.uses = true ∧ p.place.owesAllEmpty = false := by
      generalize c.pc (.inr j) = p at ho
      rcases p with _ | _ | _ | ⟨k, _ | _ | _ | _⟩ | (_ | _ | _ | _) | _ | _ <;>
        simp [ClientPc.place] at ho
      · exact ⟨_, _, _, .close .notify_empty, rfl, rfl⟩
      · exact ⟨_, _, _, .drain .notify_empty, rfl, rfl⟩
    have hown : Function.update c.pc (.inr j) p (.inr j) = p := Function.update_self _ _ _
    refine ⟨_, _, Run.single (client_step rfl hr), by simpa only [hown] using hp,
      by simpa only [hown] using hp', ?_⟩
    intro k hk
    exact update_client_of_ne c hk _
  · exact ⟨[], c, .refl, hu, by simpa using ho, fun _ _ => rfl⟩

theorem closes_first (capacity : ℕ) (hp : c.pc (.inr i) = .closing .destructor .enter) :
    ∃ log d, Run (rules capacity) c log d ∧ d.shared.queue.closed = true ∧
      (d.pc (.inr i)).destroys = true ∧ ∀ k ≠ i, d.pc (.inr k) = c.pc (.inr k) := by
  rcases hs : BlockingQueue.closeSection c.shared.queue with ⟨ev, q, p⟩
  have hclosed : q.closed = true := by
    cases BlockingQueue.closeSection_cases hs with
    | again hc => exact hc
    | close _ => rfl
  refine ⟨_, _, Run.single (client_step hp (.close (.enter hs))), hclosed, ?_, ?_⟩
  · simp [ClientPc.destroys]
  · intro k hk
    exact update_client_of_ne c hk _

/-- Once entered, the destructor can overtake a client that is a user. -/
theorem overtaken [Fintype ι] (h : Run (rules capacity) init log c)
    (hp : c.pc (.inr i) = .closing .destructor .enter) (hne : i ≠ j)
    (hu : (c.pc (.inr j)).uses = true) :
    ∃ log' c', Run (rules capacity) c log' c' ∧ Destroying c' ∧ (c'.pc (.inr j)).uses = true := by
  obtain ⟨l₁, d, h₁, hud, ho, hkeep⟩ := notifies capacity hu
  obtain ⟨l₂, e, h₂, hclosed, hin, hsame⟩ := closes_first capacity ((hkeep i hne).trans hp)
  have hj : e.pc (.inr j) = d.pc (.inr j) := hsame j (Ne.symm hne)
  have hover : Overtaking capacity i j e :=
    ⟨⟨_, (h.trans h₁).trans h₂⟩, hclosed, hne, hin, by rwa [hj], by rwa [hj]⟩
  obtain ⟨l₃, c', h₃, hu', hp'⟩ := hover.reaches
  exact ⟨_, c', (h₁.trans h₂).trans h₃, .inl ⟨i, hp'⟩, hu'⟩

end Overtaken

/-! ## The lifetime of the queue -/

section Lifetime

variable [DecidableEq ι] {capacity : ℕ} {i : ι} {c d : System W ι} {log : List (Thread W ι × Event W)}

/-- Whenever the destructor has joined, the members are abandoned. -/
def OutlivesUsers (capacity : ℕ) (c : System W ι) : Prop :=
  ∀ log c', Run (rules capacity) c log c' → Destroying c' → Abandoned capacity c'

theorem not_called (h : Run (rules capacity) init log c) (hl : c.shared.lifetime = .alive) :
    ∀ l ∈ log, l.2 ≠ .shutdown .destructor := by
  revert hl
  refine h.induct (I := fun log d => d.shared.lifetime = .alive →
    ∀ l ∈ log, l.2 ≠ .shutdown .destructor) (by simp) ?_
  intro log d t ev m p _ ih hr hl l hmem
  rcases List.mem_append.mp hmem with hmem | hmem
  · refine ih ?_ l hmem
    by_contra hne
    exact rule_lifetime hr hne hl
  · rw [List.mem_singleton.mp hmem]
    intro hev
    have hdying : m.lifetime = .dying := (rule_destructor hr hev).2
    simp only [hdying] at hl
    cases hl

theorem destructor_step (hs : Step (rules capacity) c (.inr i, .shutdown .destructor) d) :
    c.pc (.inr i) = .idle ∧ d.pc (.inr i) = .closing .destructor .enter ∧
      ∀ j ≠ i, d.pc (.inr j) = c.pc (.inr j) := by
  cases hs with
  | @mk _ _ m p hr =>
    have hother : ∀ j ≠ i, Function.update c.pc (.inr i) p (.inr j) = c.pc (.inr j) := fun j hj =>
      update_client_of_ne c hj p
    have hown : Function.update c.pc (.inr i) p (.inr i) = p := Function.update_self _ _ _
    simp only [hown]
    generalize c.pc (.inr i) = p₀ at hr
    cases (hr : ClientRule capacity i _ _ _ _ _) with
    | destructor _ => exact ⟨rfl, rfl, hother⟩
    | join h => cases h

/-- **The queue outlives its users** in every run in which the destructor is entered only when no
client is a user.  And that condition is exact: after a call of the destructor the members are always
abandoned when they go, if and only if no client was a user. -/
theorem queue_outlives_users [Fintype ι] (capacity : ℕ) :
    (∀ log (c : System W ι), RunWith (rules capacity) EntersAlone init log c → Destroying c →
      Abandoned capacity c) ∧
    ∀ log (c d : System W ι) i, Run (rules capacity) init log c →
      Step (rules capacity) c (.inr i, .shutdown .destructor) d →
      (OutlivesUsers capacity d ↔ ∀ j, (c.pc (.inr j)).uses = false) := by
  refine ⟨fun log c h hd => (alone h).abandoned h.run hd, ?_⟩
  intro log c d i h hs
  obtain ⟨hidle, hp, hother⟩ := destructor_step hs
  constructor
  · intro hall j
    by_contra hj
    have hu : (c.pc (.inr j)).uses = true := by simpa using hj
    have hne : i ≠ j := by
      rintro rfl
      rw [hidle] at hu
      cases hu
    rw [← hother j (Ne.symm hne)] at hu
    obtain ⟨log', c', h', hd, hu'⟩ := overtaken (h.tail hs) hp hne hu
    rw [(hall log' c' h' hd).unused j] at hu'
    cases hu'
  · intro hnone log' c' h' hd
    cases hs with
    | mk hr =>
      obtain ⟨hl, hl'⟩ := rule_destructor hr rfl
      have hc : Alone c := alone (h.runWith fun l hmem _ hev => absurd hev (not_called h hl l hmem))
      have hd' := (hc.step (.mk hr) fun _ => hnone).run (by simp [hl']) h'
      exact hd'.1.abandoned ((h.tail (.mk hr)).trans h') hd

/-- Client 0 submits a task, and `submit` returns. -/
def submittedRun : List (Thread 1 (Fin 2) × Event 1) × System 1 (Fin 2) :=
  (play (act 1) [(.inr 0, .submit 1 ⟨.returns⟩ 0), (.inr 0, .queue .lock),
    (.inr 0, .queue (.notify none)), (.inr 0, .go)] init).get rfl

/-- Then client 1 enters the destructor. -/
def enteredSystem : System 1 (Fin 2) :=
  ⟨{ submittedRun.2.shared with lifetime := .dying },
    Function.update submittedRun.2.pc (.inr 1) (.closing .destructor .enter)⟩

/-- It closes the queue, the worker runs the task and exits, and the destructor joins it. -/
def destroyedRun : List (Thread 1 (Fin 2) × Event 1) × System 1 (Fin 2) :=
  (play (act 1) [(.inr 1, .queue .lock), (.inr 1, .queue .lock), (.inr 1, .queue .lock), (.inr 1, .go),
    (.inl 0, .go), (.inl 0, .queue .lock), (.inl 0, .queue (.notify none)), (.inl 0, .clock 1),
    (.inl 0, .clock 2), (.inl 0, .go), (.inl 0, .go), (.inl 0, .queue .lock), (.inl 0, .go),
    (.inr 1, .go), (.inr 1, .go), (.inr 1, .go)] enteredSystem).get rfl

/-- The queue outlives client 0, whose `submit` had returned. -/
theorem queue_outlives_users_destroyedRun : Abandoned 1 destroyedRun.2 := by
  have hsubmitted : Run (rules 1) init submittedRun.1 submittedRun.2 := play_run act_sound rfl
  have hentered : Step (rules 1) submittedRun.2 (.inr 1, .shutdown .destructor) enteredSystem :=
    client_step rfl (.destructor rfl)
  have hdestroyed : Run (rules 1) enteredSystem destroyedRun.1 destroyedRun.2 := play_run act_sound rfl
  have hbefore : ∀ l ∈ submittedRun.1, l.2 ≠ .shutdown .destructor := by decide
  have hafter : ∀ l ∈ destroyedRun.1, l.2 ≠ .shutdown .destructor := by decide
  have hfirst : RunWith (rules 1) EntersAlone init submittedRun.1 submittedRun.2 :=
    hsubmitted.runWith fun l hl _ hev => absurd hev (hbefore l hl)
  have hrun := (hfirst.tail (fun _ => by decide) hentered).append hdestroyed
    fun l hl _ hev => absurd hev (hafter l hl)
  exact (queue_outlives_users 1).1 _ _ hrun (.inl ⟨1, rfl⟩)

/-- A schedule for a queue of one: client 0 blocks on its second task, client 1 enters the destructor,
which wakes it, and the worker runs the first task and exits and is joined before client 0 has run
again. -/
def lingeringSchedule : List (Thread 1 (Fin 2) × Act 1 (Fin 2)) :=
  [(.inr 0, .submit 1 ⟨.returns⟩ 0), (.inr 0, .queue .lock), (.inr 0, .queue (.notify none)),
   (.inr 0, .go), (.inr 0, .submit 2 ⟨.returns⟩ 1), (.inr 0, .queue .lock),
   (.inr 1, .shutdown .destructor), (.inr 1, .queue .lock), (.inr 1, .queue .lock),
   (.inr 1, .queue .lock), (.inr 1, .go), (.inl 0, .go), (.inl 0, .queue .lock),
   (.inl 0, .queue (.notify none)), (.inl 0, .clock 2), (.inl 0, .clock 3), (.inl 0, .go),
   (.inl 0, .go), (.inl 0, .queue .lock), (.inl 0, .go), (.inr 1, .go), (.inr 1, .go), (.inr 1, .go)]

/-- Its log, and the configuration in which the members are about to be destroyed. -/
def lingeringRun : List (Thread 1 (Fin 2) × Event 1) × System 1 (Fin 2) :=
  (play (act 1) lingeringSchedule init).get rfl

/-- The queue is destroyed with client 0 inside `push`. -/
theorem queue_outlived : ¬ OutlivesUsers 1 (init : System 1 (Fin 2)) := by
  intro hall
  have hrun : Run (rules 1) init lingeringRun.1 lingeringRun.2 := play_run act_sound rfl
  have hunused := (hall _ _ hrun (.inl ⟨1, rfl⟩)).unused 0
  exact absurd hunused (by decide)

end Lifetime

end ThreadPool

end TaskEngine
