import Mathlib.Data.Finset.Card
import Mathlib.Tactic

/-!
# TaskEngine.Interleaving.CondVar — condition variables as sets of waiting threads

A thread that waits is first un-notified (`waiting`); a notification moves it to `notified`, where it
stays until it runs again.  A thread may also leave `waiting` without a notification, as a spurious
wake-up.  The mutex that goes with the variable is not part of it.
-/

namespace Interleaving

/-- A condition variable: the threads blocked on it and those notified that have not run since. -/
structure CondVar (θ : Type) where
  waiting : Finset θ
  notified : Finset θ

namespace CondVar

variable {θ : Type}

/-- Nobody waits. -/
def idle : CondVar θ := ⟨∅, ∅⟩

variable [DecidableEq θ]

/-- Thread `t` blocks. -/
def wait (cv : CondVar θ) (t : θ) : CondVar θ := { cv with waiting := insert t cv.waiting }

/-- Thread `t`, no longer blocked, runs again. -/
def resume (cv : CondVar θ) (t : θ) : CondVar θ := { cv with notified := cv.notified.erase t }

/-- Thread `t` is woken by nobody. -/
def wake (cv : CondVar θ) (t : θ) : CondVar θ := { cv with waiting := cv.waiting.erase t }

/-- Thread `u` is notified. -/
def notify (cv : CondVar θ) (u : θ) : CondVar θ :=
  ⟨cv.waiting.erase u, insert u cv.notified⟩

/-- `notify_all`: every blocked thread is notified. -/
def notify_all (cv : CondVar θ) : CondVar θ := ⟨∅, cv.notified ∪ cv.waiting⟩

/-- `notify_one`: one blocked thread is notified, whichever it is, and nothing happens when there
is none. -/
inductive NotifyOne (cv : CondVar θ) : CondVar θ → Prop
  | nobody (h : cv.waiting = ∅) : NotifyOne cv cv
  | one {u : θ} (h : u ∈ cv.waiting) : NotifyOne cv (cv.notify u)

/-- `notify_one` with the choice made: `none` only when nobody waits. -/
def notify_one (cv : CondVar θ) : Option θ → Option (CondVar θ)
  | none => if cv.waiting = ∅ then some cv else none
  | some u => if u ∈ cv.waiting then some (cv.notify u) else none

theorem notify_one_sound {cv cv' : CondVar θ} {u : Option θ} (h : cv.notify_one u = some cv') :
    NotifyOne cv cv' := by
  cases u with
  | none =>
    simp only [notify_one, Option.ite_none_right_eq_some, Option.some.injEq] at h
    obtain ⟨hw, rfl⟩ := h
    exact .nobody hw
  | some u =>
    simp only [notify_one, Option.ite_none_right_eq_some, Option.some.injEq] at h
    obtain ⟨hu, rfl⟩ := h
    exact .one hu

/-- A notification can always be sent. -/
theorem exists_notifyOne (cv : CondVar θ) : ∃ cv', NotifyOne cv cv' := by
  rcases cv.waiting.eq_empty_or_nonempty with h | ⟨u, hu⟩
  · exact ⟨cv, .nobody h⟩
  · exact ⟨_, .one hu⟩

omit [DecidableEq θ] in
@[simp] theorem idle_waiting : (idle : CondVar θ).waiting = ∅ := rfl
omit [DecidableEq θ] in
@[simp] theorem idle_notified : (idle : CondVar θ).notified = ∅ := rfl
@[simp] theorem wait_waiting (cv : CondVar θ) (t : θ) : (cv.wait t).waiting = insert t cv.waiting := rfl
@[simp] theorem wait_notified (cv : CondVar θ) (t : θ) : (cv.wait t).notified = cv.notified := rfl
@[simp] theorem resume_waiting (cv : CondVar θ) (t : θ) : (cv.resume t).waiting = cv.waiting := rfl
@[simp] theorem resume_notified (cv : CondVar θ) (t : θ) :
    (cv.resume t).notified = cv.notified.erase t := rfl
@[simp] theorem wake_waiting (cv : CondVar θ) (t : θ) : (cv.wake t).waiting = cv.waiting.erase t := rfl
@[simp] theorem wake_notified (cv : CondVar θ) (t : θ) : (cv.wake t).notified = cv.notified := rfl
@[simp] theorem notify_waiting (cv : CondVar θ) (u : θ) :
    (cv.notify u).waiting = cv.waiting.erase u := rfl
@[simp] theorem notify_notified (cv : CondVar θ) (u : θ) :
    (cv.notify u).notified = insert u cv.notified := rfl
@[simp] theorem notify_all_waiting (cv : CondVar θ) : cv.notify_all.waiting = ∅ := rfl
@[simp] theorem notify_all_notified (cv : CondVar θ) :
    cv.notify_all.notified = cv.notified ∪ cv.waiting := rfl

/-- Notifications never block anybody. -/
theorem NotifyOne.waiting_subset {cv cv' : CondVar θ} (h : NotifyOne cv cv') :
    cv'.waiting ⊆ cv.waiting := by
  cases h with
  | nobody _ => exact subset_rfl
  | one _ => exact Finset.erase_subset _ _

/-- A notification releases one blocked thread, if there is one. -/
theorem NotifyOne.card_waiting {cv cv' : CondVar θ} (h : NotifyOne cv cv') :
    cv'.waiting.card = cv.waiting.card - 1 := by
  cases h with
  | nobody he => simp [he]
  | one hu => exact Finset.card_erase_of_mem hu

/-- When somebody is still blocked after a `notify_one`, one more thread is notified. -/
theorem NotifyOne.card_notified {cv cv' : CondVar θ} (h : NotifyOne cv cv')
    (hdisj : Disjoint cv.waiting cv.notified) (hw : cv'.waiting.Nonempty) :
    cv'.notified.card = cv.notified.card + 1 := by
  cases h with
  | nobody he => simp [he] at hw
  | one hu => exact Finset.card_insert_of_notMem (Finset.disjoint_left.mp hdisj hu)

theorem NotifyOne.disjoint {cv cv' : CondVar θ} (h : NotifyOne cv cv')
    (hdisj : Disjoint cv.waiting cv.notified) : Disjoint cv'.waiting cv'.notified := by
  cases h with
  | nobody _ => exact hdisj
  | @one u hu =>
    rw [Finset.disjoint_left] at hdisj ⊢
    intro t ht ht'
    obtain ⟨htu, ht⟩ := Finset.mem_erase.mp ht
    rcases Finset.mem_insert.mp ht' with rfl | ht'
    · exact htu rfl
    · exact hdisj ht ht'

theorem card_resume_le (cv : CondVar θ) (t : θ) :
    cv.notified.card ≤ (cv.resume t).notified.card + 1 := by
  have := Finset.pred_card_le_card_erase (s := cv.notified) (a := t)
  simp only [resume_notified]
  omega

/-! ## The threads that are not blocked -/

section Running

variable [Fintype θ]

/-- The number of threads not blocked on the variable. -/
def running (cv : CondVar θ) : ℕ := Fintype.card θ - cv.waiting.card

@[simp] theorem resume_running (cv : CondVar θ) (t : θ) : (cv.resume t).running = cv.running := rfl

@[simp] theorem notify_all_running (cv : CondVar θ) : cv.notify_all.running = Fintype.card θ := by
  simp [running]

theorem wait_running_le (cv : CondVar θ) (t : θ) : (cv.wait t).running ≤ cv.running :=
  Nat.sub_le_sub_left (Finset.card_le_card (Finset.subset_insert t cv.waiting)) _

/-- Whoever blocks was running. -/
theorem wait_running {cv : CondVar θ} {t : θ} (h : t ∉ cv.waiting) :
    (cv.wait t).running + 1 = cv.running := by
  have hle := Finset.card_le_univ (insert t cv.waiting)
  rw [Finset.card_insert_of_notMem h] at hle
  simp only [running, wait_waiting, Finset.card_insert_of_notMem h]
  omega

theorem wake_running {cv : CondVar θ} {t : θ} (h : t ∈ cv.waiting) :
    (cv.wake t).running = cv.running + 1 := by
  have hle := Finset.card_le_univ cv.waiting
  have hpos := Finset.card_pos.mpr ⟨t, h⟩
  simp only [running, wake_waiting, Finset.card_erase_of_mem h]
  omega

/-- A notification sets one thread running, at most. -/
theorem NotifyOne.running_le {cv cv' : CondVar θ} (h : NotifyOne cv cv') : cv'.running ≤ cv.running + 1 := by
  simp only [running, h.card_waiting]
  omega

end Running

/-! ## The discipline of waiting -/

/-- What one step of thread `t` may do to the variable, with whether `t` is in a wait on it before and
after: block, run again (to leave the wait or to block anew), wake up, notify, or leave it alone. -/
inductive Move (t : θ) : Bool → CondVar θ → Bool → CondVar θ → Prop
  | skip {b cv} : Move t b cv b cv
  | block {cv} : Move t false cv true (cv.wait t)
  | leave {cv} (h : t ∉ cv.waiting) : Move t true cv false (cv.resume t)
  | again {cv} (h : t ∉ cv.waiting) : Move t true cv true ((cv.resume t).wait t)
  | spurious {cv} (h : t ∈ cv.waiting) : Move t true cv true (cv.wake t)
  | one {cv cv'} (h : NotifyOne cv cv') : Move t false cv false cv'
  | all {cv} : Move t false cv false cv.notify_all

/-- Only threads in a wait are blocked or notified, and none is both. -/
structure Disciplined (inWait : θ → Bool) (cv : CondVar θ) : Prop where
  waiting : ∀ t ∈ cv.waiting, inWait t = true
  notified : ∀ t ∈ cv.notified, inWait t = true
  disjoint : Disjoint cv.waiting cv.notified

omit [DecidableEq θ] in
theorem disciplined_idle (inWait : θ → Bool) : Disciplined inWait idle :=
  ⟨by simp, by simp, by simp⟩

theorem Move.disciplined {t : θ} {inWait inWait' : θ → Bool} {cv cv' : CondVar θ}
    (h : Move t (inWait t) cv (inWait' t) cv') (hd : Disciplined inWait cv)
    (hne : ∀ u, u ≠ t → inWait' u = inWait u) : Disciplined inWait' cv' := by
  generalize hb : inWait t = b at h
  generalize hb' : inWait' t = b' at h
  have hw : ∀ u ∈ cv.waiting, u ≠ t → inWait' u = true := fun u hu ht => (hne u ht).trans (hd.waiting u hu)
  have hn : ∀ u ∈ cv.notified, u ≠ t → inWait' u = true :=
    fun u hu ht => (hne u ht).trans (hd.notified u hu)
  have hdw : b = false → t ∉ cv.waiting := fun h ht => by simp [hd.waiting t ht, ← hb] at h
  have hdn : b = false → t ∉ cv.notified := fun h ht => by simp [hd.notified t ht, ← hb] at h
  have hdisj := Finset.disjoint_left.mp hd.disjoint
  -- `hw` and `hn` speak of the threads that did not move; each case is left with `t`
  cases h with
  | skip =>
    refine ⟨fun u hu => ?_, fun u hu => ?_, hd.disjoint⟩ <;> by_cases hut : u = t
    · subst hut; exact hb'.trans (hb.symm.trans (hd.waiting u hu))
    · exact hw u hu hut
    · subst hut; exact hb'.trans (hb.symm.trans (hd.notified u hu))
    · exact hn u hu hut
  | block =>
    refine ⟨fun u hu => ?_, fun u hu => hn u hu (by rintro rfl; exact hdn rfl hu),
      Finset.disjoint_left.mpr fun u hu hu' => ?_⟩ <;>
      rcases Finset.mem_insert.mp hu with rfl | hm
    · exact hb'
    · exact hw u hm (by rintro rfl; exact hdw rfl hm)
    · exact hdn rfl hu'
    · exact hdisj hm hu'
  | leave h =>
    refine ⟨fun u hu => hw u hu (by rintro rfl; exact h hu),
      fun u hu => hn u (Finset.mem_of_mem_erase hu) (Finset.ne_of_mem_erase hu), ?_⟩
    exact Finset.disjoint_left.mpr fun u hu hu' => hdisj hu (Finset.mem_of_mem_erase hu')
  | again h =>
    refine ⟨fun u hu => ?_, fun u hu => hn u (Finset.mem_of_mem_erase hu) (Finset.ne_of_mem_erase hu),
      Finset.disjoint_left.mpr fun u hu hu' => ?_⟩ <;>
      rcases Finset.mem_insert.mp hu with rfl | hm
    · exact hb'
    · exact hw u hm (by rintro rfl; exact h hm)
    · exact Finset.ne_of_mem_erase hu' rfl
    · exact hdisj hm (Finset.mem_of_mem_erase hu')
  | spurious h =>
    refine ⟨fun u hu => hw u (Finset.mem_of_mem_erase hu) (Finset.ne_of_mem_erase hu),
      fun u hu => hn u hu (by rintro rfl; exact hdisj h hu),
      Finset.disjoint_left.mpr fun u hu hu' => hdisj (Finset.mem_of_mem_erase hu) hu'⟩
  | one h =>
    have hsub := h.waiting_subset
    have hmem : ∀ u ∈ cv'.notified, u ∈ cv.waiting ∨ u ∈ cv.notified := by
      intro u hu
      cases h with
      | nobody _ => exact .inr hu
      | one hv =>
        rcases Finset.mem_insert.mp hu with rfl | hu
        · exact .inl hv
        · exact .inr hu
    refine ⟨fun u hu => hw u (hsub hu) (by rintro rfl; exact hdw rfl (hsub hu)), ?_,
      h.disjoint hd.disjoint⟩
    intro u hu
    rcases hmem u hu with hu | hu
    · exact hw u hu (by rintro rfl; exact hdw rfl hu)
    · exact hn u hu (by rintro rfl; exact hdn rfl hu)
  | all =>
    refine ⟨by simp, ?_, by simp⟩
    intro u hu
    rcases Finset.mem_union.mp hu with hu | hu
    · exact hn u hu (by rintro rfl; exact hdn rfl hu)
    · exact hw u hu (by rintro rfl; exact hdw rfl hu)

end CondVar

end Interleaving
