import TaskEngine.App.Configuration
import TaskEngine.App.Interrupt

/-!
# TaskEngine.App.Main — the exit codes of the program

`main` from its arguments to its exit: `parse_args`, the constructors, and a run under some schedule, with
signals or without.  `exits_iff` says which codes a given command line can exit with, over all schedules:
only a run can have more than one, and it always can have 1, as it may be interrupted.
-/

namespace TaskEngine

open Interleaving

namespace App

/-! ## Runs without signals -/

section Unset

variable {W : ℕ} {options : Options} {c c' : System W} {log : List (Thread W Client × Event W)}

/-- Without a signal the flag stays as it is, and is never found set. -/
theorem unset_of_free (h : Run (rules options) c log c') (hi : c.shared.interrupted = false)
    (hfree : ∀ l ∈ log, l.2.cost = 0) : c'.shared.interrupted = false ∧ ∀ b ∈ readings log, b = false := by
  revert hfree
  refine h.induct (I := fun log d => (∀ l ∈ log, l.2.cost = 0) →
    d.shared.interrupted = false ∧ ∀ b ∈ readings log, b = false) (fun _ => ⟨hi, by simp⟩) ?_
  intro log d t ev m p _ ih hr hfree
  obtain ⟨hd, hread⟩ := ih fun l hl => hfree l (List.mem_append_left _ hl)
  have hev : ev.cost = 0 := hfree _ (List.mem_append_right _ (List.mem_singleton.mpr rfl))
  -- only the main thread reads the flag, and only the handler sets it, by a step that is not free
  rcases t with w | _ | _
  · have hquiet : ev.reading = [] := (worker_quiet hr).1.reading
    refine ⟨?_, by simpa [hquiet] using hread⟩
    cases (hr : WorkerRule w _ _ _ _ _)
    exact hd
  · generalize d.pc (.inr .main) = q at hr
    have hread' : ∀ b ∈ ev.reading, b = false := by
      cases (hr : MainRule options _ _ _ _ _) with
      | read => simp [hd]
      | _ => simp
    refine ⟨?_, fun b hb => ?_⟩
    · cases (hr : MainRule options _ _ _ _ _) <;> exact hd
    · rw [readings, collect_append, List.mem_append] at hb
      exact hb.elim (hread b) fun hb => hread' b (by simpa using hb)
  · cases (hr : HandlerRule _ _ _)
    cases hev

end Unset

/-! ## The codes of a run -/

section Codes

variable {options : Options}

/-- A run can exit with the code. -/
def RunExits (options : Options) (code : ℕ) : Prop :=
  ∃ log c summary, Run (rules options) (init : System options.workers) log c ∧
    (c.pc (.inr .main)).frame = .exited code summary

/-- The tasks asked for all succeed. -/
def Flawless (options : Options) : Prop := options.fail_every = 0 ∨ options.tasks < options.fail_every

theorem flawless_iff : Flawless options ↔ options.tasks / options.fail_every = 0 := Nat.div_eq_zero_iff.symm

theorem exists_completed (hw : 0 < options.workers) (hq : 0 < options.queue_capacity) :
    ∃ log c code s, Run (rules options) (init : System options.workers) log c ∧
      (c.pc (.inr .main)).frame = .exited code (some s) ∧ Completed options log code s := by
  obtain ⟨log, c, hrun, hfree, code, summary, hx⟩ :=
    (budget options).reaches (fun _ _ => progress hq hw) (.refl : Run (rules options) init [] init)
  obtain ⟨s, rfl, hs | hs⟩ := outcome_of_exited hw hrun hx
  · exact ⟨log, c, code, s, hrun, hx, hs⟩
  · have := (unset_of_free hrun rfl hfree).2 true (by simp [hs.set])
    cases this

theorem exists_interrupted (hw : 0 < options.workers) (hq : 0 < options.queue_capacity) :
    RunExits options kExitTaskFailure := by
  have hsignal : Run (rules options) (init : System options.workers) [(.inr .handler, .signal)] _ :=
    .single (.mk (R := rules options) (p := ()) HandlerRule.signal)
  obtain ⟨log, c, hrun, -, code, summary, hx⟩ :=
    (budget options).reaches (fun _ _ => progress hq hw) hsignal
  obtain ⟨s, rfl, hs⟩ := exit_of_interrupted hw hsignal rfl rfl hrun hx
  exact ⟨_, c, some s, hsignal.trans hrun, hs.code_eq ▸ hx⟩

/-- Every run of valid options can exit with 1, and with 0 if no task is made to fail. -/
theorem runExits_iff (hw : 0 < options.workers) (hq : 0 < options.queue_capacity) {code : ℕ} :
    RunExits options code ↔ code = kExitTaskFailure ∨ code = kExitSuccess ∧ Flawless options := by
  rw [flawless_iff]
  constructor
  · rintro ⟨log, c, summary, hrun, hx⟩
    obtain ⟨s, rfl, hs | hs⟩ := outcome_of_exited hw hrun hx
    · by_cases hf : s.failed = 0
      · exact .inr ⟨by rw [hs.code_eq, if_pos hf], hs.failed ▸ hf⟩
      · exact .inl (by rw [hs.code_eq, if_neg hf])
    · exact .inl hs.code_eq
  · rintro (rfl | ⟨rfl, hf⟩)
    · exact exists_interrupted hw hq
    · obtain ⟨log, c, code, s, hrun, hx, hs⟩ := exists_completed hw hq
      have hcode : code = kExitSuccess := by rw [hs.code_eq, if_pos (hs.failed.trans hf)]
      exact ⟨log, c, some s, hrun, hcode ▸ hx⟩

end Codes

end App

/-! ## The codes of the program -/

section Codes

variable {buffers threads : MaxSize} {hardware_concurrency : UInt32} {args : List String} {code : ℕ}

/-- `main` can exit with the code: before a run, or by one. -/
inductive Exits (buffers threads : MaxSize) (hardware_concurrency : UInt32) (args : List String) (code : ℕ) :
    Prop
  | early (h : start buffers threads hardware_concurrency args = .error code)
  | run {options : Options} (h : start buffers threads hardware_concurrency args = .ok options)
      (hr : App.RunExits options code)

/-- **The exit codes of a command line**, over all schedules and signals.  0 means that help or the version
was asked for, or that all tasks were run and succeeded; 2, that the arguments were refused; and every command
line that starts a run can exit with 1. -/
theorem exits_iff (buffers threads : MaxSize) (hardware_concurrency : UInt32) (args : List String) (code : ℕ) :
    Exits buffers threads hardware_concurrency args code ↔
      match (parse_args hardware_concurrency args).action with
      | .ShowHelp | .ShowVersion => code = kExitSuccess
      | .Fail => code = kExitUsage
      | .Run => code = kExitTaskFailure ∨
          code = kExitSuccess ∧ Holds buffers threads (parse_args hardware_concurrency args).options.workers ∧
            App.Flawless (parse_args hardware_concurrency args).options := by
  -- where `start` returns a code, no run takes place
  have hearly : ∀ {code'}, start buffers threads hardware_concurrency args = .error code' →
      (Exits buffers threads hardware_concurrency args code ↔ code = code') := by
    intro code' hstart
    constructor
    · rintro (h | ⟨h, -⟩)
      · rw [hstart] at h
        exact (Except.error.inj h).symm
      · rw [hstart] at h
        cases h
    · rintro rfl
      exact .early hstart
  cases ha : (parse_args hardware_concurrency args).action with
  | ShowHelp => exact hearly (by simp only [start, ha])
  | ShowVersion => exact hearly (by simp only [start, ha])
  | Fail => exact hearly (by simp only [start, ha])
  | Run =>
    by_cases hh : Holds buffers threads (parse_args hardware_concurrency args).options.workers
    · have hstart := start_of_holds ha hh
      obtain ⟨hw, hq⟩ := positive_of_run ha
      have hrun : App.RunExits _ code ↔ _ := App.runExits_iff (Nat.pos_of_ne_zero hw) (Nat.pos_of_ne_zero hq)
      simp only [hh, true_and]
      rw [← hrun]
      constructor
      · rintro (h | ⟨h, hr⟩)
        · rw [hstart] at h
          cases h
        · rw [hstart] at h
          exact Except.ok.inj h ▸ hr
      · exact fun hr => .run hstart hr
    · simpa [hh] using hearly (start_of_not_holds ha hh)

end Codes

end TaskEngine
