/-
KernelElevator.Threads.RefinementTheorems — the coarse module is the fine one
without contention.

`Module.System` takes a whole call, and a whole phase of the scheduler, as
one step. Each such step is what the threads do when one of them runs alone
from a moment at which the mutex is free (`Matches.step`). So every run of
the coarse module is a run of the threads in which no signal arrives and
nobody ever waits (`system_runs_as_threads`), and whatever goes wrong in the
one can go wrong in the other.
-/
import KernelElevator.Threads.System
import KernelElevator.Module.PhasesTheorems

namespace KernelElevator.Threads

open Transition

variable {B : Building}

/-- The scheduler's place in the fine loop. -/
def SchedulerPc.ofPc : Pc → SchedulerPc
  | .top => .top
  | .unload => .unloadLock
  | .load unloadSleep => .room unloadSleep
  | .loading unloadSleep loadSleep => .loading unloadSleep loadSleep
  | .dispatch => .dispatch
  | .move => .move

/-- The threads show the coarse state: the mutex is free and no call is
under way. -/
structure Matches (s : Sys) (u : State) : Prop where
  g : u.g = s.g
  mutex : u.mutex = none
  scheduler : u.scheduler = .ofPc s.pc
  done : ∀ t, (u.calls t).done = true

/-- A caller that alone does `n` steps. -/
def callSteps (B : Building) (t : Nat) (n : Nat) (l : Globals × Option Tid × CallPc) :
    Globals × Option Tid × CallPc :=
  (fun l => callStep B t l.1 l.2.1 l.2.2)^[n] l

theorem run_advance (t n : Nat) (u : State) :
    (threads B).run u (List.replicate n (.advance t))
      = ⟨(callSteps B t n (u.g, u.mutex, u.calls t)).1,
         (callSteps B t n (u.g, u.mutex, u.calls t)).2.1, u.scheduler,
         Function.update u.calls t (callSteps B t n (u.g, u.mutex, u.calls t)).2.2⟩ := by
  induction n generalizing u with
  | zero => simp [callSteps]
  | succ n ih =>
    rw [List.replicate_succ, Machine.run_cons, ih]
    simp [threads, State.step, callSteps]

/-- With the mutex free a call that is left alone returns what the coarse
call returns, within eight steps. -/
theorem callSteps_alone (t : Nat) (g : Globals) (c : Call) :
    callSteps B t 8 (g, none, .entry c) = ((c.exec B g).2, none, .returned (c.exec B g).1) := by
  cases c with
  | startElevator =>
    cases hs : g.started with
    | true => simp [callSteps, CallPc.entry, callStep, Call.exec, startElevator, hs]
    | false => simp [callSteps, CallPc.entry, callStep, Call.exec, startElevator, hs]
  | issueRequest a b k =>
    cases hr : issueRequestRejects B a b k g with
    | true =>
      simp [callSteps, CallPc.entry, callStep, Call.exec, issueRequest_rejected hr, hr]
    | false =>
      cases hd : g.deactiving with
      | true =>
        simp [callSteps, CallPc.entry, callStep, Call.exec, issueRequest_deactiving hr hd, hr,
          issueRequestLocked, hd]
      | false =>
        simp [callSteps, CallPc.entry, callStep, Call.exec, issueRequest_accepted hr hd, hr,
          issueRequestLocked, hd]
  | stopElevator =>
    by_cases h : StopTakes g
    · simp [callSteps, CallPc.entry, callStep, Call.exec, stopElevator_takes h, h.1, h.2,
        stopElevatorLocked_eq, kfreeAll_eq]
    · cases hs : g.started with
      | false =>
        simp [callSteps, CallPc.entry, callStep, Call.exec, stopElevator_rejected h, hs]
      | true =>
        have hd : g.deactiving = true := by simpa [StopTakes, hs] using h
        simp [callSteps, CallPc.entry, callStep, Call.exec, stopElevator_rejected h, hs, hd]

theorem Matches.call {s : Sys} {u : State} (h : Matches s u) (c : Call) :
    Matches (s.step B (.call c))
      ((threads B).run u (.invoke 0 c :: List.replicate 8 (.advance 0))) := by
  have hinvoke : (threads B).step u (.invoke 0 c)
      = { u with calls := Function.update u.calls 0 (.entry c) } := if_pos (h.done 0)
  rw [Machine.run_cons, hinvoke, run_advance]
  simp only [Function.update_self, h.g, h.mutex, callSteps_alone]
  refine ⟨rfl, rfl, h.scheduler, ?_⟩
  intro t
  by_cases ht : t = 0
  · subst ht
    simp [CallPc.done]
  · simpa [ht] using h.done t

/-- The scheduler that alone does `n` steps. -/
def schedulerSteps (B : Building) (n : Nat) (l : Globals × Option Tid × SchedulerPc) :
    Globals × Option Tid × SchedulerPc :=
  (fun l => schedulerStep B l.1 l.2.1 l.2.2)^[n] l

theorem run_scheduler (n : Nat) (u : State) :
    (threads B).run u (List.replicate n .scheduler)
      = ⟨(schedulerSteps B n (u.g, u.mutex, u.scheduler)).1,
         (schedulerSteps B n (u.g, u.mutex, u.scheduler)).2.1,
         (schedulerSteps B n (u.g, u.mutex, u.scheduler)).2.2, u.calls⟩ := by
  induction n generalizing u with
  | zero => rfl
  | succ n ih =>
    rw [List.replicate_succ, Machine.run_cons, ih]
    simp [threads, State.step, schedulerSteps]

/-- With the mutex free a phase takes the scheduler at most four steps. -/
theorem schedulerSteps_alone (s : Sys) :
    ∃ n ≤ 4, schedulerSteps B n (s.g, none, .ofPc s.pc)
      = ((KernelElevator.schedulerStep B s).g, none,
         .ofPc (KernelElevator.schedulerStep B s).pc) := by
  obtain ⟨g, pc⟩ := s
  cases pc with
  | top =>
    refine ⟨1, by omega, ?_⟩
    cases hb : busy g with
    | true =>
      rw [schedulerStep_top_busy B hb]
      simp [schedulerSteps, SchedulerPc.ofPc, schedulerStep, hb]
    | false =>
      rw [schedulerStep_top_idle B hb]
      simp [schedulerSteps, SchedulerPc.ofPc, schedulerStep, hb]
  | unload => exact ⟨4, by omega, rfl⟩
  | load unloadSleep =>
    by_cases hroom : g.loads < B.capacity
    · refine ⟨4, by omega, ?_⟩
      rw [schedulerStep_load, loadPhase_room B hroom]
      simp [schedulerSteps, SchedulerPc.ofPc, schedulerStep, hroom]
    · refine ⟨1, by omega, ?_⟩
      rw [schedulerStep_load, loadPhase_full B hroom]
      simp [schedulerSteps, SchedulerPc.ofPc, schedulerStep, hroom]
  | loading unloadSleep loadSleep => exact ⟨1, by omega, rfl⟩
  | dispatch =>
    refine ⟨1, by omega, ?_⟩
    cases hm : mustMove g with
    | true =>
      rw [schedulerStep_dispatch_move B hm]
      simp [schedulerSteps, SchedulerPc.ofPc, schedulerStep, hm]
    | false =>
      rw [schedulerStep_dispatch_settle B hm]
      simp [schedulerSteps, SchedulerPc.ofPc, schedulerStep, hm]
  | move => exact ⟨1, by omega, rfl⟩

/-- A coarse step is a run of one thread, and no signal arrives in it. -/
theorem Matches.step {s : Sys} {u : State} (h : Matches s u) (l : Label) :
    ∃ as, (∀ t, Action.interrupt t ∉ as) ∧ Matches (s.step B l) ((threads B).run u as) := by
  cases l with
  | call c => exact ⟨_, by simp, h.call c⟩
  | scheduler =>
    obtain ⟨n, -, hn⟩ := schedulerSteps_alone (B := B) s
    refine ⟨List.replicate n .scheduler, by simp [List.mem_replicate], ?_⟩
    rw [run_scheduler, h.g, h.mutex, h.scheduler, hn]
    exact ⟨rfl, rfl, rfl, h.done⟩

/-- **The coarse runs are runs of the threads**, without a signal. -/
theorem system_runs_as_threads (B : Building) (ls : List Label) :
    ∃ as, (∀ t, Action.interrupt t ∉ as) ∧ Matches (Sys.after B ls) (State.after B as) := by
  induction ls using List.reverseRecOn with
  | nil => exact ⟨[], by simp, rfl, rfl, rfl, fun _ => rfl⟩
  | append_singleton ls l ih =>
    obtain ⟨as, has, hmatch⟩ := ih
    obtain ⟨bs, hbs, hstep⟩ := hmatch.step (B := B) l
    refine ⟨as ++ bs, ?_, ?_⟩
    · intro t ht
      rcases List.mem_append.mp ht with hmem | hmem
      · exact has t hmem
      · exact hbs t hmem
    · rw [Sys.after, Machine.run_concat, State.after, Machine.run_append]
      exact hstep

end KernelElevator.Threads
