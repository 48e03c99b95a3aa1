/-
KernelElevator.Threads.SerialTheorems — without a stop the threads do what
the coarse module does.

`Threads.RefinementTheorems` runs the coarse module on the threads. This is
the way back, for runs in which no signal breaks off a wait and no stop gets
past its tests: whatever the interleaving, the globals are those of a run of
`Module.System` (`stop_free_serializable`). Each fine step is answered by one
coarse step or by none:

* a start by the write of `started`, a request by its locked section;
* unloading by its locked section. What `unloadPassengers` does after it has
  unlocked — freeing, and resetting the status — nobody else reads or writes,
  so it may count as done at once (`SchedulerPc.settled`);
* loading by its locked section, or by the test for room where that fails.

With a stop this is false: between its two writes and its locked section the
scheduler and other callers go on (`request_after_stop`).
-/
import KernelElevator.Threads.SharedTheorems
import KernelElevator.Machine.Simulation

namespace KernelElevator.Threads

open Transition

/-- The scheduler's place in the coarse loop. -/
def SchedulerPc.toPc : SchedulerPc → Pc
  | .top => .top
  | .unloadLock | .unloadLocked => .unload
  | .unloadUnlock _ unloaded | .unloadTail _ unloaded => .load unloaded
  | .room unloadSleep | .loadLock unloadSleep | .loadLocked unloadSleep => .load unloadSleep
  | .loadUnlock unloadSleep loadSleep | .loading unloadSleep loadSleep =>
    .loading unloadSleep loadSleep
  | .dispatch => .dispatch
  | .move => .move

/-- No signal breaks off a wait, and no stop gets past its tests. -/
def StopFree (s : State) (a : Action) : Prop :=
  Granted s a ∧ ∀ t, a = .advance t → s.calls t ≠ .stopSetDeactiving

instance (s : State) : (a : Action) → Decidable (StopFree s a)
  | .invoke _ _ => .isTrue (by simp [StopFree, Granted])
  | .scheduler => .isTrue (by simp [StopFree, Granted])
  | .advance t => decidable_of_iff (s.calls t ≠ .stopSetDeactiving) (by simp [StopFree, Granted])
  | .interrupt t => decidable_of_iff ((s.calls t).stage ≠ .waiting) (by simp [StopFree, Granted])

variable (B : Building)

/-- Where a call can be while no stop is past its tests. A request past its
tests has found the elevator started, and it stays started. -/
def CallPc.Calm (started : Bool) : CallPc → Prop
  | .issueLock startFloor destinationFloor type | .issueLocked startFloor destinationFloor type =>
    started = true ∧ Requestable B startFloor destinationFloor type
  | .stopClearStarted | .stopLock | .stopLocked | .stopUnlock _ _ | .stopFree _ => False
  | _ => True

/-- The scheduler waits for the mutex in `loadPassengers` only after it has
found room, and nobody but itself changes `loads`. -/
def SchedulerPc.Room (g : Globals) : SchedulerPc → Prop
  | .loadLock _ | .loadLocked _ => g.loads < B.capacity
  | _ => True

/-- The threads as the coarse state shows them. -/
structure Serial (s : State) (u : Sys) : Prop where
  sys_eq : u = ⟨s.scheduler.settled s.g, s.scheduler.toPc⟩
  deactiving_eq : s.g.deactiving = false
  calm : ∀ t, (s.calls t).Calm B s.g.started
  room : s.scheduler.Room B s.g

variable {B}

/-! ## What the pending half of `unloadPassengers` commutes with -/

theorem settled_setStarted (pc : SchedulerPc) (g : Globals) :
    pc.settled { g with started := true } = { pc.settled g with started := true } := by
  cases pc <;> simp [SchedulerPc.settled, unloadTail_eq]

theorem settled_add (pc : SchedulerPc) (a b k : Int) (g : Globals) :
    pc.settled (addPassenger a b k g) = addPassenger a b k (pc.settled g) := by
  cases pc <;> simp [SchedulerPc.settled, unloadTail_eq, addPassenger]

theorem settled_flags (pc : SchedulerPc) (g : Globals) :
    (pc.settled g).started = g.started ∧ (pc.settled g).deactiving = g.deactiving := by
  cases pc <;> simp [SchedulerPc.settled, unloadTail_eq]

/-! ## Callers -/

/-- While no stop is under way a start only sets `started`. -/
theorem exec_start {g : Globals} (hd : g.deactiving = false) :
    (Call.exec B g .startElevator).2 = { g with started := true } := by
  cases hs : g.started with
  | true =>
    obtain ⟨⟩ := g
    simp_all [Call.exec, startElevator_running]
  | false =>
    obtain ⟨⟩ := g
    simp_all [Call.exec, startElevator_stopped]

theorem exec_issue {a b k : Int} {g : Globals} (hs : g.started = true)
    (hreq : Requestable B a b k) (hd : g.deactiving = false) :
    (Call.exec B g (.issueRequest a b k)).2 = addPassenger a b k g := by
  simp [Call.exec, issueRequest_accepted (issueRequestRejects_iff.mpr ⟨hs, hreq⟩) hd]

theorem calm_update {calls : Nat → CallPc} {started : Bool} (h : ∀ t, (calls t).Calm B started)
    (t : Nat) {pc : CallPc} (hpc : pc.Calm B started) (u : Nat) :
    (Function.update calls t pc u).Calm B started := by
  rcases eq_or_ne u t with rfl | hu
  · rwa [Function.update_self]
  · rw [Function.update_of_ne hu]
    exact h u

/-- Starting again changes nothing for the calls under way. -/
theorem CallPc.Calm.started {pc : CallPc} {started : Bool} (h : pc.Calm B started) :
    pc.Calm B true := by
  cases pc <;> simp_all [CallPc.Calm]

/-- Where a call goes while no stop gets past its tests. -/
theorem callStep_calm (t : Nat) {g : Globals} (mutex : Option Tid) {pc : CallPc}
    (h : pc.Calm B g.started) (hstop : pc ≠ .stopSetDeactiving) :
    (callStep B t g mutex pc).2.2.Calm B g.started := by
  cases pc with
  | issueTest a b k =>
    simp only [callStep]
    split
    · trivial
    · next hr => exact issueRequestRejects_iff.mp (by simpa using hr)
  | issueLock a b k => simp only [callStep]; split <;> exact h
  | startTest => simp only [callStep]; split <;> trivial
  | stopTestStarted => simp only [callStep]; split <;> trivial
  | stopTestDeactiving => simp only [callStep]; split <;> trivial
  | stopSetDeactiving => exact absurd rfl hstop
  | stopClearStarted => exact h.elim
  | stopLock => exact h.elim
  | stopLocked => exact h.elim
  | stopUnlock _ _ => exact h.elim
  | stopFree _ => exact h.elim
  | _ => trivial

/-- The step of a caller is answered by the call whose write it is. -/
theorem Serial.advance {s : State} {u : Sys} (h : Serial B s u) (t : Nat)
    (hstop : s.calls t ≠ .stopSetDeactiving) :
    ∃ ks, (∀ l ∈ ks, l ≠ .call .stopElevator) ∧
      Serial B (s.step B (.advance t)) ((system B).run u ks) := by
  obtain ⟨rfl, hd, hcalm, hroom⟩ := h
  have hnext := callStep_calm t s.mutex (hcalm t) hstop
  have he := callStep_effect (B := B) t s.g s.mutex (s.calls t)
  have hpcs := hcalm t
  simp only [State.step]
  generalize s.calls t = pc at *
  generalize (callStep B t s.g s.mutex pc).1 = g' at *
  cases he with
  | same _ =>
    exact ⟨[], by simp, rfl, hd, calm_update hcalm t hnext, hroom⟩
  | clearDeactiving =>
    have hsame : { s.g with deactiving := false } = s.g := by rw [← hd]
    rw [hsame]
    exact ⟨[], by simp, rfl, hd, calm_update hcalm t hnext, hroom⟩
  | setStarted =>
    have hexec := exec_start (B := B) ((settled_flags s.scheduler s.g).2.trans hd)
    refine ⟨[.call .startElevator], by simp, ?_, hd, ?_, ?_⟩
    · simp [system, Sys.step, hexec, settled_setStarted]
    · exact calm_update (fun u => (hcalm u).started) t trivial
    · cases hsch : s.scheduler <;> simp_all [SchedulerPc.Room]
  | @added a b k _ =>
    have hexec := exec_issue ((settled_flags s.scheduler s.g).1.trans hpcs.1) hpcs.2
      ((settled_flags s.scheduler s.g).2.trans hd)
    refine ⟨[.call (.issueRequest a b k)], by simp, ?_, hd, calm_update hcalm t trivial, ?_⟩
    · simp [system, Sys.step, hexec, settled_add]
    · cases hsch : s.scheduler <;> simp_all [SchedulerPc.Room, addPassenger]
  | setDeactiving => exact absurd rfl hstop
  | clearStarted => exact hpcs.elim
  | taken => exact hpcs.elim
  | freed _ => exact hpcs.elim

/-! ## The scheduler -/

/-- The step of the scheduler is a phase, or part of one whose effect is
counted elsewhere. -/
theorem Serial.scheduler {s : State} {u : Sys} (h : Serial B s u) :
    ∃ ks, (∀ l ∈ ks, l ≠ .call .stopElevator) ∧
      Serial B (s.step B .scheduler) ((system B).run u ks) := by
  obtain ⟨rfl, hd, hcalm, hroom⟩ := h
  simp only [State.step]
  generalize s.scheduler = pc at *
  cases pc with
  | top =>
    refine ⟨[.scheduler], by simp, ?_⟩
    cases hb : busy s.g with
    | true =>
      simp only [schedulerStep, hb, if_true]
      exact ⟨schedulerStep_top_busy B hb, hd, hcalm, trivial⟩
    | false =>
      have hstand := standBy_eq s.g
      simp only [schedulerStep, hb, Bool.false_eq_true, if_false]
      refine ⟨schedulerStep_top_idle B hb, ?_, ?_, trivial⟩
      · simpa [hstand, ssleep] using hd
      · simpa [hstand, ssleep] using hcalm
  | unloadLock =>
    refine ⟨[], by simp, ?_⟩
    simp only [schedulerStep]
    split <;> exact ⟨rfl, hd, hcalm, trivial⟩
  | unloadLocked =>
    refine ⟨[.scheduler], by simp, ?_⟩
    have hd' : (unloadLocked s.g).1.deactiving = false := by rw [unloadLocked_eq]; exact hd
    have hs' : (unloadLocked s.g).1.started = s.g.started := by rw [unloadLocked_eq]; rfl
    exact ⟨rfl, hd', hs' ▸ hcalm, trivial⟩
  | unloadUnlock dl unloaded => exact ⟨[], by simp, rfl, hd, hcalm, trivial⟩
  | unloadTail dl unloaded =>
    refine ⟨[], by simp, rfl, ?_, ?_, trivial⟩
    · simpa [schedulerStep, unloadTail_eq] using hd
    · simpa [schedulerStep, unloadTail_eq] using hcalm
  | room us =>
    by_cases hfree : s.g.loads < B.capacity
    · simp only [schedulerStep, if_pos hfree]
      exact ⟨[], by simp, rfl, hd, hcalm, hfree⟩
    · simp only [schedulerStep, if_neg hfree]
      refine ⟨[.scheduler], by simp, ?_, hd, hcalm, trivial⟩
      exact (schedulerStep_load B s.g us).trans (by rw [loadPhase_full B hfree]; rfl)
  | loadLock us =>
    refine ⟨[], by simp, ?_⟩
    simp only [schedulerStep]
    split <;> exact ⟨rfl, hd, hcalm, hroom⟩
  | loadLocked us =>
    have hd' : (loadLocked B s.g).1.deactiving = false := by rw [loadLocked_eq]; exact hd
    have hs' : (loadLocked B s.g).1.started = s.g.started := by rw [loadLocked_eq]; rfl
    refine ⟨[.scheduler], by simp, ?_, hd', hs' ▸ hcalm, trivial⟩
    exact (schedulerStep_load B s.g us).trans (by rw [loadPhase_room B hroom]; rfl)
  | loadUnlock us ls => exact ⟨[], by simp, rfl, hd, hcalm, trivial⟩
  | loading us ls =>
    have hload := loadingPhase_eq us ls s.g
    refine ⟨[.scheduler], by simp, rfl, ?_, ?_, trivial⟩
    · simpa [schedulerStep, hload] using hd
    · simpa [schedulerStep, hload] using hcalm
  | dispatch =>
    refine ⟨[.scheduler], by simp, ?_⟩
    cases hm : mustMove s.g with
    | true =>
      have hchange := changeElevatorState_eq s.g
      simp only [schedulerStep, hm, if_true]
      refine ⟨schedulerStep_dispatch_move B hm, ?_, ?_, trivial⟩
      · simpa [ssleep, hchange] using hd
      · simpa [ssleep, hchange] using hcalm
    | false =>
      have hsettle : settle s.g = s.g := by simp [settle, hd]
      simp only [schedulerStep, hm, Bool.false_eq_true, if_false, hsettle]
      refine ⟨?_, hd, hcalm, trivial⟩
      exact (schedulerStep_dispatch_settle B hm).trans (by rw [hsettle]; rfl)
  | move =>
    obtain ⟨current, next, hmove⟩ := moveElevator_frame B s.g
    refine ⟨[.scheduler], by simp, rfl, ?_, ?_, trivial⟩
    · simpa [schedulerStep, hmove] using hd
    · simpa [schedulerStep, hmove] using hcalm

/-! ## The whole -/

theorem entry_calm (c : Call) (started : Bool) : (CallPc.entry c).Calm B started := by
  cases c <;> trivial

theorem Serial.invoke {s : State} {u : Sys} (h : Serial B s u) (t : Nat) (c : Call) :
    Serial B (s.step B (.invoke t c)) u := by
  simp only [State.step]
  split
  · exact ⟨h.sys_eq, h.deactiving_eq, calm_update h.calm t (entry_calm c _), h.room⟩
  · exact h

theorem Serial.step {s : State} {u : Sys} (a : Action) (hok : StopFree s a) (h : Serial B s u) :
    ∃ ks, (∀ l ∈ ks, l ≠ .call .stopElevator) ∧
      Serial B (s.step B a) ((system B).run u ks) := by
  cases a with
  | invoke t c => exact ⟨[], by simp, h.invoke t c⟩
  | advance t => exact h.advance t (hok.2 t rfl)
  | scheduler => exact h.scheduler
  | interrupt t =>
    have hsame : s.step B (.interrupt t) = s := by
      simp only [State.step, interrupted_eq (hok.1 t rfl), Function.update_eq_self]
    rw [hsame]
    exact ⟨[], by simp, h⟩

theorem serial_loaded : Serial B (Threads.loaded B) (KernelElevator.loaded B) :=
  ⟨rfl, rfl, fun _ => trivial, trivial⟩

/-- **Any interleaving of starts, requests and the scheduler is a sequence of
whole calls and phases.** After every run of the threads in which no signal
breaks off a wait and no stop gets past its tests, the globals are those of a
run of the coarse module without a stop; where the scheduler has unlocked in
`unloadPassengers`, they are so once it has freed its list. -/
theorem stop_free_serializable (B : Building) (as : List Action)
    (h : (threads B).Along StopFree (loaded B) as) :
    ∃ ls, .call .stopElevator ∉ ls ∧
      Sys.after B ls = ⟨(State.after B as).scheduler.settled (State.after B as).g,
        (State.after B as).scheduler.toPc⟩ := by
  obtain ⟨ls, hls, hserial⟩ := (threads B).run_simulated (system B) (R := Serial B)
    (Q := fun l => l ≠ .call .stopElevator) (fun s u a hok hs => hs.step a hok) as _ _
    serial_loaded h
  exact ⟨ls, fun hmem => hls _ hmem rfl, hserial.sys_eq⟩

/-- Two starts overtake each other, a zombie is taken to floor 2, and a human
is queued there between the two halves of `unloadPassengers`. -/
theorem stop_free_serializable_contended :
    let as : List Action :=
      [.invoke 0 .startElevator, .invoke 1 .startElevator, .advance 0, .advance 1, .advance 0,
       .advance 1, .advance 0, .advance 1, .invoke 0 (.issueRequest 1 2 1), .advance 0, .advance 0,
       .advance 0, .advance 0] ++ List.replicate 14 .scheduler ++
      [.invoke 1 (.issueRequest 2 1 0), .advance 1, .scheduler, .scheduler, .advance 1, .advance 1]
    ∃ ls, .call .stopElevator ∉ ls ∧
      Sys.after .source ls = ⟨(State.after .source as).scheduler.settled (State.after .source as).g,
        (State.after .source as).scheduler.toPc⟩ :=
  stop_free_serializable .source _ (by decide)

end KernelElevator.Threads
