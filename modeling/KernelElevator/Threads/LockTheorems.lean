/-
KernelElevator.Threads.LockTheorems — who unlocks `thread1.mutex`.

`State.lock` is what the state is to the general theory of `Machine.Mutex`,
and every step of the module is a step of that theory (`State.step_lock`).
So the module keeps what the theory keeps: as long as no wait is broken off
by a signal, whoever calls `mutex_unlock` holds the mutex, and no two
threads are in their locked sections at once (`lock_discipline`).

A wait that is broken off sends its thread to a `mutex_unlock` it has no
right to (`failed_wait_kept`), so on runs at whose end all calls have
returned the condition is exact.
-/
import KernelElevator.Threads.System

namespace KernelElevator.Threads

open Transition

variable (B : Building)

/-! ## §1 The module as a lock -/

def CallPc.stage : CallPc → LockStage
  | .issueLock _ _ _ | .stopLock => .waiting
  | .issueLocked _ _ _ | .stopLocked => .inside
  | .issueUnlock lock | .stopUnlock lock _ => .leaving (decide (lock = .granted))
  | _ => .outside

def SchedulerPc.stage : SchedulerPc → LockStage
  | .unloadLock | .loadLock _ => .waiting
  | .unloadLocked | .loadLocked _ => .inside
  | .unloadUnlock _ _ | .loadUnlock _ _ => .leaving true
  | _ => .outside

def stages (scheduler : SchedulerPc) (calls : Nat → CallPc) : Tid → LockStage
  | .call t => (calls t).stage
  | .scheduler => scheduler.stage

def State.lock (s : State) : Lock Tid := ⟨s.mutex, stages s.scheduler s.calls⟩

/-- The thread whose `mutex_unlock` this step is. -/
def unlocking (s : State) : Action → Option Tid
  | .advance t =>
    match s.calls t with
    | .issueUnlock _ | .stopUnlock _ _ => some (.call t)
    | _ => none
  | .scheduler =>
    match s.scheduler with
    | .unloadUnlock _ _ | .loadUnlock _ _ => some .scheduler
    | _ => none
  | _ => none

/-- `mutex_unlock` is called by the thread that holds the mutex. -/
def UnlocksOwn (s : State) (a : Action) : Prop :=
  ∀ x, unlocking s a = some x → s.mutex = some x

/-- At most one thread is between its `mutex_lock_interruptible` and its
`mutex_unlock`. -/
def OneInSection (s : State) : Prop :=
  ∀ x y, s.lock.InSection x → s.lock.InSection y → x = y

/-- No wait for the mutex is broken off by this step. -/
def Granted (s : State) (a : Action) : Prop :=
  ∀ t, a = .interrupt t → (s.calls t).stage ≠ .waiting

variable {B}

theorem stages_call (scheduler : SchedulerPc) (calls : Nat → CallPc) (t : Nat) (pc : CallPc) :
    stages scheduler (Function.update calls t pc)
      = Function.update (stages scheduler calls) (.call t) pc.stage := by
  funext x
  cases x with
  | call u =>
    by_cases hu : u = t
    · subst hu
      simp [stages]
    · simp [stages, hu]
  | scheduler => simp [stages]

theorem stages_scheduler (scheduler pc : SchedulerPc) (calls : Nat → CallPc) :
    stages pc calls
      = Function.update (stages scheduler calls) .scheduler pc.stage := by
  funext x
  cases x with
  | call u => simp [stages]
  | scheduler => simp [stages]

theorem advance_lock (s : State) (t : Nat) :
    Lock.Step (.call t) s.lock (s.step B (.advance t)).lock := by
  have hview : (s.step B (.advance t)).lock
      = ⟨(callStep B t s.g s.mutex (s.calls t)).2.1,
         Function.update s.lock.stage (.call t)
          (callStep B t s.g s.mutex (s.calls t)).2.2.stage⟩ := by
    rw [State.step, State.lock, stages_call]
    rfl
  have hst : s.lock.stage (.call t) = (s.calls t).stage := rfl
  rw [hview]
  generalize s.calls t = pc at hst ⊢
  cases pc with
  | issueLock a b k =>
    simp only [callStep]
    split
    · next hfree => exact .acquire hst hfree
    · exact .stay hst
  | stopLock =>
    simp only [callStep]
    split
    · next hfree => exact .acquire hst hfree
    · exact .stay hst
  | issueLocked a b k => exact .finish hst
  | stopLocked => exact .finish hst
  | issueUnlock lock => exact .release _ hst
  | stopUnlock lock deleteList => exact .release _ hst
  | issueTest a b k =>
    simp only [callStep]
    split
    · exact .stay hst
    · exact .arrive hst
  | stopClearStarted => exact .arrive hst
  | startTest => simp only [callStep]; split <;> exact .stay hst
  | stopTestStarted => simp only [callStep]; split <;> exact .stay hst
  | stopTestDeactiving => simp only [callStep]; split <;> exact .stay hst
  | _ => exact .stay hst

theorem scheduler_lock (s : State) :
    Lock.Step .scheduler s.lock (s.step B .scheduler).lock := by
  have hview : (s.step B .scheduler).lock
      = ⟨(schedulerStep B s.g s.mutex s.scheduler).2.1,
         Function.update s.lock.stage .scheduler
          (schedulerStep B s.g s.mutex s.scheduler).2.2.stage⟩ := by
    rw [State.step, State.lock, stages_scheduler s.scheduler]
    rfl
  have hst : s.lock.stage .scheduler = s.scheduler.stage := rfl
  rw [hview]
  generalize s.scheduler = pc at hst ⊢
  cases pc with
  | unloadLock =>
    simp only [schedulerStep]
    split
    · next hfree => exact .acquire hst hfree
    · exact .stay hst
  | loadLock us =>
    simp only [schedulerStep]
    split
    · next hfree => exact .acquire hst hfree
    · exact .stay hst
  | unloadLocked => exact .finish hst
  | loadLocked us => exact .finish hst
  | unloadUnlock deleteList unloaded => exact .release _ hst
  | loadUnlock us ls => exact .release _ hst
  | top =>
    simp only [schedulerStep]
    split
    · exact .arrive hst
    · exact .stay hst
  | room us =>
    simp only [schedulerStep]
    split
    · exact .arrive hst
    · exact .stay hst
  | dispatch => simp only [schedulerStep]; split <;> exact .stay hst
  | _ => exact .stay hst

/-- A thread in no call has nothing to do with the mutex. -/
theorem stage_of_done {pc : CallPc} (h : pc.done = true) : pc.stage = .outside := by
  cases pc with
  | idle => rfl
  | returned result => rfl
  | _ => cases h

theorem stage_entry (c : Call) : (CallPc.entry c).stage = .outside := by
  cases c <;> rfl

theorem interrupted_stage {pc : CallPc} (h : pc.stage = .waiting) :
    pc.interrupted.stage = .leaving false := by
  cases pc with
  | issueLock a b k => rfl
  | stopLock => rfl
  | _ => cases h

theorem interrupted_eq {pc : CallPc} (h : pc.stage ≠ .waiting) : pc.interrupted = pc := by
  cases pc with
  | issueLock a b k => exact absurd rfl h
  | stopLock => exact absurd rfl h
  | _ => rfl

theorem invoke_lock (s : State) (t : Nat) (c : Call) :
    (s.step B (.invoke t c)).lock = s.lock := by
  simp only [State.step]
  split
  · next hdone =>
      have hst : (CallPc.entry c).stage = (s.calls t).stage := by
        rw [stage_entry, stage_of_done hdone]
      rw [State.lock, stages_call, hst]
      exact congrArg (Lock.mk s.mutex) (Function.update_eq_self (Tid.call t) _)
  · rfl

theorem interrupt_lock (s : State) (t : Nat) :
    (s.step B (.interrupt t)).lock = s.lock ∨
      Lock.Interrupt (.call t) s.lock (s.step B (.interrupt t)).lock := by
  have hview : (s.step B (.interrupt t)).lock
      = ⟨s.mutex, Function.update s.lock.stage (.call t) (s.calls t).interrupted.stage⟩ := by
    rw [State.step, State.lock, stages_call]
    rfl
  by_cases hwait : (s.calls t).stage = .waiting
  · refine Or.inr ⟨hwait, ?_⟩
    rw [hview, interrupted_stage hwait]
    rfl
  · refine Or.inl ?_
    rw [hview, interrupted_eq hwait]
    exact congrArg (Lock.mk s.mutex) (Function.update_eq_self (Tid.call t) _)

/-- Every step of the module is a step of one thread at the lock, or breaks
off a wait. -/
theorem State.step_lock (s : State) (a : Action) :
    (∃ x, Lock.Step x s.lock (s.step B a).lock) ∨
      ∃ t, a = .interrupt t ∧ Lock.Interrupt (.call t) s.lock (s.step B a).lock := by
  cases a with
  | invoke t c => rw [invoke_lock]; exact Or.inl ⟨.call t, .elsewhere⟩
  | advance t => exact Or.inl ⟨.call t, advance_lock s t⟩
  | scheduler => exact Or.inl ⟨.scheduler, scheduler_lock s⟩
  | interrupt t =>
    rcases interrupt_lock (B := B) s t with hsame | hint
    · rw [hsame]; exact Or.inl ⟨.call t, .elsewhere⟩
    · exact Or.inr ⟨t, rfl, hint⟩

/-! ## §2 Every run -/

theorem lock_loaded (x : Tid) : (loaded B).lock.stage x = .outside := by
  cases x <;> rfl

theorem consistent_step (s : State) (a : Action) (h : s.lock.Consistent) :
    (s.step B a).lock.Consistent := by
  rcases State.step_lock (B := B) s a with ⟨x, hs⟩ | ⟨t, -, hint⟩
  · exact h.step hs
  · exact h.interrupt hint

theorem exclusive_step (s : State) (a : Action) (hg : Granted s a) (h : s.lock.Exclusive) :
    (s.step B a).lock.Exclusive := by
  rcases State.step_lock (B := B) s a with ⟨x, hs⟩ | ⟨t, ha, hint⟩
  · exact h.step hs
  · exact absurd hint.1 (hg t ha)

/-- A thread at a `mutex_unlock` is in the stage that leads out. -/
theorem leaving_of_unlocking {s : State} {a : Action} {x : Tid} (h : unlocking s a = some x) :
    ∃ held, s.lock.stage x = .leaving held := by
  cases a with
  | advance t =>
    simp only [unlocking] at h
    split at h
    · next lock hpc =>
        obtain rfl := Option.some.inj h
        exact ⟨_, congrArg CallPc.stage hpc⟩
    · next lock deleteList hpc =>
        obtain rfl := Option.some.inj h
        exact ⟨_, congrArg CallPc.stage hpc⟩
    · cases h
  | scheduler =>
    simp only [unlocking] at h
    split at h
    · next deleteList unloaded hpc =>
        obtain rfl := Option.some.inj h
        exact ⟨_, congrArg SchedulerPc.stage hpc⟩
    · next us ls hpc =>
        obtain rfl := Option.some.inj h
        exact ⟨_, congrArg SchedulerPc.stage hpc⟩
    · cases h
  | invoke t c => cases h
  | interrupt t => cases h

theorem unlocking_of_leaving {s : State} {t : Nat} {held : Bool}
    (h : (s.calls t).stage = .leaving held) : unlocking s (.advance t) = some (.call t) := by
  simp only [unlocking]
  split
  · rfl
  · rfl
  · next hissue hstop =>
      cases hpc : s.calls t with
      | issueUnlock lock => exact absurd hpc (hissue lock)
      | stopUnlock lock deleteList => exact absurd hpc (hstop lock deleteList)
      | _ => rw [hpc] at h; cases h

theorem unlocksOwn_of_exclusive {s : State} (h : s.lock.Exclusive) (a : Action) :
    UnlocksOwn s a := by
  intro x hx
  obtain ⟨held, hleave⟩ := leaving_of_unlocking hx
  exact h.holder hleave

/-- A thread whose wait was broken off stays before its `mutex_unlock` as
long as only holders unlock. -/
theorem failed_wait_kept {s : State} {a : Action} (hc : s.lock.Consistent) (hown : UnlocksOwn s a)
    {t : Nat} (ht : (s.calls t).stage = .leaving false) :
    ((s.step B a).calls t).stage = .leaving false := by
  cases a with
  | advance u =>
    by_cases hu : t = u
    · subst hu
      -- the thread is at its `mutex_unlock`, and it is not the holder
      exact absurd (hown _ (unlocking_of_leaving ht)) (hc.not_holder ht)
    · simpa [State.step, hu] using ht
  | invoke u c =>
    simp only [State.step]
    split
    · next hdone =>
        have hu : t ≠ u := by
          intro heq
          rw [← heq] at hdone
          rw [stage_of_done hdone] at ht
          cases ht
        simpa [hu] using ht
    · exact ht
  | interrupt u =>
    by_cases hu : t = u
    · subst hu
      simpa [State.step, show (s.calls t).interrupted = s.calls t from
        interrupted_eq (by simp [ht])] using ht
    · simpa [State.step, hu] using ht
  | scheduler => exact ht

/-- If only holders unlocked and every call has returned, no wait was broken
off. -/
theorem granted_of_completed (as : List Action) (s : State) (hc : s.lock.Consistent)
    (hal : (threads B).Along UnlocksOwn s as)
    (hdone : ∀ t, (((threads B).run s as).calls t).done = true) :
    (threads B).Along Granted s as := by
  induction as generalizing s with
  | nil => trivial
  | cons a as ih =>
    have hc' : (s.step B a).lock.Consistent := consistent_step s a hc
    refine ⟨?_, ih _ hc' hal.2 hdone⟩
    intro t ha hwait
    subst ha
    have hfailed : ((s.step B (.interrupt t)).calls t).stage = .leaving false := by
      simpa [State.step] using interrupted_stage hwait
    -- the thread is still before its `mutex_unlock` at the end of the run
    have hend := (threads B).inv_of_along
      (P := fun s => s.lock.Consistent ∧ (s.calls t).stage = .leaving false)
      (fun s a hown h => ⟨consistent_step s a h.1, failed_wait_kept h.1 hown h.2⟩) as _
      ⟨hc', hfailed⟩ hal.2
    have hout := stage_of_done (hdone t)
    rw [Machine.run_cons] at hout
    cases hout.symm.trans hend.2

theorem exclusive_loaded : (loaded B).lock.Exclusive := by
  intro x hx
  simp [lock_loaded] at hx

theorem exclusive_after {as : List Action} (h : (threads B).Along Granted (loaded B) as) :
    (State.after B as).lock.Exclusive :=
  (threads B).inv_of_along (P := fun s => s.lock.Exclusive) exclusive_step as _
    exclusive_loaded h

/-- **Lock discipline.** As long as no wait is broken off, `mutex_unlock` is
called only by the holder and at most one thread is in its section; and on a
run at whose end every call has returned, that no wait is broken off is also
necessary. -/
theorem lock_discipline (B : Building) (as : List Action) :
    ((threads B).Along Granted (loaded B) as →
      (threads B).Along UnlocksOwn (loaded B) as ∧
        ∀ pre, pre <+: as → OneInSection (State.after B pre)) ∧
    ((∀ t, ((State.after B as).calls t).done = true) →
      (threads B).Along UnlocksOwn (loaded B) as → (threads B).Along Granted (loaded B) as) := by
  refine ⟨fun hg => ⟨?_, ?_⟩, ?_⟩
  · exact (threads B).along_of_inv (P := fun s => s.lock.Exclusive) exclusive_step
      (fun s a _ h => unlocksOwn_of_exclusive h a) as (loaded B) exclusive_loaded hg
  · rintro pre ⟨post, rfl⟩ x y hx hy
    have hpre := ((threads B).along_append Granted (loaded B) pre post).mp hg
    exact (exclusive_after hpre.1).unique hx hy
  · intro hdone hown
    have hconsistent : (loaded B).lock.Consistent := by
      intro x hx
      cases hx
    exact granted_of_completed as (loaded B) hconsistent hown hdone

/-- Two requests contend for the mutex, and the second one waits. -/
theorem lock_discipline_contended :
    (threads .source).Along UnlocksOwn (loaded .source)
      [.invoke 0 .startElevator, .advance 0, .advance 0, .advance 0,
       .invoke 1 (.issueRequest 1 2 0), .invoke 2 (.issueRequest 1 3 0), .advance 1, .advance 2,
       .advance 1, .advance 2, .advance 1, .advance 1, .advance 2, .advance 2, .advance 2] :=
  ((lock_discipline .source _).1 (by
    simp only [Machine.along_cons, Machine.along_nil, Granted]
    simp)).1

/-- A signal breaks off the wait of caller 2 while caller 1 is in its
section. Caller 2 unlocks the mutex, and caller 3 joins caller 1. -/
theorem interrupted_wait_unlocks :
    (¬ ∀ as, (threads .source).Along UnlocksOwn (loaded .source) as) ∧
      ¬ ∀ as, OneInSection (State.after .source as) := by
  constructor
  · intro h
    have hall := h ([.invoke 0 .startElevator, .advance 0, .advance 0, .advance 0,
      .invoke 1 (.issueRequest 1 2 0), .advance 1, .advance 1,
      .invoke 2 (.issueRequest 1 3 0), .advance 2, .advance 2, .interrupt 2] ++ .advance 2 :: [])
    have hholder := Machine.Along.at _ hall (.call 2) (by decide)
    exact absurd hholder (by decide)
  · intro h
    have hsame := h [.invoke 0 .startElevator, .advance 0, .advance 0, .advance 0,
      .invoke 1 (.issueRequest 1 2 0), .advance 1, .advance 1,
      .invoke 2 (.issueRequest 1 3 0), .advance 2, .advance 2, .interrupt 2, .advance 2,
      .invoke 3 (.issueRequest 1 4 0), .advance 3, .advance 3] (.call 1) (.call 3)
      (Or.inl (by decide)) (Or.inl (by decide))
    cases hsame

end KernelElevator.Threads
