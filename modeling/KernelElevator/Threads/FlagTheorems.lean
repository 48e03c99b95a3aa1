/-
KernelElevator.Threads.FlagTheorems — requests that come too late.

`issue_request` tests `started` before it takes the mutex and `deactiving`
under it. Between the two the request is in flight (`InFlight`). Its second
test protects the queues exactly as long as one of the flags is set while a
request is in flight (`Guarded`): a request that gets past the second test
then finds `started` set.

Three writes can leave both flags clear: the scheduler when it settles, the
second write of `start_elevator`, and the second write of `stop_elevator`
(`ClearsLast`). As long as none of them is made while a request is in flight
nobody is queued while the elevator is not started, and each such write can
be followed by a late passenger (`appends_while_started`).
-/
import KernelElevator.Threads.LockTheorems
import KernelElevator.Module.InvariantTheorems

namespace KernelElevator.Threads

open Transition

variable (B : Building)

/-! ## §1 What one step does to the globals -/

/-- What the step of a caller at the given pc can do. -/
inductive CallEffect (g : Globals) : CallPc → Globals → Prop
  | same (pc : CallPc) : CallEffect g pc g
  | setStarted : CallEffect g .startSetStarted { g with started := true }
  | clearDeactiving : CallEffect g .startClearDeactiving { g with deactiving := false }
  | added {a b k : Int} (hd : g.deactiving = false) :
      CallEffect g (.issueLocked a b k) (addPassenger a b k g)
  | setDeactiving : CallEffect g .stopSetDeactiving { g with deactiving := true }
  | clearStarted : CallEffect g .stopClearStarted { g with started := false }
  | taken : CallEffect g .stopLocked { g with onboard := [] }
  | freed (deleteList : List Passenger) :
      CallEffect g (.stopFree deleteList) { g with freed := g.freed ++ deleteList }

/-- What the scheduler's step at the given pc can do. -/
inductive SchedulerEffect (g : Globals) : SchedulerPc → Globals → Prop
  | same (pc : SchedulerPc) : SchedulerEffect g pc g
  | shown (pc : SchedulerPc) (state : ElevatorState) (seconds : Nat) :
      SchedulerEffect g pc { g with state := state, slept := g.slept + seconds }
  | unloaded : SchedulerEffect g .unloadLocked
      { alighted (alighting g) g with onboard := riding g }
  | tail (deleteList : List Passenger) (unloaded : Bool) (status : Status) :
      SchedulerEffect g (.unloadTail deleteList unloaded)
        { g with freed := g.freed ++ deleteList, status := status }
  | loaded (us : Bool) : SchedulerEffect g (.loadLocked us) (loadLocked B g).1
  | settled (hm : mustMove g = false) (hd : g.deactiving = true) :
      SchedulerEffect g .dispatch { g with state := .offline, deactiving := false }
  | moved (current next : Int) :
      SchedulerEffect g .move { g with currentFloor := current, nextFloor := next }

variable {B}

theorem callStep_effect (t : Nat) (g : Globals) (mutex : Option Tid) (pc : CallPc) :
    CallEffect g pc (callStep B t g mutex pc).1 := by
  cases pc with
  | startSetStarted => exact .setStarted
  | startClearDeactiving => exact .clearDeactiving
  | stopSetDeactiving => exact .setDeactiving
  | stopClearStarted => exact .clearStarted
  | issueLocked a b k =>
    cases hd : g.deactiving with
    | true => simp only [callStep, issueRequestLocked, hd, if_true]; exact .same _
    | false => simp only [callStep, issueRequestLocked, hd]; exact .added hd
  | stopLocked => simp only [callStep, stopElevatorLocked_eq]; exact .taken
  | stopFree deleteList => simp only [callStep, kfreeAll_eq]; exact .freed deleteList
  | issueLock a b k => simp only [callStep]; split <;> exact .same _
  | stopLock => simp only [callStep]; split <;> exact .same _
  | _ => exact .same _

theorem schedulerStep_effect (g : Globals) (mutex : Option Tid) (pc : SchedulerPc) :
    SchedulerEffect B g pc (schedulerStep B g mutex pc).1 := by
  cases pc with
  | top =>
    simp only [schedulerStep, standBy_eq]
    split
    · exact .same _
    · exact .shown _ _ _
  | unloadLock => simp only [schedulerStep]; split <;> exact .same _
  | loadLock us => simp only [schedulerStep]; split <;> exact .same _
  | unloadLocked => simp only [schedulerStep, unloadLocked_eq]; exact .unloaded
  | unloadTail deleteList unloaded =>
    simp only [schedulerStep, unloadTail, kfreeAll_eq]
    split
    · exact .tail deleteList unloaded .uninfected
    · exact .tail deleteList unloaded g.status
  | loadLocked us => exact .loaded us
  | loading us ls =>
    simp only [schedulerStep, loadingPhase, ssleep]
    split
    · exact .shown _ .loading loadTime
    · exact .same _
  | dispatch =>
    cases hm : mustMove g with
    | true => simp only [schedulerStep, hm, changeElevatorState_eq]; exact .shown _ _ _
    | false =>
      cases hd : g.deactiving with
      | true => simp only [schedulerStep, hm, settle, hd]; exact .settled hm hd
      | false => simp only [schedulerStep, hm, settle, hd]; exact .same _
  | move =>
    obtain ⟨current, next, hmove⟩ := moveElevator_frame B g
    simp only [schedulerStep, hmove]
    exact .moved current next
  | _ => exact .same _

/-! ## §2 Requests in flight -/

/-- The request has passed the test of `started` and not yet been queued or
turned away. -/
def CallPc.inFlight : CallPc → Bool
  | .issueLock _ _ _ | .issueLocked _ _ _ => true
  | _ => false

def InFlight (s : State) : Prop := ∃ t, (s.calls t).inFlight = true

/-- The step is a write after which both flags are clear: the scheduler's
when it settles, the second one of a start, the second one of a stop. -/
def ClearsLast (s : State) : Action → Prop
  | .scheduler => s.scheduler = .dispatch ∧ mustMove s.g = false ∧
      s.g.deactiving = true ∧ s.g.started = false
  | .advance t => s.calls t = .startClearDeactiving ∧ s.g.started = false ∨
      s.calls t = .stopClearStarted ∧ s.g.deactiving = false
  | .invoke _ _ | .interrupt _ => False

instance (s : State) : (a : Action) → Decidable (ClearsLast s a)
  | .scheduler => inferInstanceAs (Decidable (_ ∧ _ ∧ _ ∧ _))
  | .advance _ => inferInstanceAs (Decidable (_ ∧ _ ∨ _ ∧ _))
  | .invoke _ _ => .isFalse id
  | .interrupt _ => .isFalse id

/-- No such write is made while a request is in flight. -/
def Orderly (s : State) (a : Action) : Prop := ClearsLast s a → ¬ InFlight s

variable (B)

/-- A passenger is put in a queue only while the elevator is started. -/
def NoLateAppend (s : State) (a : Action) : Prop :=
  ∀ i p, (s.step B a).g.waitingList i = s.g.waitingList i ++ [p] → s.g.started = true

variable {B}

/-- While a request is in flight one of the flags is set. -/
def Guarded (s : State) : Prop :=
  InFlight s → s.g.started = true ∨ s.g.deactiving = true

/-- A thread that changes its pc brings no request in flight, unless its new
pc is one of those. -/
theorem inFlight_update {g g' : Globals} {m m' : Option Tid} {sch sch' : SchedulerPc}
    {calls : Nat → CallPc} {t : Nat} {pc : CallPc}
    (hpc : pc.inFlight = true → (calls t).inFlight = true)
    (h : InFlight ⟨g', m', sch', Function.update calls t pc⟩) : InFlight ⟨g, m, sch, calls⟩ := by
  obtain ⟨u, hu⟩ := h
  by_cases heq : u = t
  · subst heq
    exact ⟨u, hpc (by simpa using hu)⟩
  · exact ⟨u, by simpa [heq] using hu⟩

/-- The one step that brings a request in flight sees `started` set. -/
theorem callStep_inFlight {t : Nat} {g : Globals} {mutex : Option Tid} {pc : CallPc}
    (h : (callStep B t g mutex pc).2.2.inFlight = true) :
    pc.inFlight = true ∨ (callStep B t g mutex pc).1.started = true := by
  cases pc with
  | issueTest a b k =>
    simp only [callStep] at h ⊢
    split at h
    · cases h
    · next hr => exact Or.inr (issueRequestRejects_iff.mp (by simpa using hr)).1
  | issueLock a b k => exact Or.inl rfl
  | issueLocked a b k => exact Or.inl rfl
  | startTest => simp only [callStep] at h; split at h <;> cases h
  | stopTestStarted => simp only [callStep] at h; split at h <;> cases h
  | stopTestDeactiving => simp only [callStep] at h; split at h <;> cases h
  | stopLock => simp only [callStep] at h; split at h <;> cases h
  | _ => cases h

/-- A write that is not the last to clear a flag keeps the guard. -/
theorem guarded_advance {s : State} {t : Nat} (ho : Orderly s (.advance t)) (h : Guarded s) :
    Guarded (s.step B (.advance t)) := by
  intro hfl
  have hstep : s.step B (.advance t)
      = ⟨(callStep B t s.g s.mutex (s.calls t)).1, (callStep B t s.g s.mutex (s.calls t)).2.1,
         s.scheduler, Function.update s.calls t (callStep B t s.g s.mutex (s.calls t)).2.2⟩ := rfl
  by_cases hin : InFlight s
  · have hflag := h hin
    have he := callStep_effect (B := B) t s.g s.mutex (s.calls t)
    rw [hstep]
    generalize hpc : s.calls t = pc at he ⊢
    generalize (callStep B t s.g s.mutex pc).1 = g' at he ⊢
    cases he with
    | same _ => exact hflag
    | setStarted => exact Or.inl rfl
    | setDeactiving => exact Or.inr rfl
    | clearDeactiving =>
      cases hs : s.g.started with
      | true => exact Or.inl rfl
      | false => exact absurd hin (ho (Or.inl ⟨hpc, hs⟩))
    | clearStarted =>
      cases hd : s.g.deactiving with
      | true => exact Or.inr rfl
      | false => exact absurd hin (ho (Or.inr ⟨hpc, hd⟩))
    | added _ => exact hflag
    | taken => exact hflag
    | freed _ => exact hflag
  · -- the request has come in flight just now
    rw [hstep] at hfl ⊢
    by_cases hnew : (callStep B t s.g s.mutex (s.calls t)).2.2.inFlight = true
    · rcases callStep_inFlight hnew with hold | hstarted
      · exact absurd ⟨t, hold⟩ hin
      · exact Or.inl hstarted
    · exact absurd (inFlight_update (fun hpc => absurd hpc hnew) hfl) hin

theorem guarded_scheduler {s : State} (ho : Orderly s .scheduler) (h : Guarded s) :
    Guarded (s.step B .scheduler) := by
  intro hin
  have hflag := h hin
  have he := schedulerStep_effect (B := B) s.g s.mutex s.scheduler
  simp only [State.step]
  generalize hpc : s.scheduler = pc at he ⊢
  generalize (schedulerStep B s.g s.mutex pc).1 = g' at he ⊢
  cases he with
  | settled hm hd =>
    cases hs : s.g.started with
    | true => exact Or.inl rfl
    | false => exact absurd hin (ho ⟨hpc, hm, hd, hs⟩)
  | same _ => exact hflag
  | shown _ _ _ => exact hflag
  | unloaded => exact hflag
  | tail _ _ _ => exact hflag
  | loaded us => rw [loadLocked_eq]; exact hflag
  | moved _ _ => exact hflag

theorem guarded_step (s : State) (a : Action) (ho : Orderly s a) (h : Guarded s) :
    Guarded (s.step B a) := by
  cases a with
  | advance t => exact guarded_advance ho h
  | scheduler => exact guarded_scheduler ho h
  | invoke t c =>
    simp only [State.step]
    split
    · intro hfl
      exact h (inFlight_update (fun hpc => by cases c <;> cases hpc) hfl)
    · exact h
  | interrupt t =>
    intro hfl
    refine h (inFlight_update (fun hpc => ?_) hfl)
    cases hold : s.calls t <;> rw [hold] at hpc <;> first | rfl | cases hpc

/-! ## §3 Queues grow while the elevator is started -/

/-- Loading makes no queue longer. -/
theorem loadLocked_length_le (g : Globals) (i : Int) :
    ((loadLocked B g).1.waitingList i).length ≤ (g.waitingList i).length := by
  have hlen := boarders_length_add (B := B) g
  rw [loadLocked_eq]
  by_cases hi : i = g.currentFloor - 1
  · subst hi
    simp only [Function.update_self]
    omega
  · simp only [Function.update_of_ne hi]
    exact Nat.le_refl _

/-- A queue grows only in the locked section of a request that finds
`deactiving` clear. -/
theorem appends_at_issueLocked {s : State} {a : Action} {i : Int} {p : Passenger}
    (h : (s.step B a).g.waitingList i = s.g.waitingList i ++ [p]) :
    InFlight s ∧ s.g.deactiving = false := by
  cases a with
  | advance t =>
    have he := callStep_effect (B := B) t s.g s.mutex (s.calls t)
    simp only [State.step] at h
    generalize hpc : s.calls t = pc at he h
    generalize (callStep B t s.g s.mutex pc).1 = g' at he h
    cases he with
    | added hd => exact ⟨⟨t, by rw [hpc]; rfl⟩, hd⟩
    | same _ => simp at h
    | setStarted => simp at h
    | clearDeactiving => simp at h
    | setDeactiving => simp at h
    | clearStarted => simp at h
    | taken => simp at h
    | freed _ => simp at h
  | scheduler =>
    have he := schedulerStep_effect (B := B) s.g s.mutex s.scheduler
    simp only [State.step] at h
    generalize s.scheduler = pc at he h
    generalize (schedulerStep B s.g s.mutex pc).1 = g' at he h
    cases he with
    | loaded us =>
      have hlen := loadLocked_length_le (B := B) s.g i
      rw [h] at hlen
      simp at hlen
    | moved _ _ => simp at h
    | same _ => simp at h
    | shown _ _ _ => simp at h
    | unloaded => simp [alighted] at h
    | tail _ _ _ => simp at h
    | settled _ _ => simp at h
  | invoke t c =>
    simp only [State.step] at h
    split at h <;> simp at h
  | interrupt t => simp [State.step] at h

theorem noLateAppend_of_guarded {s : State} (h : Guarded s) (a : Action) :
    NoLateAppend B s a := by
  intro i p happend
  obtain ⟨hin, hd⟩ := appends_at_issueLocked happend
  exact (h hin).resolve_right (by simp [hd])

/-! ## §4 A late passenger -/

variable (B)

/-- Without any signal the run can go on so that somebody is queued late. -/
def CanAppendLate (s : State) : Prop :=
  ∃ post, (∀ u, Action.interrupt u ∉ post) ∧ ¬ (threads B).Along (NoLateAppend B) s post

variable {B}

theorem CanAppendLate.cons {s : State} {a : Action} (h : CanAppendLate B (s.step B a))
    (ha : ∀ u, a ≠ .interrupt u) : CanAppendLate B s := by
  obtain ⟨post, hpost, hlate⟩ := h
  refine ⟨a :: post, ?_, fun hal => hlate hal.2⟩
  intro u hu
  rcases List.mem_cons.mp hu with heq | hmem
  · exact ha u heq.symm
  · exact hpost u hmem

/-- Both flags are clear, and a request of caller `t` waits for the mutex. -/
structure Late (t : Nat) (s : State) : Prop where
  started : s.g.started = false
  deactiving : s.g.deactiving = false
  waits : ∃ a b k, s.calls t = .issueLock a b k

/-- In its locked section the request queues its passenger. -/
theorem canAppendLate_of_locked {s : State} {t : Nat} {a b k : Int}
    (hpc : s.calls t = .issueLocked a b k) (hs : s.g.started = false)
    (hd : s.g.deactiving = false) : CanAppendLate B s := by
  refine ⟨[.advance t], by simp, ?_⟩
  rintro ⟨happend, -⟩
  have hg : (s.step B (.advance t)).g = addPassenger a b k s.g := by
    simp [State.step, hpc, callStep, issueRequestLocked, hd]
  have hstarted := happend (a - 1) ⟨s.g.allocated.length, k, a, b⟩ (by
    rw [hg]
    simp [addPassenger])
  rw [hs] at hstarted
  cases hstarted

theorem Late.free {s : State} {t : Nat} (h : Late t s) (hfree : s.mutex = none) :
    CanAppendLate B s := by
  obtain ⟨hs, hd, a, b, k, hpc⟩ := h
  refine CanAppendLate.cons (a := .advance t) ?_ (by simp)
  have hstep : s.step B (.advance t)
      = ⟨s.g, some (.call t), s.scheduler, Function.update s.calls t (.issueLocked a b k)⟩ := by
    simp [State.step, hpc, callStep, hfree]
  rw [hstep]
  exact canAppendLate_of_locked (t := t) (a := a) (b := b) (k := k) (by simp) hs hd

/-- The action by which thread `x` goes on. -/
def Tid.action : Tid → Action
  | .call t => .advance t
  | .scheduler => .scheduler

theorem Tid.action_ne_interrupt (x : Tid) (u : Nat) : x.action ≠ .interrupt u := by
  cases x <;> simp [Tid.action]

/-- Thread `x` goes on, and neither the flags nor the request of `t` change. -/
theorem Late.other {s : State} {t : Nat} (h : Late t s) {x : Tid} (hx : x ≠ .call t)
    (hs : (s.step B x.action).g.started = s.g.started)
    (hd : (s.step B x.action).g.deactiving = s.g.deactiving) : Late t (s.step B x.action) := by
  obtain ⟨hs0, hd0, a, b, k, hpc⟩ := h
  refine ⟨hs.trans hs0, hd.trans hd0, a, b, k, ?_⟩
  cases x with
  | call u =>
    have hne : t ≠ u := by
      intro heq
      exact hx (by rw [heq])
    simpa [State.step, Tid.action, hne] using hpc
  | scheduler => exact hpc

/-- The holder of the mutex is about to release it. -/
theorem Late.leaving {s : State} {t : Nat} (h : Late t s) {x : Tid} {held : Bool}
    (hx : s.lock.stage x = .leaving held) : CanAppendLate B s := by
  have hne : x ≠ .call t := by
    rintro rfl
    obtain ⟨-, -, a, b, k, hpc⟩ := h
    have hst : (s.calls t).stage = .leaving held := hx
    rw [hpc] at hst
    cases hst
  have hstep : (s.step B x.action).mutex = none ∧ (s.step B x.action).g = s.g := by
    cases x with
    | call u =>
      have hst : (s.calls u).stage = .leaving held := hx
      cases hpc : s.calls u <;> rw [hpc] at hst <;>
        first | cases hst; done | simp [State.step, Tid.action, hpc, callStep]
    | scheduler =>
      have hst : s.scheduler.stage = .leaving held := hx
      cases hpc : s.scheduler <;> rw [hpc] at hst <;>
        first | cases hst; done | simp [State.step, Tid.action, hpc, schedulerStep]
  exact CanAppendLate.cons
    ((h.other hne (by rw [hstep.2]) (by rw [hstep.2])).free hstep.1) x.action_ne_interrupt

/-- The holder of the mutex is in its section. -/
theorem Late.inside {s : State} {t : Nat} (h : Late t s) {x : Tid}
    (hx : s.lock.stage x = .inside) : CanAppendLate B s := by
  have hne : x ≠ .call t := by
    rintro rfl
    obtain ⟨-, -, a, b, k, hpc⟩ := h
    have hst : (s.calls t).stage = .inside := hx
    rw [hpc] at hst
    cases hst
  cases x with
  | call u =>
    have hst : (s.calls u).stage = .inside := hx
    cases hpc : s.calls u with
    | issueLocked a b k => exact canAppendLate_of_locked hpc h.started h.deactiving
    | stopLocked =>
      have hlate : Late t (s.step B (Tid.call u).action) := h.other hne
        (by simp [State.step, Tid.action, hpc, callStep, stopElevatorLocked_eq])
        (by simp [State.step, Tid.action, hpc, callStep, stopElevatorLocked_eq])
      have hleaving : (s.step B (Tid.call u).action).lock.stage (.call u) = .leaving true := by
        simp [State.lock, stages, State.step, Tid.action, hpc, callStep, CallPc.stage]
      exact CanAppendLate.cons (hlate.leaving hleaving) (Tid.action_ne_interrupt _)
    | _ => rw [hpc] at hst; cases hst
  | scheduler =>
    have hst : s.scheduler.stage = .inside := hx
    have hlate : Late t (s.step B Tid.scheduler.action) ∧
        (s.step B Tid.scheduler.action).scheduler.stage = .leaving true := by
      cases hpc : s.scheduler with
      | unloadLocked =>
        refine ⟨h.other hne ?_ ?_, ?_⟩ <;>
          simp [State.step, Tid.action, hpc, schedulerStep, unloadLocked_eq, alighted,
            SchedulerPc.stage]
      | loadLocked us =>
        refine ⟨h.other hne ?_ ?_, ?_⟩ <;>
          simp [State.step, Tid.action, hpc, schedulerStep, loadLocked_eq, boarded,
            SchedulerPc.stage]
      | _ => rw [hpc] at hst; cases hst
    exact CanAppendLate.cons (hlate.1.leaving (x := .scheduler) hlate.2)
      (Tid.action_ne_interrupt _)

/-- Both flags clear and a request in flight: it can come too late. -/
theorem canAppendLate_of_inFlight {s : State} (hc : s.lock.Consistent) (hin : InFlight s)
    (hs : s.g.started = false) (hd : s.g.deactiving = false) : CanAppendLate B s := by
  obtain ⟨t, ht⟩ := hin
  cases hpc : s.calls t with
  | issueLocked a b k => exact canAppendLate_of_locked hpc hs hd
  | issueLock a b k =>
    have hlate : Late t s := ⟨hs, hd, a, b, k, hpc⟩
    cases hm : s.mutex with
    | none => exact hlate.free hm
    | some x =>
      rcases hc x hm with hinside | hleaving
      · exact hlate.inside hinside
      · exact hlate.leaving hleaving
  | _ => rw [hpc] at ht; cases ht

/-- The last write leaves both flags clear and every request in flight. -/
theorem ClearsLast.step {s : State} {a : Action} (h : ClearsLast s a) (hin : InFlight s) :
    InFlight (s.step B a) ∧ (s.step B a).g.started = false ∧
      (s.step B a).g.deactiving = false := by
  obtain ⟨u, hu⟩ := hin
  cases a with
  | scheduler =>
    obtain ⟨hpc, hm, hd, hs⟩ := h
    refine ⟨⟨u, hu⟩, ?_, ?_⟩ <;> simp [State.step, hpc, schedulerStep, hm, settle, hd, hs]
  | advance t =>
    have hne : u ≠ t := by
      rintro rfl
      rcases h with ⟨hpc, -⟩ | ⟨hpc, -⟩ <;> rw [hpc] at hu <;> cases hu
    rcases h with ⟨hpc, hs⟩ | ⟨hpc, hd⟩
    · refine ⟨⟨u, ?_⟩, ?_, ?_⟩ <;> simp [State.step, hpc, callStep, hne, hu, hs]
    · refine ⟨⟨u, ?_⟩, ?_, ?_⟩ <;> simp [State.step, hpc, callStep, hne, hu, hd]
  | invoke t c => exact h.elim
  | interrupt t => exact h.elim

/-- **Late requests.** As long as no write that leaves both flags clear is
made while a request is in flight, passengers are queued only while the
elevator is started; and after such a write the run can go on, without any
signal, so that somebody is queued while it is not. -/
theorem appends_while_started (B : Building) (as : List Action) :
    ((threads B).Along Orderly (loaded B) as →
      (threads B).Along (NoLateAppend B) (loaded B) as) ∧
    ∀ a, ¬ Orderly (State.after B as) a →
      ∃ post, (∀ u, Action.interrupt u ∉ post) ∧
        ¬ (threads B).Along (NoLateAppend B) (State.after B as) (a :: post) := by
  constructor
  · refine (threads B).along_of_inv (P := Guarded) guarded_step
      (fun s a _ h => noLateAppend_of_guarded h a) as (loaded B) ?_
    rintro ⟨t, ht⟩
    cases ht
  · intro a hdisorder
    have hc : (State.after B as).lock.Consistent :=
      (threads B).run_inv (P := fun s => s.lock.Consistent) consistent_step as (loaded B)
        fun x hx => by cases hx
    generalize State.after B as = s at *
    obtain ⟨hclears, hin⟩ : ClearsLast s a ∧ InFlight s := by
      simpa [Orderly, Classical.not_imp] using hdisorder
    obtain ⟨hin', hs, hd⟩ := hclears.step (B := B) hin
    obtain ⟨post, hpost, hlate⟩ := canAppendLate_of_inFlight (consistent_step s a hc) hin' hs hd
    exact ⟨post, hpost, fun hal => hlate hal.2⟩

/-- A request is in flight while a stop is made, and its second test turns
it away. -/
theorem appends_while_started_source :
    (threads .source).Along (NoLateAppend .source) (loaded .source)
      (.invoke 0 .startElevator :: List.replicate 3 (.advance 0)
        ++ .invoke 1 (.issueRequest 1 2 0) :: .advance 1
        :: .invoke 2 .stopElevator :: List.replicate 8 (.advance 2)
        ++ List.replicate 3 (.advance 1)) := by
  refine (appends_while_started .source _).1 ?_
  have hnone : (threads .source).Along (fun s a => ¬ ClearsLast s a) (loaded .source)
      (.invoke 0 .startElevator :: List.replicate 3 (.advance 0)
        ++ .invoke 1 (.issueRequest 1 2 0) :: .advance 1
        :: .invoke 2 .stopElevator :: List.replicate 8 (.advance 2)
        ++ List.replicate 3 (.advance 1)) := by decide
  exact Machine.Along.mono _ (fun s a hno hclears => absurd hclears hno) hnone

/-- A human rides to floor 2. While the cabin is unloaded there a request
passes the test of `started`, a stop is made from beginning to end, and the
scheduler finds nobody left and clears `deactiving`. The request is queued. -/
theorem request_after_stop :
    ¬ ∀ as, (∀ u, Action.interrupt u ∉ as) →
      (threads .source).Along (NoLateAppend .source) (loaded .source) as := by
  intro h
  let before : List (List Action) :=
    [.invoke 0 .startElevator :: List.replicate 3 (.advance 0),
      .invoke 1 (.issueRequest 1 2 0) :: List.replicate 4 (.advance 1),
      List.replicate 17 .scheduler,
      [.invoke 2 (.issueRequest 1 3 0), .advance 2],
      .invoke 3 .stopElevator :: List.replicate 8 (.advance 3),
      List.replicate 6 .scheduler, [.advance 2]]
  have hall := h (before.flatten ++ .advance 2 :: []) (by simp [before])
  have hstarted := Machine.Along.at _ hall 0 ⟨1, 0, 1, 3⟩ (by decide +kernel)
  exact absurd hstarted (by decide +kernel)

end KernelElevator.Threads
