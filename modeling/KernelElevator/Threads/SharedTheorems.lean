/-
KernelElevator.Threads.SharedTheorems — the shared data under any interleaving.

`Module.InvariantTheorems` and `Module.RecordTheorems` take a call or a phase
as one step. Here its steps are interleaved with those of any number of
callers. As long as no signal breaks off a wait for the mutex, what the
module keeps in its lists and counters is right at every single step
(`shared_data_right`), also in the middle of a call, where a flag has been
written and another not, and where records are on a local `delete_list`.

  §1 Places — every record is on one list, local ones included;
  §2 Cabin  — between the two halves of `unloadPassengers` the status still
              waits to be reset: `SchedulerPc.settled` are the globals as the
              second half will leave them;
  §3 The whole.
-/
import KernelElevator.Threads.FlagTheorems
import KernelElevator.Module.RecordTheorems
import KernelElevator.Machine.Partition

namespace KernelElevator.Threads

open Transition

variable {B : Building}

/-! ## §1 Places -/

/-- The records on the local `delete_list` of a call. -/
def CallPc.deleteList : CallPc → List Passenger
  | .stopUnlock _ deleteList | .stopFree deleteList => deleteList
  | _ => []

/-- The records on the `delete_list` of `unloadPassengers`. -/
def SchedulerPc.deleteList : SchedulerPc → List Passenger
  | .unloadUnlock deleteList _ | .unloadTail deleteList _ => deleteList
  | _ => []

/-- Where a record can be. -/
inductive Place where
  | waiting (i : Int)
  | onboard
  | freed
  | call (t : Nat)
  | scheduler
  deriving DecidableEq, Repr

def State.place (s : State) : Place → List Passenger
  | .waiting i => s.g.waitingList i
  | .onboard => s.g.onboard
  | .freed => s.g.freed
  | .call t => (s.calls t).deleteList
  | .scheduler => s.scheduler.deleteList

theorem place_congr {s s' : State} (hwaiting : s'.g.waitingList = s.g.waitingList)
    (honboard : s'.g.onboard = s.g.onboard) (hfreed : s'.g.freed = s.g.freed)
    (hcalls : ∀ t, (s'.calls t).deleteList = (s.calls t).deleteList)
    (hscheduler : s'.scheduler.deleteList = s.scheduler.deleteList) : s'.place = s.place := by
  funext x
  cases x with
  | waiting i => exact congrFun hwaiting i
  | onboard => exact honboard
  | freed => exact hfreed
  | call t => exact hcalls t
  | scheduler => exact hscheduler

theorem shift_stay {s s' : State} (hplace : s'.place = s.place)
    (hall : s'.g.allocated = s.g.allocated) :
    Shift s.place s.g.allocated s'.place s'.g.allocated := by
  rw [hplace, hall]
  exact .stay

/-- Two steps of a call put something on its `delete_list` or take it off. -/
theorem callStep_deleteList (t : Nat) (g : Globals) (mutex : Option Tid) {pc : CallPc}
    (hlocked : pc ≠ .stopLocked) (hfree : ∀ dl, pc ≠ .stopFree dl) :
    (callStep B t g mutex pc).2.2.deleteList = pc.deleteList := by
  cases pc with
  | stopLocked => exact absurd rfl hlocked
  | stopFree dl => exact absurd rfl (hfree dl)
  | startTest => simp only [callStep]; split <;> rfl
  | issueTest a b k => simp only [callStep]; split <;> rfl
  | issueLock a b k => simp only [callStep]; split <;> rfl
  | stopTestStarted => simp only [callStep]; split <;> rfl
  | stopTestDeactiving => simp only [callStep]; split <;> rfl
  | stopLock => simp only [callStep]; split <;> rfl
  | _ => rfl

theorem deleteList_update (calls : Nat → CallPc) {t : Nat} {pc : CallPc}
    (h : pc.deleteList = (calls t).deleteList) (u : Nat) :
    (Function.update calls t pc u).deleteList = (calls u).deleteList := by
  rcases eq_or_ne u t with rfl | hu
  · rwa [Function.update_self]
  · rw [Function.update_of_ne hu]

/-- The place of the caller `t` once its pc has changed. -/
theorem place_update (g : Globals) (m : Option Tid) (sch : SchedulerPc) (calls : Nat → CallPc)
    (t : Nat) (pc : CallPc) :
    State.place ⟨g, m, sch, Function.update calls t pc⟩
      = Function.update (State.place ⟨g, m, sch, calls⟩) (.call t) pc.deleteList := by
  funext x
  cases x with
  | call u =>
    rcases eq_or_ne u t with rfl | hu
    · simp [State.place]
    · simp [State.place, hu]
  | _ => simp [State.place]

/-- Those on board go to `delete_list`. -/
theorem shift_stopLocked {s : State} {t : Nat} (h : s.calls t = .stopLocked) :
    Shift s.place s.g.allocated (s.step B (.advance t)).place
      (s.step B (.advance t)).g.allocated := by
  simp only [State.step, h, callStep, stopElevatorLocked_eq]
  rw [place_update]
  have hboard : State.place ⟨{ s.g with onboard := [] }, s.mutex, s.scheduler, s.calls⟩
      = Function.update s.place .onboard [] := by
    funext x
    cases x <;> simp [State.place]
  rw [hboard]
  refine .move _ _ (fun heq => Place.noConfusion heq) _ _ ?_
  simp [State.place, h, CallPc.deleteList]

/-- The records on `delete_list` are freed. -/
theorem shift_stopFree {s : State} {t : Nat} {dl : List Passenger}
    (h : s.calls t = .stopFree dl) :
    Shift s.place s.g.allocated (s.step B (.advance t)).place
      (s.step B (.advance t)).g.allocated := by
  simp only [State.step, h, callStep, kfreeAll_eq]
  rw [place_update]
  have hfreed : State.place ⟨{ s.g with freed := s.g.freed ++ dl }, s.mutex, s.scheduler, s.calls⟩
      = Function.update s.place .freed (s.g.freed ++ dl) := by
    funext x
    cases x <;> simp [State.place]
  rw [hfreed, Function.update_comm fun heq => Place.noConfusion heq]
  refine .move (.call t) .freed (fun heq => Place.noConfusion heq) [] (s.g.freed ++ dl) ?_
  simpa [State.place, h, CallPc.deleteList] using List.perm_append_comm

/-- A new record goes to the queue of its floor. -/
theorem shift_issueLocked {s : State} {t : Nat} {a b k : Int}
    (hnode : ∀ p ∈ s.g.allocated, p.node < s.g.allocated.length)
    (h : s.calls t = .issueLocked a b k) :
    Shift s.place s.g.allocated (s.step B (.advance t)).place
      (s.step B (.advance t)).g.allocated := by
  have hdl : (s.calls t).deleteList = [] := by
    rw [h]
    rfl
  have hcall : Function.update s.place (.call t) [] = s.place := by
    rw [← hdl]
    exact Function.update_eq_self _ _
  simp only [State.step, h, callStep, issueRequestLocked]
  rw [place_update]
  cases hd : s.g.deactiving with
  | true =>
    simp only [if_true, Option.getD_some]
    change Shift s.place _ (Function.update s.place (.call t) []) _
    rw [hcall]
    exact .stay
  | false =>
    have hadd : State.place ⟨addPassenger a b k s.g, s.mutex, s.scheduler, s.calls⟩
        = Function.update s.place (.waiting (a - 1))
            (s.g.waitingList (a - 1) ++ [⟨s.g.allocated.length, k, a, b⟩]) := by
      funext x
      cases x with
      | waiting i =>
        rcases eq_or_ne i (a - 1) with rfl | hi
        · simp [State.place, addPassenger]
        · simp [State.place, addPassenger, hi]
      | _ => simp [State.place, addPassenger]
    have hnew : (⟨s.g.allocated.length, k, a, b⟩ : Passenger) ∉ s.g.allocated := fun hmem =>
      Nat.lt_irrefl _ (hnode _ hmem)
    simp only [Bool.false_eq_true, if_false, Option.getD_some]
    rw [hadd, Function.update_comm fun heq => Place.noConfusion heq]
    change Shift s.place _ (Function.update (Function.update s.place (.call t) []) _ _) _
    rw [hcall]
    exact .add (Place.waiting (a - 1)) _ hnew

/-- The steps of a call move records as the source says. -/
theorem advance_shift (s : State) (t : Nat)
    (hnode : ∀ p ∈ s.g.allocated, p.node < s.g.allocated.length) :
    Shift s.place s.g.allocated (s.step B (.advance t)).place
      (s.step B (.advance t)).g.allocated := by
  by_cases hlocked : s.calls t = .stopLocked
  · exact shift_stopLocked hlocked
  by_cases hfree : ∃ dl, s.calls t = .stopFree dl
  · obtain ⟨dl, hfree⟩ := hfree
    exact shift_stopFree hfree
  by_cases hissue : ∃ a b k, s.calls t = .issueLocked a b k
  · obtain ⟨a, b, k, hissue⟩ := hissue
    exact shift_issueLocked hnode hissue
  -- every other step leaves the lists alone
  have hdl := callStep_deleteList (B := B) t s.g s.mutex hlocked fun dl hdl => hfree ⟨dl, hdl⟩
  have he := callStep_effect (B := B) t s.g s.mutex (s.calls t)
  simp only [State.step]
  generalize hpc : s.calls t = pc at *
  generalize (callStep B t s.g s.mutex pc).1 = g' at he ⊢
  have hcalls := fun u => deleteList_update s.calls
    (hdl.trans (congrArg CallPc.deleteList hpc.symm)) u
  cases he with
  | added _ => exact absurd ⟨_, _, _, rfl⟩ hissue
  | taken => exact absurd rfl hlocked
  | freed dl => exact absurd ⟨dl, rfl⟩ hfree
  | _ => exact shift_stay (place_congr rfl rfl rfl hcalls rfl) rfl

/-- The second half of `unloadPassengers`. -/
theorem unloadTail_eq (dl : List Passenger) (g : Globals) :
    unloadTail dl g = { g with
      freed := g.freed ++ dl
      status := if g.loads = 0 then .uninfected else g.status } := by
  by_cases h : g.loads = 0 <;> simp [unloadTail, kfreeAll_eq, h]

/-- Two steps of the scheduler put something on `delete_list` or take it
off. -/
theorem schedulerStep_deleteList (g : Globals) (mutex : Option Tid) {pc : SchedulerPc}
    (hlocked : pc ≠ .unloadLocked) (htail : ∀ dl unloaded, pc ≠ .unloadTail dl unloaded) :
    (schedulerStep B g mutex pc).2.2.deleteList = pc.deleteList := by
  cases pc with
  | unloadLocked => exact absurd rfl hlocked
  | unloadTail dl unloaded => exact absurd rfl (htail dl unloaded)
  | top => simp only [schedulerStep]; split <;> rfl
  | unloadLock => simp only [schedulerStep]; split <;> rfl
  | room us => simp only [schedulerStep]; split <;> rfl
  | loadLock us => simp only [schedulerStep]; split <;> rfl
  | dispatch => simp only [schedulerStep]; split <;> rfl
  | _ => rfl

/-- Those who get off go to `delete_list`. -/
theorem shift_unloadLocked {s : State} (h : s.scheduler = .unloadLocked) :
    Shift s.place s.g.allocated (s.step B .scheduler).place (s.step B .scheduler).g.allocated := by
  have hmove : State.place ⟨{ alighted (alighting s.g) s.g with onboard := riding s.g }, s.mutex,
      .unloadUnlock (alighting s.g) (decide (alighting s.g ≠ [])), s.calls⟩
      = Function.update (Function.update s.place .onboard (riding s.g)) .scheduler
          (alighting s.g) := by
    funext x
    cases x <;> simp [State.place, SchedulerPc.deleteList, alighted]
  simp only [State.step, h, schedulerStep, unloadLocked_eq, hmove]
  refine .move _ _ (fun heq => Place.noConfusion heq) _ _ ?_
  have hperm := List.perm_append_comm.trans (alighting_append_riding_perm s.g)
  simpa [State.place, h, SchedulerPc.deleteList] using hperm

/-- The records on `delete_list` are freed. -/
theorem shift_unloadTail {s : State} {dl : List Passenger} {unloaded : Bool}
    (h : s.scheduler = .unloadTail dl unloaded) :
    Shift s.place s.g.allocated (s.step B .scheduler).place (s.step B .scheduler).g.allocated := by
  have hmove : ∀ status, State.place ⟨{ s.g with freed := s.g.freed ++ dl, status := status },
      s.mutex, .room unloaded, s.calls⟩
      = Function.update (Function.update s.place .scheduler []) .freed (s.g.freed ++ dl) := by
    intro status
    funext x
    cases x <;> simp [State.place, SchedulerPc.deleteList]
  simp only [State.step, h, schedulerStep, unloadTail_eq, hmove]
  refine .move Place.scheduler Place.freed (fun heq => Place.noConfusion heq) [] _ ?_
  simpa [State.place, h, SchedulerPc.deleteList] using List.perm_append_comm

/-- Those who board go from their queue to the cabin. -/
theorem shift_loadLocked {s : State} {us : Bool} (h : s.scheduler = .loadLocked us) :
    Shift s.place s.g.allocated (s.step B .scheduler).place (s.step B .scheduler).g.allocated := by
  have hmove : State.place ⟨(loadLocked B s.g).1, s.mutex,
      .loadUnlock us (loadLocked B s.g).2, s.calls⟩
      = Function.update (Function.update s.place (.waiting (s.g.currentFloor - 1)) (stayers B s.g))
          .onboard (s.g.onboard ++ boarders B s.g) := by
    rw [loadLocked_eq]
    funext x
    cases x with
    | waiting i =>
      rcases eq_or_ne i (s.g.currentFloor - 1) with rfl | hi
      · simp [State.place]
      · simp [State.place, hi]
    | scheduler => simp [State.place, SchedulerPc.deleteList, h]
    | _ => simp [State.place, boarded]
  have hall : (loadLocked B s.g).1.allocated = s.g.allocated := by
    rw [loadLocked_eq]
    rfl
  simp only [State.step, h, schedulerStep, hmove, hall]
  refine .move _ _ (fun heq => Place.noConfusion heq) _ _ ?_
  have hrotate : (stayers B s.g ++ (s.g.onboard ++ boarders B s.g)).Perm
      (s.g.onboard ++ (boarders B s.g ++ stayers B s.g)) := by
    rw [← List.append_assoc s.g.onboard]
    exact List.perm_append_comm
  exact hrotate.trans (List.perm_append_comm.trans ((boarders_perm s.g).append_right _))

/-- The steps of the scheduler move records as the source says. -/
theorem scheduler_shift (s : State) :
    Shift s.place s.g.allocated (s.step B .scheduler).place (s.step B .scheduler).g.allocated := by
  by_cases hlocked : s.scheduler = .unloadLocked
  · exact shift_unloadLocked hlocked
  by_cases htail : ∃ dl unloaded, s.scheduler = .unloadTail dl unloaded
  · obtain ⟨dl, unloaded, htail⟩ := htail
    exact shift_unloadTail htail
  by_cases hload : ∃ us, s.scheduler = .loadLocked us
  · obtain ⟨us, hload⟩ := hload
    exact shift_loadLocked hload
  -- every other step leaves the lists alone
  have hdl := schedulerStep_deleteList (B := B) s.g s.mutex hlocked
    fun dl unloaded hdl => htail ⟨dl, unloaded, hdl⟩
  have he := schedulerStep_effect (B := B) s.g s.mutex s.scheduler
  simp only [State.step]
  generalize hpc : s.scheduler = pc at *
  generalize (schedulerStep B s.g s.mutex pc).1 = g' at he ⊢
  have hscheduler := hdl.trans (congrArg SchedulerPc.deleteList hpc.symm)
  cases he with
  | unloaded => exact absurd rfl hlocked
  | tail dl unloaded _ => exact absurd ⟨dl, unloaded, rfl⟩ htail
  | loaded us => exact absurd ⟨us, rfl⟩ hload
  | _ => exact shift_stay (place_congr rfl rfl rfl (fun _ => rfl) hscheduler) rfl

/-! ## §2 Cabin -/

/-- The globals as the second half of `unloadPassengers` will leave them, if
the scheduler is in front of it. -/
def SchedulerPc.settled (pc : SchedulerPc) (g : Globals) : Globals :=
  match pc with
  | .unloadUnlock deleteList _ | .unloadTail deleteList _ =>
    KernelElevator.unloadTail deleteList g
  | _ => g

theorem settled_cabin (pc : SchedulerPc) (g : Globals) :
    (pc.settled g).onboard = g.onboard ∧ (pc.settled g).loads = g.loads ∧
      ((pc.settled g).status = g.status ∨
        (pc.settled g).status = .uninfected ∧ g.loads = 0) := by
  have htail : ∀ dl, (unloadTail dl g).onboard = g.onboard ∧ (unloadTail dl g).loads = g.loads ∧
      ((unloadTail dl g).status = g.status ∨
        (unloadTail dl g).status = .uninfected ∧ g.loads = 0) := by
    intro dl
    rw [unloadTail_eq]
    refine ⟨rfl, rfl, ?_⟩
    by_cases h : g.loads = 0
    · exact Or.inr ⟨if_pos h, h⟩
    · exact Or.inl (if_neg h)
  cases pc with
  | unloadUnlock dl unloaded => exact htail dl
  | unloadTail dl unloaded => exact htail dl
  | _ => exact ⟨rfl, rfl, Or.inl rfl⟩

/-- What is read off the cabin alone. -/
theorem settled_congr (pc : SchedulerPc) {g g' : Globals} (honboard : g'.onboard = g.onboard)
    (hloads : g'.loads = g.loads) (hstatus : g'.status = g.status)
    (h : CabinInv B (pc.settled g)) : CabinInv B (pc.settled g') := by
  have hstatus' : (pc.settled g').status = (pc.settled g).status := by
    cases pc <;> simp [SchedulerPc.settled, unloadTail_eq, hstatus, hloads]
  obtain ⟨hon, hl, -⟩ := settled_cabin pc g
  obtain ⟨hon', hl', -⟩ := settled_cabin pc g'
  obtain ⟨h1, h2, h3, h4⟩ := h
  rw [hon, hl] at h1
  rw [hl] at h2
  rw [hon] at h3
  rw [hl] at h4
  refine ⟨?_, ?_, ?_, ?_⟩
  · rwa [hon', hl', honboard, hloads]
  · rwa [hl', hloads]
  · rwa [hon', honboard, hstatus']
  · rwa [hstatus', hl', hloads]

/-- A stop may empty the cabin at any moment. -/
theorem settled_taken (pc : SchedulerPc) {g : Globals} (h : CabinInv B (pc.settled g)) :
    CabinInv B (pc.settled { g with onboard := [] }) := by
  have hstatus : (pc.settled { g with onboard := [] }).status = (pc.settled g).status := by
    cases pc <;> simp [SchedulerPc.settled, unloadTail_eq]
  obtain ⟨-, hl, -⟩ := settled_cabin pc g
  obtain ⟨hon', hl', -⟩ := settled_cabin pc { g with onboard := [] }
  have hnonneg := h.onboard_le_loads
  have hcap := h.loads_le_capacity
  have hinf := h.loads_pos_of_infected
  refine ⟨?_, ?_, ?_, ?_⟩
  · rw [hon', hl', List.length_nil]
    rw [hl] at hnonneg
    exact Int.le_trans (by omega) hnonneg
  · rwa [hl', ← hl]
  · rw [hon']
    exact fun p hp => absurd hp List.not_mem_nil
  · rwa [hstatus, hl', ← hl]

theorem settled_scheduler {s : State} (h : CabinInv B (s.scheduler.settled s.g)) :
    CabinInv B ((s.step B .scheduler).scheduler.settled (s.step B .scheduler).g) := by
  simp only [State.step]
  generalize s.scheduler = pc at h ⊢
  generalize s.g = g at h ⊢
  cases pc with
  | top =>
    simp only [schedulerStep]
    split
    · exact h
    · rw [standBy_eq]
      exact settled_congr (g := g) .top rfl rfl rfl h
  | unloadLock => simp only [schedulerStep]; split <;> exact h
  | unloadLocked =>
    have hunload := CabinInv.unload (B := B) h
    simp only [schedulerStep]
    exact hunload
  | unloadUnlock dl unloaded => exact h
  | unloadTail dl unloaded => exact h
  | room us => simp only [schedulerStep]; split <;> exact h
  | loadLock us => simp only [schedulerStep]; split <;> exact h
  | loadLocked us => exact CabinInv.load h
  | loadUnlock us ls => exact h
  | loading us ls =>
    simp only [schedulerStep, loadingPhase_eq]
    exact settled_congr (g := g) .dispatch rfl rfl rfl h
  | dispatch =>
    simp only [schedulerStep, changeElevatorState_eq, ssleep, settle]
    split
    · exact settled_congr (g := g) .move rfl rfl rfl h
    · split
      · exact settled_congr (g := g) .top rfl rfl rfl h
      · exact h
  | move =>
    obtain ⟨current, next, hmove⟩ := moveElevator_frame B g
    simp only [schedulerStep, hmove]
    exact settled_congr (g := g) .top rfl rfl rfl h

/-! ## §3 The whole -/

variable (B)

/-- A request that has passed the tests of its arguments. -/
def CallPc.Asked : CallPc → Prop
  | .issueLock startFloor destinationFloor type | .issueLocked startFloor destinationFloor type =>
    Requestable B startFloor destinationFloor type
  | _ => True

/-- What holds of the shared data at every step. -/
structure State.Inv (s : State) : Prop where
  records : Partitions s.place s.g.allocated
  node_lt : ∀ p ∈ s.g.allocated, p.node < s.g.allocated.length
  queues : QueueInv B s.g
  cabin : CabinInv B (s.scheduler.settled s.g)
  sweep : ∃ k, OnSweep B k s.g
  heading_eq : s.scheduler = .move → s.g.state = heading s.g
  asked : ∀ t, (s.calls t).Asked B

variable {B}

theorem node_lt_add {g : Globals} (h : ∀ p ∈ g.allocated, p.node < g.allocated.length)
    (a b k : Int) : ∀ p ∈ (addPassenger a b k g).allocated,
      p.node < (addPassenger a b k g).allocated.length := by
  intro p hp
  simp only [addPassenger, List.mem_append, List.mem_singleton, List.length_append,
    List.length_singleton] at hp ⊢
  rcases hp with hp | rfl
  · exact Nat.lt_succ_of_lt (h p hp)
  · exact Nat.lt_succ_self _

theorem callStep_asked (t : Nat) (g : Globals) (mutex : Option Tid) {pc : CallPc}
    (h : pc.Asked B) : (callStep B t g mutex pc).2.2.Asked B := by
  cases pc with
  | issueTest a b k =>
    simp only [callStep]
    split
    · trivial
    · next hr => exact (issueRequestRejects_iff.mp (by simpa using hr)).2
  | issueLock a b k => simp only [callStep]; split <;> exact h
  | startTest => simp only [callStep]; split <;> trivial
  | stopTestStarted => simp only [callStep]; split <;> trivial
  | stopTestDeactiving => simp only [callStep]; split <;> trivial
  | stopLock => simp only [callStep]; split <;> trivial
  | _ => trivial

theorem asked_update {calls : Nat → CallPc} (h : ∀ t, (calls t).Asked B) (t : Nat) {pc : CallPc}
    (hpc : pc.Asked B) (u : Nat) : (Function.update calls t pc u).Asked B := by
  rcases eq_or_ne u t with rfl | hu
  · rwa [Function.update_self]
  · rw [Function.update_of_ne hu]
    exact h u

theorem State.Inv.advance {s : State} (h : s.Inv B) (t : Nat) :
    (s.step B (.advance t)).Inv B := by
  obtain ⟨hrec, hnode, hqueues, hcabin, ⟨k, hk⟩, hheading, hasked⟩ := h
  have hrec' := hrec.shift (advance_shift (B := B) s t hnode)
  have hasked' := asked_update hasked t (callStep_asked t s.g s.mutex (hasked t))
  have he := callStep_effect (B := B) t s.g s.mutex (s.calls t)
  have hreq := hasked t
  simp only [State.step] at hrec' ⊢
  generalize hpc : s.calls t = pc at *
  generalize (callStep B t s.g s.mutex pc).1 = g' at *
  cases he with
  | added hd =>
    exact ⟨hrec', node_lt_add hnode _ _ _, hqueues.add hreq,
      settled_congr (g := s.g) s.scheduler rfl rfl rfl hcabin, ⟨k, hk.congr rfl rfl⟩, hheading,
      hasked'⟩
  | taken =>
    exact ⟨hrec', hnode, ⟨by simp, hqueues.2, hqueues.3, hqueues.4⟩,
      settled_taken s.scheduler hcabin, ⟨k, hk.congr rfl rfl⟩, hheading, hasked'⟩
  | same _ => exact ⟨hrec', hnode, hqueues, hcabin, ⟨k, hk⟩, hheading, hasked'⟩
  | _ =>
    exact ⟨hrec', hnode, ⟨hqueues.1, hqueues.2, hqueues.3, hqueues.4⟩,
      settled_congr (g := s.g) s.scheduler rfl rfl rfl hcabin, ⟨k, hk.congr rfl rfl⟩, hheading,
      hasked'⟩

/-- A move is due only after the dispatch. -/
theorem dispatch_of_schedulerStep {g : Globals} {mutex : Option Tid} {pc : SchedulerPc}
    (h : (schedulerStep B g mutex pc).2.2 = .move) : pc = .dispatch := by
  cases pc with
  | dispatch => rfl
  | top => simp only [schedulerStep] at h; split at h <;> cases h
  | unloadLock => simp only [schedulerStep] at h; split at h <;> cases h
  | room us => simp only [schedulerStep] at h; split at h <;> cases h
  | loadLock us => simp only [schedulerStep] at h; split at h <;> cases h
  | _ => cases h

/-- The position and the direction change as in the coarse module: a move
goes where the state says, and only a departure makes a move due. -/
theorem scheduler_sweep {s : State} (hsweep : ∃ k, OnSweep B k s.g)
    (hheading : s.scheduler = .move → s.g.state = heading s.g) :
    (∃ k, OnSweep B k (s.step B .scheduler).g) ∧
      ((s.step B .scheduler).scheduler = .move →
        (s.step B .scheduler).g.state = heading (s.step B .scheduler).g) := by
  obtain ⟨k, hk⟩ := hsweep
  by_cases hmove : s.scheduler = .move
  · simp only [State.step, hmove, schedulerStep]
    exact ⟨⟨k + 1, hk.move (hheading hmove)⟩, fun heq => SchedulerPc.noConfusion heq⟩
  by_cases hdispatch : s.scheduler = .dispatch
  · simp only [State.step, hdispatch, schedulerStep, changeElevatorState_eq, ssleep, settle]
    split
    · exact ⟨⟨k, hk.congr rfl rfl⟩, fun _ => rfl⟩
    · split
      · exact ⟨⟨k, hk.congr rfl rfl⟩, fun heq => SchedulerPc.noConfusion heq⟩
      · exact ⟨⟨k, hk⟩, fun heq => SchedulerPc.noConfusion heq⟩
  -- no other step moves, and no other leads to a move
  have he := schedulerStep_effect (B := B) s.g s.mutex s.scheduler
  have hnext : (schedulerStep B s.g s.mutex s.scheduler).2.2 ≠ .move := fun heq =>
    hdispatch (dispatch_of_schedulerStep heq)
  refine ⟨⟨k, ?_⟩, fun heq => absurd heq hnext⟩
  simp only [State.step]
  generalize hpc : s.scheduler = pc at *
  generalize (schedulerStep B s.g s.mutex pc).1 = g' at he ⊢
  cases he with
  | moved _ _ => exact absurd rfl hmove
  | same _ => exact hk
  | loaded us => rw [loadLocked_eq]; exact hk.congr rfl rfl
  | _ => exact hk.congr rfl rfl

theorem State.Inv.scheduler {s : State} (h : s.Inv B) : (s.step B .scheduler).Inv B := by
  obtain ⟨hrec, hnode, hqueues, hcabin, hsweep, hheading, hasked⟩ := h
  have hrec' := hrec.shift (scheduler_shift (B := B) s)
  have hcabin' := settled_scheduler hcabin
  obtain ⟨hsweep', hheading'⟩ := scheduler_sweep hsweep hheading
  have he := schedulerStep_effect (B := B) s.g s.mutex s.scheduler
  simp only [State.step] at *
  generalize hpc : s.scheduler = pc at *
  generalize (schedulerStep B s.g s.mutex pc).1 = g' at *
  cases he with
  | loaded us =>
    have hall : (loadLocked B s.g).1.allocated = s.g.allocated := by
      rw [loadLocked_eq]
      rfl
    exact ⟨hrec', hall ▸ hnode, hqueues.load, hcabin', hsweep', hheading', hasked⟩
  | unloaded =>
    exact ⟨hrec', hnode, ⟨fun p hp => hqueues.onboard_ok p (mem_riding.mp hp).1, hqueues.2,
      hqueues.3, hqueues.4⟩, hcabin', hsweep', hheading', hasked⟩
  | same _ => exact ⟨hrec', hnode, hqueues, hcabin', hsweep', hheading', hasked⟩
  | _ =>
    exact ⟨hrec', hnode, ⟨hqueues.1, hqueues.2, hqueues.3, hqueues.4⟩, hcabin', hsweep',
      hheading', hasked⟩

theorem entry_deleteList (c : Call) : (CallPc.entry c).deleteList = [] := by
  cases c <;> rfl

theorem deleteList_of_done {pc : CallPc} (h : pc.done = true) : pc.deleteList = [] := by
  cases pc <;> first | rfl | cases h

theorem State.Inv.invoke {s : State} (h : s.Inv B) (t : Nat) (c : Call) :
    (s.step B (.invoke t c)).Inv B := by
  simp only [State.step]
  split
  · next hdone =>
      have hdl := (entry_deleteList c).trans (deleteList_of_done hdone).symm
      have hplace :
          State.place { s with calls := Function.update s.calls t (.entry c) } = s.place :=
        place_congr rfl rfl rfl (deleteList_update s.calls hdl) rfl
      have hentry : (CallPc.entry c).Asked B := by
        cases c <;> trivial
      exact ⟨hplace ▸ h.records, h.node_lt, h.queues, h.cabin, h.sweep, h.heading_eq,
        asked_update h.asked t hentry⟩
  · exact h

theorem loaded_shared : (Threads.loaded B).Inv B := by
  have hwf : (KernelElevator.loaded B).g.Wf B := loaded_wf
  have hnil : (Threads.loaded B).place = fun _ => [] := by
    funext x
    cases x <;> simp [State.place, Threads.loaded, KernelElevator.loaded, setupElevator, bss,
      CallPc.deleteList, SchedulerPc.deleteList]
  refine ⟨?_, ?_, hwf.queues, hwf.cabin, ⟨0, loaded_onSweep⟩,
    fun heq => SchedulerPc.noConfusion heq, fun _ => trivial⟩
  · rw [hnil]
    exact ⟨fun _ => List.nodup_nil, fun _ _ _ ha => absurd ha List.not_mem_nil,
      by simp [Threads.loaded, KernelElevator.loaded, setupElevator, bss]⟩
  · simp [Threads.loaded, KernelElevator.loaded, setupElevator, bss]

theorem State.Inv.step {s : State} (a : Action) (hgranted : Granted s a) (h : s.Inv B) :
    (s.step B a).Inv B := by
  cases a with
  | invoke t c => exact h.invoke t c
  | advance t => exact h.advance t
  | scheduler => exact h.scheduler
  | interrupt t =>
    have hsame : s.step B (.interrupt t) = s := by
      simp only [State.step, interrupted_eq (hgranted t rfl), Function.update_eq_self]
    rwa [hsame]

theorem State.inv_after {as : List Action} (h : (threads B).Along Granted (loaded B) as) :
    (State.after B as).Inv B :=
  (threads B).inv_of_along (P := fun s => s.Inv B) (fun _ a hg hs => hs.step a hg) as _
    loaded_shared h

variable (B) in
/-- What readers and callers rely on, at any moment. -/
structure State.DataRight (s : State) : Prop where
  records : Partitions s.place s.g.allocated
  waitingOnFloor_eq : ∀ i, s.g.waitingOnFloor i = (s.g.waitingList i).length
  numWaiting_eq : s.g.numWaiting = totalWaiting B s.g
  onboard_le_loads : (s.g.onboard.length : Int) ≤ s.g.loads
  loads_le_capacity : s.g.loads ≤ B.capacity
  infected_of_zombie : ∀ p ∈ s.g.onboard, p.type = 1 → s.g.status = .infected
  floor_range : 1 ≤ s.g.currentFloor ∧ s.g.currentFloor ≤ B.floors

theorem State.Inv.dataRight {s : State} (hinv : s.Inv B) : s.DataRight B := by
  obtain ⟨hon, hloads, hstatus⟩ := settled_cabin s.scheduler s.g
  obtain ⟨k, hk⟩ := hinv.sweep
  refine ⟨hinv.records, hinv.queues.waitingOnFloor_eq, hinv.queues.numWaiting_eq, ?_, ?_, ?_,
    hk.floor_range⟩
  · rw [← hon, ← hloads]
    exact hinv.cabin.onboard_le_loads
  · rw [← hloads]
    exact hinv.cabin.loads_le_capacity
  · intro p hp hz
    have hinfected := hinv.cabin.infected_of_zombie p (hon ▸ hp) hz
    rcases hstatus with heq | ⟨heq, -⟩
    · rw [← heq, hinfected]
    · rw [hinfected] at heq
      cases heq

/-- **The shared data is right at every step** of any number of concurrent
calls, as long as no signal breaks off a wait for the mutex: each record is
on exactly one list, the lists of calls in progress and of the scheduler
included, and has been freed at most once; the counters count the queues; the
cabin keeps its bound, and no zombie is in it unnoticed. -/
theorem shared_data_right (B : Building) (as : List Action)
    (h : (threads B).Along Granted (loaded B) as) : (State.after B as).DataRight B :=
  (State.inv_after h).dataRight

/-- A request waits for the mutex while a stop has those on board on its
`delete_list`. -/
theorem shared_data_right_contended :
    (State.after .source
      [.invoke 0 .startElevator, .advance 0, .advance 0, .advance 0,
       .invoke 1 (.issueRequest 1 2 1), .advance 1, .advance 1, .advance 1, .advance 1,
       .scheduler, .scheduler, .scheduler, .scheduler, .scheduler, .scheduler, .scheduler,
       .scheduler, .invoke 2 (.issueRequest 4 1 0), .advance 2, .scheduler, .invoke 0 .stopElevator,
       .advance 0, .advance 0, .advance 0, .advance 0, .advance 0, .advance 0,
       .advance 2]).DataRight .source :=
  shared_data_right .source _ (by
    simp only [Machine.along_cons, Machine.along_nil, Granted]
    simp)

end KernelElevator.Threads
