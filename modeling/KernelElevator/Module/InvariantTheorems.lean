/-
KernelElevator.Module.InvariantTheorems — what holds in every reachable
state of the module.

`Effect` says once what one step can do to the globals, whichever call or
phase it is; `Sys.step_effect` proves it. Each invariant is then a case
analysis over `Effect`, and the equations of `PhasesTheorems` do the rest:

  §2 `CabinInv` — the list of passengers on board, `loads` and `status`;
  §3 `QueueInv` — the floor queues and the two sets of counters beside them;
  §4 `OnSweep`  — `currentFloor` and `nextFloor` are two successive
                  positions of the shuttle over the floors.

`Sys.Inv` collects them with the little that depends on where the scheduler
thread stands, and `Sys.inv_after` proves it for every run.
-/
import KernelElevator.Module.PhasesTheorems
import KernelElevator.Machine.Shuttle
import Mathlib.Algebra.BigOperators.Intervals

namespace KernelElevator

open Transition

variable (B : Building)

/-! ## §1 What one step can do -/

/-- The changes one step can make to the globals: which label can make them,
and where the scheduler thread stands when it is the one. -/
inductive Effect (s : Sys) : Label → Globals → Prop
  | same {l : Label} (h : l = .call .stopElevator → ¬ StopTakes s.g) : Effect s l s.g
  | started (h : s.g.started = false) :
      Effect s (.call .startElevator) { s.g with started := true, deactiving := false }
  | added {a b t : Int} (hs : s.g.started = true) (hd : s.g.deactiving = false)
      (h : Requestable B a b t) : Effect s (.call (.issueRequest a b t)) (addPassenger a b t s.g)
  | stopped (h : StopTakes s.g) :
      Effect s (.call .stopElevator) { s.g with
        deactiving := true, started := false, onboard := [], freed := s.g.freed ++ s.g.onboard }
  | unloaded (hpc : s.pc = .unload) : Effect s .scheduler (unloadPassengers .granted s.g).1
  | loaded (us : Bool) (hpc : s.pc = .load us) (h : s.g.loads < B.capacity) :
      Effect s .scheduler (loadLocked B s.g).1
  | shown (state : ElevatorState) (seconds : Nat) :
      Effect s .scheduler { s.g with state := state, slept := s.g.slept + seconds }
  | settled (hpc : s.pc = .dispatch) (hl : s.g.loads = 0) (hn : s.g.numWaiting = 0) :
      Effect s .scheduler { s.g with state := .offline, deactiving := false }
  | moved (hpc : s.pc = .move) (current next : Int)
      (h : moveElevator B s.g = { s.g with currentFloor := current, nextFloor := next }) :
      Effect s .scheduler { s.g with currentFloor := current, nextFloor := next }

variable {B}

theorem exec_effect (s : Sys) (c : Call) : Effect B s (.call c) (c.exec B s.g).2 := by
  cases c with
  | startElevator =>
    simp only [Call.exec]
    cases hs : s.g.started with
    | true => rw [startElevator_running hs]; exact .same (by simp)
    | false => rw [startElevator_stopped hs]; exact .started hs
  | issueRequest a b t =>
    simp only [Call.exec]
    cases hr : issueRequestRejects B a b t s.g with
    | true => rw [issueRequest_rejected hr]; exact .same (by simp)
    | false =>
      obtain ⟨hs, hreq⟩ := issueRequestRejects_iff.mp hr
      cases hd : s.g.deactiving with
      | true => rw [issueRequest_deactiving hr hd]; exact .same (by simp)
      | false => rw [issueRequest_accepted hr hd]; exact .added hs hd hreq
  | stopElevator =>
    simp only [Call.exec]
    by_cases h : StopTakes s.g
    · rw [stopElevator_takes h]; exact .stopped h
    · rw [stopElevator_rejected h]; exact .same fun _ => h

theorem schedulerStep_effect (s : Sys) : Effect B s .scheduler (schedulerStep B s).g := by
  cases hpc : s.pc with
  | top =>
    simp only [schedulerStep, hpc]
    split
    · exact .same (by simp)
    · simp only [standBy, ssleep]
      split
      · exact .shown .idle defaultSleepTime
      · exact .shown .offline defaultSleepTime
  | unload => simp only [schedulerStep, hpc]; exact .unloaded hpc
  | load us =>
    simp only [schedulerStep, hpc]
    by_cases h : s.g.loads < B.capacity
    · rw [loadPhase_room B h]; exact .loaded us hpc h
    · rw [loadPhase_full B h]; exact .same (by simp)
  | loading us ls =>
    simp only [schedulerStep, hpc, loadingPhase, ssleep]
    split
    · exact .shown .loading loadTime
    · exact .same (by simp)
  | dispatch =>
    simp only [schedulerStep, hpc, mustMove, settle, changeElevatorState_eq, ssleep]
    split
    · exact .shown (heading s.g) moveTime
    · next h =>
        simp only [decide_eq_true_eq, not_or, not_not] at h
        split
        · exact .settled hpc h.1 h.2
        · exact .same (by simp)
  | move =>
    obtain ⟨current, next, hmove⟩ := moveElevator_frame B s.g
    simp only [schedulerStep, hpc, hmove]
    exact .moved hpc current next hmove

/-- Every step of the module is one of the effects. -/
theorem Sys.step_effect (s : Sys) (l : Label) : Effect B s l (s.step B l).g := by
  cases l with
  | call c => exact exec_effect s c
  | scheduler => exact schedulerStep_effect s

theorem step_stop {s : Sys} (h : StopTakes s.g) :
    s.step B (.call .stopElevator) = { s with
      g := { s.g with
        deactiving := true, started := false, onboard := [], freed := s.g.freed ++ s.g.onboard } } := by
  rw [Sys.step, Call.exec, stopElevator_takes h]

theorem step_stop_rejected {s : Sys} (h : ¬ StopTakes s.g) :
    s.step B (.call .stopElevator) = s := by
  rw [Sys.step, Call.exec, stopElevator_rejected h]

/-! ## §2 The cabin -/

variable (B)

/-- How the list of passengers on board, the counter `loads` and the flag
`status` hang together. The counter may exceed the length of the list. -/
structure CabinInv (g : Globals) : Prop where
  onboard_le_loads : (g.onboard.length : Int) ≤ g.loads
  loads_le_capacity : g.loads ≤ B.capacity
  infected_of_zombie : ∀ p ∈ g.onboard, p.type = 1 → g.status = .infected
  loads_pos_of_infected : g.status = .infected → 0 < g.loads

variable {B}

theorem CabinInv.unload {g : Globals} (h : CabinInv B g) :
    CabinInv B (unloadPassengers .granted g).1 := by
  have hlen := alighting_length_add g
  have hle := h.onboard_le_loads
  have hcap := h.loads_le_capacity
  rw [unloadPassengers_granted]
  refine ⟨by simp only; omega, by simp only; omega, ?_, ?_⟩
  · intro p hp hz
    have hpos : 0 < (riding g).length := List.length_pos_of_mem hp
    have hinf := h.infected_of_zombie p (mem_riding.mp hp).1 hz
    simp only [hinf]
    exact if_neg (by omega)
  · simp only
    split
    · intro hc; cases hc
    · intro _; omega

theorem CabinInv.load {g : Globals} (h : CabinInv B g) : CabinInv B (loadLocked B g).1 := by
  have hle := h.onboard_le_loads
  rw [loadLocked_eq]
  refine ⟨?_, loads_board_le _ h.loads_le_capacity, ?_, ?_⟩
  · simp only [boarded, List.length_append]
    push_cast
    omega
  · intro p hp hz
    rcases List.mem_append.mp hp with hp | hp
    · simp only [boarded, h.infected_of_zombie p hp hz, withAll_infected]
    · exact withAll_of_zombie g.status hp hz
  · intro hinf
    simp only [boarded] at hinf ⊢
    cases hb : boarders B g with
    | nil =>
      rw [hb] at hinf
      have := h.loads_pos_of_infected hinf
      simpa using this
    | cons p ps => simp only [List.length_cons]; push_cast; omega

theorem CabinInv.effect {s : Sys} {l : Label} {g' : Globals} (h : CabinInv B s.g)
    (he : Effect B s l g') : CabinInv B g' := by
  cases he with
  | same _ => exact h
  | unloaded _ => exact h.unload
  | loaded _ _ _ => exact h.load
  | stopped _ =>
    have := h.onboard_le_loads
    exact ⟨by simp only [List.length_nil]; omega, h.loads_le_capacity, by simp,
      h.loads_pos_of_infected⟩
  | moved _ _ _ _ => exact ⟨h.1, h.2, h.3, h.4⟩
  | started _ => exact ⟨h.1, h.2, h.3, h.4⟩
  | added _ _ _ => exact ⟨h.1, h.2, h.3, h.4⟩
  | shown _ _ => exact ⟨h.1, h.2, h.3, h.4⟩
  | settled _ _ _ => exact ⟨h.1, h.2, h.3, h.4⟩

/-! ## §3 The queues -/

variable (B)

/-- A passenger record that `issue_request` let in. -/
def Passenger.Ok (p : Passenger) : Prop :=
  Requestable B p.startFloor p.destinationFloor p.type

/-- The number of passengers in all the floor queues. -/
def totalWaiting (g : Globals) : Nat :=
  ∑ i ∈ Finset.range B.floors, (g.waitingList i).length

/-- The floor queues, the counters kept beside them, and the records. -/
structure QueueInv (g : Globals) : Prop where
  onboard_ok : ∀ p ∈ g.onboard, p.Ok B
  waiting_ok : ∀ i, ∀ p ∈ g.waitingList i, p.Ok B ∧ p.startFloor = i + 1
  waitingOnFloor_eq : ∀ i, g.waitingOnFloor i = (g.waitingList i).length
  numWaiting_eq : g.numWaiting = totalWaiting B g

variable {B}

/-- Replacing one queue changes a sum over all of them by the difference that
it makes for that queue. -/
theorem sum_update (f : List Passenger → Nat) (F : Nat) (w : Int → List Passenger) {i : Int}
    (h0 : 0 ≤ i) (hF : i < F) (l : List Passenger) :
    ∑ k ∈ Finset.range F, f (Function.update w i l k) + f (w i)
      = ∑ k ∈ Finset.range F, f (w k) + f l := by
  obtain ⟨j, rfl⟩ := Int.eq_ofNat_of_zero_le h0
  have hj : j ∈ Finset.range F := Finset.mem_range.mpr (by omega)
  have hupd : (fun k : Nat => f (Function.update w (j : Int) l k))
      = Function.update (fun k : Nat => f (w k)) j (f l) := by
    funext k
    by_cases hk : k = j
    · subst hk; simp
    · simp [Function.update_of_ne, hk]
  rw [hupd, Finset.sum_update_of_mem hj,
    Finset.sum_eq_add_sum_sdiff_singleton_of_mem hj fun k : Nat => f (w k)]
  omega

theorem QueueInv.add {g : Globals} (h : QueueInv B g) {a b t : Int} (hreq : Requestable B a b t) :
    QueueInv B (addPassenger a b t g) := by
  have hok : Passenger.Ok B ⟨g.allocated.length, t, a, b⟩ := hreq
  refine ⟨h.onboard_ok, ?_, ?_, ?_⟩
  · intro i p hp
    by_cases hi : i = a - 1
    · subst hi
      simp only [addPassenger, Function.update_self, List.mem_append, List.mem_singleton] at hp
      rcases hp with hp | rfl
      · exact h.waiting_ok _ p hp
      · exact ⟨hok, by simp⟩
    · simp only [addPassenger, Function.update_of_ne hi] at hp
      exact h.waiting_ok i p hp
  · intro i
    by_cases hi : i = a - 1
    · subst hi; simp [addPassenger, h.waitingOnFloor_eq]
    · simpa [addPassenger, Function.update_of_ne hi] using h.waitingOnFloor_eq i
  · have hsum := sum_update List.length B.floors g.waitingList (i := a - 1)
      (by have := hreq.start_pos; omega) (by have := hreq.start_le; omega)
      (g.waitingList (a - 1) ++ [⟨g.allocated.length, t, a, b⟩])
    have hn := h.numWaiting_eq
    simp only [totalWaiting, addPassenger, List.length_append, List.length_singleton] at hsum hn ⊢
    omega

theorem boarders_perm (g : Globals) :
    (boarders B g ++ stayers B g).Perm (g.waitingList (g.currentFloor - 1)) :=
  board_perm _ _ _

theorem boarders_length_add (g : Globals) :
    (boarders B g).length + (stayers B g).length
      = (g.waitingList (g.currentFloor - 1)).length := by
  rw [← List.length_append]
  exact (boarders_perm g).length_eq

theorem mem_waiting_of_mem_boarders {g : Globals} {p : Passenger} (h : p ∈ boarders B g) :
    p ∈ g.waitingList (g.currentFloor - 1) :=
  (boarders_perm g).subset (List.mem_append_left _ h)

theorem mem_waiting_of_mem_stayers {g : Globals} {p : Passenger} (h : p ∈ stayers B g) :
    p ∈ g.waitingList (g.currentFloor - 1) :=
  (boarders_perm g).subset (List.mem_append_right _ h)

theorem QueueInv.load {g : Globals} (h : QueueInv B g) : QueueInv B (loadLocked B g).1 := by
  have hlen := boarders_length_add (B := B) g
  rw [loadLocked_eq]
  refine ⟨?_, ?_, ?_, ?_⟩
  · intro p hp
    rcases List.mem_append.mp hp with hp | hp
    · exact h.onboard_ok p hp
    · exact (h.waiting_ok _ p (mem_waiting_of_mem_boarders hp)).1
  · intro i p hp
    by_cases hi : i = g.currentFloor - 1
    · subst hi
      simp only [Function.update_self] at hp
      exact h.waiting_ok _ p (mem_waiting_of_mem_stayers hp)
    · simp only [Function.update_of_ne hi] at hp
      exact h.waiting_ok i p hp
  · intro i
    by_cases hi : i = g.currentFloor - 1
    · subst hi
      simp only [boarded, Function.update_self, h.waitingOnFloor_eq]
      omega
    · simpa [boarded, Function.update_of_ne hi] using h.waitingOnFloor_eq i
  · have hn := h.numWaiting_eq
    cases hb : boarders B g with
    | nil =>
      have hst : stayers B g = g.waitingList (g.currentFloor - 1) := by
        have := board_eq_of_fst_nil (B := B) hb
        exact congrArg Prod.snd this
      simpa [totalWaiting, boarded, hst] using hn
    | cons p ps =>
      -- somebody boards, so the index is that of a floor
      have hp : p ∈ boarders B g := by rw [hb]; exact List.mem_cons_self ..
      obtain ⟨hok, hfloor⟩ := h.waiting_ok _ p (mem_waiting_of_mem_boarders hp)
      have hpos := hok.start_pos
      have hle := hok.start_le
      have hsum := sum_update List.length B.floors g.waitingList (i := g.currentFloor - 1)
        (by omega) (by omega) (stayers B g)
      rw [hb] at hlen
      simp only [totalWaiting, boarded] at hn hsum ⊢
      omega

theorem QueueInv.effect {s : Sys} {l : Label} {g' : Globals} (h : QueueInv B s.g)
    (he : Effect B s l g') : QueueInv B g' := by
  cases he with
  | same _ => exact h
  | added _ _ hreq => exact h.add hreq
  | loaded _ _ _ => exact h.load
  | unloaded _ =>
    rw [unloadPassengers_granted]
    exact ⟨fun p hp => h.onboard_ok p (mem_riding.mp hp).1, h.2, h.3, h.4⟩
  | stopped _ => exact ⟨by simp, h.2, h.3, h.4⟩
  | moved _ _ _ _ => exact ⟨h.1, h.2, h.3, h.4⟩
  | started _ => exact ⟨h.1, h.2, h.3, h.4⟩
  | shown _ _ => exact ⟨h.1, h.2, h.3, h.4⟩
  | settled _ _ _ => exact ⟨h.1, h.2, h.3, h.4⟩

/-- The counter of waiting passengers is zero when nobody waits, and only then. -/
theorem QueueInv.numWaiting_eq_zero_iff {g : Globals} (h : QueueInv B g) :
    g.numWaiting = 0 ↔ ∀ i, g.waitingList i = [] := by
  rw [h.numWaiting_eq]
  simp only [totalWaiting, Nat.cast_eq_zero, Finset.sum_eq_zero_iff, Finset.mem_range,
    List.length_eq_zero_iff]
  constructor
  · intro hall i
    cases hw : g.waitingList i with
    | nil => rfl
    | cons p ps =>
      obtain ⟨hok, hfloor⟩ := h.waiting_ok i p (by rw [hw]; exact List.mem_cons_self ..)
      have hpos := hok.start_pos
      have hle := hok.start_le
      have hnil := hall i.toNat (by omega)
      rw [show ((i.toNat : Nat) : Int) = i by omega, hw] at hnil
      cases hnil
  · intro hall i _
    exact hall i

theorem QueueInv.numWaiting_nonneg {g : Globals} (h : QueueInv B g) : 0 ≤ g.numWaiting := by
  rw [h.numWaiting_eq]; omega

/-! ## §4 The sweep -/

variable (B)

/-- The cabin is where the shuttle is after `k` moves, and will go where the
shuttle goes next. -/
structure OnSweep (k : Nat) (g : Globals) : Prop where
  currentFloor_eq : g.currentFloor = shuttle B.floors k
  nextFloor_eq : g.nextFloor = shuttle B.floors (k + 1)

variable {B}

/-- A move in the direction shown takes the sweep one position further. -/
theorem OnSweep.move {k : Nat} {g : Globals} (h : OnSweep B k g) (hstate : g.state = heading g) :
    OnSweep B (k + 1) (moveElevator B g) := by
  obtain ⟨hc, hn⟩ := h
  have hF := B.two_le_floors
  have hpos := one_le_shuttle B.floors (k + 1)
  unfold heading at hstate
  rcases shuttle_succ hF k with hup | hdown
  · have hstep := shuttle_up hF (k := k) (by omega)
    rw [if_pos (by omega)] at hstate
    rw [moveElevator_up B hstate]
    refine ⟨by simp only; omega, ?_⟩
    rw [show k + 1 + 1 = k + 2 from rfl, hstep]
    simp only
    split <;> split <;> omega
  · have hstep := shuttle_down hF (k := k) (by omega)
    rw [if_neg (by omega)] at hstate
    rw [moveElevator_down B hstate]
    refine ⟨by simp only; omega, ?_⟩
    rw [show k + 1 + 1 = k + 2 from rfl, hstep]
    simp only
    split <;> split <;> omega

theorem OnSweep.congr {k : Nat} {g g' : Globals} (h : OnSweep B k g)
    (hc : g'.currentFloor = g.currentFloor) (hn : g'.nextFloor = g.nextFloor) :
    OnSweep B k g' :=
  ⟨hc.trans h.currentFloor_eq, hn.trans h.nextFloor_eq⟩

/-- The index `floor - 1` is inside the arrays. -/
theorem OnSweep.floor_range {k : Nat} {g : Globals} (h : OnSweep B k g) :
    1 ≤ g.currentFloor ∧ g.currentFloor ≤ B.floors := by
  have hpos := one_le_shuttle B.floors k
  have hle := shuttle_le B.two_le_floors k
  rw [h.currentFloor_eq]
  omega

/-- The step executes `moveElevator`. -/
def Moves (s : Sys) (l : Label) : Prop := l = .scheduler ∧ s.pc = .move

instance (s : Sys) (l : Label) : Decidable (Moves s l) := inferInstanceAs (Decidable (_ ∧ _))

/-- Every step leaves the cabin on the sweep, and only a move takes it
further. -/
theorem OnSweep.step {s : Sys} {k : Nat} (h : OnSweep B k s.g)
    (hm : s.pc = .move → s.g.state = heading s.g) (l : Label) :
    OnSweep B (k + if Moves s l then 1 else 0) (s.step B l).g := by
  have he := Sys.step_effect (B := B) s l
  by_cases hmoves : Moves s l
  · obtain ⟨rfl, hpc⟩ := hmoves
    have hstep : (s.step B .scheduler).g = moveElevator B s.g := by
      simp [Sys.step, schedulerStep, hpc]
    rw [hstep, if_pos ⟨rfl, hpc⟩]
    exact h.move (hm hpc)
  · rw [if_neg hmoves, Nat.add_zero]
    generalize (s.step B l).g = g' at he
    cases he with
    | moved hpc _ _ _ => exact absurd ⟨rfl, hpc⟩ hmoves
    | unloaded _ => rw [unloadPassengers_granted]; exact h.congr rfl rfl
    | loaded _ _ _ => rw [loadLocked_eq]; exact h.congr rfl rfl
    | same _ => exact h
    | started _ => exact h.congr rfl rfl
    | added _ _ _ => exact h.congr rfl rfl
    | stopped _ => exact h.congr rfl rfl
    | shown _ _ => exact h.congr rfl rfl
    | settled _ _ _ => exact h.congr rfl rfl

/-- No call touches the position or the displayed state. -/
theorem Effect.call_position {s : Sys} {c : Call} {g' : Globals} (he : Effect B s (.call c) g') :
    g'.currentFloor = s.g.currentFloor ∧ g'.nextFloor = s.g.nextFloor ∧ g'.state = s.g.state := by
  cases he <;> exact ⟨rfl, rfl, rfl⟩

/-- The one phase that makes a move due has just written the state that fits
the direction. -/
theorem schedulerStep_heading {s : Sys} (h : (schedulerStep B s).pc = .move) :
    (schedulerStep B s).g.state = heading (schedulerStep B s).g := by
  obtain ⟨g, pc⟩ := s
  cases pc with
  | top => simp only [schedulerStep] at h; split at h <;> cases h
  | dispatch =>
    simp only [schedulerStep, changeElevatorState_eq, ssleep] at h ⊢
    split at h
    · next hm => rw [if_pos hm]; rfl
    · cases h
  | unload => cases h
  | load us => cases h
  | loading us ls => cases h
  | move => cases h

/-! ## §5 Every reachable state -/

variable (B)

/-- What holds of the globals at every moment. -/
structure Globals.Wf (g : Globals) : Prop where
  cabin : CabinInv B g
  queues : QueueInv B g
  stopping : g.deactiving = true → g.started = false

/-- What holds of the module at every moment. Only while `moveElevator` is
due does the displayed state have to agree with the direction. -/
structure Sys.Inv (s : Sys) : Prop where
  wf : s.g.Wf B
  sweep : ∃ k, OnSweep B k s.g
  heading_eq : s.pc = .move → s.g.state = heading s.g

variable {B}

theorem Globals.Wf.effect {s : Sys} {l : Label} {g' : Globals} (h : s.g.Wf B)
    (he : Effect B s l g') : g'.Wf B := by
  refine ⟨h.cabin.effect he, h.queues.effect he, ?_⟩
  cases he with
  | same _ => exact h.stopping
  | started _ => intro hd; cases hd
  | added _ _ _ => exact h.stopping
  | stopped _ => exact fun _ => rfl
  | unloaded _ => rw [unloadPassengers_granted]; exact h.stopping
  | loaded _ _ _ => rw [loadLocked_eq]; exact h.stopping
  | shown _ _ => exact h.stopping
  | settled _ _ _ => intro hd; cases hd
  | moved _ _ _ _ => exact h.stopping

theorem Sys.Inv.step {s : Sys} (h : s.Inv B) (l : Label) : (s.step B l).Inv B := by
  obtain ⟨k, hk⟩ := h.sweep
  have he := Sys.step_effect (B := B) s l
  refine ⟨h.wf.effect he, ⟨_, hk.step h.heading_eq l⟩, fun hpc => ?_⟩
  cases l with
  | scheduler => exact schedulerStep_heading hpc
  | call c =>
    obtain ⟨hc, hn, hs⟩ := he.call_position
    rw [heading, hs, hc, hn]
    exact h.heading_eq hpc

theorem loaded_wf : (loaded B).g.Wf B := by
  refine ⟨⟨by simp [loaded, setupElevator], by simp [loaded, setupElevator],
    by simp [loaded, setupElevator], by simp [loaded, setupElevator, bss]⟩, ?_, by simp [loaded,
    setupElevator]⟩
  refine ⟨by simp [loaded, setupElevator], by simp [loaded, setupElevator, bss], ?_, ?_⟩
  · intro i
    simp only [loaded, setupElevator, bss]
    split <;> rfl
  · simp [loaded, setupElevator, bss, totalWaiting]

theorem loaded_onSweep : OnSweep B 0 (loaded B).g := by
  have hup := shuttle_succ B.two_le_floors 0
  have hpos := one_le_shuttle B.floors 1
  simp only [shuttle_zero, Nat.zero_add] at hup
  constructor
  · simp [loaded, setupElevator, shuttle_zero]
  · simp only [loaded, setupElevator, Nat.zero_add]
    omega

theorem loaded_inv : (loaded B).Inv B :=
  ⟨loaded_wf, ⟨0, loaded_onSweep⟩, by simp [loaded]⟩

/-- Every reachable state of the module meets the invariant. -/
theorem Sys.inv_after (ls : List Label) : (Sys.after B ls).Inv B :=
  (system B).run_inv (P := fun s => s.Inv B) (fun _ l h => h.step l) ls (loaded B) loaded_inv

end KernelElevator
