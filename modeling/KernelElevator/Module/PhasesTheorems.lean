/-
KernelElevator.Module.PhasesTheorems — what each call and each phase does to
the globals, as one equation each.

Every later proof about the module uses these equations and unfolds no loop:

  §1 Calls     — `stopElevator_takes`, `issueRequest_accepted` and the two
                 `…_rejected` equations;
  §2 Unloading — `unloadPassengers_granted`: exactly the passengers whose
                 destination is the current floor get off;
  §3 Loading   — `loadLocked_eq`: the walk computes `board`;
  §4 Moving    — `changeElevatorState` shows `heading`, and `moveElevator`
                 goes by what is shown;
  §5 The loop  — the scheduler's steps, branch by branch.
-/
import KernelElevator.Module.System
import KernelElevator.Module.Boarding

namespace KernelElevator

open Transition

variable (B : Building)

/-! ## §1 Calls -/

theorem kfreeAll_eq (ps : List Passenger) (g : Globals) :
    kfreeAll ps g = { g with freed := g.freed ++ ps } := by
  induction ps generalizing g with
  | nil => simp [kfreeAll]
  | cons p ps ih =>
    rw [kfreeAll, List.foldl_cons]
    exact (ih (kfree p g)).trans (by simp [kfree])

theorem startElevator_running {g : Globals} (h : g.started = true) :
    startElevator g = (1, g) := by
  simp [startElevator, h]

theorem startElevator_stopped {g : Globals} (h : g.started = false) :
    startElevator g = (0, { g with started := true, deactiving := false }) := by
  simp [startElevator, h]

/-- The walk of `stop_elevator` takes every node. -/
theorem stopElevatorLocked_eq (g : Globals) :
    stopElevatorLocked g = (g.onboard, { g with onboard := [] }) := by
  obtain ⟨hmoved, hlist⟩ := walk_all (fun (_ : Passenger) (_ : Unit) => some ())
    (fun _ _ => rfl) g.onboard ()
  simp [stopElevatorLocked, hmoved, hlist]

/-- A stop takes effect: the elevator runs and no stop is under way. -/
def StopTakes (g : Globals) : Prop := g.started = true ∧ g.deactiving = false

instance (g : Globals) : Decidable (StopTakes g) := inferInstanceAs (Decidable (_ ∧ _))

theorem stopElevatorRejects_iff (g : Globals) :
    stopElevatorRejects g = true ↔ ¬ StopTakes g := by
  cases hs : g.started <;> cases hd : g.deactiving <;> simp [stopElevatorRejects, StopTakes, hs, hd]

theorem stopElevator_takes {g : Globals} (h : StopTakes g) :
    stopElevator .granted g
      = (0, { g with
          deactiving := true, started := false, onboard := [], freed := g.freed ++ g.onboard }) := by
  have hr : stopElevatorRejects g = false := by
    simpa using mt (stopElevatorRejects_iff g).mp (not_not.mpr h)
  simp [stopElevator, hr, stopElevatorLocked_eq, kfreeAll_eq]

theorem stopElevator_rejected {g : Globals} (h : ¬ StopTakes g) (lock : LockOutcome) :
    stopElevator lock g = (1, g) := by
  simp [stopElevator, (stopElevatorRejects_iff g).mpr h]

/-- What the argument tests of `issue_request` let in. -/
structure Requestable (startFloor destinationFloor type : Int) : Prop where
  type_eq : type = 0 ∨ type = 1
  start_pos : 1 ≤ startFloor
  start_le : startFloor ≤ B.floors
  destination_pos : 1 ≤ destinationFloor
  destination_le : destinationFloor ≤ B.floors

variable {B}

theorem issueRequestRejects_iff {a b t : Int} {g : Globals} :
    issueRequestRejects B a b t g = false ↔ g.started = true ∧ Requestable B a b t := by
  simp only [issueRequestRejects, Bool.or_eq_false_iff, Bool.not_eq_false', decide_eq_false_iff_not]
  constructor
  · rintro ⟨⟨⟨hs, ht⟩, ha⟩, hb⟩
    exact ⟨hs, by omega, by omega, by omega, by omega, by omega⟩
  · rintro ⟨hs, ht, h1, h2, h3, h4⟩
    exact ⟨⟨⟨hs, by omega⟩, by omega⟩, by omega⟩

theorem issueRequest_rejected {a b t : Int} {g : Globals}
    (h : issueRequestRejects B a b t g = true) (lock : LockOutcome) (k : Kmalloc) :
    issueRequest B lock k a b t g = some (1, g) := by
  simp [issueRequest, h]

theorem issueRequest_deactiving {a b t : Int} {g : Globals}
    (h : issueRequestRejects B a b t g = false) (hd : g.deactiving = true) :
    issueRequest B .granted .node a b t g = some (0, g) := by
  simp [issueRequest, issueRequestLocked, h, hd]

theorem issueRequest_accepted {a b t : Int} {g : Globals}
    (h : issueRequestRejects B a b t g = false) (hd : g.deactiving = false) :
    issueRequest B .granted .node a b t g = some (0, addPassenger a b t g) := by
  simp [issueRequest, issueRequestLocked, h, hd]

/-! ## §2 Unloading -/

/-- The passengers on board who want to get off at the current floor. -/
def alighting (g : Globals) : List Passenger :=
  g.onboard.filter fun p => p.destinationFloor = g.currentFloor

/-- The passengers on board who ride on. -/
def riding (g : Globals) : List Passenger :=
  g.onboard.filter fun p => !decide (p.destinationFloor = g.currentFloor)

/-- The globals once `ps` have got off, the list itself aside. -/
def alighted (ps : List Passenger) (g : Globals) : Globals :=
  { g with loads := g.loads - ps.length, serviced := g.serviced + ps.length }

theorem alighted_nil (g : Globals) : alighted [] g = g := by
  simp [alighted]

theorem alighted_alighted (p : Passenger) (ps : List Passenger) (g : Globals) :
    alighted ps (alighted [p] g) = alighted (p :: ps) g := by
  simp only [alighted, List.length_cons, List.length_nil]
  congr 1 <;> push_cast <;> omega

theorem unloadBody_eq (p : Passenger) (g : Globals) (unloaded : Bool) :
    unloadBody p (g, unloaded)
      = if p.destinationFloor = g.currentFloor then some (alighted [p] g, true) else none := by
  simp [unloadBody, alighted]

/-- The rest of the walk from any moment of it. -/
theorem unload_iterate (rest kept moved : List Passenger) (g : Globals) (unloaded : Bool) :
    (Cursor.next unloadBody)^[rest.length] ⟨kept, moved, rest, (g, unloaded)⟩
      = ⟨kept ++ rest.filter (fun p => !decide (p.destinationFloor = g.currentFloor)),
         moved ++ rest.filter (fun p => p.destinationFloor = g.currentFloor), [],
         (alighted (rest.filter fun p => p.destinationFloor = g.currentFloor) g,
          unloaded || decide (rest.filter (fun p => p.destinationFloor = g.currentFloor) ≠ []))⟩ := by
  induction rest generalizing kept moved g unloaded with
  | nil => simp [alighted_nil]
  | cons p rest ih =>
    rw [List.length_cons, Function.iterate_succ_apply]
    by_cases hd : p.destinationFloor = g.currentFloor
    · have hb : unloadBody p (g, unloaded) = some (alighted [p] g, true) := by
        rw [unloadBody_eq, if_pos hd]
      have hfloor : (alighted [p] g).currentFloor = g.currentFloor := rfl
      rw [Cursor.next_some rfl hb, ih, hfloor, alighted_alighted]
      simp [hd]
    · have hb : unloadBody p (g, unloaded) = none := by rw [unloadBody_eq, if_neg hd]
      rw [Cursor.next_none rfl hb, ih]
      simp [hd]

theorem unloadLocked_eq (g : Globals) :
    unloadLocked g
      = ({ alighted (alighting g) g with onboard := riding g },
         alighting g, decide (alighting g ≠ [])) := by
  have h := unload_iterate g.onboard [] [] g false
  change walk _ _ _ = _ at h
  simp only [unloadLocked, h, unloadView, Cursor.list, List.nil_append, List.append_nil,
    Bool.false_or]
  rfl

/-- `unloadPassengers`, with the lock granted. -/
theorem unloadPassengers_granted (g : Globals) :
    unloadPassengers .granted g
      = ({ g with
          onboard := riding g
          loads := g.loads - (alighting g).length
          serviced := g.serviced + (alighting g).length
          freed := g.freed ++ alighting g
          status := if g.loads - (alighting g).length = 0 then .uninfected else g.status },
         decide (alighting g ≠ [])) := by
  simp only [unloadPassengers, unloadLocked_eq, unloadTail, kfreeAll_eq, alighted]
  split <;> simp_all

theorem alighting_append_riding_perm (g : Globals) :
    (alighting g ++ riding g).Perm g.onboard :=
  List.filter_append_perm _ _

theorem alighting_length_add (g : Globals) :
    (alighting g).length + (riding g).length = g.onboard.length := by
  rw [← List.length_append]
  exact (alighting_append_riding_perm g).length_eq

theorem mem_riding {g : Globals} {p : Passenger} :
    p ∈ riding g ↔ p ∈ g.onboard ∧ p.destinationFloor ≠ g.currentFloor := by
  simp [riding]

theorem mem_alighting {g : Globals} {p : Passenger} :
    p ∈ alighting g ↔ p ∈ g.onboard ∧ p.destinationFloor = g.currentFloor := by
  simp [alighting]

/-! ## §3 Loading -/

/-- The globals once `ps` have boarded on `floor`, their queue aside. -/
def boarded (floor : Int) (ps : List Passenger) (g : Globals) : Globals :=
  { g with
    onboard := g.onboard ++ ps
    status := g.status.withAll ps
    loads := g.loads + ps.length
    waitingOnFloor := Function.update g.waitingOnFloor (floor - 1)
      (g.waitingOnFloor (floor - 1) - ps.length)
    numWaiting := g.numWaiting - ps.length }

theorem boarded_nil (floor : Int) (g : Globals) : boarded floor [] g = g := by
  simp [boarded, Status.withAll]

theorem boarded_boarded (floor : Int) (p : Passenger) (ps : List Passenger) (g : Globals) :
    boarded floor ps (boarded floor [p] g) = boarded floor (p :: ps) g := by
  simp only [boarded, Function.update_self, Function.update_idem, List.length_cons,
    List.length_nil, List.append_assoc, List.singleton_append]
  congr 1
  · push_cast; omega
  · push_cast; omega
  · congr 1; push_cast; omega

variable (B)

/-- A pass of the loading loop takes exactly the passengers `Admits` lets
in, one at a time. -/
theorem loadBody_eq (floor : Int) (p : Passenger) (g : Globals) (loaded : Bool) :
    loadBody B floor p (g, loaded)
      = if Admits B floor g.loads g.status p then some (boarded floor [p] g, true) else none := by
  by_cases hf : p.startFloor = floor
  · subst hf
    by_cases hr : g.loads + 1 ≤ B.capacity
    · by_cases h1 : p.type = 1
      · simp [loadBody, Admits, hr, h1, boarded, Status.withAll, Status.with]
      · by_cases h0 : p.type = 0 ∧ g.status = .uninfected
        · simp [loadBody, Admits, hr, h0, boarded, Status.withAll, Status.with]
        · simp [loadBody, Admits, hr, h1, h0]
    · simp [loadBody, Admits, hr]
  · simp [loadBody, Admits, hf]

/-- The rest of the walk from any moment of it. -/
theorem load_iterate (floor : Int) (rest kept moved : List Passenger) (g : Globals)
    (loaded : Bool) :
    (Cursor.next (loadBody B floor))^[rest.length] ⟨kept, moved, rest, (g, loaded)⟩
      = ⟨kept ++ (board B floor g.loads g.status rest).2,
         moved ++ (board B floor g.loads g.status rest).1, [],
         (boarded floor (board B floor g.loads g.status rest).1 g,
          loaded || decide ((board B floor g.loads g.status rest).1 ≠ []))⟩ := by
  induction rest generalizing kept moved g loaded with
  | nil => simp [board, boarded_nil]
  | cons p rest ih =>
    rw [List.length_cons, Function.iterate_succ_apply]
    by_cases ha : Admits B floor g.loads g.status p
    · have hb : loadBody B floor p (g, loaded) = some (boarded floor [p] g, true) := by
        rw [loadBody_eq, if_pos ha]
      have hl : (boarded floor [p] g).loads = g.loads + 1 := by simp [boarded]
      have hs : (boarded floor [p] g).status = g.status.with p := rfl
      rw [Cursor.next_some rfl hb, ih, board_cons_admitted ha, hl, hs, boarded_boarded]
      simp
    · have hb : loadBody B floor p (g, loaded) = none := by rw [loadBody_eq, if_neg ha]
      rw [Cursor.next_none rfl hb, ih, board_cons_refused ha]
      simp

/-- The passengers who board if loading starts now. -/
def boarders (g : Globals) : List Passenger :=
  (board B g.currentFloor g.loads g.status (g.waitingList (g.currentFloor - 1))).1

/-- The passengers of the current floor who are left waiting. -/
def stayers (g : Globals) : List Passenger :=
  (board B g.currentFloor g.loads g.status (g.waitingList (g.currentFloor - 1))).2

/-- The walk of `loadPassengers` computes `board`. -/
theorem loadLocked_eq (g : Globals) :
    loadLocked B g
      = ({ boarded g.currentFloor (boarders B g) g with
          waitingList := Function.update g.waitingList (g.currentFloor - 1) (stayers B g) },
         decide (boarders B g ≠ [])) := by
  have h := load_iterate B g.currentFloor (g.waitingList (g.currentFloor - 1)) [] [] g false
  change walk _ _ _ = _ at h
  simp only [loadLocked, h, loadView, Cursor.list, List.nil_append, List.append_nil,
    Bool.false_or]
  rfl

/-- `loadPhase` with room in the cabin. -/
theorem loadPhase_room {g : Globals} (h : g.loads < B.capacity) :
    loadPhase B g = loadLocked B g := by
  rw [loadPhase, if_pos h]; rfl

theorem loadPhase_full {g : Globals} (h : ¬ g.loads < B.capacity) :
    loadPhase B g = (g, false) := by
  rw [loadPhase, if_neg h]

/-! ## §4 Moving -/

/-- The direction `changeElevatorState` shows. -/
def heading (g : Globals) : ElevatorState :=
  if g.nextFloor > g.currentFloor then .up else .down

theorem changeElevatorState_eq (g : Globals) :
    changeElevatorState g = { g with state := heading g } := by
  unfold changeElevatorState heading
  split <;> rfl

theorem moveElevator_up {g : Globals} (h : g.state = .up) :
    moveElevator B g = { g with
      currentFloor := g.currentFloor + 1
      nextFloor :=
        if g.currentFloor + 1 = B.floors then g.currentFloor + 1 - 1
        else g.currentFloor + 1 + 1 } := by
  simp [moveElevator, moveUp, moveDown, h]

theorem moveElevator_down {g : Globals} (h : g.state = .down) :
    moveElevator B g = { g with
      currentFloor := g.currentFloor - 1
      nextFloor :=
        if g.currentFloor - 1 = 1 then g.currentFloor - 1 + 1
        else g.currentFloor - 1 - 1 } := by
  simp [moveElevator, moveUp, moveDown, h]

theorem moveElevator_still {g : Globals} (hu : g.state ≠ .up) (hd : g.state ≠ .down) :
    moveElevator B g = g := by
  simp [moveElevator, moveUp, moveDown, hu, hd]

/-- A move writes nothing but the position. -/
theorem moveElevator_frame (g : Globals) :
    ∃ current next, moveElevator B g = { g with currentFloor := current, nextFloor := next } := by
  by_cases hu : g.state = .up
  · exact ⟨_, _, moveElevator_up B hu⟩
  · by_cases hd : g.state = .down
    · exact ⟨_, _, moveElevator_down B hd⟩
    · exact ⟨g.currentFloor, g.nextFloor, moveElevator_still B hu hd⟩

/-! ## §5 The steps of the loop -/

theorem standBy_eq (g : Globals) :
    standBy g
      = ssleep defaultSleepTime { g with state := if g.started then .idle else .offline } := by
  unfold standBy
  split <;> rfl

theorem loadingPhase_eq (us ls : Bool) (g : Globals) :
    loadingPhase us ls g = { g with
      state := if us || ls then .loading else g.state
      slept := if us || ls then g.slept + loadTime else g.slept } := by
  unfold loadingPhase
  split <;> rfl

theorem schedulerStep_top_busy {g : Globals} (h : busy g = true) :
    schedulerStep B ⟨g, .top⟩ = ⟨g, .unload⟩ := by
  simp [schedulerStep, h]

theorem schedulerStep_top_idle {g : Globals} (h : busy g = false) :
    schedulerStep B ⟨g, .top⟩ = ⟨standBy g, .top⟩ := by
  simp [schedulerStep, h]

theorem schedulerStep_unload (g : Globals) :
    schedulerStep B ⟨g, .unload⟩
      = ⟨(unloadPassengers .granted g).1, .load (unloadPassengers .granted g).2⟩ := rfl

theorem schedulerStep_load (g : Globals) (us : Bool) :
    schedulerStep B ⟨g, .load us⟩ = ⟨(loadPhase B g).1, .loading us (loadPhase B g).2⟩ := rfl

theorem schedulerStep_dispatch_move {g : Globals} (h : mustMove g = true) :
    schedulerStep B ⟨g, .dispatch⟩ = ⟨ssleep moveTime (changeElevatorState g), .move⟩ := by
  simp [schedulerStep, h]

theorem schedulerStep_dispatch_settle {g : Globals} (h : mustMove g = false) :
    schedulerStep B ⟨g, .dispatch⟩ = ⟨settle g, .top⟩ := by
  simp [schedulerStep, h]

end KernelElevator
