/-
KernelElevator.Module.Phases — what the scheduler thread does: unloading,
loading, moving, and the loop body that puts them together (lines 212–413).

The two list walks are `Transition.walk`s. `unloadView` and `loadView` give
the globals as another thread would see them at one moment of the walk:
the walked list is there what is kept so far and what is still ahead.
-/
import KernelElevator.Module.State
import KernelElevator.Machine.Walk

namespace KernelElevator

open Transition

variable (B : Building)

/-! ## `unloadPassengers` -/

/-- The loop body of lines 232–240; the flag is `unloaded`. -/
def unloadBody (p : Passenger) (v : Globals × Bool) : Option (Globals × Bool) :=
  if p.destinationFloor = v.1.currentFloor then
    some ({ v.1 with loads := v.1.loads - 1, serviced := v.1.serviced + 1 }, true)
  else none

def unloadView (c : Cursor Passenger (Globals × Bool)) : Globals :=
  { c.st.1 with onboard := c.list }

/-- Lines 230–241, under the lock: the globals, `delete_list` and `unloaded`. -/
def unloadLocked (g : Globals) : Globals × List Passenger × Bool :=
  let c := walk unloadBody g.onboard (g, false)
  (unloadView c, c.moved, c.st.2)

/-- Lines 245–256, after the lock is released. -/
def unloadTail (deleteList : List Passenger) (g : Globals) : Globals :=
  let g := kfreeAll deleteList g
  if g.loads = 0 then { g with status := .uninfected } else g

/-- `unloadPassengers`. -/
def unloadPassengers (lock : LockOutcome) (g : Globals) : Globals × Bool :=
  match lock with
  | .granted =>
    let (g, deleteList, unloaded) := unloadLocked g
    (unloadTail deleteList g, unloaded)
  | .interrupted => (unloadTail [] g, false)

/-! ## `loadPassengers` -/

/-- The loop body of lines 276–301; the flag is `loaded`. The source tests
`type == 1` and `type == 0` one after the other; no passenger meets both. -/
def loadBody (floor : Int) (p : Passenger) (v : Globals × Bool) : Option (Globals × Bool) :=
  let g := v.1
  if p.startFloor = floor then
    if g.loads + 1 ≤ B.capacity then
      if p.type = 1 then
        some ({ g with
          onboard := g.onboard ++ [p]
          status := .infected
          loads := g.loads + 1
          waitingOnFloor := Function.update g.waitingOnFloor (p.startFloor - 1)
            (g.waitingOnFloor (p.startFloor - 1) - 1)
          numWaiting := g.numWaiting - 1 }, true)
      else if p.type = 0 ∧ g.status = .uninfected then
        some ({ g with
          onboard := g.onboard ++ [p]
          loads := g.loads + 1
          waitingOnFloor := Function.update g.waitingOnFloor (p.startFloor - 1)
            (g.waitingOnFloor (p.startFloor - 1) - 1)
          numWaiting := g.numWaiting - 1 }, true)
      else none
    else none
  else none

def loadView (floor : Int) (c : Cursor Passenger (Globals × Bool)) : Globals :=
  { c.st.1 with waitingList := Function.update c.st.1.waitingList (floor - 1) c.list }

/-- Lines 273–302, under the lock: the globals and `loaded`. -/
def loadLocked (g : Globals) : Globals × Bool :=
  let floor := g.currentFloor
  let c := walk (loadBody B floor) (g.waitingList (floor - 1)) (g, false)
  (loadView floor c, c.st.2)

/-- `loadPassengers`. -/
def loadPassengers (lock : LockOutcome) (g : Globals) : Globals × Bool :=
  match lock with
  | .granted => loadLocked B g
  | .interrupted => (g, false)

/-! ## Moving -/

/-- `changeElevatorState`. -/
def changeElevatorState (g : Globals) : Globals :=
  if g.nextFloor > g.currentFloor then { g with state := .up }
  else { g with state := .down }

/-- The `state == UP` part of `moveElevator`. -/
def moveUp (g : Globals) : Globals :=
  if g.state = .up then
    { g with
      currentFloor := g.currentFloor + 1
      nextFloor :=
        if g.currentFloor + 1 = B.floors then g.currentFloor + 1 - 1
        else g.currentFloor + 1 + 1 }
  else g

/-- The `state == DOWN` part of `moveElevator`. -/
def moveDown (g : Globals) : Globals :=
  if g.state = .down then
    { g with
      currentFloor := g.currentFloor - 1
      nextFloor :=
        if g.currentFloor - 1 = 1 then g.currentFloor - 1 + 1
        else g.currentFloor - 1 - 1 }
  else g

/-- `moveElevator`. -/
def moveElevator (g : Globals) : Globals := moveDown (moveUp B g)

/-! ## The loop of `scheduler` -/

/-- The test of line 369. -/
def busy (g : Globals) : Bool := decide (g.numWaiting ≠ 0 ∨ g.onboard ≠ [])

/-- Lines 377–380: the load phase, entered only with room in the cabin. -/
def loadPhase (g : Globals) : Globals × Bool :=
  if g.loads < B.capacity then loadPassengers B .granted g else (g, false)

/-- Lines 382–386. -/
def loadingPhase (unloadSleep loadSleep : Bool) (g : Globals) : Globals :=
  if unloadSleep || loadSleep then ssleep loadTime { g with state := .loading } else g

/-- The test of line 389. -/
def mustMove (g : Globals) : Bool := decide (g.loads ≠ 0 ∨ g.numWaiting ≠ 0)

/-- Lines 395–399: nobody is left, and a stop is under way. -/
def settle (g : Globals) : Globals :=
  if g.deactiving then { g with state := .offline, deactiving := false } else g

/-- Lines 401–410: nothing to do, so the thread shows it and sleeps. -/
def standBy (g : Globals) : Globals :=
  if g.started then ssleep defaultSleepTime { g with state := .idle }
  else ssleep defaultSleepTime { g with state := .offline }

/-- One turn of the `while` loop of `scheduler` with no call in between. -/
def schedulerBody (g : Globals) : Globals :=
  if busy g then
    let (g, unloadSleep) := unloadPassengers .granted g
    let (g, loadSleep) := loadPhase B g
    let g := loadingPhase unloadSleep loadSleep g
    if mustMove g then moveElevator B (ssleep moveTime (changeElevatorState g))
    else settle g
  else standBy g

end KernelElevator
