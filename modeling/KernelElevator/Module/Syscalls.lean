/-
KernelElevator.Module.Syscalls — `start_elevator`, `issue_request` and
`stop_elevator` (lines 93–210).

The two calls that take `thread1.mutex` are given in pieces, because other
threads can run between them: what is decided before the lock, and what is
done under it. `issueRequest` and `stopElevator` put the pieces together
for a call that nothing interrupts.
-/
import KernelElevator.Module.State
import KernelElevator.Machine.Walk

namespace KernelElevator

open Transition

variable (B : Building)

/-- `start_elevator`. -/
def startElevator (g : Globals) : Int × Globals :=
  if g.started then (1, g)
  else (0, { g with started := true, deactiving := false })

/-! ## `issue_request` -/

/-- The four tests of lines 112–127 that end the call with 1. -/
def issueRequestRejects (startFloor destinationFloor type : Int) (g : Globals) : Bool :=
  !g.started
    || decide (type < 0 ∨ type > 1)
    || decide (startFloor < 1 ∨ startFloor > B.floors)
    || decide (destinationFloor < 1 ∨ destinationFloor > B.floors)

/-- Lines 134–142: a new record at the tail of its floor's queue. -/
def addPassenger (startFloor destinationFloor type : Int) (g : Globals) : Globals :=
  let p : Passenger :=
    { node := g.allocated.length, type, startFloor, destinationFloor }
  { g with
    allocated := g.allocated ++ [p]
    waitingList := Function.update g.waitingList (startFloor - 1)
      (g.waitingList (startFloor - 1) ++ [p])
    waitingOnFloor := Function.update g.waitingOnFloor (p.startFloor - 1)
      (g.waitingOnFloor (p.startFloor - 1) + 1)
    numWaiting := g.numWaiting + 1 }

/-- Lines 132–143, under the lock. The record is written through the
pointer `kmalloc` returned without a test, so a null pointer is a fault
(`none`). -/
def issueRequestLocked (k : Kmalloc) (startFloor destinationFloor type : Int) (g : Globals) :
    Option Globals :=
  if g.deactiving then some g
  else
    match k with
    | .null => none
    | .node => some (addPassenger startFloor destinationFloor type g)

/-- `issue_request`. -/
def issueRequest (lock : LockOutcome) (k : Kmalloc)
    (startFloor destinationFloor type : Int) (g : Globals) : Option (Int × Globals) :=
  if issueRequestRejects B startFloor destinationFloor type g then some (1, g)
  else
    match lock with
    | .granted =>
      (issueRequestLocked k startFloor destinationFloor type g).map fun g' => (0, g')
    | .interrupted => some (0, g)

/-! ## `stop_elevator` -/

/-- Lines 183–190. -/
def stopElevatorRejects (g : Globals) : Bool := !g.started || g.deactiving

/-- Lines 196–199, under the lock: every node of `elevator.onboard` is moved
to the local `delete_list`, the first component. -/
def stopElevatorLocked (g : Globals) : List Passenger × Globals :=
  let c := walk (fun _ _ => some ()) g.onboard ()
  (c.moved, { g with onboard := c.list })

/-- `stop_elevator`. -/
def stopElevator (lock : LockOutcome) (g : Globals) : Int × Globals :=
  if stopElevatorRejects g then (1, g)
  else
    let g := { g with deactiving := true, started := false }
    match lock with
    | .granted =>
      let (deleteList, g) := stopElevatorLocked g
      (0, kfreeAll deleteList g)
    | .interrupted => (0, g)

end KernelElevator
