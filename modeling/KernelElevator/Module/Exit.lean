/-
KernelElevator.Module.Exit — unloading the module: `removeAllPassengers` and
`elevator_exit` (lines 592–643).

`elevator_exit` clears the pointers through which the system calls arrive,
so no call begins any more, and `kthread_stop` comes back when the scheduler
thread has left its loop. The thread tests for that only at the head of the
loop, so it first finishes the iteration it is in.
-/
import KernelElevator.Module.System

namespace KernelElevator

open Transition

variable (B : Building)

/-- One round of the loop of lines 609–615: the queue with index `i` goes to
the local `delete_list`, the first component. -/
def removeFloor (r : List Passenger × Globals) (i : Nat) : List Passenger × Globals :=
  let c := walk (fun _ _ => some ()) (r.2.waitingList i) ()
  (r.1 ++ c.moved, { r.2 with waitingList := Function.update r.2.waitingList i c.list })

/-- Lines 605–615, under the lock: `elevator.onboard` and then every floor's
queue is moved to `delete_list`. -/
def removeAllLocked (g : Globals) : List Passenger × Globals :=
  let c := walk (fun _ _ => some ()) g.onboard ()
  (List.range B.floors).foldl removeFloor (c.moved, { g with onboard := c.list })

/-- `removeAllPassengers`. -/
def removeAllPassengers (lock : LockOutcome) (g : Globals) : Globals :=
  match lock with
  | .granted =>
    let (deleteList, g) := removeAllLocked B g
    kfreeAll deleteList g
  | .interrupted => g

/-- `kthread_stop`: the scheduler thread goes on to the head of its loop. No
iteration has more than five phases after its first test. -/
def kthreadStop (s : Sys) : Sys :=
  (fun s => if s.pc = .top then s else schedulerStep B s)^[5] s

/-- The globals `elevator_exit` leaves behind. -/
def elevatorExit (s : Sys) : Globals :=
  removeAllPassengers B .granted (kthreadStop B s).g

end KernelElevator
