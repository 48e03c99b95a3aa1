/-
KernelElevator.Module.System — the running module: system calls placed
between the phases of the scheduler thread.

A step is a whole system call or a whole phase of the scheduler's loop (a
branch decision together with the state it writes is one phase). In such a
step nobody else is inside a locked section, and an uncontended
`mutex_lock_interruptible` returns 0, so every lock is granted; the races
below this granularity are the subject of `KernelElevator.Threads`.

`Pc` is the point of the loop the scheduler thread has reached, with the
locals `unload_sleep` and `load_sleep` where they are live.
-/
import KernelElevator.Module.Syscalls
import KernelElevator.Module.Phases
import KernelElevator.Machine.Run

namespace KernelElevator

open Transition

/-- A system call with its arguments. -/
inductive Call where
  | startElevator
  | issueRequest (startFloor destinationFloor type : Int)
  | stopElevator
  deriving DecidableEq, Repr

/-- What can happen next: a system call, or the scheduler's next phase. -/
inductive Label where
  | call (c : Call)
  | scheduler
  deriving DecidableEq, Repr

/-- Where the scheduler thread stands in its loop. -/
inductive Pc where
  /-- at the tests of lines 369, 401 and 406 -/
  | top
  /-- about to call `unloadPassengers` -/
  | unload
  /-- about to test for room and call `loadPassengers` -/
  | load (unloadSleep : Bool)
  /-- about to test the two sleep flags -/
  | loading (unloadSleep loadSleep : Bool)
  /-- at the tests of lines 389 and 395 -/
  | dispatch
  /-- slept `moveTime`, about to call `moveElevator` -/
  | move
  deriving DecidableEq, Repr

/-- The module's globals and the scheduler thread's position. -/
structure Sys where
  g : Globals
  pc : Pc

variable (B : Building)

/-- A whole system call: its result and the globals it leaves. `kmalloc`
has a record to give, so `issueRequest` is `some` here. -/
def Call.exec (g : Globals) : Call → Int × Globals
  | .startElevator => KernelElevator.startElevator g
  | .issueRequest startFloor destinationFloor type =>
    (KernelElevator.issueRequest B .granted .node startFloor destinationFloor type g).getD (1, g)
  | .stopElevator => KernelElevator.stopElevator .granted g

/-- The scheduler thread's next phase. -/
def schedulerStep (s : Sys) : Sys :=
  match s.pc with
  | .top => if busy s.g then ⟨s.g, .unload⟩ else ⟨standBy s.g, .top⟩
  | .unload =>
    let (g, unloadSleep) := unloadPassengers .granted s.g
    ⟨g, .load unloadSleep⟩
  | .load unloadSleep =>
    let (g, loadSleep) := loadPhase B s.g
    ⟨g, .loading unloadSleep loadSleep⟩
  | .loading unloadSleep loadSleep => ⟨loadingPhase unloadSleep loadSleep s.g, .dispatch⟩
  | .dispatch =>
    if mustMove s.g then ⟨ssleep moveTime (changeElevatorState s.g), .move⟩
    else ⟨settle s.g, .top⟩
  | .move => ⟨moveElevator B s.g, .top⟩

def Sys.step (s : Sys) : Label → Sys
  | .call c => { s with g := (c.exec B s.g).2 }
  | .scheduler => schedulerStep B s

/-- The module after `elevator_init`, with the scheduler thread at the head
of its loop. -/
def loaded : Sys := ⟨setupElevator B bss, .top⟩

/-- The running module. -/
def system : Machine Sys Label where
  init := loaded B
  step := Sys.step B

/-- The state after the given steps of a freshly loaded module. -/
def Sys.after (ls : List Label) : Sys := (system B).run (loaded B) ls

end KernelElevator
