/-
KernelElevator.Module.State — the data of `part3/elevator.c`.

`Globals` is everything the module keeps in global variables: the fields of
the one `Elevator`, the floor queues and the counters beside them. Its last
three fields are the kernel's side of the story and are written only by
`kmalloc`, `kfree` and `ssleep`: the records handed out so far, the records
given back, and the seconds the scheduler thread has slept.

Counters and floors are C `int`s and are `Int` here; the array index of a
floor queue is the C expression `floor - 1`, so `waitingList` and
`waitingOnFloor` are indexed by `Int` as well. That the index stays inside
the array is a theorem, not a matter of types.

A passenger record is told apart from every other by `node`, which stands
for its address: the number of records `kmalloc` had handed out before it.
-/
import Mathlib.Data.Int.Basic
import Mathlib.Logic.Function.Basic

namespace KernelElevator

/-- The two macros that size the building, with what makes it a building:
at least two floors, and a cabin that holds somebody. -/
structure Building where
  floors : Nat
  capacity : Nat
  two_le_floors : 2 ≤ floors
  capacity_pos : 1 ≤ capacity

/-- `FLOORS` and `CAPACITY` as the source defines them. -/
def Building.source : Building := ⟨10, 10, by decide, by decide⟩

/-- The values of `elevator.state` (lines 29–33). -/
inductive ElevatorState where
  | offline
  | idle
  | loading
  | up
  | down
  deriving DecidableEq, Repr

/-- The values of `elevator.status`. -/
inductive Status where
  | uninfected
  | infected
  deriving DecidableEq, Repr

/-- `struct passenger_data`; type 0 is a human, type 1 a zombie. -/
structure Passenger where
  node : Nat
  type : Int
  startFloor : Int
  destinationFloor : Int
  deriving DecidableEq, Repr

/-- The module's global variables (lines 76–84). `Int` stands for `int` as long
as fewer than 2^31 requests have been accepted: no counter is larger than
their number (`counters_share`). -/
structure Globals where
  state : ElevatorState
  currentFloor : Int
  nextFloor : Int
  loads : Int
  deactiving : Bool
  started : Bool
  status : Status
  onboard : List Passenger
  waitingList : Int → List Passenger
  serviced : Int
  numWaiting : Int
  waitingOnFloor : Int → Int
  allocated : List Passenger
  freed : List Passenger
  slept : Nat

/-- What `mutex_lock_interruptible` comes back with: 0, or `-EINTR`. -/
inductive LockOutcome where
  | granted
  | interrupted
  deriving DecidableEq, Repr

/-- What `kmalloc` comes back with. -/
inductive Kmalloc where
  | null
  | node
  deriving DecidableEq, Repr

/-- `DEFAULT_SLEEP_TIME`, `LOAD_TIME` and `MOVE_TIME`, in seconds. -/
def defaultSleepTime : Nat := 1
def loadTime : Nat := 1
def moveTime : Nat := 2

def ssleep (seconds : Nat) (g : Globals) : Globals :=
  { g with slept := g.slept + seconds }

def kfree (p : Passenger) (g : Globals) : Globals :=
  { g with freed := g.freed ++ [p] }

/-- The loop that empties a local `delete_list`, freeing every node. -/
def kfreeAll (deleteList : List Passenger) (g : Globals) : Globals :=
  deleteList.foldl (fun g p => kfree p g) g

/-- Zero-initialised globals, as the module finds them when it is loaded. -/
def bss : Globals where
  state := .offline
  currentFloor := 0
  nextFloor := 0
  loads := 0
  deactiving := false
  started := false
  status := .uninfected
  onboard := []
  waitingList := fun _ => []
  serviced := 0
  numWaiting := 0
  waitingOnFloor := fun _ => 0
  allocated := []
  freed := []
  slept := 0

/-- `setup_elevator`. It does not write `status` and `num_waiting`. -/
def setupElevator (B : Building) (g : Globals) : Globals :=
  { g with
    state := .offline
    currentFloor := 1
    nextFloor := 2
    loads := 0
    deactiving := false
    started := false
    onboard := []
    serviced := 0
    waitingList := fun i => if 0 ≤ i ∧ i < B.floors then [] else g.waitingList i
    waitingOnFloor := fun i => if 0 ≤ i ∧ i < B.floors then 0 else g.waitingOnFloor i }

end KernelElevator
