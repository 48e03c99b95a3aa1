/-
KernelElevator.Threads.System — the module under concurrent callers.

Below the granularity of `Module.System` a system call is a sequence of
steps: each unlocked write of a shared flag, the tests up to a return, the
acquisition of `thread1.mutex`, the locked section, and the release. Any
number of threads make calls next to the scheduler thread, and their steps
interleave freely.

A step is not always one access to memory. One step each are: a locked
section with all its passes, as nobody else is in one while the mutex is
held; the loop that frees the nodes of a local `delete_list`, which no other
thread can reach; the tail of `unloadPassengers`, that loop and the reset of
`status`, which only the scheduler thread reads and writes; and a phase of
the scheduler that takes no lock, as in `Module.Phases`.

The mutex grants exclusively, and `mutex_unlock` frees it whoever calls it.
A caller's `mutex_lock_interruptible` can be broken off by a signal; all
three functions call `mutex_unlock` after the `if` in which they test its
result, so a caller whose wait was broken off goes there too. The scheduler
is a kernel thread, and no signal reaches it.
-/
import KernelElevator.Module.System
import KernelElevator.Machine.Mutex

namespace KernelElevator.Threads

open Transition

/-- A thread that can take `thread1.mutex`. When the scheduler thread has
gone, `removeAllPassengers` takes it in its name (`Kernel.Stubs`). -/
inductive Tid where
  | call (t : Nat)
  | scheduler
  deriving DecidableEq, Repr

/-- Where a thread that makes system calls stands. A pc is named for the
function and for what its next step does; `Locked` is the whole locked
section, and `Free` the whole loop over `delete_list`. -/
inductive CallPc where
  | idle
  | startTest
  | startSetStarted
  | startClearDeactiving
  | issueTest (startFloor destinationFloor type : Int)
  | issueLock (startFloor destinationFloor type : Int)
  | issueLocked (startFloor destinationFloor type : Int)
  | issueUnlock (lock : LockOutcome)
  | stopTestStarted
  | stopTestDeactiving
  | stopSetDeactiving
  | stopClearStarted
  | stopLock
  | stopLocked
  | stopUnlock (lock : LockOutcome) (deleteList : List Passenger)
  | stopFree (deleteList : List Passenger)
  | returned (result : Int)
  deriving DecidableEq, Repr

/-- Where the scheduler thread stands. `unloadTail` is all that
`unloadPassengers` does after it has unlocked. -/
inductive SchedulerPc where
  | top
  | unloadLock
  | unloadLocked
  | unloadUnlock (deleteList : List Passenger) (unloaded : Bool)
  | unloadTail (deleteList : List Passenger) (unloaded : Bool)
  | room (unloadSleep : Bool)
  | loadLock (unloadSleep : Bool)
  | loadLocked (unloadSleep : Bool)
  | loadUnlock (unloadSleep loadSleep : Bool)
  | loading (unloadSleep loadSleep : Bool)
  | dispatch
  | move
  deriving DecidableEq, Repr

structure State where
  g : Globals
  mutex : Option Tid
  scheduler : SchedulerPc
  calls : Nat → CallPc

/-- A thread without a call begins one; a thread does its next step; a
signal reaches a thread; the scheduler does its next step. -/
inductive Action where
  | invoke (t : Nat) (c : Call)
  | advance (t : Nat)
  | interrupt (t : Nat)
  | scheduler
  deriving DecidableEq, Repr

variable (B : Building)

/-! ## Callers -/

def CallPc.entry : Call → CallPc
  | .startElevator => .startTest
  | .issueRequest startFloor destinationFloor type => .issueTest startFloor destinationFloor type
  | .stopElevator => .stopTestStarted

/-- The thread is in no call. -/
def CallPc.done : CallPc → Bool
  | .idle | .returned _ => true
  | _ => false

/-- The next step of caller `t`: the globals, the mutex and its new pc. At a
lock that is taken it stays where it is. The tests of `issue_request` are one
step, of which only the first reads a shared variable. -/
def callStep (t : Nat) (g : Globals) (mutex : Option Tid) : CallPc → Globals × Option Tid × CallPc
  | .idle => (g, mutex, .idle)
  | .returned result => (g, mutex, .returned result)
  | .startTest => (g, mutex, if g.started then .returned 1 else .startSetStarted)
  | .startSetStarted => ({ g with started := true }, mutex, .startClearDeactiving)
  | .startClearDeactiving => ({ g with deactiving := false }, mutex, .returned 0)
  | .issueTest startFloor destinationFloor type =>
    (g, mutex,
      if issueRequestRejects B startFloor destinationFloor type g then .returned 1
      else .issueLock startFloor destinationFloor type)
  | .issueLock startFloor destinationFloor type =>
    if mutex = none then (g, some (.call t), .issueLocked startFloor destinationFloor type)
    else (g, mutex, .issueLock startFloor destinationFloor type)
  | .issueLocked startFloor destinationFloor type =>
    ((issueRequestLocked .node startFloor destinationFloor type g).getD g, mutex,
      .issueUnlock .granted)
  | .issueUnlock _ => (g, none, .returned 0)
  | .stopTestStarted => (g, mutex, if g.started then .stopTestDeactiving else .returned 1)
  | .stopTestDeactiving => (g, mutex, if g.deactiving then .returned 1 else .stopSetDeactiving)
  | .stopSetDeactiving => ({ g with deactiving := true }, mutex, .stopClearStarted)
  | .stopClearStarted => ({ g with started := false }, mutex, .stopLock)
  | .stopLock =>
    if mutex = none then (g, some (.call t), .stopLocked) else (g, mutex, .stopLock)
  | .stopLocked =>
    ((stopElevatorLocked g).2, mutex, .stopUnlock .granted (stopElevatorLocked g).1)
  | .stopUnlock _ deleteList => (g, none, .stopFree deleteList)
  | .stopFree deleteList => (kfreeAll deleteList g, mutex, .returned 0)

/-- A signal breaks off a wait for the mutex, and nothing else. -/
def CallPc.interrupted : CallPc → CallPc
  | .issueLock _ _ _ => .issueUnlock .interrupted
  | .stopLock => .stopUnlock .interrupted []
  | pc => pc

/-! ## The scheduler thread -/

/-- The next step of the scheduler thread: taking or releasing the mutex, a
locked section, or a phase of the loop that takes no lock. -/
def schedulerStep (g : Globals) (mutex : Option Tid) :
    SchedulerPc → Globals × Option Tid × SchedulerPc
  | .top => if busy g then (g, mutex, .unloadLock) else (standBy g, mutex, .top)
  | .unloadLock =>
    if mutex = none then (g, some .scheduler, .unloadLocked) else (g, mutex, .unloadLock)
  | .unloadLocked =>
    let (g, deleteList, unloaded) := unloadLocked g
    (g, mutex, .unloadUnlock deleteList unloaded)
  | .unloadUnlock deleteList unloaded => (g, none, .unloadTail deleteList unloaded)
  | .unloadTail deleteList unloaded => (unloadTail deleteList g, mutex, .room unloaded)
  | .room unloadSleep =>
    (g, mutex, if g.loads < B.capacity then .loadLock unloadSleep else .loading unloadSleep false)
  | .loadLock unloadSleep =>
    if mutex = none then (g, some .scheduler, .loadLocked unloadSleep)
    else (g, mutex, .loadLock unloadSleep)
  | .loadLocked unloadSleep =>
    ((loadLocked B g).1, mutex, .loadUnlock unloadSleep (loadLocked B g).2)
  | .loadUnlock unloadSleep loadSleep => (g, none, .loading unloadSleep loadSleep)
  | .loading unloadSleep loadSleep => (loadingPhase unloadSleep loadSleep g, mutex, .dispatch)
  | .dispatch =>
    if mustMove g then (ssleep moveTime (changeElevatorState g), mutex, .move)
    else (settle g, mutex, .top)
  | .move => (moveElevator B g, mutex, .top)

/-! ## The whole -/

def State.step (s : State) : Action → State
  | .invoke t c =>
    if (s.calls t).done then { s with calls := Function.update s.calls t (.entry c) } else s
  | .advance t =>
    let (g, mutex, pc) := callStep B t s.g s.mutex (s.calls t)
    { s with g := g, mutex := mutex, calls := Function.update s.calls t pc }
  | .interrupt t =>
    { s with calls := Function.update s.calls t (s.calls t).interrupted }
  | .scheduler =>
    let (g, mutex, pc) := schedulerStep B s.g s.mutex s.scheduler
    { s with g := g, mutex := mutex, scheduler := pc }

/-- After `elevator_init`: no call under way, the mutex free. -/
def loaded : State := ⟨(KernelElevator.loaded B).g, none, .top, fun _ => .idle⟩

def threads : Machine State Action where
  init := loaded B
  step := State.step B

/-- The state after the given steps of a freshly loaded module. -/
def State.after (as : List Action) : State := (threads B).run (loaded B) as

end KernelElevator.Threads
