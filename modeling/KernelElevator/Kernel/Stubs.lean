/-
KernelElevator.Kernel.Stubs — the three system calls as the kernel has them
(`part3/syscall/part3.c`), and the module that comes and goes behind them:
`elevator_init` and `elevator_exit` (lines 559–590 and 628–643).

`part3.c` is part of the kernel. It keeps a pointer for each call, `NULL` as
long as there is no module, and a call goes through its pointer after a test
for `NULL`; the test and the jump read the pointer each on its own. The
module writes the pointers first thing when it is loaded and clears them
first thing when it is removed.

What the kernel does around that is the environment of the model. `insmod`
places the module in memory with its statics zeroed and runs
`elevator_init`; if that comes back with an error the memory is freed.
`rmmod` runs `elevator_exit` and frees the memory. Only one of them runs at
a time, a second `insmod` finds the module there and is refused, and both
free the memory whoever may be executing in it: the file operations have no
owner and the calls take no reference. A thread that jumps through `NULL` or
into freed memory is killed.

A pointer into the module is the number of the load that placed it, so a
pointer that has been left behind is told apart from one into the module
that is there.

In the module the threads go on as in `Threads.System`, step by step: a call
that has jumped into it is one of its `calls`, and other calls, the scheduler
and the lines of `elevator_exit` come between its steps. No signal breaks off
a call's wait for the mutex here, and `kmalloc` has a record to give; the wait
of `removeAllPassengers` can be broken off. `thread_init_parameter` initialises
the mutex after the pointers have been set, so a call may hold it by then;
until it does the mutex is zeroed memory, which is taken for a free one.
-/
import KernelElevator.Module.Exit
import KernelElevator.Threads.System

namespace KernelElevator.Kernel

/-- The calls that `part3.c` defines. -/
inductive Syscall where
  | startElevator
  | issueRequest
  | stopElevator
  deriving DecidableEq, Repr

/-- The system call that `c` is a call of. -/
def syscallOf : Call → Syscall
  | .startElevator => .startElevator
  | .issueRequest _ _ _ => .issueRequest
  | .stopElevator => .stopElevator

/-- `ENOSYS` and `ENOMEM`. -/
def eNoSys : Int := 38
def eNoMem : Int := 12

/-- Where `insmod` or `rmmod` has got to: what comes next of `elevator_init`
(from `setup` to `startThread`), the module ready, or what comes next of
`elevator_exit`. The four steps of `removeAllPassengers` are those of a call
that takes the mutex. -/
inductive Admin where
  | absent
  | setup
  | setStub (c : Syscall)
  | createProc
  | startThread
  | live
  | clearStub (c : Syscall)
  | stopThread
  | removeLock
  | removeLocked
  | removeUnlock (deleteList : List Passenger)
  | removeFree (deleteList : List Passenger)
  | destroyMutex
  | removeProc
  deriving DecidableEq, Repr

/-- Where a thread is that makes a system call. -/
inductive Caller where
  | outside
  /-- has found the pointer not to be `NULL` -/
  | tested (c : Call)
  /-- is in the function, in the module that was placed as number `load` -/
  | inside (c : Call) (load : Nat)
  /-- has come to the end of the function, and returns through the module -/
  | returning (result : Int) (load : Nat)
  deriving DecidableEq, Repr

/-- The kernel's side: the pointers `STUB_start_elevator` and so on, how many
times a module has been placed, the memory of the one that is there, the
entry in `/proc`, and the threads. `leaked` counts the passenger records that
had not been freed when the module that knew them went. -/
structure Host where
  stub : Syscall → Option Nat
  placed : Nat
  module : Option Threads.State
  admin : Admin
  procEntry : Bool
  caller : Nat → Caller
  leaked : Nat

/-- What happens next. `proceed error` is the next line of `elevator_init` or
`elevator_exit`; where it calls `proc_create`, `kthread_run` or
`mutex_lock_interruptible`, `error` is the error number of that call, 0 if it
succeeds. `work t` is the next step of the call that the thread `t` is in. -/
inductive Event where
  | insmod
  | rmmod
  | proceed (error : Nat)
  | scheduler
  | enter (t : Nat) (c : Call)
  | jump (t : Nat)
  | work (t : Nat)
  | back (t : Nat)
  deriving DecidableEq, Repr

/-- The pointer leads into the module that is there. -/
def Host.Mapped (s : Host) (stub : Option Nat) : Prop :=
  stub = some s.placed ∧ s.module.isSome

instance (s : Host) (stub : Option Nat) : Decidable (s.Mapped stub) :=
  inferInstanceAs (Decidable (_ ∧ _))

/-- The records in the module's memory that have not been freed. -/
def Host.unfreed (s : Host) : Nat :=
  s.module.elim 0 fun m => m.g.allocated.countP (· ∉ m.g.freed)

/-- The module's memory is written. -/
def Host.write (s : Host) (f : Threads.State → Threads.State) : Host :=
  { s with module := s.module.map f }

/-- The thread `t` is somewhere else. -/
def Host.moveTo (s : Host) (t : Nat) (c : Caller) : Host :=
  { s with caller := Function.update s.caller t c }

/-- The entry in `/proc` is removed, if it is there, and the module's memory
is freed. -/
def Host.unplace (s : Host) : Host :=
  { s with
    module := none
    admin := .absent
    procEntry := false
    leaked := s.leaked + s.unfreed }

/-- The assignments to the pointers come in this order, in `elevator_init`
and in `elevator_exit`. -/
def Syscall.next : Syscall → Option Syscall
  | .startElevator => some .issueRequest
  | .issueRequest => some .stopElevator
  | .stopElevator => none

/-- The module's memory when it has been placed. -/
def placedModule : Threads.State := ⟨bss, none, .top, fun _ => .idle⟩

/-- Where a call of `c` in the module is once it stands at the given pc. -/
def Caller.on (c : Call) (load : Nat) : Threads.CallPc → Caller
  | .returned result => .returning result load
  | _ => .inside c load

variable (B : Building)

/-- The lines of `removeAllPassengers`, of which the first takes the mutex in
the name of the scheduler thread, and then `mutex_destroy`. -/
def Host.cleanup (s : Host) (m : Threads.State) (error : Nat) : Host :=
  match s.admin with
  | .removeLock =>
    -- a wait that is broken off leaves out the locked section
    if error ≠ 0 then { s with admin := .removeUnlock [] }
    else if m.mutex = none then
      { s with module := some { m with mutex := some .scheduler }, admin := .removeLocked }
    else s
  | .removeLocked =>
    let (deleteList, g) := removeAllLocked B m.g
    { s with module := some { m with g := g }, admin := .removeUnlock deleteList }
  | .removeUnlock deleteList =>
    { s with module := some { m with mutex := none }, admin := .removeFree deleteList }
  | .removeFree deleteList =>
    { s with module := some { m with g := kfreeAll deleteList m.g }, admin := .destroyMutex }
  | .destroyMutex => { s with admin := .removeProc }
  | _ => s

/-- The next line of `elevator_init` or `elevator_exit`. -/
def Host.proceed (s : Host) (error : Nat) : Host :=
  match s.admin with
  | .absent => s
  | .setup =>
    { s.write (fun m => { m with g := setupElevator B m.g }) with
      admin := .setStub .startElevator }
  | .setStub c =>
    { s with
      stub := Function.update s.stub c (some s.placed)
      admin := c.next.elim .createProc .setStub }
  | .createProc =>
    if error = 0 then { s with procEntry := true, admin := .startThread } else s.unplace
  -- `thread_init_parameter`
  | .startThread =>
    if error = 0 then { s.write (fun m => { m with mutex := none }) with admin := .live }
    else s.unplace
  | .live => s
  | .clearStub c =>
    { s with
      stub := Function.update s.stub c none
      admin := c.next.elim .stopThread .clearStub }
  -- `kthread_stop` waits for the thread to test `kthread_should_stop`
  | .stopThread =>
    if s.module.any (·.scheduler = .top) then { s with admin := .removeLock } else s
  | .removeProc => s.unplace
  | _ => s.module.elim s fun m => s.cleanup B m error

/-- What `elevator_init` comes back with, if this is its last line. -/
def Host.initResult (s : Host) : Event → Option Int
  | .proceed error =>
    match s.admin with
    | .createProc => if error = 0 then none else some (-eNoMem)
    | .startThread => some (-error)
    | _ => none
  | _ => none

/-- The scheduler thread runs from `kthread_run` to `kthread_stop`. -/
def Admin.threadRuns : Admin → Bool
  | .live | .clearStub _ | .stopThread => true
  | _ => false

def Host.step (s : Host) : Event → Host
  | .insmod =>
    match s.admin with
    | .absent => { s with placed := s.placed + 1, module := some placedModule, admin := .setup }
    | _ => s
  | .rmmod =>
    match s.admin with
    | .live => { s with admin := .clearStub .startElevator }
    | _ => s
  | .proceed error => s.proceed B error
  | .scheduler =>
    if s.admin.threadRuns then s.write fun m => m.step B .scheduler else s
  | .enter t c =>
    match s.caller t with
    | .outside => if (s.stub (syscallOf c)).isSome then s.moveTo t (.tested c) else s
    | _ => s
  | .jump t =>
    match s.caller t with
    | .tested c =>
      if s.Mapped (s.stub (syscallOf c)) then
        (s.write fun m => m.step B (.invoke t c)).moveTo t (.inside c s.placed)
      else s.moveTo t .outside
    | _ => s
  | .work t =>
    match s.caller t, s.module with
    | .inside c load, some m =>
      if load = s.placed then
        (s.write fun m => m.step B (.advance t)).moveTo t
          (.on c load ((m.step B (.advance t)).calls t))
      else s.moveTo t .outside
    | .inside _ _, none => s.moveTo t .outside
    | _, _ => s
  | .back t =>
    match s.caller t with
    | .returning _ _ => s.moveTo t .outside
    | _ => s

/-- What the thread that makes the step gets as the call's result, if the
step ends its call. -/
def Host.answer (s : Host) : Event → Option Int
  | .enter t c =>
    match s.caller t with
    | .outside => if (s.stub (syscallOf c)).isSome then none else some (-eNoSys)
    | _ => none
  | .back t =>
    match s.caller t with
    | .returning result load => if s.Mapped (some load) then some result else none
    | _ => none
  | _ => none

/-- The kernel after it has booted. -/
def booted : Host where
  stub := fun _ => none
  placed := 0
  module := none
  admin := .absent
  procEntry := false
  caller := fun _ => .outside
  leaked := 0

/-- The kernel with the module that comes and goes. -/
def kernel : Transition.Machine Host Event where
  init := booted
  step := Host.step B

/-- The kernel after the given events. -/
def Host.after (es : List Event) : Host := (kernel B).run booted es

end KernelElevator.Kernel
