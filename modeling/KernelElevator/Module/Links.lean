/-
KernelElevator.Module.Links — the module on the links of `list.h`.

`Module.Phases` and `Module.Syscalls` compute with lists of passengers. Here
the same functions are given on what is in memory: a `next` and a `prev` for
each head and each record, which the operations of `list.h` write and the
loops `list_for_each_safe` follow. No list of passengers is kept. A pointer
that is taken for a record and is none, and a loop that does not come to an
end within `fuel` tests, make an operation `none`; that neither happens, and
that the rings stay the lists of `Globals`, is proved in
`Module.LinksTheorems`.
-/
import KernelElevator.Machine.SafeWalk
import KernelElevator.Module.Exit
import KernelElevator.Module.Memory

namespace KernelElevator

open Transition Circular

/-- What a `next` or a `prev` can point to: a head or record of the module,
the local `delete_list` of the function that is running, or one of the two
values that `list_del` leaves behind. -/
inductive Site where
  | known (a : Address)
  | deleteList
  | poison1
  | poison2
  deriving DecidableEq, Repr

/-- The member `list` of a record. -/
def Site.record (p : Passenger) : Site := .known (.passenger p)

def Queue.site (q : Queue) : Site := .known (.head q)

/-- `list_entry(temp, Passenger, list)`. -/
def Site.listEntry : Site → Option Passenger
  | .known (.passenger p) => some p
  | _ => none

/-- The globals and the links. The lists of `g` are not used: they are empty,
and no operation writes to them. -/
structure Linked where
  g : Globals
  links : Links Site

variable (B : Building) (fuel : Nat)

/-! ## Lists of records that go -/

/-- The loop body of lines 202–207, 245–250 and 619–624. -/
def freeBody (pos : Site) (l : Links Site) (g : Globals) : Option (Links Site × Globals) :=
  pos.listEntry.map fun p => (l.del .poison1 .poison2 pos, kfree p g)

def Linked.freeDeleteList (u : Linked) : Option Linked :=
  (forEachSafe .deleteList freeBody fuel u.links u.g).map fun r => ⟨r.2, r.1⟩

/-- The loop body of lines 196–199, 605–608 and 611–614. -/
def discardBody (pos : Site) (l : Links Site) (_ : Unit) : Option (Links Site × Unit) :=
  some (l.moveTail pos .deleteList, ())

def Linked.discard (q : Queue) (u : Linked) : Option Linked :=
  (forEachSafe q.site discardBody fuel u.links ()).map fun r => ⟨u.g, r.1⟩

/-! ## The calls -/

/-- Lines 134–142. -/
def Linked.addPassenger (startFloor destinationFloor type : Int) (u : Linked) : Linked :=
  let g := u.g
  let p : Passenger :=
    { node := g.allocated.length, type, startFloor, destinationFloor }
  { g := { g with
      allocated := g.allocated ++ [p]
      waitingOnFloor := Function.update g.waitingOnFloor (p.startFloor - 1)
        (g.waitingOnFloor (p.startFloor - 1) + 1)
      numWaiting := g.numWaiting + 1 }
    links := u.links.addTail (.record p) (Queue.waiting (startFloor - 1)).site }

/-- `issue_request`, when it is given the lock and a record. -/
def Linked.issueRequest (startFloor destinationFloor type : Int) (u : Linked) : Int × Linked :=
  if issueRequestRejects B startFloor destinationFloor type u.g then (1, u)
  else if u.g.deactiving then (0, u)
  else (0, u.addPassenger startFloor destinationFloor type)

/-- `stop_elevator`, when it is given the lock. -/
def Linked.stopElevator (u : Linked) : Option (Int × Linked) :=
  let u : Linked := { u with links := u.links.initHead .deleteList }
  if stopElevatorRejects u.g then some (1, u)
  else
    let u : Linked := { u with g := { u.g with deactiving := true, started := false } }
    (u.discard fuel .onboard).bind fun u => (u.freeDeleteList fuel).map fun u => (0, u)

/-- A whole system call. -/
def Linked.exec (u : Linked) : Call → Option (Int × Linked)
  | .startElevator =>
    let r := KernelElevator.startElevator u.g
    some (r.1, { u with g := r.2 })
  | .issueRequest startFloor destinationFloor type =>
    some (u.issueRequest B startFloor destinationFloor type)
  | .stopElevator => u.stopElevator fuel

/-! ## The scheduler thread -/

/-- The loop body of lines 230–240. -/
def unloadLinkBody (pos : Site) (l : Links Site) (v : Globals × Bool) :
    Option (Links Site × Globals × Bool) :=
  pos.listEntry.map fun p =>
    match unloadBody p v with
    | some v' => (l.moveTail pos .deleteList, v')
    | none => (l, v)

/-- `unloadPassengers`. -/
def Linked.unloadPassengers (u : Linked) : Option (Linked × Bool) :=
  (forEachSafe Queue.onboard.site unloadLinkBody fuel (u.links.initHead .deleteList)
    (u.g, false)).bind fun r =>
      (Linked.freeDeleteList fuel ⟨r.2.1, r.1⟩).map fun u =>
        (if u.g.loads = 0 then { u with g := { u.g with status := .uninfected } } else u, r.2.2)

/-- What lines 277–301 do to the counters and flags for a passenger whom they
move, and `none` for one whom they leave. -/
def loadTakes (floor : Int) (p : Passenger) (v : Globals × Bool) : Option (Globals × Bool) :=
  let g := v.1
  if p.startFloor = floor then
    if g.loads + 1 ≤ B.capacity then
      if p.type = 1 then
        some ({ g with
          status := .infected
          loads := g.loads + 1
          waitingOnFloor := Function.update g.waitingOnFloor (p.startFloor - 1)
            (g.waitingOnFloor (p.startFloor - 1) - 1)
          numWaiting := g.numWaiting - 1 }, true)
      else if p.type = 0 ∧ g.status = .uninfected then
        some ({ g with
          loads := g.loads + 1
          waitingOnFloor := Function.update g.waitingOnFloor (p.startFloor - 1)
            (g.waitingOnFloor (p.startFloor - 1) - 1)
          numWaiting := g.numWaiting - 1 }, true)
      else none
    else none
  else none

/-- The loop body of lines 273–302. -/
def loadLinkBody (floor : Int) (pos : Site) (l : Links Site) (v : Globals × Bool) :
    Option (Links Site × Globals × Bool) :=
  pos.listEntry.map fun p =>
    match loadTakes B floor p v with
    | some v' => (l.moveTail pos Queue.onboard.site, v')
    | none => (l, v)

/-- `loadPassengers`. -/
def Linked.loadPassengers (u : Linked) : Option (Linked × Bool) :=
  let floor := u.g.currentFloor
  (forEachSafe (Queue.waiting (floor - 1)).site (loadLinkBody B floor) fuel u.links
    (u.g, false)).map fun r => (⟨r.2.1, r.1⟩, r.2.2)

/-- The test of line 369. -/
def Linked.busy (u : Linked) : Bool :=
  decide (u.g.numWaiting ≠ 0) || !u.links.isEmpty Queue.onboard.site

/-- The links, the other globals, and the scheduler thread's position. -/
structure LinkedSys where
  mem : Linked
  pc : Pc

/-- The scheduler thread's next phase. -/
def linkedSchedulerStep (s : LinkedSys) : Option LinkedSys :=
  let g := s.mem.g
  match s.pc with
  | .top =>
    if s.mem.busy then some ⟨s.mem, .unload⟩ else some ⟨{ s.mem with g := standBy g }, .top⟩
  | .unload => (s.mem.unloadPassengers fuel).map fun r => ⟨r.1, .load r.2⟩
  | .load unloadSleep =>
    if g.loads < B.capacity then
      (s.mem.loadPassengers B fuel).map fun r => ⟨r.1, .loading unloadSleep r.2⟩
    else some ⟨s.mem, .loading unloadSleep false⟩
  | .loading unloadSleep loadSleep =>
    some ⟨{ s.mem with g := loadingPhase unloadSleep loadSleep g }, .dispatch⟩
  | .dispatch =>
    if mustMove g then
      some ⟨{ s.mem with g := ssleep moveTime (changeElevatorState g) }, .move⟩
    else some ⟨{ s.mem with g := settle g }, .top⟩
  | .move => some ⟨{ s.mem with g := moveElevator B g }, .top⟩

def LinkedSys.step (s : LinkedSys) : Label → Option LinkedSys
  | .call c => (s.mem.exec B fuel c).map fun r => { s with mem := r.2 }
  | .scheduler => linkedSchedulerStep B fuel s

/-! ## The module's life -/

/-- The two kinds of `INIT_LIST_HEAD` in `setup_elevator`, lines 547 and
552. -/
def setupLinks (l : Links Site) : Links Site :=
  (List.range B.floors).foldl (fun l (i : Nat) => l.initHead (Queue.waiting i).site)
    (l.initHead Queue.onboard.site)

/-- The module after `elevator_init`, whatever the links were before. -/
def linkedLoaded (l : Links Site) : LinkedSys := ⟨⟨setupElevator B bss, setupLinks B l⟩, .top⟩

/-- The running module on its links, until an operation fails. -/
def linkedSystem (l : Links Site) : Machine (Option LinkedSys) Label where
  init := some (linkedLoaded B l)
  step o label := o.bind fun s => s.step B fuel label

/-- `removeAllPassengers`. -/
def Linked.removeAllPassengers (u : Linked) : Option Linked :=
  let u : Linked := { u with links := u.links.initHead .deleteList }
  let queues := (List.range B.floors).map fun i : Nat => Queue.waiting i
  ((Queue.onboard :: queues).foldl (fun o q => o.bind (Linked.discard fuel q)) (some u)).bind
    (Linked.freeDeleteList fuel)

/-- `kthread_stop`, as in `kthreadStop`. -/
def linkedKthreadStop (s : LinkedSys) : Option LinkedSys :=
  (fun o : Option LinkedSys => o.bind fun s =>
    if s.pc = .top then some s else linkedSchedulerStep B fuel s)^[5] (some s)

/-- `elevator_exit`. -/
def linkedElevatorExit (s : LinkedSys) : Option Linked :=
  (linkedKthreadStop B fuel s).bind fun s => s.mem.removeAllPassengers B fuel

end KernelElevator
