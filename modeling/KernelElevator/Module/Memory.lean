/-
KernelElevator.Module.Memory — the queues as they lie in memory.

`Globals` has the queues as lists of passengers. In memory they are rings:
the heads `waiting_list[i]` and `elevator.onboard`, and in each record the
member `list`, all of them with a `next` and a `prev`. A `Memory` is these
links with the lists they stand for. The operations on it are those of
`issue_request`, of `loadPassengers`, and of the loops that take records off
`elevator.onboard`. They keep pace with the lists of `Globals`, so after any
run there is a memory that holds its queues (`exists_stands`).
-/
import KernelElevator.Machine.Ring
import KernelElevator.Module.InvariantTheorems

namespace KernelElevator

open Circular

/-- The two kinds of queue. -/
inductive Queue where
  | waiting (i : Int)
  | onboard
  deriving DecidableEq, Repr

/-- Where there is a `struct list_head`: the head of a queue, or the member
`list` of a record. -/
inductive Address where
  | head (q : Queue)
  | passenger (p : Passenger)
  deriving DecidableEq, Repr

theorem Address.passenger_injective : Function.Injective Address.passenger :=
  fun _ _ h => Address.passenger.inj h

/-- The links of all heads and records, with the lists they stand for and the
number of records that `kmalloc` has handed out. -/
structure Memory where
  links : Links Address
  lists : Queue → List Passenger
  allocated : Nat
  represents : Represents links Address.head fun q => (lists q).map Address.passenger
  known : ∀ q, ∀ p ∈ lists q, p.node < allocated

namespace Memory

/-- The records of one list, as addresses, when one list changes. -/
theorem map_update (lists : Queue → List Passenger) (q : Queue) (w : List Passenger) :
    (fun q' => (Function.update lists q w q').map Address.passenger)
      = Function.update (fun q' => (lists q').map Address.passenger) q
          (w.map Address.passenger) := by
  funext q'
  rcases eq_or_ne q' q with rfl | hq
  · rw [Function.update_self, Function.update_self]
  · rw [Function.update_of_ne hq, Function.update_of_ne hq]

theorem known_update {lists : Queue → List Passenger} {n : Nat}
    (h : ∀ q, ∀ p ∈ lists q, p.node < n) {q : Queue} {w : List Passenger}
    (hw : ∀ p ∈ w, p.node < n) : ∀ q', ∀ p ∈ Function.update lists q w q', p.node < n := by
  intro q'
  rcases eq_or_ne q' q with rfl | hq
  · rwa [Function.update_self]
  · rw [Function.update_of_ne hq]
    exact h q'

/-- After `elevator_init`: every list is empty. -/
def init : Memory where
  links := .init Address
  lists := fun _ => []
  allocated := 0
  represents := represents_init fun _ _ h => Address.head.inj h
  known := by simp

/-- The record that `kmalloc` hands out is on no list. -/
theorem fresh (m : Memory) {p : Passenger} (hp : p.node = m.allocated) (q : Queue) :
    Address.passenger p ∉ Address.head q :: (m.lists q).map Address.passenger := by
  intro hmem
  rcases List.mem_cons.mp hmem with h | h
  · cases h
  · have hlt := m.known q p ((List.mem_map_of_injective Address.passenger_injective).mp h)
    omega

/-- Lines 134–138: a new record at the tail of a floor's queue. -/
def add (startFloor destinationFloor type : Int) (m : Memory) : Memory :=
  let p : Passenger := { node := m.allocated, type, startFloor, destinationFloor }
  let q : Queue := .waiting (startFloor - 1)
  { links := m.links.addTail (.passenger p) (.head q)
    lists := Function.update m.lists q (m.lists q ++ [p])
    allocated := m.allocated + 1
    represents := by
      rw [map_update, List.map_append]
      exact m.represents.addTail q (m.fresh rfl)
    known := known_update (fun q' p' hp' => Nat.lt_succ_of_lt (m.known q' p' hp'))
      (List.forall_mem_append.mpr
        ⟨fun p' hp' => Nat.lt_succ_of_lt (m.known q p' hp'), by simp [p]⟩) }

/-- Lines 284 and 293: a waiting passenger goes to the tail of
`elevator.onboard`. -/
def move (i : Int) (p : Passenger) (m : Memory) : Memory :=
  if hp : p ∈ m.lists (.waiting i) then
    { links := m.links.moveTail (.passenger p) (.head .onboard)
      lists := Function.update (Function.update m.lists (.waiting i)
        ((m.lists (.waiting i)).erase p)) .onboard (m.lists .onboard ++ [p])
      allocated := m.allocated
      represents := by
        rw [map_update, map_update, List.map_append,
          List.map_erase Address.passenger_injective]
        exact m.represents.moveTail (fun h => Queue.noConfusion h) (List.mem_map_of_mem hp)
      known := known_update (known_update m.known fun p' hp' =>
          m.known (.waiting i) p' (List.mem_of_mem_erase hp'))
        (List.forall_mem_append.mpr ⟨m.known .onboard, by simpa using m.known (.waiting i) p hp⟩) }
  else m

/-- Lines 196–199 and 230–240: a passenger goes from `elevator.onboard` to a
local `delete_list`, which is no list of the module's. -/
def leave (p : Passenger) (m : Memory) : Memory :=
  if hp : p ∈ m.lists .onboard then
    { links := m.links.unlink (.passenger p)
      lists := Function.update m.lists .onboard ((m.lists .onboard).erase p)
      allocated := m.allocated
      represents := by
        rw [map_update, List.map_erase Address.passenger_injective]
        exact (m.represents.unlink (List.mem_map_of_mem hp)).1
      known := known_update m.known fun p' hp' => m.known .onboard p' (List.mem_of_mem_erase hp') }
  else m

variable {m : Memory} {i : Int} {p : Passenger}

theorem add_lists (a b t : Int) : (m.add a b t).lists
    = Function.update m.lists (.waiting (a - 1))
        (m.lists (.waiting (a - 1)) ++ [⟨m.allocated, t, a, b⟩]) := rfl

theorem move_lists (hp : p ∈ m.lists (.waiting i)) :
    (m.move i p).lists = Function.update (Function.update m.lists (.waiting i)
      ((m.lists (.waiting i)).erase p)) .onboard (m.lists .onboard ++ [p]) := by
  rw [move, dif_pos hp]

theorem move_of_not_mem (hp : p ∉ m.lists (.waiting i)) : m.move i p = m := by
  rw [move, dif_neg hp]

theorem move_allocated : (m.move i p).allocated = m.allocated := by
  unfold move
  split <;> rfl

theorem leave_lists : (m.leave p).lists
    = Function.update m.lists .onboard ((m.lists .onboard).erase p) := by
  unfold leave
  split
  · rfl
  · next hp => rw [List.erase_of_not_mem hp, Function.update_eq_self]

theorem leave_allocated : (m.leave p).allocated = m.allocated := by
  unfold leave
  split <;> rfl

theorem mem_add {q : Queue} (hp : p ∈ m.lists q) (a b t : Int) : p ∈ (m.add a b t).lists q := by
  rcases eq_or_ne q (.waiting (a - 1)) with rfl | hq
  · rw [add_lists, Function.update_self]
    exact List.mem_append_left _ hp
  · rwa [add_lists, Function.update_of_ne hq]

/-- Nobody gets off. -/
theorem mem_move_onboard {j : Int} {p' : Passenger} (hp : p ∈ m.lists .onboard) :
    p ∈ (m.move j p').lists .onboard := by
  by_cases hp' : p' ∈ m.lists (.waiting j)
  · rw [move_lists hp', Function.update_self]
    exact List.mem_append_left _ hp
  · rwa [move_of_not_mem hp']

/-- Nobody else leaves a queue. -/
theorem mem_move_waiting {j : Int} {p' : Passenger} (hne : p ≠ p')
    (hp : p ∈ m.lists (.waiting i)) : p ∈ (m.move j p').lists (.waiting i) := by
  by_cases hp' : p' ∈ m.lists (.waiting j)
  · rw [move_lists hp', Function.update_of_ne fun h => Queue.noConfusion h]
    rcases eq_or_ne i j with rfl | hij
    · rwa [Function.update_self, List.mem_erase_of_ne hne]
    · rwa [Function.update_of_ne fun h => hij (Queue.waiting.inj h)]
  · rwa [move_of_not_mem hp']

/-- Moving passengers one by one takes them off their queue and puts them,
in the same order, behind those on board. -/
theorem moveAll_lists {ps : List Passenger} (hnodup : ps.Nodup)
    (hps : ∀ p ∈ ps, p ∈ m.lists (.waiting i)) :
    (ps.foldl (fun m p => m.move i p) m).lists
      = Function.update (Function.update m.lists (.waiting i) ((m.lists (.waiting i)).diff ps))
          .onboard (m.lists .onboard ++ ps) := by
  induction ps generalizing m with
  | nil => simp
  | cons p ps ih =>
    rw [List.nodup_cons] at hnodup
    rw [List.forall_mem_cons] at hps
    have hne : Queue.waiting i ≠ .onboard := fun h => Queue.noConfusion h
    have hwaiting : (m.move i p).lists (.waiting i) = (m.lists (.waiting i)).erase p := by
      rw [move_lists hps.1, Function.update_of_ne hne, Function.update_self]
    have hrest : ∀ q ∈ ps, q ∈ (m.move i p).lists (.waiting i) := by
      intro q hq
      have hqp : q ≠ p := fun heq => hnodup.1 (heq ▸ hq)
      rw [hwaiting, List.mem_erase_of_ne hqp]
      exact hps.2 q hq
    rw [List.foldl_cons, ih hnodup.2 hrest, hwaiting, move_lists hps.1, Function.update_self,
      List.append_assoc, List.singleton_append, List.diff_cons, Function.update_comm hne.symm,
      Function.update_idem, Function.update_idem]

theorem moveAll_allocated (ps : List Passenger) :
    (ps.foldl (fun m p => m.move i p) m).allocated = m.allocated := by
  induction ps generalizing m with
  | nil => rfl
  | cons p ps ih => rw [List.foldl_cons, ih, move_allocated]

/-- Passengers get off one by one. -/
theorem leaveAll_lists (ps : List Passenger) :
    (ps.foldl (fun m p => m.leave p) m).lists
      = Function.update m.lists .onboard ((m.lists .onboard).diff ps) := by
  induction ps generalizing m with
  | nil => simp
  | cons p ps ih =>
    rw [List.foldl_cons, ih, leave_lists, Function.update_self, Function.update_idem,
      List.diff_cons]

theorem leaveAll_allocated (ps : List Passenger) :
    (ps.foldl (fun m p => m.leave p) m).allocated = m.allocated := by
  induction ps generalizing m with
  | nil => rfl
  | cons p ps ih => rw [List.foldl_cons, ih, leave_allocated]

/-! ## The queues of `Globals` -/

/-- The memory holds the queues that the globals have. -/
structure Stands (m : Memory) (g : Globals) : Prop where
  allocated : m.allocated = g.allocated.length
  waiting : ∀ i, m.lists (.waiting i) = g.waitingList i
  onboard : m.lists .onboard = g.onboard

variable {B : Building} {g : Globals}

theorem stands_loaded : init.Stands (loaded B).g := by
  refine ⟨rfl, fun i => ?_, rfl⟩
  simp [init, loaded, setupElevator, bss]

/-- An accepted request. -/
theorem Stands.add (h : m.Stands g) (a b t : Int) :
    (m.add a b t).Stands (addPassenger a b t g) := by
  refine ⟨by simp [Memory.add, addPassenger, h.allocated], fun i => ?_, h.onboard⟩
  simp only [add_lists, addPassenger, h.allocated, h.waiting]
  rcases eq_or_ne i (a - 1) with rfl | hi
  · rw [Function.update_self, Function.update_self]
  · rw [Function.update_of_ne fun heq => hi (Queue.waiting.inj heq), Function.update_of_ne hi,
      h.waiting]

/-- No record is twice on a list. -/
theorem nodup_lists (m : Memory) (q : Queue) : (m.lists q).Nodup :=
  List.Nodup.of_map _ (List.nodup_cons.mp (m.represents.ring q).nodup).2

/-- Those who stay are the queue without those who board. -/
theorem stayers_eq (hq : QueueInv B g) :
    stayers B g = (g.waitingList (g.currentFloor - 1)).diff (boarders B g) := by
  have hok : ∀ p ∈ g.waitingList (g.currentFloor - 1),
      p.startFloor = g.currentFloor ∧ (p.type = 0 ∨ p.type = 1) := by
    intro p hp
    obtain ⟨hok, hfloor⟩ := hq.waiting_ok _ p hp
    exact ⟨by omega, hok.type_eq⟩
  have hboard := board_eq_candidates (B := B) (g.waitingList (g.currentFloor - 1)) g.loads
    g.status hok
  rw [stayers, boarders, hboard]

/-- A pass of loading. -/
theorem Stands.load (h : m.Stands g) (hq : QueueInv B g) :
    ((boarders B g).foldl (fun m p => m.move (g.currentFloor - 1) p) m).Stands
      (loadPassengers B .granted g).1 := by
  have hwaiting := h.waiting (g.currentFloor - 1)
  have hnodup : (boarders B g).Nodup := by
    have hall := m.nodup_lists (.waiting (g.currentFloor - 1))
    rw [hwaiting] at hall
    exact (List.nodup_append.mp ((boarders_perm g).nodup_iff.mpr hall)).1
  have hlists := moveAll_lists (m := m) (i := g.currentFloor - 1) hnodup fun p hp => by
    rw [hwaiting]
    exact mem_waiting_of_mem_boarders hp
  have hallocated : (loadPassengers B .granted g).1.allocated = g.allocated :=
    congrArg (fun r : Globals × Bool => r.1.allocated) (loadLocked_eq B g)
  have hqueues : (loadPassengers B .granted g).1.waitingList
      = Function.update g.waitingList (g.currentFloor - 1) (stayers B g) :=
    congrArg (fun r : Globals × Bool => r.1.waitingList) (loadLocked_eq B g)
  have honboard : (loadPassengers B .granted g).1.onboard = g.onboard ++ boarders B g :=
    congrArg (fun r : Globals × Bool => r.1.onboard) (loadLocked_eq B g)
  refine ⟨?_, fun i => ?_, ?_⟩
  · rw [moveAll_allocated, h.allocated, hallocated]
  · rw [hlists, Function.update_of_ne fun heq => Queue.noConfusion heq, hwaiting, ← stayers_eq hq,
      hqueues]
    rcases eq_or_ne i (g.currentFloor - 1) with rfl | hi
    · rw [Function.update_self, Function.update_self]
    · rw [Function.update_of_ne fun heq => hi (Queue.waiting.inj heq), Function.update_of_ne hi,
        h.waiting]
  · rw [hlists, Function.update_self, h.onboard, honboard]

/-- Passengers get off, on their floor or at a stop. -/
theorem Stands.leave (h : m.Stands g) {g' : Globals} (ps : List Passenger)
    (hallocated : g'.allocated = g.allocated) (hwaiting : g'.waitingList = g.waitingList)
    (honboard : g'.onboard = g.onboard.filter (· ∉ ps)) :
    (ps.foldl (fun m p => m.leave p) m).Stands g' := by
  refine ⟨?_, fun i => ?_, ?_⟩
  · rw [leaveAll_allocated, h.allocated, hallocated]
  · rw [leaveAll_lists, Function.update_of_ne fun heq => Queue.noConfusion heq, h.waiting, hwaiting]
  · rw [leaveAll_lists, Function.update_self, (m.nodup_lists .onboard).sdiff_eq_filter, h.onboard,
      honboard]

theorem riding_eq (g : Globals) : riding g = g.onboard.filter (· ∉ alighting g) := by
  refine List.filter_congr fun p hp => ?_
  simp [mem_alighting, hp]

/-- One step of the module. -/
theorem Stands.step {s : Sys} (h : m.Stands s.g) (hinv : s.Inv B) (l : Label) :
    ∃ m' : Memory, m'.Stands (s.step B l).g := by
  have he := Sys.step_effect (B := B) s l
  generalize (s.step B l).g = g' at he
  cases he with
  | added _ _ _ => exact ⟨_, h.add _ _ _⟩
  | loaded _ _ _ => exact ⟨_, h.load hinv.wf.queues⟩
  | unloaded _ =>
    rw [unloadPassengers_granted]
    exact ⟨_, h.leave (alighting s.g) rfl rfl (riding_eq s.g)⟩
  | stopped _ => exact ⟨_, h.leave s.g.onboard rfl rfl (by simp)⟩
  | _ => exact ⟨m, h.allocated, h.waiting, h.onboard⟩

/-- After any run of the module there is a memory that holds its queues. -/
theorem exists_stands (B : Building) (ls : List Label) :
    ∃ m : Memory, m.Stands (Sys.after B ls).g := by
  refine ((system B).run_inv (P := fun s => s.Inv B ∧ ∃ m : Memory, m.Stands s.g)
    (fun s l hs => ⟨hs.1.step l, ?_⟩) ls (loaded B) ⟨loaded_inv, init, stands_loaded⟩).2
  obtain ⟨m, hm⟩ := hs.2
  exact hm.step hs.1 l

end Memory

end KernelElevator
