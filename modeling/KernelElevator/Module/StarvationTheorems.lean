/-
KernelElevator.Module.StarvationTheorems — a human can wait forever.

Once nobody asks any more, everybody is delivered. As long as requests keep
coming that need not be: if at each stop a zombie boards who rides two stops,
the cabin is infected whenever the next one boards. A human on any floor is
then passed over at every visit, however often the cabin comes and however
much room it has (`human_starves`).

`Parade` is the state at the head of the scheduler's loop: on board a zombie
who gets off at the next stop, with perhaps one who gets off here, and in the
queues the human alone. A round is one request and one iteration
(`Parade.round`).
-/
import KernelElevator.Module.InvariantTheorems

namespace KernelElevator

open Transition

variable (B : Building)

/-- About to call `loadPassengers`. -/
def Pc.loads : Pc → Bool
  | .load _ => true
  | _ => false

/-- The loading phase is entered with room on the floor where `p` waits, and
leaves `p` there. -/
def PassesOver (p : Passenger) (s : Sys) (l : Label) : Prop :=
  l = .scheduler ∧ s.pc.loads = true ∧ s.g.loads < B.capacity ∧
    s.g.currentFloor = p.startFloor ∧ p ∈ (s.step B l).g.waitingList (p.startFloor - 1)

instance (p : Passenger) (s : Sys) (l : Label) : Decidable (PassesOver B p s l) :=
  inferInstanceAs (Decidable (_ ∧ _ ∧ _ ∧ _ ∧ _))

/-- How often `p` is passed over in a run. -/
def passedOver (p : Passenger) (s : Sys) (ls : List Label) : Nat :=
  (system B).total (fun s l => if PassesOver B p s l then 1 else 0) s ls

/-- A request for a zombie at the `k`-th stop who rides two stops, and an
iteration of the scheduler. -/
def round (k : Nat) : List Label :=
  .call (.issueRequest (shuttle B.floors k) (shuttle B.floors (k + 2)) 1)
    :: List.replicate 6 .scheduler

/-- At the head of the loop, after `k` moves. -/
structure Parade (k : Nat) (h : Passenger) (g : Globals) : Prop where
  sweep : OnSweep B k g
  started : g.started = true
  deactiving : g.deactiving = false
  status : g.status = .infected
  loads_eq : g.loads = g.onboard.length
  numWaiting_eq : g.numWaiting = 1
  waiting_eq : ∀ i, g.waitingList i = if i = h.startFloor - 1 then [h] else []
  onboard_eq : ∃ (old : List Passenger) (z : Passenger), g.onboard = old ++ [z] ∧
    old.length ≤ 1 ∧ (∀ q ∈ old, q.destinationFloor = shuttle B.floors k) ∧
    z.destinationFloor = shuttle B.floors (k + 1)

/-- In front of the loading phase, which will take the zombie `y` on board
and leave `h`. -/
structure Boarding (k : Nat) (h y : Passenger) (g : Globals) : Prop where
  sweep : OnSweep B k g
  started : g.started = true
  deactiving : g.deactiving = false
  loads_eq : g.loads = g.onboard.length
  numWaiting_eq : g.numWaiting = 2
  boarders_eq : boarders B g = [y]
  waiting_eq : ∀ i, Function.update g.waitingList (g.currentFloor - 1) (stayers B g) i
    = if i = h.startFloor - 1 then [h] else []
  onboard_le : g.onboard.length ≤ 1
  rides_on : ∀ q ∈ g.onboard, q.destinationFloor = shuttle B.floors (k + 1)
  zombie : y.type = 1
  destination_eq : y.destinationFloor = shuttle B.floors (k + 2)

variable {B}

/-- Two successive stops are different. -/
theorem shuttle_succ_ne (B : Building) (k : Nat) :
    (shuttle B.floors k : Int) ≠ shuttle B.floors (k + 1) := by
  rcases shuttle_succ B.two_le_floors k with h | h <;> omega

theorem requestable_stops (B : Building) (k : Nat) :
    Requestable B (shuttle B.floors k) (shuttle B.floors (k + 2)) 1 := by
  have h1 := one_le_shuttle B.floors k
  have h2 := one_le_shuttle B.floors (k + 2)
  have h3 := shuttle_le B.two_le_floors k
  have h4 := shuttle_le B.two_le_floors (k + 2)
  exact ⟨by omega, by omega, by omega, by omega, by omega⟩

/-- A request at a running elevator. -/
theorem step_issueRequest {a b t : Int} {g : Globals} {pc : Pc} (hs : g.started = true)
    (hd : g.deactiving = false) (hreq : Requestable B a b t) :
    Sys.step B ⟨g, pc⟩ (.call (.issueRequest a b t)) = ⟨addPassenger a b t g, pc⟩ := by
  have hok := issueRequestRejects_iff.mpr ⟨hs, hreq⟩
  simp [Sys.step, Call.exec, issueRequest_accepted hok hd]

/-! ## One iteration -/

/-- Loading, departure and move. -/
def departed (us : Bool) (g : Globals) : Globals :=
  moveElevator B (ssleep moveTime (changeElevatorState
    (loadingPhase us (loadLocked B g).2 (loadLocked B g).1)))

theorem Boarding.parade {k : Nat} {h y : Passenger} {g : Globals} (hp : Boarding B k h y g)
    (us : Bool) : Parade B (k + 1) h (departed (B := B) us g) := by
  obtain ⟨current, next, hmove⟩ := moveElevator_frame B (ssleep moveTime (changeElevatorState
    (loadingPhase us (loadLocked B g).2 (loadLocked B g).1)))
  -- the move is made in the direction that the departure shows
  have hsweep : OnSweep B (k + 1) (departed (B := B) us g) := by
    have hhere : OnSweep B k (ssleep moveTime (changeElevatorState
        (loadingPhase us (loadLocked B g).2 (loadLocked B g).1))) := by
      rw [changeElevatorState_eq, loadingPhase_eq, loadLocked_eq]
      exact hp.sweep.congr rfl rfl
    refine hhere.move ?_
    rw [changeElevatorState_eq]
    rfl
  rw [departed, hmove] at hsweep ⊢
  rw [changeElevatorState_eq, loadingPhase_eq, loadLocked_eq, hp.boarders_eq] at hsweep ⊢
  refine ⟨hsweep, hp.started, hp.deactiving, ?_, ?_, ?_, hp.waiting_eq, g.onboard, y, ?_,
    hp.onboard_le, hp.rides_on, hp.destination_eq⟩
  · exact withAll_of_zombie g.status (List.mem_singleton.mpr rfl) hp.zombie
  · simp [ssleep, boarded, hp.loads_eq]
  · simp [ssleep, boarded, hp.numWaiting_eq]
  · simp [ssleep, boarded]

/-- The six phases of an iteration. -/
theorem Boarding.run {k : Nat} {h y : Passenger} {g g' : Globals} {us : Bool}
    (hp : Boarding B k h y g') (hcap : 2 ≤ B.capacity) (hbusy : busy g = true)
    (hunload : unloadPassengers .granted g = (g', us)) :
    (system B).run ⟨g, .top⟩ (List.replicate 6 .scheduler) = ⟨departed (B := B) us g', .top⟩ := by
  have hle := hp.onboard_le
  have hloads := hp.loads_eq
  have hload := loadPhase_room B (by omega : g'.loads < B.capacity)
  have hmust : mustMove (loadingPhase us (loadLocked B g').2 (loadLocked B g').1) = true := by
    rw [loadingPhase_eq, loadLocked_eq, hp.boarders_eq]
    refine decide_eq_true (Or.inl ?_)
    simp only [boarded, List.length_singleton]
    omega
  simp only [List.replicate, Machine.run_cons, Machine.run_nil, system]
  simp [Sys.step, KernelElevator.schedulerStep, hbusy, hunload, hload, hmust, departed]

/-- The loading phase passes `h` over, if this is its floor. -/
theorem Boarding.passesOver {k : Nat} {h y : Passenger} {g : Globals} (hp : Boarding B k h y g)
    (hcap : 2 ≤ B.capacity) (hfloor : (shuttle B.floors k : Int) = h.startFloor) (us : Bool) :
    PassesOver B h ⟨g, .load us⟩ .scheduler := by
  have hcurrent := hp.sweep.currentFloor_eq.trans hfloor
  have hle := hp.onboard_le
  have hloads := hp.loads_eq
  have hroom : g.loads < B.capacity := by omega
  refine ⟨rfl, rfl, hroom, hcurrent, ?_⟩
  simp only [Sys.step, schedulerStep_load, loadPhase_room B hroom, loadLocked_eq]
  rw [hp.waiting_eq, if_pos rfl]
  exact List.mem_singleton.mpr rfl

/-! ## One round -/

/-- The zombie of round `k` asks, and those who want to get off do. -/
theorem Parade.boarding {k : Nat} {h : Passenger} {g : Globals} (hp : Parade B k h g)
    (hcap : 2 ≤ B.capacity) (hh : h.type = 0) :
    ∃ y, Boarding B k h y (unloadPassengers .granted
      (addPassenger (shuttle B.floors k) (shuttle B.floors (k + 2)) 1 g)).1 := by
  obtain ⟨hsweep, hs, hd, hstatus, hloads, hnum, hwaiting, old, z, hon, hlen, hold, hz⟩ := hp
  generalize hy : (⟨g.allocated.length, 1, shuttle B.floors k, shuttle B.floors (k + 2)⟩ :
    Passenger) = y
  generalize hg1 : addPassenger (shuttle B.floors k) (shuttle B.floors (k + 2)) 1 g = g1
  have hfloor : g1.currentFloor = shuttle B.floors k := hg1 ▸ hsweep.currentFloor_eq
  have honboard : g1.onboard = old ++ [z] := hg1 ▸ hon
  have hne := shuttle_succ_ne B k
  have halight : alighting g1 = old := by
    have hall : old.filter (fun p => p.destinationFloor = g1.currentFloor) = old :=
      List.filter_eq_self.mpr fun q hq => by simp [hold q hq, hfloor]
    rw [alighting, honboard, List.filter_append, hall]
    simp [hz, hfloor, hne.symm]
  have hriding : riding g1 = [z] := by
    have hnone : old.filter (fun p => !decide (p.destinationFloor = g1.currentFloor)) = [] :=
      List.filter_eq_nil_iff.mpr fun q hq => by simp [hold q hq, hfloor]
    rw [riding, honboard, List.filter_append, hnone]
    simp [hz, hfloor, hne.symm]
  have hone : g1.loads - (alighting g1).length = 1 := by
    have hload : g1.loads = (old ++ [z]).length := by
      rw [← hg1, ← hon]
      exact hloads
    rw [hload, halight]
    simp
  -- the queue of this floor is the human, if this is its floor, and `y`
  have hqueue : g1.waitingList (g1.currentFloor - 1)
      = (if g1.currentFloor = h.startFloor then [h] else []) ++ [y] := by
    rw [hfloor, ← hg1]
    simp [addPassenger, hwaiting, hy]
  have hother : ∀ i, i ≠ g1.currentFloor - 1 →
      g1.waitingList i = if i = h.startFloor - 1 then [h] else [] := by
    intro i hi
    rw [hfloor] at hi
    rw [← hg1]
    simp [addPassenger, hwaiting, hi]
  have hadmits : Admits B g1.currentFloor 1 .infected y := by
    refine ⟨?_, by omega, Or.inl ?_⟩
    · rw [hfloor, ← hy]
    · rw [← hy]
  have hrefused : ¬ Admits B g1.currentFloor 1 .infected h := by simp [Admits, hh]
  have hsplit : board B g1.currentFloor 1 .infected (g1.waitingList (g1.currentFloor - 1))
      = ([y], if g1.currentFloor = h.startFloor then [h] else []) := by
    rw [hqueue]
    split
    · rw [List.singleton_append, board_cons_refused hrefused, board_cons_admitted hadmits]
      rfl
    · rw [List.nil_append, board_cons_admitted hadmits]
      rfl
  have hinfected : g1.status = .infected := hg1 ▸ hstatus
  have hunloaded : (unloadPassengers .granted g1).1
      = { g1 with onboard := [z], loads := 1, serviced := g1.serviced + old.length,
                  freed := g1.freed ++ old } := by
    rw [unloadPassengers_granted, hone, hriding, halight, if_neg (by omega)]
  rw [hunloaded]
  refine ⟨y, hg1 ▸ hsweep.congr rfl rfl, hg1 ▸ hs, hg1 ▸ hd, rfl, ?_, ?_, ?_, by simp, ?_, ?_, ?_⟩
  · rw [← hg1]
    simp [addPassenger, hnum]
  · simp only [boarders, hinfected, hsplit]
  · intro i
    simp only [stayers, hinfected, hsplit]
    rcases eq_or_ne i (g1.currentFloor - 1) with rfl | hi
    · rw [Function.update_self]
      exact if_congr (by omega) rfl rfl
    · rw [Function.update_of_ne hi, hother i hi]
  · simpa using hz
  · rw [← hy]
  · rw [← hy]

theorem one_le_passedOver {p : Passenger} {s : Sys} {pre post : List Label} {l : Label}
    (h : PassesOver B p ((system B).run s pre) l) : 1 ≤ passedOver B p s (pre ++ l :: post) := by
  rw [passedOver, Machine.total_append, Machine.total, if_pos h]
  omega

/-- Runs put together pass over as often as both. -/
theorem passedOver_append (p : Passenger) (s : Sys) (ls ls' : List Label) :
    passedOver B p s (ls ++ ls')
      = passedOver B p s ls + passedOver B p ((system B).run s ls) ls' :=
  (system B).total_append _ s ls ls'

/-- **A round** leads from one parade to the next, and passes the human over
if it is at that floor. -/
theorem Parade.round {k : Nat} {h : Passenger} {g : Globals} (hp : Parade B k h g)
    (hcap : 2 ≤ B.capacity) (hh : h.type = 0) :
    ∃ g', (system B).run ⟨g, .top⟩ (KernelElevator.round B k) = ⟨g', .top⟩ ∧ Parade B (k + 1) h g' ∧
      ((shuttle B.floors k : Int) = h.startFloor →
        1 ≤ passedOver B h ⟨g, .top⟩ (KernelElevator.round B k)) := by
  obtain ⟨y, hboarding⟩ := hp.boarding hcap hh
  have hcall : Sys.step B ⟨g, .top⟩
      (.call (.issueRequest (shuttle B.floors k) (shuttle B.floors (k + 2)) 1))
      = ⟨addPassenger (shuttle B.floors k) (shuttle B.floors (k + 2)) 1 g, .top⟩ :=
    step_issueRequest hp.started hp.deactiving (requestable_stops B k)
  have hbusy : busy (addPassenger (shuttle B.floors k) (shuttle B.floors (k + 2)) 1 g) = true := by
    simp [busy, addPassenger, hp.numWaiting_eq]
  generalize addPassenger (shuttle B.floors k) (shuttle B.floors (k + 2)) 1 g = g1 at *
  generalize hunload : unloadPassengers .granted g1 = r at *
  obtain ⟨g2, us⟩ := r
  refine ⟨departed (B := B) us g2, ?_, hboarding.parade us, fun hfloor => ?_⟩
  · rw [KernelElevator.round, Machine.run_cons]
    exact (congrArg (fun s => (system B).run s _) hcall).trans (hboarding.run hcap hbusy hunload)
  · have hload : (system B).run ⟨g, .top⟩
        (.call (.issueRequest (shuttle B.floors k) (shuttle B.floors (k + 2)) 1)
          :: List.replicate 2 .scheduler) = ⟨g2, .load us⟩ := by
      simp only [List.replicate, Machine.run_cons, Machine.run_nil, system, hcall]
      simp [Sys.step, KernelElevator.schedulerStep, hbusy, hunload]
    have hsplit : KernelElevator.round B k
        = (.call (.issueRequest (shuttle B.floors k) (shuttle B.floors (k + 2)) 1)
          :: List.replicate 2 .scheduler) ++ .scheduler :: List.replicate 3 .scheduler := rfl
    rw [hsplit]
    refine one_le_passedOver ?_
    rw [hload]
    exact hboarding.passesOver hcap hfloor us

/-- As many rounds as wanted. -/
theorem Parade.rounds {k : Nat} {h : Passenger} {g : Globals} (hp : Parade B k h g)
    (hcap : 2 ≤ B.capacity) (hh : h.type = 0) (n : Nat) :
    ∃ ls g', .call .stopElevator ∉ ls ∧ (system B).run ⟨g, .top⟩ ls = ⟨g', .top⟩ ∧
      Parade B (k + n) h g' ∧
      ((∃ j < n, (shuttle B.floors (k + j) : Int) = h.startFloor) →
        1 ≤ passedOver B h ⟨g, .top⟩ ls) := by
  induction n with
  | zero => exact ⟨[], g, by simp, rfl, hp, by simp⟩
  | succ n ih =>
    obtain ⟨ls, g', hstop, hrun, hparade, hover⟩ := ih
    obtain ⟨g'', hrun', hparade', hover'⟩ := hparade.round hcap hh
    refine ⟨ls ++ KernelElevator.round B (k + n), g'', ?_, ?_, hparade', fun hex => ?_⟩
    · simp [hstop, KernelElevator.round]
    · rw [Machine.run_append, hrun, hrun']
    · obtain ⟨j, hj, hfloor⟩ := hex
      rw [passedOver_append, hrun]
      rcases Nat.lt_succ_iff_lt_or_eq.mp hj with hlt | rfl
      · have := hover ⟨j, hlt, hfloor⟩
        omega
      · have := hover' hfloor
        omega

/-- Each tour of the building passes the human over once more. -/
theorem Parade.tours {h : Passenger} (hcap : 2 ≤ B.capacity) (hh : h.type = 0)
    (hfloor : 1 ≤ h.startFloor ∧ h.startFloor ≤ B.floors) (n k : Nat) {g : Globals}
    (hp : Parade B k h g) :
    ∃ ls g' k', .call .stopElevator ∉ ls ∧ (system B).run ⟨g, .top⟩ ls = ⟨g', .top⟩ ∧
      Parade B k' h g' ∧ n ≤ passedOver B h ⟨g, .top⟩ ls := by
  induction n with
  | zero => exact ⟨[], g, k, by simp, rfl, hp, Nat.zero_le _⟩
  | succ n ih =>
    obtain ⟨ls, g', k', hstop, hrun, hparade, hover⟩ := ih
    obtain ⟨ls', g'', hstop', hrun', hparade', hover'⟩ :=
      hparade.rounds hcap hh (shuttlePeriod B.floors)
    obtain ⟨j, hj, hvisit⟩ := shuttle_covers B.two_le_floors k' (x := h.startFloor.toNat)
      (by omega) (by omega)
    have hmore := hover' ⟨j, hj, by omega⟩
    refine ⟨ls ++ ls', g'', _, ?_, ?_, hparade', ?_⟩
    · simp [hstop, hstop']
    · rw [Machine.run_append, hrun, hrun']
    · rw [passedOver_append, hrun]
      omega


/-! ## The opening -/

/-- The elevator is started, a zombie asks on the first floor, then a human
asks, and the scheduler does an iteration. -/
def opening (B : Building) (startFloor destinationFloor : Int) : List Label :=
  .call .startElevator :: .call (.issueRequest (shuttle B.floors 0) (shuttle B.floors 2) 1)
    :: .call (.issueRequest startFloor destinationFloor 0) :: List.replicate 6 .scheduler

/-- The zombie who asks first. -/
def vanguard (B : Building) : Passenger := ⟨0, 1, shuttle B.floors 0, shuttle B.floors 2⟩

/-- The zombie boards the empty cabin, also if the human stands behind it. -/
theorem boarding_opening (hcap : 2 ≤ B.capacity) {a b : Int} {g : Globals}
    (hsweep : OnSweep B 0 g) (hs : g.started = true) (hd : g.deactiving = false)
    (hloads : g.loads = 0) (hon : g.onboard = []) (hstatus : g.status = .uninfected)
    (hnum : g.numWaiting = 2) (hwaiting : ∀ i, g.waitingList i
      = (if i = 0 then [vanguard B] else []) ++ if i = a - 1 then [⟨1, 0, a, b⟩] else []) :
    Boarding B 0 ⟨1, 0, a, b⟩ (vanguard B) g := by
  have hfloor : g.currentFloor = 1 := by simpa [shuttle_zero] using hsweep.currentFloor_eq
  have hqueue : g.waitingList (g.currentFloor - 1)
      = vanguard B :: if a = 1 then [⟨1, 0, a, b⟩] else [] := by
    rw [hwaiting, hfloor]
    simp only [sub_self, if_true, List.singleton_append]
    exact congrArg _ (if_congr (by omega) rfl rfl)
  have hadmits : Admits B 1 0 .uninfected (vanguard B) := by
    refine ⟨?_, by omega, Or.inl rfl⟩
    simp [vanguard, shuttle_zero]
  have hrest : board B 1 1 .infected (if a = 1 then [⟨1, 0, a, b⟩] else [])
      = ([], if a = 1 then [⟨1, 0, a, b⟩] else []) := by
    refine board_eq_of_refused fun p hp => ?_
    have hhuman : p.type = 0 := by
      split at hp
      · rw [List.mem_singleton.mp hp]
      · cases hp
    simp [Admits, hhuman]
  have hsplit : board B g.currentFloor g.loads g.status (g.waitingList (g.currentFloor - 1))
      = ([vanguard B], if a = 1 then [⟨1, 0, a, b⟩] else []) := by
    have hinfects : Status.with .uninfected (vanguard B) = .infected := rfl
    rw [hqueue, hfloor, hloads, hstatus, board_cons_admitted hadmits, hinfects, zero_add, hrest]
  refine ⟨hsweep, hs, hd, by simp [hloads, hon], hnum, congrArg Prod.fst hsplit, ?_, by simp [hon],
    by simp [hon], rfl, rfl⟩
  intro i
  rw [stayers, hsplit]
  rcases eq_or_ne i (g.currentFloor - 1) with rfl | hi
  · rw [Function.update_self]
    exact if_congr (by simp only [hfloor]; omega) rfl rfl
  · rw [Function.update_of_ne hi, hwaiting, if_neg (by omega : ¬ i = 0), List.nil_append]

theorem unload_empty {g : Globals} (hon : g.onboard = []) (hloads : g.loads = 0)
    (hstatus : g.status = .uninfected) : unloadPassengers .granted g = (g, false) := by
  obtain ⟨⟩ := g
  simp_all [unloadPassengers_granted, alighting, riding]

theorem parade_opening (hcap : 2 ≤ B.capacity) {a b : Int} (hreq : Requestable B a b 0) :
    ∃ g, Sys.after B (opening B a b) = ⟨g, .top⟩ ∧ Parade B 1 ⟨1, 0, a, b⟩ g := by
  generalize hg0 : { (loaded B).g with started := true, deactiving := false } = g0
  have hstart : Sys.step B (loaded B) (.call .startElevator) = ⟨g0, .top⟩ := by
    rw [← hg0, Sys.step, Call.exec, startElevator_stopped (g := (loaded B).g) rfl]
    rfl
  have hs : g0.started = true := hg0 ▸ rfl
  have hd : g0.deactiving = false := hg0 ▸ rfl
  generalize hg1 : addPassenger a b 0
    (addPassenger (shuttle B.floors 0) (shuttle B.floors 2) 1 g0) = g1
  have hcalls : Sys.after B (opening B a b)
      = (system B).run ⟨g1, .top⟩ (List.replicate 6 .scheduler) := by
    rw [Sys.after, opening, Machine.run_cons, Machine.run_cons, Machine.run_cons]
    have hzombie : Sys.step B ⟨g0, .top⟩
        (.call (.issueRequest (shuttle B.floors 0) (shuttle B.floors 2) 1))
        = ⟨addPassenger (shuttle B.floors 0) (shuttle B.floors 2) 1 g0, .top⟩ :=
      step_issueRequest hs hd (requestable_stops B 0)
    have hhuman : Sys.step B ⟨addPassenger (shuttle B.floors 0) (shuttle B.floors 2) 1 g0, .top⟩
        (.call (.issueRequest a b 0))
        = ⟨addPassenger a b 0 (addPassenger (shuttle B.floors 0) (shuttle B.floors 2) 1 g0),
          .top⟩ := step_issueRequest hs hd hreq
    simp only [system, hstart, hzombie, hhuman, hg1]
  have hfields : g1.onboard = [] ∧ g1.loads = 0 ∧ g1.status = .uninfected ∧ g1.numWaiting = 2 := by
    simp [← hg1, ← hg0, addPassenger, loaded, setupElevator, bss]
  obtain ⟨hon, hloads, hstatus, hnum⟩ := hfields
  have hunload := unload_empty hon hloads hstatus
  have hboarding : Boarding B 0 ⟨1, 0, a, b⟩ (vanguard B) g1 := by
    refine boarding_opening hcap ?_ ?_ ?_ hloads hon hstatus hnum fun i => ?_
    · rw [← hg1, ← hg0]
      exact loaded_onSweep.congr rfl rfl
    · rw [← hg1]
      exact hs
    · rw [← hg1]
      exact hd
    · have hempty : ∀ j, g0.waitingList j = [] := by
        simp [← hg0, loaded, setupElevator, bss]
      have hfirst : g0.allocated.length = 0 := by
        simp [← hg0, loaded, setupElevator, bss]
      rw [← hg1]
      simp only [addPassenger, hfirst, shuttle_zero, List.length_append, List.length_singleton]
      rcases eq_or_ne i (a - 1) with rfl | hi
      · rcases eq_or_ne (a - 1) 0 with ha | ha
        · simp [ha, vanguard, shuttle_zero, hempty]
        · simp [ha, hempty]
      · rcases eq_or_ne i 0 with rfl | hi'
        · simp [hi, vanguard, shuttle_zero, hempty]
        · simp [hi, hi', hempty]
  have hbusy : busy g1 = true := by simp [busy, hnum]
  exact ⟨_, hcalls.trans (hboarding.run hcap hbusy hunload), hboarding.parade false⟩

/-! ## The whole -/

/-- **A human can wait forever.** Whatever the building, with at least two
places in the cabin, and wherever a human wants to go: there are runs without
a stop in which the human is passed over by a cabin with room as often as one
likes, and still waits. -/
theorem human_starves (B : Building) (hcap : 2 ≤ B.capacity) (a b : Int)
    (hreq : Requestable B a b 0) (n : Nat) :
    ∃ ls, .call .stopElevator ∉ ls ∧ ⟨1, 0, a, b⟩ ∈ (Sys.after B ls).g.waitingList (a - 1) ∧
      n ≤ passedOver B ⟨1, 0, a, b⟩ (loaded B) ls := by
  obtain ⟨g, hopening, hparade⟩ := parade_opening hcap hreq
  obtain ⟨ls, g', k, hstop, hrun, hparade', hover⟩ :=
    Parade.tours hcap rfl ⟨hreq.start_pos, hreq.start_le⟩ n 1 hparade
  refine ⟨opening B a b ++ ls, ?_, ?_, ?_⟩
  · simp [opening, hstop]
  · have hend : Sys.after B (opening B a b ++ ls) = ⟨g', .top⟩ := by
      rw [← hrun, ← hopening, Sys.after, Machine.run_append, Sys.after]
    rw [hend, hparade'.waiting_eq, if_pos rfl]
    exact List.mem_singleton.mpr rfl
  · have hrest : (system B).run (loaded B) (opening B a b) = ⟨g, .top⟩ := hopening
    rw [passedOver_append, hrest]
    omega

/-- In the building of the source, for a human who wants to go from floor 4 to
floor 1. -/
theorem human_starves_source :
    ∃ ls, .call .stopElevator ∉ ls ∧ ⟨1, 0, 4, 1⟩ ∈ (Sys.after .source ls).g.waitingList (4 - 1) ∧
      100 ≤ passedOver .source ⟨1, 0, 4, 1⟩ (loaded .source) ls :=
  human_starves .source (by decide) 4 1 ⟨by decide, by decide, by decide, by decide, by decide⟩ 100

end KernelElevator
