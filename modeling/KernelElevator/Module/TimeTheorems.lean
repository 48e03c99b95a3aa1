/-
KernelElevator.Module.TimeTheorems — how long it takes, in seconds of sleep.

The thread spends its time in `ssleep`: one second after a loading phase in
which somebody got on or off, two for a move, one when there is nothing to
do. Counted in these seconds

  §1 a ride takes no longer than three for each stop of a tour through the
     building (`ride_seconds`), in the building of the source 54 seconds.

The cabin moves only for somebody. As long as stops meet an empty cabin

  §2 every accepted request costs at most two tours of moves, one until
     somebody boards and one until somebody gets off, however the requests
     come in between (`moves_paid`).
-/
import KernelElevator.Module.SweepTheorems
import KernelElevator.Module.DrainTheorems
import KernelElevator.Module.IterationTheorems
import KernelElevator.Module.LiftTheorems

namespace KernelElevator

open Transition

variable (B : Building)

/-! ## §1 A ride -/

/-- The seconds that the thread sleeps in a step. -/
def sleeps (s : Sys) (l : Label) : Nat := (s.step B l).g.slept - s.g.slept

/-- The seconds that the thread sleeps in the run `ls` of a freshly loaded
module while `p` is on board. -/
def rideSeconds (p : Passenger) (ls : List Label) : Nat :=
  (system B).total (fun s l => if p ∈ s.g.onboard then sleeps B s l else 0) (loaded B) ls

/-- The seconds of this stop that are over, when the scheduler has got here. -/
def Pc.spent : Pc → Nat
  | .top | .unload | .load _ | .loading _ _ => 0
  | .dispatch => 1
  | .move => 3

theorem Pc.spent_le (pc : Pc) : pc.spent ≤ 3 := by
  cases pc <;> simp [Pc.spent]

theorem Pc.departs_of_spent {pc : Pc} (h : pc.spent ≠ 0) : pc = .dispatch ∨ pc = .move := by
  cases pc <;> simp_all [Pc.spent]

variable {B}

theorem sleeps_call (s : Sys) (c : Call) : sleeps B s (.call c) = 0 := by
  have he := exec_effect (B := B) s c
  simp only [sleeps, Sys.step]
  generalize (c.exec B s.g).2 = g' at he ⊢
  cases he <;> simp [addPassenger]

/-- With somebody on board a departure is due. -/
theorem mustMove_of_onboard {s : Sys} (hinv : s.Inv B) (hon : s.g.onboard ≠ []) :
    mustMove s.g = true := by
  have hlen := List.length_pos_iff.mpr hon
  have hloads := hinv.wf.cabin.onboard_le_loads
  simp only [mustMove, decide_eq_true_eq]
  omega

/-- With somebody on board, each phase sleeps no more than its share of the
stop, and a move begins the next one. -/
theorem sleeps_scheduler {s : Sys} (hinv : s.Inv B) (hon : s.g.onboard ≠ []) :
    sleeps B s .scheduler + s.pc.spent
      ≤ (schedulerStep B s).pc.spent + 3 * if Moves s .scheduler then 1 else 0 := by
  have hbusy : busy s.g = true := by simp [busy, hon]
  have hmust := mustMove_of_onboard hinv hon
  obtain ⟨g, pc⟩ := s
  simp only [sleeps, Sys.step]
  cases pc with
  | top => simp [schedulerStep_top_busy B hbusy, Pc.spent]
  | unload => simp [schedulerStep_unload, unloadPassengers_granted, Pc.spent]
  | load us => simp [schedulerStep_load, loadPhase_slept, Pc.spent]
  | loading us ls =>
    simp only [schedulerStep, loadingPhase_eq, loadTime, Pc.spent]
    split <;> simp
  | dispatch =>
    simp [schedulerStep_dispatch_move B hmust, changeElevatorState_eq, ssleep, moveTime, Pc.spent]
  | move =>
    obtain ⟨current, next, hmove⟩ := moveElevator_frame B g
    simp [schedulerStep, hmove, Moves, Pc.spent]

/-- Whoever is on board when the cabin departs will have ridden one move more
within the bound. -/
theorem Ridden.next {p : Passenger} {m : Nat} {s : Sys} (h : Ridden B p m s)
    (hp : p ∈ s.g.onboard) (hpc : s.pc = .dispatch ∨ s.pc = .move) :
    m + 1 ≤ 2 * (B.floors - 1) := by
  have hmove : ∀ {m : Nat} {s : Sys}, Ridden B p m s → p ∈ s.g.onboard → s.pc = .move →
      m + 1 ≤ 2 * (B.floors - 1) := by
    intro m s h hp hpc
    have hnext := (h.step .scheduler).bound.le_period
    rwa [if_pos ⟨⟨rfl, hpc⟩, hp⟩] at hnext
  rcases hpc with hpc | hpc
  · have hmust := mustMove_of_onboard h.inv (List.ne_nil_of_mem hp)
    have hstep : s.step B .scheduler = ⟨ssleep moveTime (changeElevatorState s.g), .move⟩ := by
      obtain ⟨g, pc⟩ := s
      obtain rfl : pc = .dispatch := hpc
      exact schedulerStep_dispatch_move B hmust
    have hstill : ¬ (Moves s .scheduler ∧ p ∈ s.g.onboard) := fun hm => by
      cases hpc.symm.trans hm.1.2
    have hridden := h.step .scheduler
    rw [if_neg hstill, Nat.add_zero, hstep, changeElevatorState_eq] at hridden
    exact hmove hridden hp rfl
  · exact hmove h hp hpc

/-- Nobody leaves in the two phases that spend time before the move. -/
theorem onboard_of_spent {s : Sys} (h : (schedulerStep B s).pc.spent ≠ 0) :
    (schedulerStep B s).g.onboard = s.g.onboard := by
  obtain ⟨g, pc⟩ := s
  cases pc with
  | loading us ls => simp [schedulerStep, loadingPhase_eq]
  | dispatch =>
    simp only [schedulerStep, changeElevatorState_eq, ssleep, settle]
    split
    · rfl
    · split <;> rfl
  | top => simp only [schedulerStep] at h; split at h <;> exact absurd rfl h
  | _ => exact absurd rfl h

variable (B) in
/-- The thread has slept `t` seconds while `p` was on board. -/
structure Timed (p : Passenger) (t : Nat) (s : Sys) : Prop where
  ridden : ∃ m, Ridden B p m s ∧ (p ∈ s.g.onboard → t ≤ 3 * m + s.pc.spent)
  before : p ∉ s.g.onboard → p ∉ s.g.freed → t = 0
  bound : t ≤ 3 * (2 * (B.floors - 1))

theorem Timed.scheduler {p : Passenger} {t : Nat} {s : Sys} (h : Timed B p t s)
    (hp : p ∈ s.g.onboard) : Timed B p (t + sleeps B s .scheduler) (s.step B .scheduler) := by
  obtain ⟨⟨m, hridden, hle⟩, -, -⟩ := h
  have hsleeps := sleeps_scheduler hridden.inv (List.ne_nil_of_mem hp)
  have hnext := hridden.step (B := B) .scheduler
  have hcount : (if Moves s .scheduler ∧ p ∈ s.g.onboard then 1 else 0)
      = if Moves s .scheduler then 1 else 0 := if_congr (and_iff_left hp) rfl rfl
  rw [hcount] at hnext
  have hold := hle hp
  have htime : t + sleeps B s .scheduler
      ≤ 3 * (m + if Moves s .scheduler then 1 else 0) + (s.step B .scheduler).pc.spent := by
    simp only [Sys.step] at hsleeps ⊢
    omega
  refine ⟨⟨_, hnext, fun _ => htime⟩, fun hgone hnot => ?_, ?_⟩
  · exact absurd ((Sys.step_effect (B := B) s .scheduler).leaves hp hgone) hnot
  · have hperiod := hnext.bound.le_period
    by_cases hspent : (s.step B .scheduler).pc.spent = 0
    · omega
    · -- nobody has left, so the next move is within the bound too
      have hstays : p ∈ (s.step B .scheduler).g.onboard := (onboard_of_spent hspent).symm ▸ hp
      have hmore := hnext.next hstays (Pc.departs_of_spent hspent)
      have hthree := (s.step B .scheduler).pc.spent_le
      omega

theorem Timed.call {p : Passenger} {t : Nat} {s : Sys} (h : Timed B p t s) (c : Call) :
    Timed B p t (s.step B (.call c)) := by
  obtain ⟨⟨m, hridden, hle⟩, hbefore, hbound⟩ := h
  have he := exec_effect (B := B) s c
  have hstill : ¬ (Moves s (.call c) ∧ p ∈ s.g.onboard) := fun hm => by cases hm.1.1
  have hnext := hridden.step (B := B) (.call c)
  rw [if_neg hstill, Nat.add_zero] at hnext
  refine ⟨⟨m, hnext, fun hp => ?_⟩, fun hgone hnot => ?_, hbound⟩
  · by_cases hon : p ∈ s.g.onboard
    · exact hle hon
    · obtain ⟨us, hl, -⟩ := he.boards hp hon
      cases hl
  · refine hbefore (fun hon => hnot (he.leaves hon hgone)) fun hf => hnot (he.freed_subset hf)

theorem Timed.step {p : Passenger} {t : Nat} {s : Sys} (h : Timed B p t s) (l : Label) :
    Timed B p (t + if p ∈ s.g.onboard then sleeps B s l else 0) (s.step B l) := by
  cases l with
  | call c =>
    rw [sleeps_call, ite_self, Nat.add_zero]
    exact h.call c
  | scheduler =>
    by_cases hp : p ∈ s.g.onboard
    · rw [if_pos hp]
      exact h.scheduler hp
    · -- a ride can only begin
      rw [if_neg hp, Nat.add_zero]
      obtain ⟨⟨m, hridden, -⟩, hbefore, hbound⟩ := h
      have he := Sys.step_effect (B := B) s .scheduler
      refine ⟨⟨_, hridden.step .scheduler, fun hnew => ?_⟩, fun _ hnot => ?_, hbound⟩
      · obtain ⟨us, -, hpc, hwaits⟩ := he.boards hnew hp
        have hnotfreed := hridden.records.not_freed_of_waiting
          (waiting_range hridden.inv.wf.queues hwaits).1
          (waiting_range hridden.inv.wf.queues hwaits).2 hwaits
        rw [hbefore hp hnotfreed]
        exact Nat.zero_le _
      · exact hbefore hp fun hf => hnot (he.freed_subset hf)

/-- **Rides are short**: in every run the thread sleeps no more than three
seconds for each stop of one tour while a given passenger is on board. -/
theorem ride_seconds (B : Building) (p : Passenger) (ls : List Label) :
    rideSeconds B p ls ≤ 3 * (2 * (B.floors - 1)) := by
  have hloaded : Timed B p 0 (loaded B) :=
    ⟨⟨0, ridden_after p [], fun hp => by simp [loaded, setupElevator] at hp⟩, fun _ _ => rfl,
      Nat.zero_le _⟩
  exact ((system B).total_inv_zero
    (w := fun s l => if p ∈ s.g.onboard then sleeps B s l else 0) (P := Timed B p)
    (fun _ _ l h => h.step l) ls (loaded B) hloaded).bound

/-! ## §2 Moves are made for somebody -/

/-- The iteration has its loading behind it. -/
def Pc.loaded : Pc → Bool
  | .top | .unload | .load _ => false
  | _ => true

/-- The phase in which this floor would have been served is over: with
somebody on board it is the unloading, else the loading. -/
def Sys.served (s : Sys) : Bool := if s.g.onboard = [] then s.pc.loaded else s.pc.unloaded

/-- At the floor `x` somebody would get off, or on if the cabin is empty. -/
def Sys.Wants (s : Sys) (x : Nat) : Prop :=
  (∃ p ∈ s.g.onboard, p.destinationFloor = x) ∨
    s.g.onboard = [] ∧ ∃ i, ∃ p ∈ s.g.waitingList i, p.startFloor = x

variable (B) in
/-- The cabin has been on its way to the floor `x` for `d` moves, and has not
been there. -/
structure Underway (x d : Nat) (s : Sys) : Prop where
  range : 1 ≤ x ∧ x ≤ B.floors
  wants : s.Wants x
  onSweep : ∃ k, OnSweep B (k + d) s.g ∧ ∀ j, 1 ≤ j → j < d → shuttle B.floors (k + j) ≠ x
  here : s.served = true → 1 ≤ d → s.g.currentFloor ≠ x

variable (B) in
/-- The `m` moves are paid for: two tours for each request, less one for each
boarding and each arrival that is still to come, and the way to the next. -/
structure Paid (m : Nat) (s : Sys) : Prop where
  inv : s.Inv B
  exact : LoadsExact s
  due : s.pc = .move → 0 < work B s.g
  paid : ∃ d, m + shuttlePeriod B.floors * work B s.g
      ≤ shuttlePeriod B.floors * (2 * s.g.allocated.length) + d ∧ (d = 0 ∨ ∃ x, Underway B x d s)

/-- One tour passes every floor. -/
theorem Underway.le_period {x d : Nat} {s : Sys} (h : Underway B x d s) :
    d ≤ shuttlePeriod B.floors := by
  obtain ⟨k, -, hpassed⟩ := h.onSweep
  obtain ⟨j, hj, hcover⟩ := shuttle_covers B.two_le_floors (k + 1) h.range.1 h.range.2
  by_contra hlong
  refine hpassed (1 + j) (by omega) (by omega) ?_
  rw [← hcover, Nat.add_assoc]

theorem Sys.Wants.work_pos {x : Nat} {s : Sys} (hq : QueueInv B s.g) (h : s.Wants x) :
    0 < work B s.g := by
  rcases h with ⟨p, hp, -⟩ | ⟨-, i, p, hp, -⟩
  · have hpos := List.length_pos_of_mem hp
    unfold work
    omega
  · have hwork := work_eq hq
    have hnonneg := hq.numWaiting_nonneg
    have hnonzero : s.g.numWaiting ≠ 0 := fun hzero => by
      have hnil := hq.numWaiting_eq_zero_iff.mp hzero i
      simp [hnil] at hp
    omega

/-- With work left some floor is wanted. -/
theorem exists_wants {s : Sys} (hq : QueueInv B s.g) (h : 0 < work B s.g) :
    ∃ x, (1 ≤ x ∧ x ≤ B.floors) ∧ s.Wants x := by
  cases hon : s.g.onboard with
  | cons p ps =>
    have hp : p ∈ s.g.onboard := by rw [hon]; exact List.mem_cons_self ..
    have hok := hq.onboard_ok p hp
    have hpos := hok.destination_pos
    have hle := hok.destination_le
    exact ⟨p.destinationFloor.toNat, by omega, Or.inl ⟨p, hp, by omega⟩⟩
  | nil =>
    have hwork := work_eq hq
    rw [hon, List.length_nil] at hwork
    have hwait : ∃ i, s.g.waitingList i ≠ [] := by
      by_contra hall
      have hzero := hq.numWaiting_eq_zero_iff.mpr fun i => by
        by_contra hne
        exact hall ⟨i, hne⟩
      omega
    obtain ⟨i, hne⟩ := hwait
    obtain ⟨p, hp⟩ := List.exists_mem_of_ne_nil _ hne
    obtain ⟨hok, -⟩ := hq.waiting_ok i p hp
    have hpos := hok.start_pos
    have hle := hok.start_le
    exact ⟨p.startFloor.toNat, by omega, Or.inr ⟨hon, i, p, hp, by omega⟩⟩

/-- An empty cabin with an exact counter takes anybody who waits here. -/
theorem admitted_of_empty {g : Globals} {pc : Pc} (hw : g.Wf B) (hexact : LoadsExact ⟨g, pc⟩)
    (hnil : g.onboard = []) {i : Int} {p : Passenger} (hp : p ∈ g.waitingList i)
    (hstart : p.startFloor = g.currentFloor) :
    p ∈ g.waitingList (g.currentFloor - 1) ∧ Admits B g.currentFloor g.loads g.status p := by
  obtain ⟨hok, hfloor⟩ := hw.queues.waiting_ok i p hp
  have hzero : g.loads = 0 := by
    have hlen : g.loads = g.onboard.length := hexact
    rw [hlen, hnil]
    rfl
  have hstatus : g.status = .uninfected := by
    cases hs : g.status with
    | uninfected => rfl
    | infected =>
      have hpos := hw.cabin.loads_pos_of_infected hs
      omega
  have hpos := B.capacity_pos
  refine ⟨?_, hstart, by omega, hok.type_eq.symm.imp_right fun h0 => ⟨h0, hstatus⟩⟩
  rwa [show g.currentFloor - 1 = i by omega]

/-- A step that nobody boards or leaves in keeps the way. -/
theorem Underway.quiet {x d : Nat} {s s' : Sys} (h : Underway B x d s)
    (honboard : s'.g.onboard = s.g.onboard)
    (hwaiting : ∀ i, ∀ p ∈ s.g.waitingList i, p ∈ s'.g.waitingList i)
    (hcurrent : s'.g.currentFloor = s.g.currentFloor) (hnext : s'.g.nextFloor = s.g.nextFloor)
    (hserved : s'.served = true → s.served = true ∨ s.g.currentFloor ≠ x) : Underway B x d s' := by
  obtain ⟨hrange, hwants, ⟨k, hk, hpassed⟩, hhere⟩ := h
  refine ⟨hrange, ?_, ⟨k, hk.congr hcurrent hnext, hpassed⟩, fun hs hd => ?_⟩
  · rcases hwants with ⟨p, hp, hx⟩ | ⟨hnil, i, p, hp, hx⟩
    · exact Or.inl ⟨p, honboard ▸ hp, hx⟩
    · exact Or.inr ⟨honboard.trans hnil, i, p, hwaiting i p hp, hx⟩
  · rw [hcurrent]
    exact (hserved hs).elim (fun hold => hhere hold hd) id

/-- When somebody boards or gets off, the way there is paid with it. -/
theorem Paid.event {m : Nat} {s s' : Sys} (h : Paid B m s) (hinv : s'.Inv B)
    (hexact : LoadsExact s') (hdue : s'.pc = .move → 0 < work B s'.g)
    (hallocated : s'.g.allocated = s.g.allocated) (hwork : work B s'.g < work B s.g) :
    Paid B m s' := by
  obtain ⟨d, hle, hway⟩ := h.paid
  refine ⟨hinv, hexact, hdue, 0, ?_, Or.inl rfl⟩
  have hperiod : d ≤ shuttlePeriod B.floors := by
    rcases hway with rfl | ⟨x, hx⟩
    · exact Nat.zero_le _
    · exact hx.le_period
  have hless : shuttlePeriod B.floors * work B s'.g + shuttlePeriod B.floors
      ≤ shuttlePeriod B.floors * work B s.g :=
    Nat.mul_le_mul_left (shuttlePeriod B.floors) hwork
  rw [hallocated]
  omega

/-- Otherwise the bill stays. -/
theorem Paid.quiet {m : Nat} {s s' : Sys} (h : Paid B m s) (hinv : s'.Inv B)
    (hexact : LoadsExact s') (hdue : s'.pc = .move → 0 < work B s'.g)
    (hallocated : s'.g.allocated = s.g.allocated) (hwork : work B s'.g = work B s.g)
    (hway : ∀ x d, Underway B x d s → Underway B x d s') : Paid B m s' := by
  obtain ⟨d, hle, hheads⟩ := h.paid
  refine ⟨hinv, hexact, hdue, d, ?_, hheads.imp_right (Exists.imp fun x hx => hway x d hx)⟩
  rw [hallocated, hwork]
  exact hle

/-- A phase that only touches what is shown and slept keeps the bill. -/
theorem Paid.phase {m : Nat} {s : Sys} (h : Paid B m s) {s' : Sys}
    (hstep : s.step B .scheduler = s') (hsame : SamePassengers s.g s'.g)
    (hallocated : s'.g.allocated = s.g.allocated)
    (hcurrent : s'.g.currentFloor = s.g.currentFloor) (hnext : s'.g.nextFloor = s.g.nextFloor)
    (hdue : s'.pc = .move → 0 < work B s.g)
    (hserved : s'.served = true → s.served = true ∨
      ∀ x, s.Wants x → s.g.currentFloor ≠ x) : Paid B m s' := by
  subst hstep
  refine h.quiet (h.inv.step .scheduler) (loadsExact_of_ne_stop h.exact (by simp))
    (fun hpc => hsame.work_eq ▸ hdue hpc) hallocated hsame.work_eq fun x d hx => ?_
  exact hx.quiet hsame.onboard (fun i p hp => hsame.waitingList ▸ hp) hcurrent hnext
    fun hs => (hserved hs).imp_right fun hfar => hfar x hx.wants

theorem Paid.unload {m : Nat} {g : Globals} (h : Paid B m ⟨g, .unload⟩) :
    Paid B m (Sys.step B ⟨g, .unload⟩ .scheduler) := by
  have hinv := h.inv.step (B := B) .scheduler
  have hexact := loadsExact_of_ne_stop (B := B) h.exact (l := .scheduler) (by simp)
  by_cases hnone : alighting g = []
  · have hstep : Sys.step B ⟨g, .unload⟩ .scheduler = ⟨g, .load false⟩ := by
      simp [Sys.step, schedulerStep_unload, unload_quiet h.inv.wf.cabin hnone]
    rw [hstep]
    refine h.phase hstep (.refl g) rfl rfl rfl (fun hpc => by cases hpc) fun hserved => ?_
    -- whoever is on board goes to another floor
    refine Or.inr fun x hwants hx => ?_
    rcases hwants with ⟨p, hp, hdest⟩ | ⟨hnil, -⟩
    · have halights := mem_alighting.mpr ⟨hp, hdest.trans hx.symm⟩
      rw [hnone] at halights
      simp at halights
    · simp only [Sys.served, if_pos hnil] at hserved
      cases hserved
  · have hwork := work_unload (B := B) g
    have hsome := List.length_pos_iff.mpr hnone
    refine h.event hinv hexact (fun hpc => by cases hpc) ?_ ?_
    · simp [Sys.step, schedulerStep_unload, unloadPassengers_granted]
    · simp only [Sys.step, schedulerStep_unload]
      omega

theorem Paid.load {m : Nat} {g : Globals} {us : Bool} (h : Paid B m ⟨g, .load us⟩) :
    Paid B m (Sys.step B ⟨g, .load us⟩ .scheduler) := by
  have hinv := h.inv.step (B := B) .scheduler
  have hexact := loadsExact_of_ne_stop (B := B) h.exact (l := .scheduler) (by simp)
  by_cases hroom : g.loads < B.capacity
  · by_cases hnone : boarders B g = []
    · have hstep : Sys.step B ⟨g, .load us⟩ .scheduler = ⟨g, .loading us false⟩ := by
        simp [Sys.step, schedulerStep_load, loadPhase_room B hroom, load_quiet hnone]
      rw [hstep]
      refine h.phase hstep (.refl g) rfl rfl rfl (fun hpc => by cases hpc) fun _ => ?_
      by_cases hnil : g.onboard = []
      · -- an empty cabin would have taken whoever waits here
        refine Or.inr fun x hwants hx => ?_
        rcases hwants with ⟨p, hp, -⟩ | ⟨-, i, p, hp, hstart⟩
        · simp [hnil] at hp
        · exact board_ne_nil (admitted_of_empty h.inv.wf h.exact hnil hp (hstart.trans hx.symm)).1
            (admitted_of_empty h.inv.wf h.exact hnil hp (hstart.trans hx.symm)).2 hnone
      · exact Or.inl (by simp [Sys.served, hnil, Pc.unloaded])
    · have hwork : work B (loadLocked B g).1 + (boarders B g).length = work B g :=
        work_load h.inv.wf.queues
      have hsome := List.length_pos_iff.mpr hnone
      refine h.event hinv hexact (fun hpc => by cases hpc) ?_ ?_
      · simp [Sys.step, schedulerStep_load, loadPhase_room B hroom, loadLocked_eq, boarded]
      · simp only [Sys.step, schedulerStep_load, loadPhase_room B hroom]
        omega
  · have hstep : Sys.step B ⟨g, .load us⟩ .scheduler = ⟨g, .loading us false⟩ := by
      simp [Sys.step, schedulerStep_load, loadPhase_full B hroom]
    have hnil : g.onboard ≠ [] := fun hnil => hroom (by
      have hzero : g.loads = g.onboard.length := h.exact
      have hpos := B.capacity_pos
      rw [hnil, List.length_nil] at hzero
      omega)
    rw [hstep]
    exact h.phase hstep (.refl g) rfl rfl rfl (fun hpc => by cases hpc) fun _ =>
      Or.inl (by simp [Sys.served, hnil, Pc.unloaded])

/-- A move is one on the way to somebody, or the first one on a new way. -/
theorem Paid.move {m : Nat} {g : Globals} (h : Paid B m ⟨g, .move⟩) :
    Paid B (m + 1) (Sys.step B ⟨g, .move⟩ .scheduler) := by
  have hinv := h.inv.step (B := B) .scheduler
  have hexact := loadsExact_of_ne_stop (B := B) h.exact (l := .scheduler) (by simp)
  have hsweep : ∀ k, OnSweep B k g → OnSweep B (k + 1) (moveElevator B g) :=
    fun k hk => hk.move (h.inv.heading_eq rfl)
  have hpos := h.due rfl
  obtain ⟨current, next, hmove⟩ := moveElevator_frame B g
  have hstep : Sys.step B ⟨g, .move⟩ .scheduler = ⟨moveElevator B g, .top⟩ := rfl
  rw [hstep] at hinv hexact ⊢
  rw [hmove] at hinv hexact hsweep ⊢
  obtain ⟨d, hle, hway⟩ := h.paid
  refine ⟨hinv, hexact, (fun hpc => by cases hpc), d + 1, ?_, Or.inr ?_⟩
  · change m + 1 + shuttlePeriod B.floors * work B g
      ≤ shuttlePeriod B.floors * (2 * g.allocated.length) + (d + 1)
    simp only at hle
    omega
  · have hserved : ∀ g' : Globals, Sys.served ⟨g', .top⟩ = false := fun g' => by
      simp [Sys.served, Pc.loaded, Pc.unloaded]
    rcases hway with rfl | ⟨x, hrange, hwants, ⟨k, hk, hpassed⟩, hhere⟩
    · obtain ⟨x, hrange, hwants⟩ := exists_wants h.inv.wf.queues hpos
      obtain ⟨k, hk⟩ := h.inv.sweep
      exact ⟨x, hrange, hwants, ⟨k, hsweep k hk, fun j hlo hhi => by omega⟩,
        fun hs => by rw [hserved] at hs; cases hs⟩
    · refine ⟨x, hrange, hwants, ⟨k, hsweep (k + d) hk, fun j hlo hhi => ?_⟩,
        fun hs => by rw [hserved] at hs; cases hs⟩
      rcases Nat.lt_or_ge j d with hlt | hge
      · exact hpassed j hlo hlt
      · -- the floor that is being left
        obtain rfl : j = d := by omega
        have hleft : Sys.served ⟨g, .move⟩ = true := by simp [Sys.served, Pc.loaded, Pc.unloaded]
        have hne := hhere hleft hlo
        have hcurrent := hk.currentFloor_eq
        simp only at hne hcurrent
        omega

theorem Paid.scheduler {m : Nat} {s : Sys} (h : Paid B m s) :
    Paid B (m + if Moves s .scheduler then 1 else 0) (s.step B .scheduler) := by
  obtain ⟨g, pc⟩ := s
  have hstill : pc ≠ .move → (m + if Moves ⟨g, pc⟩ .scheduler then 1 else 0) = m := fun hpc => by
    rw [if_neg fun hm => hpc hm.2, Nat.add_zero]
  cases pc with
  | unload => rw [hstill (by simp)]; exact h.unload
  | load us => rw [hstill (by simp)]; exact h.load
  | move => rw [if_pos ⟨rfl, rfl⟩]; exact h.move
  | top =>
    rw [hstill (by simp)]
    cases hbusy : busy g with
    | true =>
      have hstep : Sys.step B ⟨g, .top⟩ .scheduler = ⟨g, .unload⟩ := schedulerStep_top_busy B hbusy
      rw [hstep]
      exact h.phase hstep (.refl g) rfl rfl rfl (fun hpc => by cases hpc) fun hs => by
        simp [Sys.served, Pc.loaded, Pc.unloaded] at hs
    | false =>
      have hstep : Sys.step B ⟨g, .top⟩ .scheduler = ⟨standBy g, .top⟩ :=
        schedulerStep_top_idle B hbusy
      rw [hstep]
      refine h.phase hstep ?_ ?_ ?_ ?_ (fun hpc => by cases hpc) fun hs => by
        simp [Sys.served, Pc.loaded, Pc.unloaded] at hs
      all_goals rw [standBy_eq]; first | rfl | exact ⟨rfl, rfl, rfl, rfl, rfl⟩
  | loading us ls =>
    rw [hstill (by simp)]
    have hstep : Sys.step B ⟨g, .loading us ls⟩ .scheduler
        = ⟨loadingPhase us ls g, .dispatch⟩ := rfl
    rw [hstep, loadingPhase_eq]
    rw [loadingPhase_eq] at hstep
    exact h.phase hstep ⟨rfl, rfl, rfl, rfl, rfl⟩ rfl rfl rfl (fun hpc => by cases hpc) fun _ =>
      Or.inl (by simp [Sys.served, Pc.loaded, Pc.unloaded])
  | dispatch =>
    rw [hstill (by simp)]
    cases hmust : mustMove g with
    | true =>
      have hstep : Sys.step B ⟨g, .dispatch⟩ .scheduler
          = ⟨ssleep moveTime (changeElevatorState g), .move⟩ := schedulerStep_dispatch_move B hmust
      rw [hstep, changeElevatorState_eq]
      rw [changeElevatorState_eq] at hstep
      refine h.phase hstep ⟨rfl, rfl, rfl, rfl, rfl⟩ rfl rfl rfl (fun _ => ?_) fun _ =>
        Or.inl (by simp [Sys.served, Pc.loaded, Pc.unloaded])
      -- somebody is on board or waits
      have hwork : (work B g : Int) = 2 * g.numWaiting + g.onboard.length :=
        work_eq h.inv.wf.queues
      have hnonneg : 0 ≤ g.numWaiting := h.inv.wf.queues.numWaiting_nonneg
      have hexact : g.loads = g.onboard.length := h.exact
      change 0 < work B g
      simp only [mustMove, decide_eq_true_eq] at hmust
      omega
    | false =>
      have hstep : Sys.step B ⟨g, .dispatch⟩ .scheduler = ⟨settle g, .top⟩ := by
        simp [Sys.step, schedulerStep, hmust]
      rw [hstep]
      refine h.phase hstep ?_ ?_ ?_ ?_ (fun hpc => by cases hpc) fun hs => by
        simp [Sys.served, Pc.loaded, Pc.unloaded] at hs
      all_goals unfold settle; split <;> first | rfl | exact ⟨rfl, rfl, rfl, rfl, rfl⟩

/-- A call moves nothing: a request pays for two tours, and a stop that meets
an empty cabin takes nobody away. -/
theorem Paid.call {m : Nat} {s : Sys} (h : Paid B m s) (c : Call)
    (hempty : StopsEmpty s (.call c)) : Paid B m (s.step B (.call c)) := by
  have hinv := h.inv.step (B := B) (.call c)
  have hexact := (loadsExact_step_iff (B := B) h.exact (.call c)).mpr hempty
  have he := exec_effect (B := B) s c
  obtain ⟨g, pc⟩ := s
  have hstep : Sys.step B ⟨g, pc⟩ (.call c) = ⟨(c.exec B g).2, pc⟩ := rfl
  rw [hstep] at hinv hexact ⊢
  simp only at he
  generalize (c.exec B g).2 = g' at he hinv hexact ⊢
  cases he with
  | same _ => exact h
  | started _ =>
    refine h.quiet hinv hexact (fun hpc => h.due hpc) rfl rfl fun x d hx => ?_
    exact hx.quiet rfl (fun _ _ hp => hp) rfl rfl Or.inl
  | stopped htakes =>
    have hnil : g.onboard = [] := hempty rfl htakes
    have hwork : work B { g with
        deactiving := true, started := false, onboard := [], freed := g.freed ++ g.onboard }
          = work B g := by
      simp [work, totalWaiting, hnil]
    refine h.quiet hinv hexact (fun hpc => hwork ▸ h.due hpc) rfl hwork fun x d hx => ?_
    refine hx.quiet hnil.symm (fun _ _ hp => hp) rfl rfl fun hs => Or.inl ?_
    simpa [Sys.served, hnil] using hs
  | added hs hd hreq =>
    rename_i a b t
    have hmore : work B (addPassenger a b t g) = work B g + 2 := by
      have hbefore := work_eq h.inv.wf.queues
      have hafter := work_eq hinv.wf.queues
      simp only [addPassenger] at hbefore hafter ⊢
      omega
    obtain ⟨d, hle, hway⟩ := h.paid
    refine ⟨hinv, hexact, fun _ => by rw [hmore]; omega, d, ?_, hway.imp_right (Exists.imp fun x hx => ?_)⟩
    · have hlen : (addPassenger a b t g).allocated.length = g.allocated.length + 1 := by
        simp [addPassenger]
      simp only at hle
      simp only [hmore, hlen, Nat.mul_add]
      omega
    · refine hx.quiet rfl (fun i p hp => ?_) rfl rfl Or.inl
      by_cases hi : i = a - 1
      · subst hi
        simp only [addPassenger, Function.update_self]
        exact List.mem_append_left _ hp
      · simpa [addPassenger, Function.update_of_ne hi] using hp

theorem Paid.step {m : Nat} {s : Sys} (h : Paid B m s) (l : Label) (hempty : StopsEmpty s l) :
    Paid B (m + if Moves s l then 1 else 0) (s.step B l) := by
  cases l with
  | scheduler => exact h.scheduler
  | call c =>
    rw [if_neg (fun hm => by cases hm.1), Nat.add_zero]
    exact h.call c hempty

instance (s : Sys) (l : Label) : Decidable (StopsEmpty s l) :=
  inferInstanceAs (Decidable (_ → _ → _))

/-- **No idle journeys**: as long as every stop meets an empty cabin, the
cabin makes at most two tours of moves for each accepted request, whatever
the requests are and whenever they come. -/
theorem moves_paid (B : Building) (ls : List Label)
    (hempty : (system B).Along StopsEmpty (loaded B) ls) :
    moveCount B ls ≤ 2 * (B.floors - 1) * (2 * (Sys.after B ls).g.allocated.length) := by
  have hloaded : Paid B 0 (loaded B) := by
    have hwork : (work B (loaded B).g : Int) = 2 * 0 + 0 := work_eq loaded_inv.wf.queues
    refine ⟨loaded_inv, rfl, (fun hpc => by cases hpc), 0, ?_, Or.inl rfl⟩
    rw [show work B (loaded B).g = 0 by omega]
    exact Nat.zero_le _
  have hrun : Paid B (moveCount B ls) (Sys.after B ls) := by
    have hal := (system B).total_inv_along (w := fun s l => if Moves s l then 1 else 0)
      (P := Paid B) (fun _ _ l hl h => h.step l hl) ls 0 (loaded B) hloaded hempty
    rwa [Nat.zero_add] at hal
  obtain ⟨d, hle, rfl | ⟨x, hx⟩⟩ := hrun.paid
  · exact le_trans (Nat.le_add_right _ _) hle
  · -- somebody is still on their way, and has paid for it
    have hperiod := hx.le_period
    have hwork := Nat.mul_le_mul_left (shuttlePeriod B.floors)
      (hx.wants.work_pos hrun.inv.wf.queues)
    unfold shuttlePeriod at hle hperiod hwork
    omega

/-- A human on floor 2 asks for floor 1, and while the cabin is on its way to
them the elevator is stopped. -/
theorem moves_paid_source :
    moveCount .source ([.call .startElevator, .call (.issueRequest 2 1 0), .scheduler,
      .call .stopElevator] ++ List.replicate 20 .scheduler) ≤ 2 * (10 - 1) * (2 * 1) :=
  moves_paid .source ([.call .startElevator, .call (.issueRequest 2 1 0), .scheduler,
    .call .stopElevator] ++ List.replicate 20 .scheduler) (by decide)

end KernelElevator
