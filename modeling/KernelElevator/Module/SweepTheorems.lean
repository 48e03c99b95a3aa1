/-
KernelElevator.Module.SweepTheorems — where the cabin is, and how long
anybody rides.

After `k` executions of `moveElevator` the cabin is where the shuttle over
the floors is after `k` moves, whatever happened in between
(`sweep_closed_form`). A passenger on board sees every floor at which the
cabin stops for unloading, so within one period of the shuttle they see
their own (`bounded_ride`). For the count it matters on which floor they
boarded: whoever asked for another floor has been spared the visit there.
-/
import KernelElevator.Module.RecordTheorems

namespace KernelElevator

open Transition

variable (B : Building)

/-! ## §1 The position after `k` moves -/

/-- How often `moveElevator` is executed in the run `ls` of a freshly loaded
module. -/
def moveCount (ls : List Label) : Nat :=
  (system B).total (fun s l => if Moves s l then 1 else 0) (loaded B) ls

/-- The cabin after `k` moves: `1 + min r (2 * (F - 1) - r)` where `r` is `k`
modulo `2 * (F - 1)`. -/
structure SweepAt (k : Nat) (s : Sys) : Prop where
  currentFloor_eq : s.g.currentFloor = shuttle B.floors k
  nextFloor_eq : s.g.nextFloor = shuttle B.floors (k + 1)
  state_eq : s.pc = .move →
    s.g.state = if shuttle B.floors k < shuttle B.floors (k + 1) then .up else .down
  floor_range : 1 ≤ s.g.currentFloor ∧ s.g.currentFloor ≤ B.floors
  move_one : s.pc = .move → (schedulerStep B s).g.currentFloor = s.g.nextFloor ∧
    ((schedulerStep B s).g.currentFloor - s.g.currentFloor).natAbs = 1

variable {B}

/-- After every run the cabin has gone as far on the sweep as it has moved. -/
theorem onSweep_after (ls : List Label) : OnSweep B (moveCount B ls) (Sys.after B ls).g :=
  ((system B).total_inv_zero (w := fun s l => if Moves s l then 1 else 0)
    (P := fun k s => s.Inv B ∧ OnSweep B k s.g)
    (fun _ _ l h => ⟨h.1.step l, h.2.step h.1.heading_eq l⟩) ls (loaded B)
    ⟨loaded_inv, loaded_onSweep⟩).2

theorem OnSweep.sweepAt {k : Nat} {s : Sys} (hinv : s.Inv B) (h : OnSweep B k s.g) :
    SweepAt B k s := by
  have hnext := shuttle_succ B.two_le_floors k
  refine ⟨h.currentFloor_eq, h.nextFloor_eq, ?_, h.floor_range, ?_⟩
  · intro hpc
    rw [hinv.heading_eq hpc, heading, h.currentFloor_eq, h.nextFloor_eq]
    exact if_congr Nat.cast_lt rfl rfl
  · intro hpc
    have hmoved := h.move (hinv.heading_eq hpc)
    have hstep : (schedulerStep B s).g = moveElevator B s.g := by simp [schedulerStep, hpc]
    rw [hstep, hmoved.currentFloor_eq, h.nextFloor_eq, h.currentFloor_eq]
    exact ⟨rfl, by omega⟩

/-- **The sweep in closed form**: after every run the position, the next
floor and the direction shown are those of the shuttle after as many moves;
and over any `2 * (F - 1)` positions one after the other the cabin is on
every floor. -/
theorem sweep_closed_form (B : Building) (ls : List Label) :
    SweepAt B (moveCount B ls) (Sys.after B ls) ∧
      ∀ post, moveCount B ls + (2 * (B.floors - 1) - 1) ≤ moveCount B (ls ++ post) →
        ∀ x : Nat, 1 ≤ x → x ≤ B.floors →
          ∃ pre, pre <+: post ∧ (Sys.after B (ls ++ pre)).g.currentFloor = x := by
  refine ⟨(onSweep_after ls).sweepAt (Sys.inv_after ls), ?_⟩
  intro post hmany x hlo hhi
  obtain ⟨j, hj, hx⟩ := shuttle_covers B.two_le_floors (moveCount B ls) hlo hhi
  have hsplit : ∀ js, moveCount B (ls ++ js) = moveCount B ls
      + (system B).total (fun s l => if Moves s l then 1 else 0) (Sys.after B ls) js :=
    fun js => (system B).total_append _ (loaded B) ls js
  have hperiod : shuttlePeriod B.floors = 2 * (B.floors - 1) := rfl
  obtain ⟨pre, hpre, hcount⟩ := (system B).exists_prefix_total_eq
    (w := fun s l => if Moves s l then 1 else 0) (fun s l => by split <;> omega) post
    (Sys.after B ls) (n := j) (by rw [hsplit] at hmany; omega)
  refine ⟨pre, hpre, ?_⟩
  rw [(onSweep_after (ls ++ pre)).currentFloor_eq, hsplit, hcount, hx]

/-! ## §2 A ride -/

variable (B)

/-- How often `moveElevator` is executed in the run `ls` of a freshly loaded
module while `p` is on board. -/
def rideMoves (p : Passenger) (ls : List Label) : Nat :=
  (system B).total (fun s l => if Moves s l ∧ p ∈ s.g.onboard then 1 else 0) (loaded B) ls

/-- The iteration has its unloading behind it. -/
def Pc.unloaded : Pc → Bool
  | .top | .unload => false
  | _ => true

/-- `p` boarded after `k` moves of the cabin and has ridden `m` moves since.
At no floor in between was it time to get off. -/
structure Aboard (p : Passenger) (m k : Nat) (s : Sys) : Prop where
  onSweep : OnSweep B (k + m) s.g
  start_eq : p.startFloor = shuttle B.floors k
  passed : ∀ j, 1 ≤ j → j < m → p.destinationFloor ≠ shuttle B.floors (k + j)
  here : s.pc.unloaded = true → 1 ≤ m → p.destinationFloor ≠ shuttle B.floors (k + m)

/-- The bounds on a ride of `m` moves. -/
structure RideBound (p : Passenger) (m : Nat) : Prop where
  le_period : m ≤ 2 * (B.floors - 1)
  lt_period : p.startFloor ≠ p.destinationFloor → m ≤ 2 * (B.floors - 1) - 1

variable {B}

/-- One period of the sweep passes the floor `p` wants to go to. -/
theorem Aboard.bound {p : Passenger} {m k : Nat} {s : Sys} (h : Aboard B p m k s)
    (hok : p.Ok B) : RideBound B p m := by
  have hlo := hok.destination_pos
  have hhi := hok.destination_le
  obtain ⟨d, hd⟩ := Int.eq_ofNat_of_zero_le (show 0 ≤ p.destinationFloor by omega)
  have hperiod : shuttlePeriod B.floors = 2 * (B.floors - 1) := rfl
  constructor
  · obtain ⟨j, hj, hcover⟩ := shuttle_covers B.two_le_floors (k + 1) (x := d) (by omega) (by omega)
    by_contra hlong
    refine h.passed (1 + j) (by omega) (by omega) ?_
    rw [hd, ← hcover, Nat.add_assoc]
  · intro hne
    obtain ⟨j, hj, hcover⟩ := shuttle_covers B.two_le_floors k (x := d) (by omega) (by omega)
    by_contra hlong
    rcases Nat.eq_zero_or_pos j with rfl | hpos
    · -- the floor `p` boarded on is the first position, and not where `p` goes
      exact hne (by rw [h.start_eq, hd, ← hcover, Nat.add_zero])
    · exact h.passed j hpos (by omega) (by rw [hd, hcover])

/-- A phase that ends with the unloading behind it either did it or began
with it behind. -/
theorem schedulerStep_unloaded {s : Sys} (h : (schedulerStep B s).pc.unloaded = true) :
    s.pc = .unload ∨ s.pc.unloaded = true ∧ s.pc ≠ .move := by
  obtain ⟨g, pc⟩ := s
  cases pc with
  | unload => exact Or.inl rfl
  | top =>
    simp only [schedulerStep] at h
    split at h <;> cases h
  | load us => exact Or.inr ⟨rfl, by simp⟩
  | loading us ls => exact Or.inr ⟨rfl, by simp⟩
  | dispatch => exact Or.inr ⟨rfl, by simp⟩
  | move => cases h

/-- Whoever is on board before and after a step rides on, one move further
if the step was one. -/
theorem Aboard.step {p : Passenger} {m k : Nat} {s : Sys} (h : Aboard B p m k s)
    (hheading : s.pc = .move → s.g.state = heading s.g) (l : Label)
    (hstays : p ∈ (s.step B l).g.onboard) :
    Aboard B p (m + if Moves s l then 1 else 0) k (s.step B l) := by
  have hsweep := h.onSweep.step hheading l
  rw [Nat.add_assoc] at hsweep
  refine ⟨hsweep, h.start_eq, ?_, ?_⟩
  · intro j hlo hhi
    by_cases hm : Moves s l
    · rw [if_pos hm] at hhi
      rcases Nat.lt_or_ge j m with hlt | hge
      · exact h.passed j hlo hlt
      · -- the floor that is being left
        obtain rfl : j = m := by omega
        exact h.here (by rw [hm.2]; rfl) hlo
    · rw [if_neg hm] at hhi
      exact h.passed j hlo hhi
  · intro hpc hpos
    cases l with
    | call c => exact h.here hpc hpos
    | scheduler =>
      rcases schedulerStep_unloaded hpc with hunload | ⟨hbehind, hmove⟩
      · have hnot : ¬ Moves s .scheduler := fun hm => by rw [hm.2] at hunload; cases hunload
        have hrides : p ∈ riding s.g := by
          simpa [Sys.step, schedulerStep, hunload, unloadPassengers_granted] using hstays
        rw [if_neg hnot, Nat.add_zero, ← h.onSweep.currentFloor_eq]
        exact (mem_riding.mp hrides).2
      · have hnot : ¬ Moves s .scheduler := fun hm => hmove hm.2
        rw [if_neg hnot] at hpos ⊢
        exact h.here hbehind hpos

variable (B)

/-- `p` has ridden `m` moves up to now, whether still on board or not. -/
structure Ridden (p : Passenger) (m : Nat) (s : Sys) : Prop where
  inv : s.Inv B
  records : RecordInv B s.g
  before : p ∉ s.g.onboard → p ∉ s.g.freed → m = 0
  aboard : p ∈ s.g.onboard → ∃ k, Aboard B p m k s
  bound : RideBound B p m

variable {B}

theorem RideBound.zero (p : Passenger) : RideBound B p 0 := ⟨Nat.zero_le _, fun _ => Nat.zero_le _⟩

/-- A move keeps everybody on board. -/
theorem step_onboard_of_moves {s : Sys} {l : Label} (h : Moves s l) :
    (s.step B l).g.onboard = s.g.onboard := by
  obtain ⟨rfl, hpc⟩ := h
  obtain ⟨current, next, hmove⟩ := moveElevator_frame B s.g
  simp [Sys.step, schedulerStep, hpc, hmove]

/-- Whoever boards in this step begins a ride of no moves. -/
theorem Ridden.boards {p : Passenger} {m : Nat} {s : Sys} (h : Ridden B p m s) {l : Label}
    (hnew : p ∉ s.g.onboard) (hp : p ∈ (s.step B l).g.onboard) :
    m = 0 ∧ ∃ k, Aboard B p 0 k (s.step B l) := by
  obtain ⟨us, rfl, hpc, hwaits⟩ := (Sys.step_effect (B := B) s l).boards hp hnew
  obtain ⟨k, hk⟩ := h.inv.sweep
  obtain ⟨hlo, hhi⟩ := hk.floor_range
  have hnotfreed := h.records.not_freed_of_waiting (by omega) (by omega) hwaits
  have hfloor := (h.inv.wf.queues.waiting_ok _ p hwaits).2
  have hstill : ¬ Moves s .scheduler := fun hm => by cases hpc.symm.trans hm.2
  have hsweep := hk.step h.inv.heading_eq .scheduler
  rw [if_neg hstill] at hsweep
  refine ⟨h.before hnew hnotfreed, k, hsweep, ?_, ?_, ?_⟩
  · rw [← hk.currentFloor_eq]
    omega
  · intro j hlo hhi
    omega
  · intro _ hpos
    omega

theorem Ridden.step {p : Passenger} {m : Nat} {s : Sys} (h : Ridden B p m s) (l : Label) :
    Ridden B p (m + if Moves s l ∧ p ∈ s.g.onboard then 1 else 0) (s.step B l) := by
  have he := Sys.step_effect (B := B) s l
  have hinv := h.inv.step (B := B) l
  have hrecords := h.records.step h.inv l
  by_cases hon : p ∈ s.g.onboard
  · by_cases hstays : p ∈ (s.step B l).g.onboard
    · obtain ⟨k, hk⟩ := h.aboard hon
      have haboard := hk.step h.inv.heading_eq l hstays
      simp only [hon, and_true]
      exact ⟨hinv, hrecords, fun hgone => absurd hstays hgone, fun _ => ⟨k, haboard⟩,
        haboard.bound (hinv.wf.queues.onboard_ok p hstays)⟩
    · have hstill : ¬ Moves s l := fun hm => hstays (by rw [step_onboard_of_moves hm]; exact hon)
      simp only [hstill, false_and, if_false, Nat.add_zero]
      exact ⟨hinv, hrecords, fun _ hnot => absurd (he.leaves hon hstays) hnot,
        fun hp => absurd hp hstays, h.bound⟩
  · simp only [hon, and_false, if_false, Nat.add_zero]
    by_cases hboards : p ∈ (s.step B l).g.onboard
    · obtain ⟨rfl, haboard⟩ := h.boards hon hboards
      exact ⟨hinv, hrecords, fun hgone => absurd hboards hgone, fun _ => haboard, h.bound⟩
    · exact ⟨hinv, hrecords, fun _ hnot => h.before hon fun hf => hnot (he.freed_subset hf),
        fun hp => absurd hp hboards, h.bound⟩

theorem ridden_after (p : Passenger) (ls : List Label) :
    Ridden B p (rideMoves B p ls) (Sys.after B ls) := by
  have hloaded : Ridden B p 0 (loaded B) :=
    ⟨loaded_inv, loaded_records, fun _ _ => rfl, fun hp => by simp [loaded, setupElevator] at hp,
      .zero p⟩
  exact (system B).total_inv_zero
    (w := fun s l => if Moves s l ∧ p ∈ s.g.onboard then 1 else 0) (P := Ridden B p)
    (fun _ _ l h => h.step l) ls (loaded B) hloaded

variable (B)

/-- The scheduler goes on moving: it does not stand by, it does not settle,
and a move that is due changes the floor. -/
structure KeepsMoving (s : Sys) : Prop where
  unloads : s.pc = .top → schedulerStep B s = ⟨s.g, .unload⟩
  goes_on : s.pc = .dispatch → (schedulerStep B s).pc = .move
  moves : s.pc = .move →
    ((schedulerStep B s).g.currentFloor - s.g.currentFloor).natAbs = 1
  shows : (schedulerStep B s).g.state = s.g.state ∨ (schedulerStep B s).g.state = .loading ∨
    (schedulerStep B s).g.state = .up ∨ (schedulerStep B s).g.state = .down

variable {B}

theorem keepsMoving_of_onboard {s : Sys} (hinv : s.Inv B) (hon : s.g.onboard ≠ []) :
    KeepsMoving B s := by
  obtain ⟨k, hk⟩ := hinv.sweep
  have hlen := List.length_pos_iff.mpr hon
  have hloads := hinv.wf.cabin.onboard_le_loads
  have hbusy : busy s.g = true := by simp [busy, hon]
  have hmust : mustMove s.g = true := by
    simp only [mustMove, decide_eq_true_eq]
    omega
  have hmove := (hk.sweepAt hinv).move_one
  obtain ⟨g, pc⟩ := s
  refine ⟨?_, ?_, fun hpc => (hmove hpc).2, ?_⟩
  · rintro rfl
    exact schedulerStep_top_busy B hbusy
  · rintro rfl
    rw [schedulerStep_dispatch_move B hmust]
  · cases pc with
    | top => rw [schedulerStep_top_busy B hbusy]; exact Or.inl rfl
    | unload => rw [schedulerStep_unload, unloadPassengers_granted]; exact Or.inl rfl
    | load us =>
      rw [schedulerStep_load]
      by_cases hroom : g.loads < B.capacity
      · rw [loadPhase_room B hroom, loadLocked_eq]; exact Or.inl rfl
      · rw [loadPhase_full B hroom]; exact Or.inl rfl
    | loading us ls =>
      simp only [schedulerStep, loadingPhase_eq]
      split
      · exact Or.inr (Or.inl rfl)
      · exact Or.inl rfl
    | dispatch =>
      rw [schedulerStep_dispatch_move B hmust, changeElevatorState_eq]
      simp only [ssleep, heading]
      split
      · exact Or.inr (Or.inr (Or.inl rfl))
      · exact Or.inr (Or.inr (Or.inr rfl))
    | move =>
      obtain ⟨current, next, hframe⟩ := moveElevator_frame B g
      simp [schedulerStep, hframe]

/-- **Rides are bounded**: nobody is on board for more than one period of the
sweep, or for more than one move less if they go to another floor; and the
scheduler goes on moving while somebody is on board. -/
theorem bounded_ride (B : Building) (ls : List Label) :
    (∀ p, RideBound B p (rideMoves B p ls)) ∧
      ((Sys.after B ls).g.onboard ≠ [] → KeepsMoving B (Sys.after B ls)) :=
  ⟨fun p => (ridden_after p ls).bound, keepsMoving_of_onboard (Sys.inv_after ls)⟩

end KernelElevator
