/-
KernelElevator.Module.IterationTheorems — what an iteration of the
scheduler's loop is sure to do, whatever calls are made between its phases.

  §1 Nobody is carried past — unloading comes before loading, so whoever is
                    on board at a move and has arrived boarded in the same
                    iteration (`nobody_carried`);
  §2 No busy waiting — every iteration sleeps (`iteration_sleeps`);
  §3 Going offline  — the elevator is shown OFFLINE only when it is stopped
                    and empty (`offline_empty`).
-/
import KernelElevator.Module.SweepTheorems

namespace KernelElevator

open Transition

variable (B : Building)

/-! ## §1 Nobody is carried past -/

/-- If the step executes `moveElevator`, nobody on board has asked for the
floor that is being left. -/
def NobodyCarried (s : Sys) (l : Label) : Prop :=
  Moves s l → ∀ p ∈ s.g.onboard, p.destinationFloor ≠ s.g.currentFloor

/-- If the step loads passengers, nobody boards who has asked for the floor
they are on. -/
def NoneToSameFloor (s : Sys) (l : Label) : Prop :=
  l = .scheduler → ∀ us, s.pc = .load us → s.g.loads < B.capacity →
    ∀ p ∈ boarders B s.g, p.destinationFloor ≠ p.startFloor

/-- Behind the unloading, nobody on board has arrived. -/
def NoneArrived (s : Sys) : Prop :=
  s.pc.unloaded = true → ∀ p ∈ s.g.onboard, p.destinationFloor ≠ s.g.currentFloor

variable {B}

theorem mem_boarders_floor {g : Globals} (hq : QueueInv B g) {p : Passenger}
    (hp : p ∈ boarders B g) : p.startFloor = g.currentFloor := by
  have hfloor := (hq.waiting_ok _ p (mem_waiting_of_mem_boarders hp)).2
  omega

theorem NoneArrived.call {s : Sys} (h : NoneArrived s) (c : Call) :
    NoneArrived (s.step B (.call c)) := by
  have he := Sys.step_effect (B := B) s (.call c)
  obtain ⟨hcurrent, -, -⟩ := he.call_position
  intro hpc p hp
  rw [hcurrent]
  by_cases hon : p ∈ s.g.onboard
  · exact h hpc p hon
  · obtain ⟨us, hl, -⟩ := he.boards hp hon
    cases hl

theorem NoneArrived.scheduler {s : Sys} (hq : QueueInv B s.g)
    (hok : NoneToSameFloor B s .scheduler) (h : NoneArrived s) :
    NoneArrived (s.step B .scheduler) := by
  obtain ⟨g, pc⟩ := s
  intro hpc p hp
  cases pc with
  | top =>
    simp only [Sys.step, schedulerStep] at hpc
    split at hpc <;> cases hpc
  | unload =>
    rw [Sys.step, schedulerStep_unload, unloadPassengers_granted] at hp ⊢
    exact (mem_riding.mp hp).2
  | load us =>
    rw [Sys.step, schedulerStep_load] at hp ⊢
    by_cases hroom : g.loads < B.capacity
    · rw [loadPhase_room B hroom, loadLocked_eq] at hp ⊢
      rcases List.mem_append.mp hp with hp | hp
      · exact h rfl p hp
      · exact mem_boarders_floor hq hp ▸ hok rfl us rfl hroom p hp
    · rw [loadPhase_full B hroom] at hp ⊢
      exact h rfl p hp
  | loading us ls =>
    simp only [Sys.step, schedulerStep, loadingPhase_eq] at hp ⊢
    exact h rfl p hp
  | dispatch =>
    simp only [Sys.step, schedulerStep, changeElevatorState_eq, ssleep] at hpc hp ⊢
    split at hpc
    · next hm =>
        rw [if_pos hm] at hp ⊢
        exact h rfl p hp
    · cases hpc
  | move => cases hpc

theorem NoneArrived.step {s : Sys} (hq : QueueInv B s.g) (l : Label)
    (hok : NoneToSameFloor B s l) (h : NoneArrived s) : NoneArrived (s.step B l) := by
  cases l with
  | call c => exact h.call c
  | scheduler => exact h.scheduler hq hok

theorem NoneArrived.carried {s : Sys} (h : NoneArrived s) (l : Label) : NobodyCarried s l := by
  rintro ⟨-, hpc⟩
  exact h (by rw [hpc]; rfl)

/-- From the loading of a passenger to the floor they are on, three phases
lead to a move with that passenger on board. -/
theorem carried_of_boards {g : Globals} {us : Bool} (hinv : Sys.Inv B ⟨g, .load us⟩)
    (hroom : g.loads < B.capacity) {p : Passenger} (hp : p ∈ boarders B g)
    (hsame : p.destinationFloor = p.startFloor) :
    ¬ (system B).Along NobodyCarried ⟨g, .load us⟩ (List.replicate 4 .scheduler) := by
  have hload : (schedulerStep B ⟨g, .load us⟩)
      = ⟨(loadLocked B g).1, .loading us (loadLocked B g).2⟩ := by
    rw [schedulerStep_load, loadPhase_room B hroom]
  have hon : p ∈ (loadLocked B g).1.onboard := by
    rw [loadLocked_eq]
    exact List.mem_append_right _ hp
  have hcurrent : (loadLocked B g).1.currentFloor = g.currentFloor := by
    rw [loadLocked_eq]
    rfl
  have hloads : (loadLocked B g).1.loads ≠ 0 := by
    have hcabin : CabinInv B g := hinv.wf.cabin
    have hle := hcabin.load.onboard_le_loads
    have hpos := List.length_pos_of_mem hon
    omega
  have hfloor := mem_boarders_floor hinv.wf.queues hp
  generalize loadLocked B g = r at hload hon hcurrent hloads
  obtain ⟨g', ls⟩ := r
  have hmust : mustMove (loadingPhase us ls g') = true := by
    rw [loadingPhase_eq]
    simp [mustMove, hloads]
  rintro ⟨-, -, -, hmoves, -⟩
  have hstate : (system B).step ((system B).step ((system B).step ⟨g, .load us⟩ .scheduler)
      .scheduler) .scheduler
      = ⟨ssleep moveTime (changeElevatorState (loadingPhase us ls g')), .move⟩ := by
    simp only [system, Sys.step, hload]
    exact schedulerStep_dispatch_move B hmust
  rw [hstate, changeElevatorState_eq, loadingPhase_eq] at hmoves
  refine hmoves ⟨rfl, rfl⟩ p hon ?_
  rw [hsame, hfloor]
  exact hcurrent.symm

/-- **Nobody is carried past the floor they asked for**, in a run in which
nobody boards who asked for the floor they are on; and whoever does board so
is carried past it, if the scheduler goes on alone. -/
theorem nobody_carried (B : Building) (ls : List Label) :
    ((system B).Along (NoneToSameFloor B) (loaded B) ls →
      (system B).Along NobodyCarried (loaded B) ls) ∧
    (¬ NoneToSameFloor B (Sys.after B ls) .scheduler →
      ¬ (system B).Along NobodyCarried (loaded B) (ls ++ List.replicate 4 .scheduler)) := by
  constructor
  · refine (system B).along_of_inv (P := fun s => s.Inv B ∧ NoneArrived s)
      (fun _ l hok h => ⟨h.1.step l, h.2.step h.1.wf.queues l hok⟩)
      (fun _ l _ h => h.2.carried l) ls (loaded B) ⟨loaded_inv, ?_⟩
    intro hpc
    cases hpc
  · intro hboards hall
    have hinv := Sys.inv_after (B := B) ls
    rw [Machine.along_append] at hall
    have hcarried := hall.2
    change (system B).Along NobodyCarried (Sys.after B ls) _ at hcarried
    generalize Sys.after B ls = s at *
    simp only [NoneToSameFloor, not_forall, not_not, true_implies] at hboards
    obtain ⟨us, hpc, hroom, p, hp, hsame⟩ := hboards
    obtain ⟨g, pc⟩ := s
    obtain rfl : pc = .load us := hpc
    exact carried_of_boards hinv hroom hp hsame hcarried

/-- A human on floor 1 asks for floor 1, boards, and is taken to floor 2. -/
theorem carried_past :
    ¬ ∀ ls, (system .source).Along NobodyCarried (loaded .source) ls := by
  intro h
  have hall := h ([.call .startElevator, .call (.issueRequest 1 1 0)]
    ++ List.replicate 5 .scheduler ++ .scheduler :: [])
  exact Machine.Along.at _ hall ⟨rfl, by decide⟩ ⟨0, 0, 1, 1⟩ (by decide) (by decide)

/-! ## §2 No busy waiting -/

/-- Within an iteration that began at `n` seconds of sleep: it has slept, or
something makes sure that it still will. -/
def WillSleep (n : Nat) (s : Sys) : Prop :=
  n ≤ s.g.slept ∧
    match s.pc with
    | .top | .move => n < s.g.slept
    | .unload => s.g.loads ≠ 0 ∨ s.g.numWaiting ≠ 0
    | .load unloadSleep => unloadSleep = true ∨ s.g.loads ≠ 0 ∨ s.g.numWaiting ≠ 0
    | .loading unloadSleep loadSleep =>
      (unloadSleep || loadSleep) = true ∨ s.g.loads ≠ 0 ∨ s.g.numWaiting ≠ 0
    | .dispatch => n < s.g.slept ∨ s.g.loads ≠ 0 ∨ s.g.numWaiting ≠ 0

/-- No call sleeps or takes anybody out of the counters. -/
theorem Effect.call_counters {s : Sys} {c : Call} {g' : Globals} (he : Effect B s (.call c) g') :
    g'.slept = s.g.slept ∧ g'.loads = s.g.loads ∧ s.g.numWaiting ≤ g'.numWaiting := by
  cases he with
  | added _ _ _ => exact ⟨rfl, rfl, by simp [addPassenger]⟩
  | _ => exact ⟨rfl, rfl, Int.le_refl _⟩

theorem WillSleep.call {n : Nat} {s : Sys} (hinv : s.Inv B) (h : WillSleep n s) (c : Call) :
    WillSleep n (s.step B (.call c)) := by
  obtain ⟨hslept, hloads, hwaiting⟩ := (Sys.step_effect (B := B) s (.call c)).call_counters
  have hnonneg := hinv.wf.queues.numWaiting_nonneg
  have hpc : (s.step B (.call c)).pc = s.pc := rfl
  generalize s.step B (.call c) = s' at *
  have hcounted : s.g.loads ≠ 0 ∨ s.g.numWaiting ≠ 0 → s'.g.loads ≠ 0 ∨ s'.g.numWaiting ≠ 0 := by
    omega
  obtain ⟨hn, hdue⟩ := h
  rw [WillSleep, hpc, hslept]
  refine ⟨hn, ?_⟩
  cases hs : s.pc with
  | top => simpa only [hs] using hdue
  | move => simpa only [hs] using hdue
  | unload =>
    simp only [hs] at hdue
    exact hcounted hdue
  | load us =>
    simp only [hs] at hdue
    exact hdue.imp_right hcounted
  | loading us ls =>
    simp only [hs] at hdue
    exact hdue.imp_right hcounted
  | dispatch =>
    simp only [hs] at hdue
    exact hdue.imp_right hcounted

/-- Whoever is unloaded makes the thread sleep. -/
theorem unload_counted (g : Globals) (h : g.loads ≠ 0 ∨ g.numWaiting ≠ 0) :
    (unloadPassengers .granted g).2 = true ∨ (unloadPassengers .granted g).1.loads ≠ 0 ∨
      (unloadPassengers .granted g).1.numWaiting ≠ 0 := by
  rw [unloadPassengers_granted]
  cases hnone : alighting g with
  | nil => simpa using h
  | cons p ps => simp

/-- Whoever is loaded makes the thread sleep. -/
theorem load_counted (g : Globals) (h : g.loads ≠ 0 ∨ g.numWaiting ≠ 0) :
    (loadPhase B g).2 = true ∨ (loadPhase B g).1.loads ≠ 0 ∨ (loadPhase B g).1.numWaiting ≠ 0 := by
  by_cases hroom : g.loads < B.capacity
  · rw [loadPhase_room B hroom, loadLocked_eq]
    cases hnone : boarders B g with
    | nil => simpa [boarded] using h
    | cons p ps => simp
  · rw [loadPhase_full B hroom]
    exact Or.inr h

theorem loadPhase_slept (g : Globals) : (loadPhase B g).1.slept = g.slept := by
  by_cases hroom : g.loads < B.capacity
  · rw [loadPhase_room B hroom, loadLocked_eq]
    rfl
  · rw [loadPhase_full B hroom]

/-- An iteration that begins will sleep. -/
theorem willSleep_begins {n : Nat} {g : Globals} (hcabin : CabinInv B g) (hn : n ≤ g.slept) :
    WillSleep n (schedulerStep B ⟨g, .top⟩) := by
  cases hbusy : busy g with
  | true =>
    rw [schedulerStep_top_busy B hbusy]
    refine ⟨hn, ?_⟩
    rw [busy, decide_eq_true_eq] at hbusy
    rcases hbusy with hw | hon
    · exact Or.inr hw
    · have hle := hcabin.onboard_le_loads
      have hpos := List.length_pos_iff.mpr hon
      exact Or.inl (show g.loads ≠ 0 by omega)
  | false =>
    rw [schedulerStep_top_idle B hbusy, standBy_eq]
    simp only [WillSleep, ssleep, defaultSleepTime]
    omega

theorem WillSleep.scheduler {n : Nat} {s : Sys} (hinv : s.Inv B) (h : WillSleep n s) :
    WillSleep n (s.step B .scheduler) := by
  have hcabin := hinv.wf.cabin
  obtain ⟨g, pc⟩ := s
  obtain ⟨hn, hdue⟩ := h
  rw [Sys.step]
  cases pc with
  | top => exact willSleep_begins hcabin hn
  | unload =>
    rw [schedulerStep_unload]
    refine ⟨?_, unload_counted g hdue⟩
    rw [unloadPassengers_granted]
    exact hn
  | load us =>
    rw [schedulerStep_load]
    refine ⟨?_, ?_⟩
    · simp only [loadPhase_slept]
      exact hn
    · rcases hdue with hus | hcounted
      · exact Or.inl (by rw [hus, Bool.true_or])
      · exact (load_counted g hcounted).imp_left fun hls => by rw [hls, Bool.or_true]
  | loading us ls =>
    simp only [schedulerStep, loadingPhase_eq, WillSleep, loadTime]
    simp only at hdue hn
    cases hsleep : us || ls with
    | true => exact ⟨by simp only [if_true]; omega, Or.inl (by simp only [if_true]; omega)⟩
    | false =>
      rw [hsleep] at hdue
      exact ⟨hn, Or.inr (hdue.resolve_left Bool.false_ne_true)⟩
  | dispatch =>
    cases hmust : mustMove g with
    | true =>
      rw [schedulerStep_dispatch_move B hmust, changeElevatorState_eq]
      simp only [WillSleep, ssleep, moveTime]
      simp only at hn
      omega
    | false =>
      -- nobody is counted any more, so the thread has slept
      rw [schedulerStep_dispatch_settle B hmust]
      simp only [mustMove, decide_eq_false_iff_not] at hmust
      have hslept : n < g.slept := hdue.resolve_right hmust
      have hsettle : (settle g).slept = g.slept := by
        unfold settle
        split <;> rfl
      simp only [WillSleep, hsettle]
      omega
  | move =>
    obtain ⟨current, next, hmove⟩ := moveElevator_frame B g
    simp only [schedulerStep, hmove]
    exact ⟨hn, hdue⟩

theorem WillSleep.step {n : Nat} {s : Sys} (hinv : s.Inv B) (h : WillSleep n s) (l : Label) :
    WillSleep n (s.step B l) := by
  cases l with
  | call c => exact h.call hinv c
  | scheduler => exact h.scheduler hinv

/-- At the head of the loop, or somewhere in an iteration that will sleep. -/
def WaitsOrSleeps (n : Nat) (s : Sys) : Prop :=
  s.pc = .top ∧ n ≤ s.g.slept ∨ WillSleep n s

theorem WaitsOrSleeps.scheduler {n : Nat} {s : Sys} (hinv : s.Inv B) (h : WaitsOrSleeps n s) :
    WillSleep n (s.step B .scheduler) := by
  rcases h with ⟨hpc, hn⟩ | h
  · obtain ⟨g, pc⟩ := s
    obtain rfl : pc = .top := hpc
    exact willSleep_begins hinv.wf.cabin hn
  · exact h.scheduler hinv

theorem WaitsOrSleeps.step {n : Nat} {s : Sys} (hinv : s.Inv B) (h : WaitsOrSleeps n s)
    (l : Label) : WaitsOrSleeps n (s.step B l) := by
  cases l with
  | scheduler => exact Or.inr (h.scheduler hinv)
  | call c =>
    rcases h with ⟨hpc, hn⟩ | h
    · have hslept := (Sys.step_effect (B := B) s (.call c)).call_counters.1
      exact Or.inl ⟨hpc, by omega⟩
    · exact Or.inr (h.call hinv c)

/-- **No busy waiting**: from one head of the loop to another, with at least
one phase in between, the scheduler thread has slept, whatever calls were
made meanwhile. -/
theorem iteration_sleeps (B : Building) (ls iteration : List Label)
    (hbegin : (Sys.after B ls).pc = .top) (hphase : .scheduler ∈ iteration)
    (hend : (Sys.after B (ls ++ iteration)).pc = .top) :
    (Sys.after B ls).g.slept < (Sys.after B (ls ++ iteration)).g.slept := by
  obtain ⟨before, rest, rfl⟩ := List.append_of_mem hphase
  have hinv := Sys.inv_after (B := B) ls
  have hafter : Sys.after B (ls ++ (before ++ .scheduler :: rest))
      = (system B).run (((system B).run (Sys.after B ls) before).step B .scheduler) rest := by
    rw [Sys.after, Machine.run_append, Machine.run_append]
    rfl
  rw [hafter] at hend ⊢
  generalize Sys.after B ls = s at *
  -- up to the first phase, by that phase, and from there to the end
  have hwaits := (system B).run_inv (P := fun s' => s'.Inv B ∧ WaitsOrSleeps s.g.slept s')
    (fun _ l h => ⟨h.1.step l, h.2.step h.1 l⟩) before s
    ⟨hinv, Or.inl ⟨hbegin, Nat.le_refl _⟩⟩
  have hsleeps := (system B).run_inv (P := fun s' => s'.Inv B ∧ WillSleep s.g.slept s')
    (fun _ l h => ⟨h.1.step l, h.2.step h.1 l⟩) rest _
    ⟨hwaits.1.step .scheduler, hwaits.2.scheduler hwaits.1⟩
  have hdue := hsleeps.2.2
  rwa [hend] at hdue

/-- A human boards on floor 1 and is taken to floor 2; a stop comes while the
cabin is loaded. -/
theorem iteration_sleeps_source :
    (Sys.after .source [.call .startElevator, .call (.issueRequest 1 2 0)]).g.slept
      < (Sys.after .source ([.call .startElevator, .call (.issueRequest 1 2 0)]
          ++ [.scheduler, .scheduler, .scheduler, .call .stopElevator, .scheduler, .scheduler,
            .scheduler])).g.slept :=
  iteration_sleeps .source _ _ (by decide) (by decide) (by decide)

/-! ## §3 Going offline -/

variable (B)

/-- The scheduler's next phase writes OFFLINE, at line 397 or at line 408. -/
def WritesOffline (s : Sys) : Prop :=
  s.pc = .dispatch ∧ mustMove s.g = false ∧ s.g.deactiving = true ∨
    s.pc = .top ∧ busy s.g = false ∧ s.g.started = false

/-- The elevator is shown OFFLINE, is stopped, and has nobody to serve. -/
structure OfflineEmpty (g : Globals) : Prop where
  state_eq : g.state = .offline
  started_eq : g.started = false
  onboard_nil : g.onboard = []
  numWaiting_eq : g.numWaiting = 0

variable {B}

theorem onboard_nil_of_loads {g : Globals} (h : CabinInv B g) (hl : g.loads = 0) :
    g.onboard = [] := by
  have hle := h.onboard_le_loads
  exact List.length_eq_zero_iff.mp (by omega)

theorem loads_of_not_mustMove {g : Globals} (h : mustMove g = false) :
    g.loads = 0 ∧ g.numWaiting = 0 := by
  simpa [mustMove] using h

theorem idle_of_not_busy {g : Globals} (h : busy g = false) :
    g.numWaiting = 0 ∧ g.onboard = [] := by
  simpa [busy] using h

theorem WritesOffline.empty {s : Sys} (hwf : s.g.Wf B) (h : WritesOffline s) :
    OfflineEmpty (schedulerStep B s).g := by
  obtain ⟨g, pc⟩ := s
  rcases h with ⟨hpc, hmust, hd⟩ | ⟨hpc, hbusy, hs⟩
  · obtain rfl : pc = .dispatch := hpc
    obtain ⟨hl, hn⟩ := loads_of_not_mustMove hmust
    have hd : g.deactiving = true := hd
    have hon := onboard_nil_of_loads hwf.cabin hl
    rw [schedulerStep_dispatch_settle B hmust, settle, if_pos hd]
    exact ⟨rfl, hwf.stopping hd, hon, hn⟩
  · obtain rfl : pc = .top := hpc
    obtain ⟨hn, hon⟩ := idle_of_not_busy hbusy
    have hs : g.started = false := hs
    rw [schedulerStep_top_idle B hbusy, standBy_eq]
    exact ⟨by simp [ssleep, hs], hs, hon, hn⟩

/-- At the head of the loop a state other than UP or DOWN shows an empty
cabin. -/
def RestsEmpty (s : Sys) : Prop :=
  s.pc = .top → s.g.state = .up ∨ s.g.state = .down ∨ s.g.onboard = []

theorem RestsEmpty.call {s : Sys} (h : RestsEmpty s) (c : Call) :
    RestsEmpty (s.step B (.call c)) := by
  have he := Sys.step_effect (B := B) s (.call c)
  intro hpc
  rw [he.call_position.2.2]
  refine (h hpc).imp_right fun hrest => hrest.imp_right fun hon => ?_
  refine List.eq_nil_iff_forall_not_mem.mpr fun p hp => ?_
  obtain ⟨us, hl, -⟩ := he.boards hp (by rw [hon]; exact List.not_mem_nil)
  cases hl

theorem RestsEmpty.scheduler {s : Sys} (hinv : s.Inv B) : RestsEmpty (s.step B .scheduler) := by
  have hcabin := hinv.wf.cabin
  have hheading := hinv.heading_eq
  obtain ⟨g, pc⟩ := s
  intro hpc
  cases pc with
  | top =>
    cases hbusy : busy g with
    | true =>
      rw [Sys.step, schedulerStep_top_busy B hbusy] at hpc
      cases hpc
    | false =>
      rw [Sys.step, schedulerStep_top_idle B hbusy, standBy_eq]
      exact Or.inr (Or.inr (idle_of_not_busy hbusy).2)
  | dispatch =>
    cases hmust : mustMove g with
    | true =>
      rw [Sys.step, schedulerStep_dispatch_move B hmust] at hpc
      cases hpc
    | false =>
      have hon := onboard_nil_of_loads hcabin (loads_of_not_mustMove hmust).1
      have hsettle : (settle g).onboard = g.onboard := by
        unfold settle
        split <;> rfl
      rw [Sys.step, schedulerStep_dispatch_settle B hmust]
      exact Or.inr (Or.inr (hsettle.trans hon))
  | move =>
    obtain ⟨current, next, hmove⟩ := moveElevator_frame B g
    have hstate : g.state = heading g := hheading rfl
    simp only [Sys.step, schedulerStep, hmove, hstate, heading]
    split
    · exact Or.inl rfl
    · exact Or.inr (Or.inl rfl)
  | unload => cases hpc
  | load us => cases hpc
  | loading us ls => cases hpc

theorem RestsEmpty.step {s : Sys} (hinv : s.Inv B) (h : RestsEmpty s) (l : Label) :
    RestsEmpty (s.step B l) := by
  cases l with
  | call c => exact h.call c
  | scheduler => exact .scheduler hinv

theorem restsEmpty_after (ls : List Label) : RestsEmpty (Sys.after B ls) :=
  ((system B).run_inv (P := fun s => s.Inv B ∧ RestsEmpty s)
    (fun _ l h => ⟨h.1.step l, h.2.step h.1 l⟩) ls (loaded B)
    ⟨loaded_inv, fun _ => Or.inr (Or.inr rfl)⟩).2

/-- **OFFLINE means stopped and empty**: where the scheduler writes OFFLINE,
`started` is clear, nobody is on board and nobody waits; and whenever the
scheduler is at the head of its loop, nobody is on board if the elevator is
shown OFFLINE or IDLE. -/
theorem offline_empty (B : Building) (ls : List Label) :
    (WritesOffline (Sys.after B ls) → OfflineEmpty (schedulerStep B (Sys.after B ls)).g) ∧
    ((Sys.after B ls).pc = .top →
      (Sys.after B ls).g.state = .offline ∨ (Sys.after B ls).g.state = .idle →
        (Sys.after B ls).g.onboard = []) := by
  refine ⟨fun h => h.empty (Sys.inv_after ls).wf, fun hpc hstate => ?_⟩
  rcases restsEmpty_after ls hpc with hup | hdown | hon
  · rw [hup] at hstate
    rcases hstate with hstate | hstate <;> cases hstate
  · rw [hdown] at hstate
    rcases hstate with hstate | hstate <;> cases hstate
  · exact hon

end KernelElevator
