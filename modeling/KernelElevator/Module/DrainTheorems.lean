/-
KernelElevator.Module.DrainTheorems — the scheduler left alone empties the
building.

One turn of the loop is a visit to the current floor (`visit`: unload, then
load) and, if anybody is left, a move to the next floor (`advance`). A visit
at which nobody gets off or on changes nothing at all (`visit_quiet`), so a
turn with such a visit only takes the sweep one floor further; a visit at
which somebody does lowers `work`, which counts each passenger who waits
twice and each one on board once.

`Drains` is what keeps the last passengers from being left behind: the
counter `loads` is exact, or nobody waits, or there is room and the status
will let everybody in who waits. Under it some floor within one period of
the sweep has an event (`exists_target`), and `exists_iterate_work_zero`
gives the bound: at most `2 * (FLOORS - 1)` turns for each unit of work.
-/
import KernelElevator.Module.CabinTheorems
import KernelElevator.Machine.Progress

namespace KernelElevator

open Transition

variable (B : Building)

/-! ## §1 One turn of the loop -/

/-- Unloading and loading at the current floor; the flag says whether anybody
got off or on. -/
def visit (g : Globals) : Globals × Bool :=
  let u := unloadPassengers .granted g
  let v := loadPhase B u.1
  (v.1, u.2 || v.2)

/-- Choosing the direction, sleeping and moving. -/
def advance (g : Globals) : Globals :=
  moveElevator B (ssleep moveTime (changeElevatorState g))

/-- What a turn with passengers does after its visit. -/
def depart (v : Globals × Bool) : Globals :=
  let g := loadingPhase v.2 false v.1
  if mustMove g then advance B g else settle g

theorem loadingPhase_or (us ls : Bool) (g : Globals) :
    loadingPhase us ls g = loadingPhase (us || ls) false g := by
  simp [loadingPhase]

theorem schedulerBody_busy {g : Globals} (h : busy g = true) :
    schedulerBody B g = depart B (visit B g) := by
  simp only [schedulerBody, h, if_true]
  rw [loadingPhase_or]
  rfl

theorem schedulerBody_idle {g : Globals} (h : busy g = false) :
    schedulerBody B g = standBy g := by
  simp [schedulerBody, h]

/-- The body of the loop is what the phases do one after the other. -/
theorem schedulerBody_steps (g : Globals) :
    ∃ n, 0 < n ∧ n ≤ 6 ∧ (schedulerStep B)^[n] ⟨g, .top⟩ = ⟨schedulerBody B g, .top⟩ := by
  cases hb : busy g with
  | false =>
    refine ⟨1, by omega, by omega, ?_⟩
    simp [schedulerStep, schedulerBody, hb]
  | true =>
    have h4 : (schedulerStep B)^[4] ⟨g, .top⟩
        = ⟨loadingPhase (visit B g).2 false (visit B g).1, .dispatch⟩ := by
      have h1 : schedulerStep B ⟨g, .top⟩ = ⟨g, .unload⟩ := by simp [schedulerStep, hb]
      rw [Function.iterate_succ_apply, h1]
      exact congrArg (Sys.mk · .dispatch) (loadingPhase_or _ _ _)
    rw [schedulerBody_busy B hb, depart]
    cases hm : mustMove (loadingPhase (visit B g).2 false (visit B g).1) with
    | true =>
      refine ⟨2 + 4, by omega, by omega, ?_⟩
      rw [Function.iterate_add_apply, h4]
      simp [schedulerStep, hm, advance]
    | false =>
      refine ⟨1 + 4, by omega, by omega, ?_⟩
      rw [Function.iterate_add_apply, h4]
      simp [schedulerStep, hm]

variable {B}

/-- Whatever every scheduler phase keeps, a turn of the loop keeps. -/
theorem schedulerBody_inv {P : Sys → Prop} (hstep : ∀ s, P s → P (schedulerStep B s))
    {g : Globals} (h : P ⟨g, .top⟩) : P ⟨schedulerBody B g, .top⟩ := by
  obtain ⟨n, -, -, hn⟩ := schedulerBody_steps B g
  rw [← hn]
  exact iterate_inv hstep n _ h

/-! ## §2 Visits without an event -/

theorem alighting_nil_of_unload {g : Globals} (h : (unloadPassengers .granted g).2 = false) :
    alighting g = [] := by
  rw [unloadPassengers_granted] at h
  simpa using h

/-- Nobody gets off: the unloading phase changes nothing, not even the
status, because an empty counter and an infected cabin exclude each other. -/
theorem unload_quiet {g : Globals} (h : CabinInv B g) (hnone : alighting g = []) :
    unloadPassengers .granted g = (g, false) := by
  have hriding : riding g = g.onboard := by
    refine List.filter_eq_self.mpr fun p hp => ?_
    have hne : p ∉ alighting g := by simp [hnone]
    simpa [mem_alighting, hp] using hne
  have hstatus : (if g.loads = 0 then Status.uninfected else g.status) = g.status := by
    split
    · next h0 =>
        cases hs : g.status with
        | uninfected => rfl
        | infected => have := h.loads_pos_of_infected hs; omega
    · rfl
  rw [unloadPassengers_granted, hnone, hriding]
  simp [hstatus]

theorem load_quiet {g : Globals} (hnone : boarders B g = []) : loadLocked B g = (g, false) := by
  have hst : stayers B g = g.waitingList (g.currentFloor - 1) :=
    congrArg Prod.snd (board_eq_of_fst_nil hnone)
  rw [loadLocked_eq, hnone, boarded_nil, hst]
  simp

theorem visit_quiet {g : Globals} (h : CabinInv B g) (hv : (visit B g).2 = false) :
    visit B g = (g, false) := by
  simp only [visit, Bool.or_eq_false_iff] at hv ⊢
  have hu := unload_quiet h (alighting_nil_of_unload hv.1)
  rw [hu] at hv ⊢
  by_cases hroom : g.loads < B.capacity
  · rw [loadPhase_room B hroom] at hv ⊢
    have hnone : boarders B g = [] := by
      have := hv.2
      rw [loadLocked_eq] at this
      simpa using this
    simp [load_quiet hnone]
  · simp [loadPhase_full B hroom]

/-- Somebody gets off where they want to. -/
theorem visit_of_alighting {g : Globals} {p : Passenger} (hp : p ∈ alighting g) :
    (visit B g).2 = true := by
  simp only [visit, unloadPassengers_granted, Bool.or_eq_true, decide_eq_true_eq]
  exact Or.inl (List.ne_nil_of_mem hp)

/-- Somebody gets on an empty cabin that admits them. -/
theorem visit_of_admitted {g : Globals} {p : Passenger} (h : CabinInv B g)
    (hempty : g.onboard = []) (hp : p ∈ g.waitingList (g.currentFloor - 1))
    (ha : Admits B g.currentFloor g.loads g.status p) : (visit B g).2 = true := by
  have hnone : alighting g = [] := by simp [alighting, hempty]
  have hroom : g.loads < B.capacity := by have := ha.2.1; omega
  simp only [visit, unload_quiet h hnone, loadPhase_room B hroom, loadLocked_eq, Bool.false_or,
    decide_eq_true_eq]
  exact board_ne_nil hp ha

/-! ## §3 The work that is left -/

variable (B)

/-- Each waiting passenger has to get on and off, each one on board to get
off. -/
def work (g : Globals) : Nat := 2 * totalWaiting B g + g.onboard.length

variable {B}

theorem work_eq {g : Globals} (h : QueueInv B g) :
    (work B g : Int) = 2 * g.numWaiting + g.onboard.length := by
  rw [h.numWaiting_eq, work]
  push_cast
  rfl

theorem queueInv_unload {g : Globals} (h : QueueInv B g) :
    QueueInv B (unloadPassengers .granted g).1 :=
  h.effect (s := ⟨g, .unload⟩) (.unloaded rfl)

theorem work_unload (g : Globals) :
    work B (unloadPassengers .granted g).1 + (alighting g).length = work B g := by
  have hlen := alighting_length_add g
  rw [unloadPassengers_granted]
  simp only [work, totalWaiting]
  omega

theorem work_load {g : Globals} (h : QueueInv B g) :
    work B (loadLocked B g).1 + (boarders B g).length = work B g := by
  have hbefore := work_eq h
  have hafter := work_eq h.load
  have hn : (loadLocked B g).1.numWaiting = g.numWaiting - (boarders B g).length := by
    rw [loadLocked_eq]; rfl
  have hlen : (loadLocked B g).1.onboard.length = g.onboard.length + (boarders B g).length := by
    rw [loadLocked_eq]; simp [boarded]
  rw [hn, hlen] at hafter
  push_cast at hafter
  omega

/-- A visit with an event does some of the work. -/
theorem work_visit {g : Globals} (h : QueueInv B g) (hv : (visit B g).2 = true) :
    work B (visit B g).1 < work B g := by
  have hu := work_unload (B := B) g
  have hq := queueInv_unload h
  simp only [visit, Bool.or_eq_true] at hv ⊢
  by_cases hroom : (unloadPassengers .granted g).1.loads < B.capacity
  · have hl := work_load hq
    rw [loadPhase_room B hroom] at hv ⊢
    rcases hv with hv | hv
    · rw [unloadPassengers_granted] at hv
      have := List.length_pos_iff.mpr (of_decide_eq_true hv)
      omega
    · rw [loadLocked_eq] at hv
      have := List.length_pos_iff.mpr (of_decide_eq_true hv)
      omega
  · rw [loadPhase_full B hroom] at hv ⊢
    have hv := hv.resolve_right (by simp)
    rw [unloadPassengers_granted] at hv
    have := List.length_pos_iff.mpr (of_decide_eq_true hv)
    simp only
    omega

/-- The part of the globals that only calls, unloading and loading change. -/
structure SamePassengers (g g' : Globals) : Prop where
  onboard : g'.onboard = g.onboard
  waitingList : g'.waitingList = g.waitingList
  loads : g'.loads = g.loads
  status : g'.status = g.status
  numWaiting : g'.numWaiting = g.numWaiting

theorem SamePassengers.refl (g : Globals) : SamePassengers g g := ⟨rfl, rfl, rfl, rfl, rfl⟩

theorem SamePassengers.trans {a b c : Globals} (h : SamePassengers a b)
    (h' : SamePassengers b c) : SamePassengers a c :=
  ⟨h'.1.trans h.1, h'.2.trans h.2, h'.3.trans h.3, h'.4.trans h.4, h'.5.trans h.5⟩

theorem SamePassengers.work_eq {g g' : Globals} (h : SamePassengers g g') :
    work B g' = work B g := by
  simp only [work, totalWaiting, h.onboard, h.waitingList]

theorem SamePassengers.busy_eq {g g' : Globals} (h : SamePassengers g g') :
    busy g' = busy g := by
  simp only [busy, h.onboard, h.numWaiting]

theorem SamePassengers.cabinInv {g g' : Globals} (h : SamePassengers g g') (hc : CabinInv B g) :
    CabinInv B g' := by
  obtain ⟨h1, h2, h3, h4⟩ := hc
  exact ⟨by rw [h.onboard, h.loads]; exact h1, by rw [h.loads]; exact h2,
    by rw [h.onboard, h.status]; exact h3, by rw [h.loads, h.status]; exact h4⟩

theorem advance_same (g : Globals) : SamePassengers g (advance B g) := by
  obtain ⟨current, next, hmove⟩ :=
    moveElevator_frame B (ssleep moveTime (changeElevatorState g))
  rw [advance, hmove, changeElevatorState_eq]
  exact ⟨rfl, rfl, rfl, rfl, rfl⟩

theorem depart_same (v : Globals × Bool) : SamePassengers v.1 (depart B v) := by
  have hload : SamePassengers v.1 (loadingPhase v.2 false v.1) := by
    simp only [loadingPhase, ssleep]
    split <;> exact ⟨rfl, rfl, rfl, rfl, rfl⟩
  refine hload.trans ?_
  simp only [depart]
  split
  · exact advance_same _
  · simp only [settle]
    split <;> exact ⟨rfl, rfl, rfl, rfl, rfl⟩

/-! ## §4 Reaching the next event -/

theorem OnSweep.advance {k : Nat} {g : Globals} (h : OnSweep B k g) :
    OnSweep B (k + 1) (advance B g) := by
  have hshown : OnSweep B k (ssleep moveTime { g with state := heading g }) := h.congr rfl rfl
  rw [KernelElevator.advance, changeElevatorState_eq]
  exact hshown.move rfl

/-- What `j` moves in a row change: nothing but the position on the sweep. -/
theorem advance_iterate {k : Nat} {g : Globals} (h : OnSweep B k g) (j : Nat) :
    OnSweep B (k + j) ((advance B)^[j] g) ∧ SamePassengers g ((advance B)^[j] g) := by
  induction j with
  | zero => exact ⟨h, SamePassengers.refl g⟩
  | succ j ih =>
    rw [Function.iterate_succ_apply']
    exact ⟨ih.1.advance, ih.2.trans (advance_same _)⟩

/-- With passengers left, a turn whose visit brings no event is a move. -/
theorem schedulerBody_quiet {g : Globals} (h : CabinInv B g) (hb : busy g = true)
    (hv : ¬ (visit B g).2 = true) : schedulerBody B g = advance B g := by
  have hquiet := visit_quiet h (by simpa using hv)
  have hmove : mustMove g = true := by
    simp only [busy, mustMove, decide_eq_true_eq] at hb ⊢
    rcases hb with hn | hon
    · exact Or.inr hn
    · have hpos := List.length_pos_iff.mpr hon
      have hle := h.onboard_le_loads
      exact Or.inl (by omega)
  rw [schedulerBody_busy B hb, hquiet]
  simp [depart, loadingPhase, hmove]

/-- If the floor `x` would bring an event while the passengers stay as they
are, some turn within one period of the sweep has one, and nothing happens
before it. -/
theorem exists_visit_event {g : Globals} {k : Nat} (hc : CabinInv B g) (hk : OnSweep B k g)
    (hb : busy g = true) {x : Nat} (h1 : 1 ≤ x) (h2 : x ≤ B.floors)
    (hx : ∀ g', SamePassengers g g' → g'.currentFloor = x → (visit B g').2 = true) :
    ∃ i < shuttlePeriod B.floors, (schedulerBody B)^[i] g = (advance B)^[i] g ∧
      (visit B ((advance B)^[i] g)).2 = true := by
  obtain ⟨j, hj, hfloor⟩ := shuttle_covers B.two_le_floors k h1 h2
  obtain ⟨hsweep, hsame⟩ := advance_iterate hk j
  have hev : (visit B ((advance B)^[j] g)).2 = true :=
    hx _ hsame (by rw [hsweep.currentFloor_eq, hfloor])
  obtain ⟨i, hi, hfollow, hevi⟩ := exists_event (f := schedulerBody B) (g := advance B)
    (I := fun g => CabinInv B g ∧ busy g = true) (E := fun g => (visit B g).2 = true)
    (fun g hg => ⟨(advance_same g).cabinInv hg.1, by rw [(advance_same g).busy_eq]; exact hg.2⟩)
    (fun g hg hne => schedulerBody_quiet hg.1 hg.2 hne) j g ⟨hc, hb⟩ hev
  exact ⟨i, by omega, hfollow, hevi⟩

theorem Sys.Inv.turns {g : Globals} (h : Sys.Inv B ⟨g, .top⟩) (n : Nat) :
    Sys.Inv B ⟨(schedulerBody B)^[n] g, .top⟩ :=
  iterate_inv (I := fun g => Sys.Inv B ⟨g, .top⟩)
    (fun _ => schedulerBody_inv (P := Sys.Inv B) fun _ h => h.step .scheduler) n g h

/-- A floor with an event ahead: within one period of the sweep some work
is done. -/
theorem exists_work_lt_of_target {g : Globals} (h : Sys.Inv B ⟨g, .top⟩) (hb : busy g = true)
    {x : Nat} (h1 : 1 ≤ x) (h2 : x ≤ B.floors)
    (hx : ∀ g', SamePassengers g g' → g'.currentFloor = x → (visit B g').2 = true) :
    ∃ k ≤ shuttlePeriod B.floors, work B ((schedulerBody B)^[k] g) < work B g := by
  obtain ⟨m, hm⟩ := h.sweep
  obtain ⟨i, hi, hfollow, hev⟩ := exists_visit_event h.wf.cabin hm hb h1 h2 hx
  obtain ⟨-, hsame⟩ := advance_iterate hm i
  have hqueue : QueueInv B ((advance B)^[i] g) := by
    rw [← hfollow]
    exact (h.turns i).wf.queues
  refine ⟨i + 1, hi, ?_⟩
  rw [Function.iterate_succ_apply', hfollow,
    schedulerBody_busy B (by rw [hsame.busy_eq]; exact hb), (depart_same _).work_eq,
    ← hsame.work_eq]
  exact work_visit hqueue hev

/-! ## §5 Nobody is left behind -/

variable (B)

/-- Nobody waits who will be refused when the cabin comes empty: `loads` is
exact, or nobody waits, or what `loads` has too much still leaves room and
all who wait are of a kind the cabin takes. -/
def Drains (g : Globals) : Prop :=
  g.loads = g.onboard.length ∨ g.numWaiting = 0 ∨
    (g.loads - g.onboard.length < B.capacity ∧
      ((∀ i, ∀ p ∈ g.waitingList i, p.type = 1) ∨
        g.status = .uninfected ∧ ∀ i, ∀ p ∈ g.waitingList i, p.type = 0))

variable {B}

theorem Drains.unload {g : Globals} (h : Drains B g) :
    Drains B (unloadPassengers .granted g).1 := by
  have hlen := alighting_length_add g
  rw [unloadPassengers_granted]
  rcases h with hexact | hnone | ⟨hroom, hkind⟩
  · exact Or.inl (by simp only; omega)
  · exact Or.inr (Or.inl hnone)
  · refine Or.inr (Or.inr ⟨by simp only; omega, hkind.imp_right fun hh => ⟨?_, hh.2⟩⟩)
    simp only [hh.1, ite_self]

/-- Loading puts nobody in a queue. -/
theorem mem_waiting_of_load {g : Globals} {i : Int} {p : Passenger}
    (h : p ∈ (loadLocked B g).1.waitingList i) : p ∈ g.waitingList i := by
  simp only [loadLocked_eq] at h
  by_cases hi : i = g.currentFloor - 1
  · subst hi
    rw [Function.update_self] at h
    exact mem_waiting_of_mem_stayers h
  · rwa [Function.update_of_ne hi] at h

theorem Drains.load {g : Globals} (h : Drains B g) (hq : QueueInv B g) :
    Drains B (loadLocked B g).1 := by
  have hsub := fun i p => mem_waiting_of_load (B := B) (g := g) (i := i) (p := p)
  have hnonneg := hq.load.numWaiting_nonneg
  rw [loadLocked_eq] at hsub hnonneg ⊢
  rcases h with hexact | hnone | ⟨hroom, hkind⟩
  · exact Or.inl (by simp only [boarded, List.length_append]; push_cast; omega)
  · exact Or.inr (Or.inl (by simp only [boarded] at hnonneg ⊢; omega))
  · refine Or.inr (Or.inr ⟨?_, hkind.imp (fun hz i p hp => hz i p (hsub i p hp)) ?_⟩)
    · simp only [boarded, List.length_append]; push_cast; omega
    · rintro ⟨hs, hh⟩
      refine ⟨?_, fun i p hp => hh i p (hsub i p hp)⟩
      simp only [boarded, hs]
      refine withAll_of_humans .uninfected fun p hp => ?_
      rw [hh _ p (mem_waiting_of_mem_boarders hp)]
      decide

/-- Every scheduler phase keeps `Drains`. -/
theorem Drains.effect {s : Sys} {g' : Globals} (h : Drains B s.g) (hq : QueueInv B s.g)
    (he : Effect B s .scheduler g') : Drains B g' := by
  cases he with
  | same _ => exact h
  | unloaded _ => exact h.unload
  | loaded _ _ _ => exact h.load hq
  | shown _ _ => exact h
  | settled _ _ _ => exact h
  | moved _ _ _ _ => exact h

/-- As long as anybody is left there is a floor at which somebody will get
off or on: with passengers on board the destination of one of them, else the
floor of somebody who waits and will be let in. -/
theorem exists_target {g : Globals} (hw : g.Wf B) (hd : Drains B g) (hb : busy g = true) :
    ∃ x : Nat, 1 ≤ x ∧ x ≤ B.floors ∧
      ∀ g', SamePassengers g g' → g'.currentFloor = x → (visit B g').2 = true := by
  cases hon : g.onboard with
  | cons p ps =>
    have hp : p ∈ g.onboard := by rw [hon]; exact List.mem_cons_self ..
    have hok := hw.queues.onboard_ok p hp
    have hpos := hok.destination_pos
    have hle := hok.destination_le
    refine ⟨p.destinationFloor.toNat, by omega, by omega, fun g' hsame hfloor => ?_⟩
    refine visit_of_alighting (p := p) (mem_alighting.mpr ⟨by rw [hsame.onboard]; exact hp, ?_⟩)
    omega
  | nil =>
    have hwait : g.numWaiting ≠ 0 := by simpa [busy, hon] using hb
    obtain ⟨i, hne⟩ : ∃ i, g.waitingList i ≠ [] := by
      by_contra hall
      exact hwait (hw.queues.numWaiting_eq_zero_iff.mpr fun i => by
        by_contra hne; exact hall ⟨i, hne⟩)
    obtain ⟨p, hp⟩ := List.exists_mem_of_ne_nil _ hne
    obtain ⟨hok, hfloor⟩ := hw.queues.waiting_ok i p hp
    have hpos := hok.start_pos
    have hle := hok.start_le
    have hcap := B.capacity_pos
    refine ⟨p.startFloor.toNat, by omega, by omega, fun g' hsame hcur => ?_⟩
    have hadmits : g.loads + 1 ≤ B.capacity ∧
        (p.type = 1 ∨ p.type = 0 ∧ g.status = .uninfected) := by
      rcases hd with hexact | hnone | ⟨hroom, hkind⟩
      · rw [hon] at hexact
        have hzero : g.loads = 0 := hexact
        have hs : g.status = .uninfected := by
          cases hs : g.status with
          | uninfected => rfl
          | infected => have := hw.cabin.loads_pos_of_infected hs; omega
        exact ⟨by omega, hok.type_eq.symm.imp_right fun h0 => ⟨h0, hs⟩⟩
      · exact absurd hnone hwait
      · rw [hon] at hroom
        simp only [List.length_nil] at hroom
        exact ⟨by omega, hkind.imp (fun hz => hz i p hp) fun hh => ⟨hh.2 i p hp, hh.1⟩⟩
    refine visit_of_admitted (p := p) (hsame.cabinInv hw.cabin) (by rw [hsame.onboard, hon]) ?_ ?_
    · rw [hsame.waitingList, show g'.currentFloor - 1 = i by omega]
      exact hp
    · rw [hsame.loads, hsame.status]
      exact ⟨by omega, hadmits⟩

/-- What a turn of the loop keeps, if nobody calls. -/
def Quiescing (B : Building) (s : Sys) : Prop := s.Inv B ∧ Drains B s.g

theorem Quiescing.step {s : Sys} (h : Quiescing B s) : Quiescing B (schedulerStep B s) :=
  ⟨h.1.step .scheduler, h.2.effect h.1.wf.queues (schedulerStep_effect s)⟩

theorem Quiescing.turns {g : Globals} (h : Quiescing B ⟨g, .top⟩) (n : Nat) :
    Quiescing B ⟨(schedulerBody B)^[n] g, .top⟩ :=
  iterate_inv (I := fun g => Quiescing B ⟨g, .top⟩)
    (fun _ => schedulerBody_inv (P := Quiescing B) fun _ => Quiescing.step) n g h

theorem busy_of_work_pos {g : Globals} (h : QueueInv B g) (hpos : 0 < work B g) :
    busy g = true := by
  have hw := work_eq h
  simp only [busy, decide_eq_true_eq]
  by_contra hcon
  simp only [not_or, not_not] at hcon
  rw [hcon.1, hcon.2] at hw
  simp only [List.length_nil] at hw
  omega

/-- Within one period of the sweep some work is done. -/
theorem exists_work_lt {g : Globals} (h : Quiescing B ⟨g, .top⟩) (hpos : 0 < work B g) :
    ∃ k ≤ shuttlePeriod B.floors, work B ((schedulerBody B)^[k] g) < work B g := by
  have hb := busy_of_work_pos h.1.wf.queues hpos
  obtain ⟨x, h1, h2, hx⟩ := exists_target h.1.wf h.2 hb
  exact exists_work_lt_of_target h.1 hb h1 h2 hx

/-- **The scheduler empties the building** within `2 * (FLOORS - 1)` turns
for each boarding and each arrival that is left. -/
theorem exists_drained {g : Globals} (h : Quiescing B ⟨g, .top⟩) :
    ∃ n ≤ shuttlePeriod B.floors * work B g,
      ((schedulerBody B)^[n] g).numWaiting = 0 ∧ ((schedulerBody B)^[n] g).onboard = [] := by
  obtain ⟨n, hn, hzero⟩ := exists_iterate_work_zero (f := schedulerBody B)
    (I := fun g => Quiescing B ⟨g, .top⟩) (fun _ h => h.turns 1) (fun _ => exists_work_lt) g h
  have hq : QueueInv B ((schedulerBody B)^[n] g) := (h.turns n).1.wf.queues
  have hend := work_eq hq
  have hnonneg := hq.numWaiting_nonneg
  rw [hzero] at hend
  refine ⟨n, hn, by omega, List.length_eq_zero_iff.mp (by omega)⟩

/-! ## §6 Everybody arrives -/

/-- `p` is in the building's care: in a floor queue or on board. -/
def Present (g : Globals) (p : Passenger) : Prop :=
  p ∈ g.onboard ∨ ∃ i, p ∈ g.waitingList i

/-- A turn that starts in `g` lets `p` off, at the floor `p` asked for. -/
structure DeliveredBy (g : Globals) (p : Passenger) : Prop where
  was_onboard : p ∈ g.onboard
  at_destination : g.currentFloor = p.destinationFloor
  got_off : p ∉ (unloadPassengers .granted g).1.onboard

theorem present_unload {g : Globals} {p : Passenger} (h : Present g p) :
    DeliveredBy g p ∨ Present (unloadPassengers .granted g).1 p := by
  rcases h with hon | hwait
  · by_cases hd : p.destinationFloor = g.currentFloor
    · refine Or.inl ⟨hon, hd.symm, ?_⟩
      rw [unloadPassengers_granted]
      exact fun hr => (mem_riding.mp hr).2 hd
    · refine Or.inr (Or.inl ?_)
      rw [unloadPassengers_granted]
      exact mem_riding.mpr ⟨hon, hd⟩
  · refine Or.inr (Or.inr ?_)
    rw [unloadPassengers_granted]
    exact hwait

theorem present_loadPhase {g : Globals} {p : Passenger} (h : Present g p) :
    Present (loadPhase B g).1 p := by
  by_cases hroom : g.loads < B.capacity
  · rw [loadPhase_room B hroom, loadLocked_eq]
    rcases h with hon | ⟨i, hp⟩
    · exact Or.inl (List.mem_append_left _ hon)
    · by_cases hi : i = g.currentFloor - 1
      · subst hi
        rcases List.mem_append.mp ((boarders_perm (B := B) g).symm.subset hp) with hb | hs
        · exact Or.inl (List.mem_append_right _ hb)
        · exact Or.inr ⟨g.currentFloor - 1, by simpa using hs⟩
      · exact Or.inr ⟨i, by simpa [Function.update_of_ne hi] using hp⟩
  · rw [loadPhase_full B hroom]
    exact h

theorem present_schedulerBody {g : Globals} {p : Passenger} (h : Present g p) :
    DeliveredBy g p ∨ Present (schedulerBody B g) p := by
  cases hb : busy g with
  | false =>
    refine Or.inr ?_
    rw [schedulerBody_idle B hb, standBy]
    split <;> exact h
  | true =>
    refine (present_unload h).imp_right fun hu => ?_
    have hv : Present (visit B g).1 p := present_loadPhase hu
    have hsame := depart_same (B := B) (visit B g)
    rw [schedulerBody_busy B hb]
    simpa only [Present, hsame.onboard, hsame.waitingList] using hv

/-- Whoever is no longer in the building after `n` turns was let off in one
of them. -/
theorem delivered_of_absent {p : Passenger} (n : Nat) (g : Globals) (h : Present g p)
    (habs : ¬ Present ((schedulerBody B)^[n] g) p) :
    ∃ k < n, DeliveredBy ((schedulerBody B)^[k] g) p := by
  induction n generalizing g with
  | zero => exact absurd h habs
  | succ n ih =>
    rcases present_schedulerBody (B := B) h with hd | hp
    · exact ⟨0, Nat.succ_pos n, hd⟩
    · obtain ⟨k, hk, hd⟩ := ih (schedulerBody B g) hp habs
      exact ⟨k + 1, Nat.succ_lt_succ hk, hd⟩

/-- Without a stop `loads` is exact throughout. -/
theorem loadsExact_of_no_stop {ls : List Label} (h : .call .stopElevator ∉ ls) :
    LoadsExact (Sys.after B ls) := by
  exact (system B).inv_of_along (P := LoadsExact)
    (fun _ _ hl hs => loadsExact_of_ne_stop hs hl) ls (loaded B) rfl
    ((system B).along_ne_of_not_mem ls (loaded B) h)

/-- **Left alone, the elevator serves everybody.** If no stop was ever
called, then from the head of the loop on, with no further call, after at
most `2 * (FLOORS - 1)` turns for each boarding and each arrival nobody
waits and nobody is on board, and everybody who did was let off at their own
destination. -/
theorem drains_without_stop (B : Building) (ls : List Label)
    (hstop : .call .stopElevator ∉ ls) (htop : (Sys.after B ls).pc = .top) :
    ∃ n : Nat,
      (n : Int) ≤ 2 * ((B.floors : Int) - 1)
        * (2 * (Sys.after B ls).g.numWaiting + (Sys.after B ls).g.onboard.length) ∧
      ((schedulerBody B)^[n] (Sys.after B ls).g).numWaiting = 0 ∧
      ((schedulerBody B)^[n] (Sys.after B ls).g).onboard = [] ∧
      ∀ p, Present (Sys.after B ls).g p →
        ∃ k < n, DeliveredBy ((schedulerBody B)^[k] (Sys.after B ls).g) p := by
  have hinv := Sys.inv_after (B := B) ls
  have hexact := loadsExact_of_no_stop (B := B) hstop
  generalize Sys.after B ls = s at *
  obtain ⟨g, pc⟩ := s
  obtain rfl : pc = .top := htop
  have hq : Quiescing B ⟨g, .top⟩ := ⟨hinv, Or.inl hexact⟩
  obtain ⟨n, hn, hwait, hon⟩ := exists_drained hq
  have hend := hq.turns n
  refine ⟨n, ?_, hwait, hon, fun p hp => delivered_of_absent n g hp ?_⟩
  · have hwork := work_eq hinv.wf.queues
    have hF := B.two_le_floors
    have hperiod : ((shuttlePeriod B.floors : Nat) : Int) = 2 * ((B.floors : Int) - 1) := by
      unfold shuttlePeriod; omega
    rw [← hwork, ← hperiod]
    exact_mod_cast hn
  · rintro (hp | ⟨i, hp⟩)
    · rw [hon] at hp; simp at hp
    · rw [hend.1.wf.queues.numWaiting_eq_zero_iff.mp hwait i] at hp; simp at hp

/-- Four requests on two floors, one from a zombie, are served. -/
theorem drains_without_stop_source :
    ∃ n : Nat, (n : Int) ≤ 2 * ((10 : Int) - 1) * (2 * 4 + 0) ∧
      ∀ p, Present (Sys.after .source [.call .startElevator, .call (.issueRequest 1 3 0),
          .call (.issueRequest 1 2 1), .call (.issueRequest 1 2 0),
          .call (.issueRequest 2 1 0)]).g p →
        ∃ k < n, DeliveredBy ((schedulerBody .source)^[k]
          (Sys.after .source [.call .startElevator, .call (.issueRequest 1 3 0),
            .call (.issueRequest 1 2 1), .call (.issueRequest 1 2 0),
            .call (.issueRequest 2 1 0)]).g) p := by
  obtain ⟨n, hn, -, -, hall⟩ := drains_without_stop .source
    [.call .startElevator, .call (.issueRequest 1 3 0), .call (.issueRequest 1 2 1),
      .call (.issueRequest 1 2 0), .call (.issueRequest 2 1 0)] (by decide) (by decide)
  exact ⟨n, hn, hall⟩

end KernelElevator
