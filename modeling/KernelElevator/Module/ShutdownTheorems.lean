/-
KernelElevator.Module.ShutdownTheorems — what the elevator still does after
it was stopped.

From a stop until the next start every call is without effect
(`run_stopped`), so what happens is decided by the state the stop found.
Two questions are asked of it.

* Does the scheduler get to OFFLINE? It does when the queues can be drained
  with the `loads` that the stop left behind (`StopDrains`,
  `stop_reaches_offline`). It never does when that `loads` fills the cabin,
  or keeps it infected while a human waits (`Wedged`, `Wedged.not_offline`).
* Does anybody board? The load phase looks at neither of the two flags the
  stop sets, so somebody does if and only if somebody waits who meets the
  tests of that phase (`no_boarding_after_stop_iff`).
-/
import KernelElevator.Module.DrainTheorems

namespace KernelElevator

open Transition

variable (B : Building)

/-! ## §1 From a stop to the next start -/

variable {B}

/-- While the elevator is not started only a start has an effect. -/
theorem exec_of_stopped {g : Globals} (h : g.started = false) {c : Call}
    (hc : c ≠ .startElevator) : c.exec B g = (1, g) := by
  cases c with
  | startElevator => exact absurd rfl hc
  | issueRequest a b t =>
    have hr : issueRequestRejects B a b t g = true := by simp [issueRequestRejects, h]
    rw [Call.exec, issueRequest_rejected hr]
    rfl
  | stopElevator => rw [Call.exec, stopElevator_rejected (by simp [StopTakes, h])]

theorem step_call_of_stopped {s : Sys} (h : s.g.started = false) {c : Call}
    (hc : c ≠ .startElevator) : s.step B (.call c) = s := by
  rw [Sys.step, exec_of_stopped h hc]

/-- The scheduler never writes `started`. -/
theorem schedulerStep_started (s : Sys) : (schedulerStep B s).g.started = s.g.started := by
  have he := schedulerStep_effect (B := B) s
  generalize (schedulerStep B s).g = g' at he
  cases he with
  | same _ => rfl
  | unloaded _ => rw [unloadPassengers_granted]
  | loaded _ _ _ => rw [loadLocked_eq]; rfl
  | shown _ _ => rfl
  | settled _ _ _ => rfl
  | moved _ _ _ _ => rfl

theorem run_stopped {s : Sys} (h : s.g.started = false) {post : List Label}
    (hpost : .call .startElevator ∉ post) :
    (system B).run s post = (schedulerStep B)^[post.count .scheduler] s := by
  have hok : ∀ l ∈ post, l ≠ .call .startElevator := fun l hl heq => hpost (heq ▸ hl)
  refine (system B).run_eq_iterate (t := .scheduler) (I := fun s => s.g.started = false)
    ?_ ?_ post s h hok
  · rintro s (c | _) hs hne hsched
    · exact step_call_of_stopped hs fun hc => hne (by rw [hc])
    · exact absurd rfl hsched
  · exact fun s hs => (schedulerStep_started s).trans hs

/-! ## §2 The way to OFFLINE -/

variable (B)

/-- Every continuation without a start ends with OFFLINE displayed, if the
scheduler does at least `N` phases in it. What the display showed before that
does not count. A turn of the loop has one to six phases, so this bounds the
number of turns as well. -/
def ReachesOffline (s : Sys) : Prop :=
  ∃ N, ∀ post, .call .startElevator ∉ post → N ≤ post.count .scheduler →
    ((system B).run s post).g.state = .offline

/-- The stop finds a counter and queues from which the scheduler can empty
the building: `loads` is zero, or nobody waits, or there is room and the
status will let everybody in who waits. -/
def StopDrains (g : Globals) : Prop :=
  g.loads = 0 ∨ g.numWaiting = 0 ∨
    (g.loads < B.capacity ∧
      ((∀ i, ∀ p ∈ g.waitingList i, p.type = 1) ∨
        g.status = .uninfected ∧ ∀ i, ∀ p ∈ g.waitingList i, p.type = 0))

variable {B}

/-- From everywhere in its loop the scheduler comes back to the head. -/
theorem exists_top (s : Sys) : ∃ n, ((schedulerStep B)^[n] s).pc = .top := by
  have hnext : ∀ s, (∃ n, ((schedulerStep B)^[n] (schedulerStep B s)).pc = .top) →
      ∃ n, ((schedulerStep B)^[n] s).pc = .top := fun s ⟨n, hn⟩ => ⟨n + 1, hn⟩
  have hmove : ∀ g, ∃ n, ((schedulerStep B)^[n] ⟨g, .move⟩).pc = .top := fun _ => ⟨1, rfl⟩
  have hdispatch : ∀ g, ∃ n, ((schedulerStep B)^[n] ⟨g, .dispatch⟩).pc = .top := by
    intro g
    refine hnext _ ?_
    simp only [schedulerStep]
    split
    · exact hmove _
    · exact ⟨0, rfl⟩
  have hloading : ∀ g us ls, ∃ n, ((schedulerStep B)^[n] ⟨g, .loading us ls⟩).pc = .top :=
    fun g us ls => hnext _ (hdispatch _)
  have hload : ∀ g us, ∃ n, ((schedulerStep B)^[n] ⟨g, .load us⟩).pc = .top :=
    fun g us => hnext _ (hloading _ _ _)
  obtain ⟨g, pc⟩ := s
  cases pc with
  | top => exact ⟨0, rfl⟩
  | unload => exact hnext _ (hload _ _)
  | load us => exact hload g us
  | loading us ls => exact hloading g us ls
  | dispatch => exact hdispatch g
  | move => exact hmove g

/-- A number of turns is a number of phases. -/
theorem exists_steps_of_turns (n : Nat) (g : Globals) :
    ∃ m, (schedulerStep B)^[m] ⟨g, .top⟩ = ⟨(schedulerBody B)^[n] g, .top⟩ := by
  induction n generalizing g with
  | zero => exact ⟨0, rfl⟩
  | succ n ih =>
    obtain ⟨m, hm⟩ := ih (schedulerBody B g)
    obtain ⟨k, -, -, hk⟩ := schedulerBody_steps B g
    refine ⟨m + k, ?_⟩
    rw [Function.iterate_add_apply, hk, hm, Function.iterate_succ_apply]

/-- The scheduler has nothing to do, and the elevator is not started. -/
structure AtRest (s : Sys) : Prop where
  pc : s.pc = .top
  busy : busy s.g = false
  started : s.g.started = false

theorem AtRest.step {s : Sys} (h : AtRest s) :
    AtRest (schedulerStep B s) ∧ (schedulerStep B s).g.state = .offline := by
  obtain ⟨g, pc⟩ := s
  obtain ⟨hpc, hb, hs⟩ := h
  obtain rfl : pc = .top := hpc
  have hstate : (if g.started then ElevatorState.idle else .offline) = .offline :=
    if_neg (by simpa using hs)
  rw [schedulerStep_top_idle B hb, standBy_eq, hstate]
  exact ⟨⟨rfl, hb, hs⟩, rfl⟩

/-- Not started, and able to drain: from some phase on OFFLINE is shown. -/
theorem exists_offline {s : Sys} (hq : Quiescing B s) (hs : s.g.started = false) :
    ∃ N, ∀ n, N ≤ n → ((schedulerStep B)^[n] s).g.state = .offline := by
  have hinv : ∀ n, Quiescing B ((schedulerStep B)^[n] s) ∧
      ((schedulerStep B)^[n] s).g.started = false := fun n =>
    iterate_inv (I := fun s => Quiescing B s ∧ s.g.started = false)
      (fun s h => ⟨h.1.step, (schedulerStep_started s).trans h.2⟩) n s ⟨hq, hs⟩
  obtain ⟨k, hk⟩ := exists_top (B := B) s
  obtain ⟨hqk, -⟩ := hinv k
  generalize hsk : (schedulerStep B)^[k] s = sk at *
  obtain ⟨g, pc⟩ := sk
  obtain rfl : pc = .top := hk
  obtain ⟨t, -, hwait, hon⟩ := exists_drained hqk
  obtain ⟨m, hm⟩ := exists_steps_of_turns (B := B) t g
  have hrest : AtRest ((schedulerStep B)^[m + k] s) := by
    have hsm := (hinv (m + k)).2
    rw [Function.iterate_add_apply, hsk, hm] at hsm ⊢
    exact ⟨rfl, by simp [busy, hwait, hon], hsm⟩
  refine ⟨m + k + 1, fun n hn => ?_⟩
  obtain ⟨d, rfl⟩ := Nat.exists_eq_add_of_le hn
  rw [show m + k + 1 + d = d + 1 + (m + k) by omega, Function.iterate_add_apply,
    Function.iterate_succ_apply']
  exact (iterate_inv (fun _ h => h.step.1) d _ hrest).step.2

theorem StopDrains.drains {s : Sys} (htakes : StopTakes s.g) (h : StopDrains B s.g) :
    Drains B (s.step B (.call .stopElevator)).g := by
  rw [step_stop htakes]
  simpa [Drains, StopDrains] using h

/-- **A stopped elevator goes OFFLINE**, if what the stop finds can be
drained with the counter it leaves behind. -/
theorem stop_reaches_offline (B : Building) (ls : List Label)
    (htakes : StopTakes (Sys.after B ls).g) (hdrains : StopDrains B (Sys.after B ls).g) :
    ReachesOffline B ((Sys.after B ls).step B (.call .stopElevator)) := by
  have hinv := Sys.inv_after (B := B) ls
  generalize Sys.after B ls = s at *
  have hs : (s.step B (.call .stopElevator)).g.started = false := by rw [step_stop htakes]
  obtain ⟨N, hN⟩ := exists_offline ⟨hinv.step _, hdrains.drains htakes⟩ hs
  refine ⟨N, fun post hpost hcount => ?_⟩
  rw [run_stopped hs hpost]
  exact hN _ hcount

/-- The stop comes while a human rides and nobody waits. -/
theorem stop_reaches_offline_source :
    ReachesOffline .source ((Sys.after .source [.call .startElevator,
      .call (.issueRequest 1 2 0), .scheduler, .scheduler, .scheduler]).step .source
        (.call .stopElevator)) :=
  stop_reaches_offline .source _ (by decide) (Or.inr (Or.inl (by decide)))

/-! ## §3 Never OFFLINE -/

/-- A scheduler phase changes `loads` by as much as the list on board. -/
theorem Effect.surplus {s : Sys} {g' : Globals} (he : Effect B s .scheduler g') :
    g'.loads - g'.onboard.length = s.g.loads - s.g.onboard.length := by
  cases he with
  | same _ => rfl
  | unloaded _ =>
    have hlen := alighting_length_add s.g
    rw [unloadPassengers_granted]
    simp only
    omega
  | loaded _ _ _ =>
    rw [loadLocked_eq]
    simp only [boarded, List.length_append]
    push_cast
    omega
  | shown _ _ => rfl
  | settled _ _ _ => rfl
  | moved _ _ _ _ => rfl

variable (B)

/-- `p` waits and will never be let in: what `loads` has too much fills the
cabin, or it keeps the cabin infected and `p` is a human. -/
structure Wedged (i : Int) (p : Passenger) (g : Globals) : Prop where
  waiting : p ∈ g.waitingList i
  refused : B.capacity ≤ g.loads - g.onboard.length ∨
    0 < g.loads - g.onboard.length ∧ g.status = .infected ∧ p.type = 0

variable {B}

theorem Wedged.effect {i : Int} {p : Passenger} {s : Sys} {g' : Globals} (h : Wedged B i p s.g)
    (he : Effect B s .scheduler g') : Wedged B i p g' := by
  have hsurplus := he.surplus
  constructor
  · cases he with
    | loaded _ _ hroom =>
      have hp := h.waiting
      rw [loadLocked_eq]
      by_cases hi : i = s.g.currentFloor - 1
      · subst hi
        simp only [Function.update_self]
        refine (List.mem_append.mp ((boarders_perm (B := B) s.g).symm.subset hp)).resolve_left
          fun hb => ?_
        rcases h.refused with hfull | ⟨-, hinf, hhuman⟩
        · omega
        · rw [boarders, hinf] at hb
          have := board_infected hb
          omega
      · simpa only [Function.update_of_ne hi] using hp
    | unloaded _ => rw [unloadPassengers_granted]; exact h.waiting
    | moved _ _ _ _ => exact h.waiting
    | same _ => exact h.waiting
    | shown _ _ => exact h.waiting
    | settled _ _ _ => exact h.waiting
  · rw [hsurplus]
    refine h.refused.imp_right fun ⟨hpos, hinf, hhuman⟩ => ⟨hpos, ?_, hhuman⟩
    cases he with
    | unloaded _ =>
      have hlen := alighting_length_add s.g
      simp only [unloadPassengers_granted, hinf]
      exact if_neg (by omega)
    | loaded _ _ _ => rw [loadLocked_eq]; simp only [boarded, hinf, withAll_infected]
    | moved _ _ _ _ => exact hinf
    | same _ => exact hinf
    | shown _ _ => exact hinf
    | settled _ _ _ => exact hinf

theorem Wedged.numWaiting_ne_zero {i : Int} {p : Passenger} {s : Sys} (hinv : s.Inv B)
    (hw : Wedged B i p s.g) : s.g.numWaiting ≠ 0 := by
  intro h0
  have hp := hw.waiting
  rw [hinv.wf.queues.numWaiting_eq_zero_iff.mp h0 i] at hp
  simp at hp

theorem Wedged.iterate {i : Int} {p : Passenger} {s : Sys} (hinv : s.Inv B)
    (hw : Wedged B i p s.g) (n : Nat) :
    ((schedulerStep B)^[n] s).Inv B ∧ Wedged B i p ((schedulerStep B)^[n] s).g :=
  iterate_inv (I := fun s => s.Inv B ∧ Wedged B i p s.g)
    (fun s h => ⟨h.1.step .scheduler, h.2.effect (schedulerStep_effect s)⟩) n s ⟨hinv, hw⟩

/-- A wedged elevator does not stay OFFLINE: at the latest in the next turn
of the loop the cabin sets off. -/
theorem Wedged.sets_off {i : Int} {p : Passenger} {s : Sys} (hinv : s.Inv B)
    (hw : Wedged B i p s.g) : ∃ n, ((schedulerStep B)^[n] s).g.state ≠ .offline := by
  obtain ⟨k, hk⟩ := exists_top (B := B) s
  obtain ⟨hinvk, hwk⟩ := hw.iterate hinv k
  have hbusy : KernelElevator.busy ((schedulerStep B)^[k] s).g = true := by
    simp [KernelElevator.busy, hwk.numWaiting_ne_zero hinvk]
  obtain ⟨-, hwait⟩ := hw.iterate hinv (4 + k)
  have hne := hwait.numWaiting_ne_zero (hw.iterate hinv (4 + k)).1
  refine ⟨1 + (4 + k), ?_⟩
  rw [Function.iterate_add_apply, Function.iterate_one]
  -- four phases after the head of the loop is the decision to move
  have hpc : ((schedulerStep B)^[4 + k] s).pc = .dispatch := by
    rw [Function.iterate_add_apply]
    generalize (schedulerStep B)^[k] s = t at hk hbusy
    obtain ⟨g, pc⟩ := t
    obtain rfl : pc = .top := hk
    have htop : schedulerStep B ⟨g, .top⟩ = ⟨g, .unload⟩ := if_pos hbusy
    rw [Function.iterate_succ_apply, htop]
    rfl
  generalize (schedulerStep B)^[4 + k] s = t at hne hpc
  obtain ⟨g, pc⟩ := t
  obtain rfl : pc = .dispatch := hpc
  have hmove : mustMove g = true := by simp [mustMove, hne]
  simp only [schedulerStep, hmove, if_true, changeElevatorState_eq, ssleep, heading]
  split <;> decide

/-- A wedged elevator that is not started never comes to rest. -/
theorem Wedged.not_offline {i : Int} {p : Passenger} {s : Sys} (hinv : s.Inv B)
    (hw : Wedged B i p s.g) (hs : s.g.started = false) : ¬ ReachesOffline B s := by
  rintro ⟨N, hN⟩
  obtain ⟨hinvN, hwN⟩ := hw.iterate hinv N
  obtain ⟨n, hn⟩ := hwN.sets_off hinvN
  have hend := hN (List.replicate (n + N) .scheduler) (by simp [List.mem_replicate]) (by simp)
  rw [run_stopped hs (by simp [List.mem_replicate]), List.count_replicate_self,
    Function.iterate_add_apply] at hend
  exact hn hend

/-- A zombie has boarded on floor 1 and a human was refused there when the
stop comes. The zombie is gone, `loads` stays 1 and the cabin infected, and
the human keeps the cabin moving for ever. -/
theorem stop_keeps_moving :
    ¬ ∀ ls, StopTakes (Sys.after .source ls).g →
      ReachesOffline .source ((Sys.after .source ls).step .source (.call .stopElevator)) := by
  intro h
  refine Wedged.not_offline (i := 0) (p := ⟨1, 0, 1, 2⟩) ((Sys.inv_after _).step _)
    ⟨by decide, Or.inr (by decide)⟩ (by decide)
    (h [.call .startElevator, .call (.issueRequest 1 2 1), .call (.issueRequest 1 2 0),
      .scheduler, .scheduler, .scheduler, .scheduler] (by decide))

/-! ## §4 Boarding after a stop -/

variable (B)

/-- The step takes nobody from a queue on board. -/
def NoBoarding (s : Sys) (l : Label) : Prop :=
  ∀ i, ∀ p ∈ s.g.waitingList i, p ∉ s.g.onboard → p ∉ (s.step B l).g.onboard

/-- Nobody waits whom the loading loop would let in if the cabin stood on
their floor with its present `loads` and `status`. -/
def NobodyAdmitted (g : Globals) : Prop :=
  ∀ i, ∀ p ∈ g.waitingList i, ¬ Admits B (i + 1) g.loads g.status p

variable {B}

/-- While nobody is on board and nobody gets on, a phase leaves the
passengers as they are. -/
theorem schedulerStep_same {s : Sys} (hc : CabinInv B s.g) (hon : s.g.onboard = [])
    (hnone : ∀ us, s.pc = .load us → s.g.loads < B.capacity → boarders B s.g = []) :
    SamePassengers s.g (schedulerStep B s).g := by
  have he := schedulerStep_effect (B := B) s
  generalize (schedulerStep B s).g = g' at he
  cases he with
  | unloaded _ => rw [unload_quiet hc (by simp [alighting, hon])]; exact SamePassengers.refl _
  | loaded us hpc hroom => rw [load_quiet (hnone us hpc hroom)]; exact SamePassengers.refl _
  | moved _ _ _ _ => exact ⟨rfl, rfl, rfl, rfl, rfl⟩
  | same _ => exact SamePassengers.refl _
  | shown _ _ => exact ⟨rfl, rfl, rfl, rfl, rfl⟩
  | settled _ _ _ => exact ⟨rfl, rfl, rfl, rfl, rfl⟩

/-- Somebody waits who would be let in: then somebody will be. -/
theorem exists_boarding {s : Sys} (hinv : s.Inv B) (hon : s.g.onboard = []) {i : Int}
    {p : Passenger} (hp : p ∈ s.g.waitingList i)
    (ha : Admits B (i + 1) s.g.loads s.g.status p) :
    ¬ ∀ n, NoBoarding B ((schedulerStep B)^[n] s) .scheduler := by
  intro hall
  -- if nobody ever boarded, the passengers would stay as they are for ever
  have hsame : ∀ n, ((schedulerStep B)^[n] s).Inv B ∧
      SamePassengers s.g ((schedulerStep B)^[n] s).g := by
    intro n
    induction n with
    | zero => exact ⟨hinv, SamePassengers.refl _⟩
    | succ n ih =>
      have hnb := hall n
      rw [Function.iterate_succ_apply']
      generalize (schedulerStep B)^[n] s = t at *
      refine ⟨ih.1.step .scheduler, ih.2.trans (schedulerStep_same ih.1.wf.cabin
        (ih.2.onboard.trans hon) fun us hpc hroom => ?_)⟩
      refine List.eq_nil_iff_forall_not_mem.mpr fun q hq => ?_
      refine hnb _ q (mem_waiting_of_mem_boarders hq) (by simp [ih.2.onboard, hon]) ?_
      simp only [Sys.step, schedulerStep, hpc, loadPhase_room B hroom, loadLocked_eq, boarded]
      exact List.mem_append_right _ hq
  -- but one period of the sweep after the next turn has begun, somebody has
  obtain ⟨k, hk⟩ := exists_top (B := B) s
  obtain ⟨hinvk, hsamek⟩ := hsame k
  generalize hsk : (schedulerStep B)^[k] s = sk at *
  obtain ⟨g, pc⟩ := sk
  obtain rfl : pc = .top := hk
  change SamePassengers s.g g at hsamek
  obtain ⟨hok, hfloor⟩ := hinv.wf.queues.waiting_ok i p hp
  have hpos := hok.start_pos
  have hle := hok.start_le
  have hwait : p ∈ g.waitingList i := by rw [hsamek.waitingList]; exact hp
  have hb : busy g = true := by
    have hne : g.numWaiting ≠ 0 := fun h0 => by
      rw [hinvk.wf.queues.numWaiting_eq_zero_iff.mp h0 i] at hwait
      simp at hwait
    simp [busy, hne]
  obtain ⟨j, -, hlt⟩ := exists_work_lt_of_target (x := p.startFloor.toNat) hinvk hb (by omega)
    (by omega) fun g' hsame' hcur => by
      have hall := hsamek.trans hsame'
      refine visit_of_admitted (p := p) (hall.cabinInv hinv.wf.cabin)
        (by rw [hall.onboard, hon]) ?_ ?_
      · rw [hall.waitingList, show g'.currentFloor - 1 = i by omega]
        exact hp
      · rw [hall.loads, hall.status, show g'.currentFloor = i + 1 by omega]
        exact ha
  obtain ⟨m, hm⟩ := exists_steps_of_turns (B := B) j g
  have hend := (hsame (m + k)).2.work_eq (B := B)
  rw [Function.iterate_add_apply, hsk, hm, ← hsamek.work_eq (B := B)] at hend
  exact absurd hlt (by simp only at hend; omega)

/-- The state a stop leaves when nobody waits who would be let in. -/
structure Deserted (s : Sys) : Prop where
  inv : s.Inv B
  started : s.g.started = false
  onboard : s.g.onboard = []
  nobody : NobodyAdmitted B s.g

theorem Deserted.step {s : Sys} (h : Deserted (B := B) s) {l : Label}
    (hl : l ≠ .call .startElevator) : Deserted (B := B) (s.step B l) ∧ NoBoarding B s l := by
  cases l with
  | call c =>
    have hstep := step_call_of_stopped (B := B) h.started (c := c) fun hc => hl (by rw [hc])
    rw [NoBoarding, hstep]
    exact ⟨h, fun _ _ _ hnot => hnot⟩
  | scheduler =>
    have hsame := schedulerStep_same h.inv.wf.cabin h.onboard fun us hpc hroom => by
      have hnone := board_eq_of_refused (B := B) 
        fun p hp => by simpa using h.nobody (s.g.currentFloor - 1) p hp
      rw [boarders, hnone]
    have hon : (s.step B .scheduler).g.onboard = [] := hsame.onboard.trans h.onboard
    refine ⟨⟨h.inv.step _, (schedulerStep_started s).trans h.started, hon, ?_⟩, ?_⟩
    · intro i p hp
      change p ∈ (schedulerStep B s).g.waitingList i at hp
      change ¬ Admits B (i + 1) (schedulerStep B s).g.loads (schedulerStep B s).g.status p
      rw [hsame.waitingList] at hp
      rw [hsame.loads, hsame.status]
      exact h.nobody i p hp
    · intro i p _ _
      rw [hon]
      simp

/-- **Boarding after a stop**: nobody boards before the next start if and
only if the stop found nobody waiting whom the loading loop would let in. -/
theorem no_boarding_after_stop_iff (B : Building) (ls : List Label)
    (htakes : StopTakes (Sys.after B ls).g) :
    (∀ post, .call .startElevator ∉ post →
        (system B).Along (NoBoarding B) ((Sys.after B ls).step B (.call .stopElevator)) post)
      ↔ NobodyAdmitted B (Sys.after B ls).g := by
  have hinv := Sys.inv_after (B := B) ls
  generalize Sys.after B ls = s at *
  have hinv' := hinv.step (.call .stopElevator)
  rw [step_stop htakes] at hinv' ⊢
  constructor
  · intro hall i p hp ha
    refine exists_boarding hinv' rfl hp ha fun n => ?_
    have hrun := hall (List.replicate n .scheduler ++ .scheduler :: [])
      (by simp [List.mem_replicate])
    have hstep := Machine.Along.at _ hrun
    rwa [run_stopped rfl (by simp [List.mem_replicate]), List.count_replicate_self] at hstep
  · intro hnobody post hpost
    exact (system B).along_of_inv (P := Deserted (B := B))
      (fun _ _ hl hd => (hd.step hl).1) (fun _ _ hl hd => (hd.step hl).2) post _
      ⟨hinv', rfl, rfl, hnobody⟩ ((system B).along_ne_of_not_mem post _ hpost)

/-- Only the queues of the floors need to be looked at. -/
theorem nobodyAdmitted_iff {g : Globals} (hq : QueueInv B g) :
    NobodyAdmitted B g ↔ ∀ i < B.floors, ∀ p ∈ g.waitingList i,
      ¬ Admits B (i + 1) g.loads g.status p := by
  refine ⟨fun h i _ => h i, fun h i p hp => ?_⟩
  obtain ⟨hok, hfloor⟩ := hq.waiting_ok i p hp
  have hpos := hok.start_pos
  have hle := hok.start_le
  obtain ⟨k, rfl⟩ := Int.eq_ofNat_of_zero_le (a := i) (by omega)
  exact h k (by omega) p hp

/-- The stop comes while a zombie rides and a human waits whom it keeps out. -/
theorem no_boarding_after_stop_source :
    StopTakes (Sys.after .source [.call .startElevator, .call (.issueRequest 1 2 1),
        .call (.issueRequest 1 2 0), .scheduler, .scheduler, .scheduler]).g ∧
      ∀ post, .call .startElevator ∉ post →
        (system .source).Along (NoBoarding .source) ((Sys.after .source [.call .startElevator,
          .call (.issueRequest 1 2 1), .call (.issueRequest 1 2 0), .scheduler, .scheduler,
          .scheduler]).step .source (.call .stopElevator)) post := by
  refine ⟨by decide, (no_boarding_after_stop_iff .source _ (by decide)).mpr ?_⟩
  exact (nobodyAdmitted_iff (Sys.inv_after _).wf.queues).mpr (by decide)

/-- One human waits on floor 1 when the stop comes, and boards. -/
theorem boards_after_stop :
    ¬ ∀ ls, StopTakes (Sys.after .source ls).g → ∀ post, .call .startElevator ∉ post →
      (system .source).Along (NoBoarding .source)
        ((Sys.after .source ls).step .source (.call .stopElevator)) post := by
  intro h
  have hall := h [.call .startElevator, .call (.issueRequest 1 2 0)] (by decide)
    ([.scheduler, .scheduler] ++ .scheduler :: []) (by decide)
  exact Machine.Along.at _ hall 0 ⟨0, 0, 1, 2⟩ (by decide) (by decide) (by decide)

end KernelElevator
