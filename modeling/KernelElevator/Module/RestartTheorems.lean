/-
KernelElevator.Module.RestartTheorems — whether a stopped elevator is as
good as new.

`Offline` is the state of an elevator that is done with a stop: not started,
OFFLINE, nobody waiting and nobody on board. It is compared with a freshly
loaded module at the same floor (`freshAt`) by what every later step shows
(`Observation`).

Two globals can be left over that no reader of the others sees, `serviced`
and `deactiving`; `Globals.tweak` changes just these two. The phases commute
with it (`schedulerStep_tweak`), and while the elevator is `Calm` the second
one is never read before a start overwrites it (`Tweaked.step`). A third
left-over is `loads`, which a stop does not reset: the two modules show the
same for ever if and only if it is zero (`asNew_iff_loads_zero`).
-/
import KernelElevator.Module.ShutdownTheorems

namespace KernelElevator

open Transition

variable (B : Building)

/-! ## §1 What a step shows -/

/-- What can be seen of one step: the result of the call, what
`/proc/elevator` reports of the cabin, and who got on and who left. -/
structure Observation where
  result : Option Int
  currentFloor : Int
  state : ElevatorState
  loads : Int
  status : Status
  boarded : List Passenger
  left : List Passenger
  deriving DecidableEq, Repr

def Label.result (g : Globals) : Label → Option Int
  | .call c => some (c.exec B g).1
  | .scheduler => none

def observe (s : Sys) (l : Label) : Observation :=
  let g' := (s.step B l).g
  { result := l.result B s.g
    currentFloor := g'.currentFloor
    state := g'.state
    loads := g'.loads
    status := g'.status
    boarded := g'.onboard.filter fun p => p ∉ s.g.onboard
    left := s.g.onboard.filter fun p => p ∉ g'.onboard }

/-- The elevator has been stopped and has nobody left. -/
structure Offline (g : Globals) : Prop where
  started : g.started = false
  state : g.state = .offline
  numWaiting : g.numWaiting = 0
  onboard : g.onboard = []

/-- A freshly loaded module put where `s` is. The last three fields belong
to the kernel and not to the module: they are kept, so that the same request
gets the same record in both. -/
def freshAt (s : Sys) : Sys :=
  { s with
    g := { setupElevator B bss with
      currentFloor := s.g.currentFloor
      nextFloor := s.g.nextFloor
      allocated := s.g.allocated
      freed := s.g.freed
      slept := s.g.slept } }

/-- Every continuation shows the same as in a freshly loaded module, but for
a constant in `serviced`. -/
def AsNew (s : Sys) : Prop :=
  ∃ c, ∀ post,
    (system B).outputs (observe B) s post = (system B).outputs (observe B) (freshAt B s) post ∧
    ((system B).run s post).g.serviced = ((system B).run (freshAt B s) post).g.serviced + c

/-! ## §2 The sleep flags -/

/-- The cabin was under way when the scheduler last wrote the state. -/
def ElevatorState.Moving (state : ElevatorState) : Prop := state = .up ∨ state = .down

/-- What the displayed state and `loads` tell of the scheduler's two locals:
somebody on board at the head of the loop came there by a move. -/
def SleepInv (s : Sys) : Prop :=
  match s.pc with
  | .top | .unload => s.g.onboard ≠ [] → s.g.state.Moving
  | .load unloadSleep => unloadSleep = true ∨ s.g.onboard ≠ [] → s.g.state.Moving
  | .loading unloadSleep loadSleep =>
    (unloadSleep = true → s.g.state.Moving) ∧ (loadSleep = true → 0 < s.g.loads)
  | .dispatch | .move => True

variable {B}

/-- A call keeps `state` and `loads` and puts nobody on board. -/
theorem Effect.call_cabin {s : Sys} {c : Call} {g' : Globals} (he : Effect B s (.call c) g') :
    g'.state = s.g.state ∧ g'.loads = s.g.loads ∧ (g'.onboard ≠ [] → s.g.onboard ≠ []) := by
  cases he with
  | same _ => exact ⟨rfl, rfl, id⟩
  | started _ => exact ⟨rfl, rfl, id⟩
  | added _ _ _ => exact ⟨rfl, rfl, id⟩
  | stopped _ => exact ⟨rfl, rfl, fun h => absurd rfl h⟩

theorem SleepInv.call {s : Sys} (h : SleepInv s) (c : Call) :
    SleepInv (s.step B (.call c)) := by
  obtain ⟨hstate, hloads, hon⟩ := (Sys.step_effect (B := B) s (.call c)).call_cabin
  obtain ⟨g, pc⟩ := s
  cases pc with
  | top => exact fun hne => by rw [hstate]; exact h (hon hne)
  | unload => exact fun hne => by rw [hstate]; exact h (hon hne)
  | load us => exact fun hne => by rw [hstate]; exact h (hne.imp_right hon)
  | loading us ls => exact ⟨fun hus => by rw [hstate]; exact h.1 hus,
      fun hls => by rw [hloads]; exact h.2 hls⟩
  | dispatch => trivial
  | move => trivial

theorem SleepInv.scheduler {s : Sys} (hinv : s.Inv B) (h : SleepInv s) :
    SleepInv (schedulerStep B s) := by
  obtain ⟨g, pc⟩ := s
  have hc : CabinInv B g := hinv.wf.cabin
  have hle := hc.onboard_le_loads
  cases pc with
  | top =>
    cases hb : busy g with
    | true => rw [schedulerStep_top_busy B hb]; exact h
    | false =>
      simp only [busy, decide_eq_false_iff_not, not_or, not_not] at hb
      rw [schedulerStep_top_idle B (by simp [busy, hb])]
      refine fun hne => absurd ?_ hne
      simp only [standBy, ssleep]
      split <;> exact hb.2
  | unload =>
    rw [schedulerStep_unload]
    intro hne
    have hon : g.onboard ≠ [] := by
      rintro hnil
      rw [unload_quiet hc (by simp [alighting, hnil])] at hne
      simp [hnil] at hne
    have hstate : (unloadPassengers .granted g).1.state = g.state := by
      rw [unloadPassengers_granted]
    rw [hstate]
    exact h hon
  | load us =>
    rw [schedulerStep_load]
    by_cases hroom : g.loads < B.capacity
    · rw [loadPhase_room B hroom, loadLocked_eq]
      refine ⟨fun hus => h (Or.inl hus), fun hls => ?_⟩
      have hpos := List.length_pos_iff.mpr (of_decide_eq_true hls)
      simp only [boarded]
      omega
    · rw [loadPhase_full B hroom]
      refine ⟨fun hus => h (Or.inl hus), ?_⟩
      intro hls
      cases hls
  | loading us ls => trivial
  | dispatch =>
    cases hm : mustMove g with
    | true => rw [schedulerStep_dispatch_move B hm]; trivial
    | false =>
      have hon : g.onboard = [] := by
        simp only [mustMove, decide_eq_false_iff_not, not_or, not_not] at hm
        exact List.length_eq_zero_iff.mp (by omega)
      rw [schedulerStep_dispatch_settle B hm]
      refine fun hne => absurd ?_ hne
      simp only [settle]
      split <;> exact hon
  | move =>
    intro _
    have hstate : g.state = heading g := hinv.heading_eq rfl
    obtain ⟨current, next, hmove⟩ := moveElevator_frame B g
    simp only [schedulerStep, hmove, hstate, heading]
    split
    · exact Or.inl rfl
    · exact Or.inr rfl

/-- The sleep flags are as `SleepInv` says in every reachable state. -/
theorem sleepInv_after (ls : List Label) : SleepInv (Sys.after B ls) := by
  have hboth := (system B).run_inv (P := fun s => s.Inv B ∧ SleepInv s) (fun s l h => by
    refine ⟨h.1.step l, ?_⟩
    cases l with
    | call c => exact h.2.call c
    | scheduler => exact h.2.scheduler h.1) ls (loaded B) ⟨loaded_inv, fun hne => absurd rfl hne⟩
  exact hboth.2

/-! ## §3 Two globals that nobody reads -/

/-- The globals with `serviced` raised by `c` and `deactiving` set to `d`. -/
def Globals.tweak (c : Int) (d : Bool) (g : Globals) : Globals :=
  { g with serviced := g.serviced + c, deactiving := d }

theorem unloadPassengers_tweak (c : Int) (d : Bool) (g : Globals) :
    unloadPassengers .granted (g.tweak c d)
      = ((unloadPassengers .granted g).1.tweak c d, (unloadPassengers .granted g).2) := by
  rw [unloadPassengers_granted, unloadPassengers_granted]
  simp only [Globals.tweak, Int.add_right_comm g.serviced _ c]
  rfl

theorem loadPhase_tweak (c : Int) (d : Bool) (g : Globals) :
    loadPhase B (g.tweak c d) = ((loadPhase B g).1.tweak c d, (loadPhase B g).2) := by
  by_cases hroom : g.loads < B.capacity
  · have hroom' : (g.tweak c d).loads < B.capacity := hroom
    rw [loadPhase_room B hroom', loadPhase_room B hroom, loadLocked_eq, loadLocked_eq]
    rfl
  · have hroom' : ¬ (g.tweak c d).loads < B.capacity := hroom
    rw [loadPhase_full B hroom', loadPhase_full B hroom]

theorem moveElevator_tweak (c : Int) (d : Bool) (g : Globals) :
    moveElevator B (g.tweak c d) = (moveElevator B g).tweak c d := by
  have hstate : (g.tweak c d).state = g.state := rfl
  by_cases hu : g.state = .up
  · rw [moveElevator_up B (hstate.trans hu), moveElevator_up B hu]
    rfl
  · by_cases hd : g.state = .down
    · rw [moveElevator_down B (hstate.trans hd), moveElevator_down B hd]
      rfl
    · rw [moveElevator_still B hu hd, moveElevator_still B (hstate ▸ hu) (hstate ▸ hd)]

/-- Where `deactiving` agrees, or OFFLINE is shown already, the last branch
of the loop makes no difference either, and `deactiving` agrees after it. -/
theorem settle_tweak (c : Int) {d : Bool} {g : Globals}
    (h : d = g.deactiving ∨ g.state = .offline) :
    settle (g.tweak c d) = (settle g).tweak c (settle g).deactiving := by
  cases d <;> cases hd : g.deactiving <;> simp_all [settle, Globals.tweak]

theorem schedulerStep_tweak (c : Int) {d : Bool} (s : Sys)
    (h : d = s.g.deactiving ∨ s.g.state = .offline) :
    ∃ d', schedulerStep B ⟨s.g.tweak c d, s.pc⟩
        = ⟨(schedulerStep B s).g.tweak c d', (schedulerStep B s).pc⟩ ∧
      (d = s.g.deactiving → d' = (schedulerStep B s).g.deactiving) := by
  obtain ⟨g, pc⟩ := s
  cases pc with
  | top =>
    refine ⟨d, ?_⟩
    have hbusy : busy (g.tweak c d) = busy g := rfl
    cases hb : busy g with
    | true =>
      rw [schedulerStep_top_busy B (hbusy.trans hb), schedulerStep_top_busy B hb]
      exact ⟨rfl, id⟩
    | false =>
      rw [schedulerStep_top_idle B (hbusy.trans hb), schedulerStep_top_idle B hb, standBy_eq,
        standBy_eq]
      exact ⟨rfl, id⟩
  | unload =>
    refine ⟨d, ?_⟩
    simp only [schedulerStep_unload, unloadPassengers_tweak, true_and]
    rw [unloadPassengers_granted]
    exact id
  | load us =>
    refine ⟨d, ?_⟩
    simp only [schedulerStep_load, loadPhase_tweak, true_and]
    by_cases hroom : g.loads < B.capacity
    · rw [loadPhase_room B hroom, loadLocked_eq]
      exact id
    · rw [loadPhase_full B hroom]
      exact id
  | loading us ls =>
    refine ⟨d, ?_⟩
    simp only [schedulerStep, loadingPhase_eq]
    exact ⟨rfl, id⟩
  | dispatch =>
    have hmust : mustMove (g.tweak c d) = mustMove g := rfl
    cases hm : mustMove g with
    | true =>
      refine ⟨d, ?_⟩
      rw [schedulerStep_dispatch_move B (hmust.trans hm), schedulerStep_dispatch_move B hm,
        changeElevatorState_eq, changeElevatorState_eq]
      exact ⟨rfl, id⟩
    | false =>
      refine ⟨(settle g).deactiving, ?_⟩
      rw [schedulerStep_dispatch_settle B (hmust.trans hm), schedulerStep_dispatch_settle B hm,
        settle_tweak c h]
      exact ⟨rfl, fun _ => rfl⟩
  | move =>
    refine ⟨d, ?_⟩
    obtain ⟨current, next, hmove⟩ := moveElevator_frame B g
    simp only [schedulerStep, moveElevator_tweak, true_and, hmove]
    exact id

theorem exec_tweak (c : Int) (g : Globals) (call : Call) :
    call.exec B (g.tweak c g.deactiving)
      = ((call.exec B g).1, (call.exec B g).2.tweak c (call.exec B g).2.deactiving) := by
  cases call with
  | startElevator =>
    cases hs : g.started with
    | true =>
      simp only [Call.exec, startElevator_running hs]
      rw [startElevator_running (g := g.tweak c g.deactiving) hs]
    | false =>
      simp only [Call.exec, startElevator_stopped hs]
      rw [startElevator_stopped (g := g.tweak c g.deactiving) hs]
      rfl
  | issueRequest a b t =>
    cases hr : issueRequestRejects B a b t g with
    | true =>
      simp only [Call.exec, issueRequest_rejected hr]
      rw [issueRequest_rejected (g := g.tweak c g.deactiving) hr]
      rfl
    | false =>
      cases hd : g.deactiving with
      | true =>
        simp only [Call.exec, issueRequest_deactiving hr hd]
        rw [issueRequest_deactiving (g := g.tweak c true) hr rfl]
        simp only [Option.getD_some, hd]
      | false =>
        simp only [Call.exec, issueRequest_accepted hr hd]
        rw [issueRequest_accepted (g := g.tweak c false) hr rfl]
        simp only [Option.getD_some, addPassenger, Globals.tweak, hd]
  | stopElevator =>
    by_cases h : StopTakes g
    · simp only [Call.exec, stopElevator_takes h]
      rw [stopElevator_takes (g := g.tweak c g.deactiving) h]
      rfl
    · simp only [Call.exec, stopElevator_rejected h]
      rw [stopElevator_rejected (g := g.tweak c g.deactiving) h]

/-! ## §4 As good as new -/

/-- Whether the sleep flags that are live say that somebody got off or on. -/
def Pc.sleeps : Pc → Bool
  | .load unloadSleep => unloadSleep
  | .loading unloadSleep loadSleep => unloadSleep || loadSleep
  | _ => false

variable (B)

/-- An elevator that is done with its stop and has an exact counter: nothing
happens in it until the next start. -/
structure Calm (s : Sys) : Prop where
  inv : s.Inv B
  offline : Offline s.g
  loads : s.g.loads = 0
  awake : s.pc.sleeps = false

variable {B}

theorem calm_after {ls : List Label} (h : Offline (Sys.after B ls).g)
    (hloads : (Sys.after B ls).g.loads = 0) : Calm B (Sys.after B ls) := by
  have hsleep := sleepInv_after (B := B) ls
  refine ⟨Sys.inv_after ls, h, hloads, ?_⟩
  have hstate := h.state
  generalize Sys.after B ls = s at *
  obtain ⟨g, pc⟩ := s
  have hstill : ¬ g.state.Moving := by rintro (hm | hm) <;> cases hm.symm.trans hstate
  cases pc with
  | load us =>
    cases us with
    | false => rfl
    | true => exact absurd (hsleep (Or.inl rfl)) hstill
  | loading us ls =>
    cases us with
    | true => exact absurd (hsleep.1 rfl) hstill
    | false =>
      cases ls with
      | false => rfl
      | true => exact absurd (hsleep.2 rfl) (by simp only at hloads ⊢; omega)
  | top => rfl
  | unload => rfl
  | dispatch => rfl
  | move => rfl

/-- A scheduler phase in a calm elevator shows OFFLINE again, or nothing. -/
theorem Calm.scheduler {s : Sys} (h : Calm B s) : Calm B (schedulerStep B s) := by
  suffices hrest : Offline (schedulerStep B s).g ∧ (schedulerStep B s).g.loads = 0 ∧
      (schedulerStep B s).pc.sleeps = false from
    ⟨h.inv.step .scheduler, hrest.1, hrest.2.1, hrest.2.2⟩
  obtain ⟨g, pc⟩ := s
  obtain ⟨hinv, ⟨hs, hstate, hn, hon⟩, hl, hawake⟩ := h
  simp only at hs hstate hn hon hl
  cases pc with
  | top =>
    rw [schedulerStep_top_idle B (by simp [busy, hn, hon]), standBy_eq, hs]
    exact ⟨⟨rfl, rfl, hn, hon⟩, hl, rfl⟩
  | unload =>
    rw [schedulerStep_unload, unload_quiet hinv.wf.cabin (by simp [alighting, hon])]
    exact ⟨⟨hs, hstate, hn, hon⟩, hl, rfl⟩
  | load us =>
    have hroom : g.loads < B.capacity := by have := B.capacity_pos; omega
    have hnone : boarders B g = [] := by
      rw [boarders, hinv.wf.queues.numWaiting_eq_zero_iff.mp hn]
      rfl
    rw [schedulerStep_load, loadPhase_room B hroom, load_quiet hnone]
    exact ⟨⟨hs, hstate, hn, hon⟩, hl, by simpa [Pc.sleeps] using hawake⟩
  | loading us ls =>
    have hstep : schedulerStep B ⟨g, .loading us ls⟩ = ⟨g, .dispatch⟩ := by
      simp only [Pc.sleeps] at hawake
      simp [schedulerStep, loadingPhase, hawake]
    rw [hstep]
    exact ⟨⟨hs, hstate, hn, hon⟩, hl, rfl⟩
  | dispatch =>
    rw [schedulerStep_dispatch_settle B (by simp [mustMove, hl, hn])]
    simp only [settle]
    split
    · exact ⟨⟨hs, rfl, hn, hon⟩, hl, rfl⟩
    · exact ⟨⟨hs, hstate, hn, hon⟩, hl, rfl⟩
  | move =>
    simp only [schedulerStep]
    rw [moveElevator_still B (by simp [hstate]) (by simp [hstate])]
    exact ⟨⟨hs, hstate, hn, hon⟩, hl, rfl⟩

/-- `t` is `s` but for `serviced`, and for `deactiving` where that is not
read before it is written. -/
def Tweaked (c : Int) (s t : Sys) : Prop :=
  ∃ d, t = ⟨s.g.tweak c d, s.pc⟩ ∧ (d = s.g.deactiving ∨ Calm B s)

theorem Tweaked.exec {c : Int} {s t : Sys} (h : Tweaked (B := B) c s t) (call : Call) :
    (call.exec B t.g).1 = (call.exec B s.g).1 ∧
      Tweaked (B := B) c (s.step B (.call call)) (t.step B (.call call)) := by
  obtain ⟨d, rfl, hd⟩ := h
  rcases hd with rfl | hcalm
  · rw [exec_tweak, Sys.step, Sys.step, exec_tweak]
    exact ⟨rfl, _, rfl, Or.inl rfl⟩
  · have hs := hcalm.offline.started
    by_cases hc : call = .startElevator
    · subst hc
      simp only [Sys.step, Call.exec, startElevator_stopped hs]
      rw [startElevator_stopped (g := s.g.tweak c d) hs]
      exact ⟨rfl, false, rfl, Or.inl rfl⟩
    · rw [step_call_of_stopped hs hc, exec_of_stopped hs hc]
      rw [step_call_of_stopped (s := ⟨s.g.tweak c d, s.pc⟩) hs hc,
        exec_of_stopped (g := s.g.tweak c d) hs hc]
      exact ⟨rfl, d, rfl, Or.inr hcalm⟩

theorem Tweaked.step {c : Int} {s t : Sys} (h : Tweaked (B := B) c s t) (l : Label) :
    l.result B s.g = l.result B t.g ∧ Tweaked (B := B) c (s.step B l) (t.step B l) := by
  cases l with
  | call call => exact (h.exec call).imp_left fun heq => congrArg some heq.symm
  | scheduler =>
    obtain ⟨d, rfl, hd⟩ := h
    obtain ⟨d', hstep, hd'⟩ :=
      schedulerStep_tweak (B := B) c s (hd.imp_right fun hcalm => hcalm.offline.state)
    exact ⟨rfl, d', hstep, hd.imp hd' Calm.scheduler⟩

theorem Tweaked.observe {c : Int} {s t : Sys} (h : Tweaked (B := B) c s t) (l : Label) :
    observe B s l = observe B t l := by
  obtain ⟨hresult, d', hstep, -⟩ := h.step l
  obtain ⟨d, rfl, -⟩ := h
  simp only [KernelElevator.observe, hresult, hstep]
  rfl

/-- A calm elevator differs from a freshly loaded one in the two globals
that nobody reads. -/
theorem Calm.freshAt {s : Sys} (h : Calm B s) :
    Tweaked (B := B) (-s.g.serviced) s (freshAt B s) := by
  obtain ⟨g, pc⟩ := s
  refine ⟨false, ?_, Or.inr h⟩
  obtain ⟨hinv, ⟨hs, hstate, hn, hon⟩, hl, -⟩ := h
  have hqueue := hinv.wf.queues
  simp only at hs hstate hn hon hl hqueue
  have hnone := hqueue.numWaiting_eq_zero_iff.mp hn
  have hlist : g.waitingList = fun _ => [] := funext hnone
  have hcount : g.waitingOnFloor = fun _ => 0 := by
    funext i
    rw [hqueue.waitingOnFloor_eq, hnone]
    rfl
  have hstatus : g.status = .uninfected := by
    cases hst : g.status with
    | uninfected => rfl
    | infected => have := hinv.wf.cabin.loads_pos_of_infected hst; simp only at this; omega
  simp only [KernelElevator.freshAt, setupElevator, bss, ite_self, Globals.tweak, hs, hstate, hn,
    hon, hl, hlist, hcount, hstatus, Int.add_right_neg]

/-- **What a restart leaves behind**: a stopped and empty elevator is as good
as new if and only if its `loads` is zero. -/
theorem asNew_iff_loads_zero (B : Building) (ls : List Label)
    (h : Offline (Sys.after B ls).g) :
    AsNew B (Sys.after B ls) ↔ (Sys.after B ls).g.loads = 0 := by
  constructor
  · rintro ⟨c, hall⟩
    have hfirst := (hall [.call .startElevator]).1
    simp only [Machine.outputs, List.cons.injEq, and_true] at hfirst
    have hloads := congrArg Observation.loads hfirst
    have hfresh : (freshAt B (Sys.after B ls)).g.started = false := rfl
    simp only [observe, Sys.step, Call.exec, startElevator_stopped h.started,
      startElevator_stopped hfresh] at hloads
    exact hloads
  · intro hloads
    refine ⟨(Sys.after B ls).g.serviced, fun post => ?_⟩
    obtain ⟨houts, d, hrun, -⟩ := (system B).outputs_eq_of_simulation
      (R := Tweaked (B := B) (-(Sys.after B ls).g.serviced)) (fun _ _ l hst => hst.observe l)
      (fun _ _ l hst => (hst.step l).2) post _ _ (calm_after h hloads).freshAt
    refine ⟨houts, ?_⟩
    rw [hrun]
    simp only [Globals.tweak]
    omega

/-- A human has been taken to floor 2 before the stop. -/
theorem asNew_source :
    AsNew .source (Sys.after .source (.call .startElevator :: .call (.issueRequest 1 2 0)
      :: List.replicate 11 .scheduler ++ [.call .stopElevator, .scheduler])) :=
  (asNew_iff_loads_zero .source _ ⟨by decide, by decide, by decide, by decide⟩).mpr (by decide)

/-- A zombie was on board when the stop came. After the restart the empty
cabin refuses the human who waits on floor 2, which a new one takes. -/
theorem restart_refuses_human :
    ¬ ∀ ls, Offline (Sys.after .source ls).g → AsNew .source (Sys.after .source ls) := by
  intro h
  obtain ⟨c, hall⟩ := h [.call .startElevator, .call (.issueRequest 1 2 1), .scheduler, .scheduler,
    .scheduler, .call .stopElevator, .scheduler, .scheduler, .scheduler, .scheduler]
    ⟨by decide, by decide, by decide, by decide⟩
  obtain ⟨houts, -⟩ := hall [.call .startElevator, .call (.issueRequest 2 3 0), .scheduler,
    .scheduler, .scheduler]
  exact absurd (congrArg (List.map Observation.boarded) houts) (by decide)

end KernelElevator
