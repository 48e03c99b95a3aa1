/-
KernelElevator.Module.LostTheorems — what a stop costs for good.

`stop_elevator` frees those on board and leaves `loads` as it was, and
nothing but a delivery ever lowers `loads`. So every dropped passenger keeps
a place: the cabin holds fewer and fewer, no more passengers than there are
places can be dropped while the module is loaded, and once as many have been,
nobody boards any more (`stops_cost_places`). With one place lost `loads`
never is 0 again, and the status, which is reset only then, stays infected
from the first zombie on (`infection_stays`).
-/
import KernelElevator.Module.LiftTheorems

namespace KernelElevator

open Transition

variable {B : Building}

/-- The passengers that stops have dropped. -/
def dropped (B : Building) (ls : List Label) : Nat := Lift.tally .drop (Sys.events B ls)

/-- What a property of every step says about the events of a run. -/
theorem forall_eventsFrom {P : Sys → Prop} {Q : Lift.Event Passenger → Prop}
    (hstep : ∀ s l, P s → P (s.step B l) ∧ ∀ e ∈ happened l s.g (s.step B l).g, Q e)
    (ls : List Label) (s : Sys) (h : P s) :
    P ((system B).run s ls) ∧ ∀ e ∈ eventsFrom B s ls, Q e := by
  induction ls generalizing s with
  | nil => exact ⟨h, by simp [eventsFrom, Machine.outputs]⟩
  | cons l ls ih =>
    obtain ⟨hnext, hevents⟩ := hstep s l h
    obtain ⟨hrun, hrest⟩ := ih _ hnext
    refine ⟨hrun, fun e he => ?_⟩
    rw [eventsFrom_cons, List.mem_append] at he
    exact he.elim (hevents e) (hrest e)

/-- Whoever boards in a step is on the new list and not on the old one. -/
theorem mem_happened_board {l : Label} {g g' : Globals} {p : Passenger} :
    .pass .board p ∈ happened l g g' ↔ p ∈ g'.onboard ∧ p ∉ g.onboard := by
  have hask : (.pass .board p : Lift.Event Passenger)
      ∉ (g'.allocated.drop g.allocated.length).map (.pass .ask) := fun hmem => by
    obtain ⟨q, -, hq⟩ := List.mem_map.mp hmem
    cases hq
  have hleave : (.pass .board p : Lift.Event Passenger)
      ∉ (without g.onboard g'.onboard).map (.pass l.leaving) := fun hmem => by
    obtain ⟨q, -, hq⟩ := List.mem_map.mp hmem
    cases l <;> cases hq
  have hfloor : (.pass .board p : Lift.Event Passenger)
      ∉ if g'.currentFloor = g.currentFloor then [] else [.travel g'.currentFloor] := by
    split <;> simp
  simp only [happened, List.mem_append, hask, hleave, hfloor, false_or, or_false, List.mem_map,
    Lift.Event.pass.injEq, true_and, exists_eq_right]
  simp [without]

/-- `loads` counts those on board and the dropped. -/
theorem loads_eq_dropped (ls : List Label) :
    (Sys.after B ls).g.loads = (Sys.after B ls).g.onboard.length + dropped B ls := by
  obtain ⟨hallowed, hshows, hcounted⟩ := answered_after (B := B) ls
  have hnodup := (Sys.records_after (B := B) ls).onboard_nodup (Sys.inv_after ls).wf.queues
  have hriding := Lift.encard_stage_init B.house (k := .riding) (by simp) hallowed
  rw [hshows.encard_riding hnodup] at hriding
  have hsum : (Sys.after B ls).g.onboard.length
      + (Lift.tally .alight (Sys.events B ls) + Lift.tally .drop (Sys.events B ls))
      = Lift.tally .board (Sys.events B ls) := by exact_mod_cast hriding
  have hloads := hcounted.loads_eq
  rw [List.nil_append] at hloads
  unfold dropped
  omega

/-- A cabin whose places are all lost. -/
def AllLost (B : Building) (g : Globals) : Prop := g.onboard = [] ∧ g.loads = B.capacity

theorem AllLost.effect {s : Sys} {l : Label} {g' : Globals} (h : AllLost B s.g)
    (he : Effect B s l g') : AllLost B g' := by
  obtain ⟨hon, hloads⟩ := h
  cases he with
  | loaded _ _ hroom => omega
  | unloaded _ =>
    have hnone : riding s.g = [] ∧ alighting s.g = [] := by simp [riding, alighting, hon]
    rw [unloadPassengers_granted]
    exact ⟨hnone.1, by simp [hnone.2, hloads]⟩
  | stopped _ => exact ⟨rfl, hloads⟩
  | _ => exact ⟨hon, hloads⟩

/-- **A dropped passenger keeps a place for good.** In every run: `loads`
exceeds those on board by the number of passengers that stops have dropped,
so these are never more than there are places, and at most the rest can be
used; and once every place is lost, nobody boards again in any continuation. -/
theorem stops_cost_places (B : Building) (ls : List Label) :
    (Sys.after B ls).g.loads = (Sys.after B ls).g.onboard.length + dropped B ls ∧
      (Sys.after B ls).g.onboard.length ≤ B.capacity - dropped B ls ∧
      dropped B ls ≤ B.capacity ∧
      (dropped B ls = B.capacity → ∀ ls' p,
        .pass .board p ∉ eventsFrom B (Sys.after B ls) ls') := by
  have hloads := loads_eq_dropped (B := B) ls
  have hcap := (Sys.inv_after (B := B) ls).wf.cabin.loads_le_capacity
  refine ⟨hloads, by omega, by omega, fun hall ls' p hp => ?_⟩
  have hlost : AllLost B (Sys.after B ls).g :=
    ⟨List.length_eq_zero_iff.mp (by omega), by omega⟩
  have hnone := forall_eventsFrom (B := B) (P := fun s => AllLost B s.g)
    (Q := fun e => ∀ p, e ≠ .pass .board p)
    (fun s l h => by
      have hnext : AllLost B (s.step B l).g := h.effect (Sys.step_effect s l)
      refine ⟨hnext, fun e he p heq => ?_⟩
      rw [heq, mem_happened_board, hnext.1] at he
      exact List.not_mem_nil he.1)
    ls' _ hlost
  exact hnone.2 _ hp p rfl

/-- A place is lost, and the cabin is infected. -/
def Tainted (g : Globals) : Prop := (g.onboard.length : Int) < g.loads ∧ g.status = .infected

theorem Tainted.effect {s : Sys} {l : Label} {g' : Globals} (h : Tainted s.g)
    (he : Effect B s l g') : Tainted g' ∧ ∀ p ∈ g'.onboard, p ∉ s.g.onboard → p.type = 1 := by
  obtain ⟨hlost, hinfected⟩ := h
  cases he with
  | loaded _ _ _ =>
    rw [loadLocked_eq]
    refine ⟨⟨?_, ?_⟩, ?_⟩
    · simp only [boarded, List.length_append]
      push_cast
      omega
    · simp [boarded, hinfected, withAll_infected]
    · intro p hp hnew
      have hboards := (List.mem_append.mp hp).resolve_left hnew
      rw [boarders, hinfected] at hboards
      exact board_infected hboards
  | unloaded _ =>
    have hlen := alighting_length_add s.g
    rw [unloadPassengers_granted]
    refine ⟨⟨?_, ?_⟩, fun p hp hnew => absurd (mem_riding.mp hp).1 hnew⟩
    · simp only
      omega
    · simp only [hinfected]
      exact if_neg (by omega)
  | stopped _ =>
    refine ⟨⟨?_, hinfected⟩, by simp⟩
    simp only [List.length_nil]
    omega
  | _ => exact ⟨⟨hlost, hinfected⟩, fun p hp hnew => absurd hp hnew⟩

/-- **Once a stop has dropped somebody, an infection is for good**: from any
state of any run in which the cabin is infected and a passenger has been
dropped, the cabin is infected after every continuation, and nobody boards in
it but zombies. -/
theorem infection_stays (B : Building) (ls : List Label) (hlost : dropped B ls ≠ 0)
    (hinfected : (Sys.after B ls).g.status = .infected) (ls' : List Label) :
    (Sys.after B (ls ++ ls')).g.status = .infected ∧
      ∀ p, .pass .board p ∈ eventsFrom B (Sys.after B ls) ls' → p.type = 1 := by
  have hloads := loads_eq_dropped (B := B) ls
  have htainted : Tainted (Sys.after B ls).g := ⟨by omega, hinfected⟩
  have hrun := forall_eventsFrom (B := B) (P := fun s => Tainted s.g)
    (Q := fun e => ∀ p, e = .pass .board p → p.type = 1)
    (fun s l h => by
      obtain ⟨hnext, hnew⟩ := h.effect (Sys.step_effect (B := B) s l)
      refine ⟨hnext, fun e he p heq => ?_⟩
      rw [heq, mem_happened_board] at he
      exact hnew p he.1 he.2)
    ls' _ htainted
  refine ⟨?_, fun p hp => hrun.2 _ hp p rfl⟩
  rw [Sys.after, Machine.run_append]
  exact hrun.1.2

/-- A stop drops a human on floor 1, and a zombie boards on floor 2. On
floor 1 it alights, and the human there may not board the empty cabin. -/
theorem infection_stays_source :
    let ls : List Label := [.call .startElevator, .call (.issueRequest 1 2 0), .scheduler,
      .scheduler, .scheduler, .call .stopElevator, .call .startElevator, .scheduler, .scheduler,
      .scheduler, .call (.issueRequest 2 1 1), .scheduler, .scheduler, .scheduler, .scheduler,
      .scheduler]
    let ls' : List Label :=
      [.scheduler, .call (.issueRequest 1 3 0), .scheduler, .scheduler, .scheduler]
    (Sys.after .source (ls ++ ls')).g.status = .infected ∧
      ∀ p, .pass .board p ∈ eventsFrom .source (Sys.after .source ls) ls' → p.type = 1 :=
  infection_stays .source _ (by decide) (by decide) _

/-- **The three counters share out the requests**: in every run each request
that has been queued is counted in exactly one of `serviced`, `loads` and
`num_waiting`, and no counter is negative or larger than the number of these
requests. So none of these `int`s overflows before there have been 2^31. -/
theorem counters_share (B : Building) (ls : List Label) :
    let g := (Sys.after B ls).g
    g.serviced + g.loads + g.numWaiting = g.allocated.length ∧
      0 ≤ g.serviced ∧ 0 ≤ g.loads ∧
      ∀ i, 0 ≤ g.waitingOnFloor i ∧ g.waitingOnFloor i ≤ g.numWaiting := by
  intro g
  have hq : QueueInv B g := (Sys.inv_after (B := B) ls).wf.queues
  obtain ⟨h1, h2, h3, h4, -⟩ : Counted g (Sys.events B ls) := counted_after ls
  have hloads := loads_eq_dropped (B := B) ls
  refine ⟨by omega, by omega, ?_, fun i => ?_⟩
  · change 0 ≤ (Sys.after B ls).g.loads
    omega
  · rw [hq.waitingOnFloor_eq, hq.numWaiting_eq]
    refine ⟨by omega, ?_⟩
    cases hw : g.waitingList i with
    | nil => simp
    | cons p rest =>
      obtain ⟨hlo, hhi⟩ := waiting_range hq (p := p) (i := i) (by simp [hw])
      obtain ⟨j, rfl⟩ := Int.eq_ofNat_of_zero_le hlo
      have hle : (g.waitingList j).length ≤ totalWaiting B g :=
        Finset.single_le_sum (f := fun i : Nat => (g.waitingList i).length)
          (fun _ _ => Nat.zero_le _) (Finset.mem_range.mpr (by omega))
      rw [← hw]
      exact_mod_cast hle

end KernelElevator
