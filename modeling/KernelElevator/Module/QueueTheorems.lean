/-
KernelElevator.Module.QueueTheorems — the floor queues: what is counted
beside them, who is taken from them, and in what order.

  §1 The counters — `waiting_on_floor` and `num_waiting` count the queues in
                    every reachable state (`queues_counted`);
  §2 One pass     — `loadPassengers` takes the first of the `candidates`, as
                    many as there is room for (`loadPassengers_spec`);
  §3 All passes   — whoever boards ahead of somebody who came earlier to the
                    same floor is a zombie and leaves a human behind
                    (`boarding_in_order`).

For the order, everybody the walk has passed by would be turned away at
every later moment of the same pass as well: the room only shrinks and the
status only turns to infected.
-/
import KernelElevator.Module.CabinTheorems
import KernelElevator.Module.RecordTheorems
import Mathlib.Algebra.BigOperators.Ring.Finset

namespace KernelElevator

open Transition

variable (B : Building)

/-! ## §1 The counters -/

/-- The counters beside the queues are right, the queues hold only valid
requests of their own floor, and no passenger fails the loading loop's test
of the floor. -/
structure QueuesCounted (g : Globals) : Prop where
  waitingOnFloor_eq : ∀ i, g.waitingOnFloor i = (g.waitingList i).length
  numWaiting_eq : g.numWaiting = ∑ i ∈ Finset.range B.floors, g.waitingOnFloor i
  waiting_ok : ∀ i, ∀ p ∈ g.waitingList i, p.startFloor = i + 1 ∧
    1 ≤ p.destinationFloor ∧ p.destinationFloor ≤ B.floors ∧ (p.type = 0 ∨ p.type = 1)
  waitingOnFloor_nonneg : ∀ i, 0 ≤ g.waitingOnFloor i
  numWaiting_nonneg : 0 ≤ g.numWaiting
  floor_test : ∀ n, ∀ p ∈ (loadingAt B g n).rest, p.startFloor = g.currentFloor

/-- **The queues are counted** in every reachable state. -/
theorem queues_counted (B : Building) (ls : List Label) : QueuesCounted B (Sys.after B ls).g := by
  have hq := (Sys.inv_after (B := B) ls).wf.queues
  generalize (Sys.after B ls).g = g at hq ⊢
  constructor
  · exact hq.waitingOnFloor_eq
  · rw [hq.numWaiting_eq, totalWaiting, Nat.cast_sum]
    exact Finset.sum_congr rfl fun i _ => (hq.waitingOnFloor_eq i).symm
  · intro i p hp
    obtain ⟨hok, hfloor⟩ := hq.waiting_ok i p hp
    exact ⟨hfloor, hok.destination_pos, hok.destination_le, hok.type_eq⟩
  · intro i
    rw [hq.waitingOnFloor_eq]
    omega
  · exact hq.numWaiting_nonneg
  · intro n p hp
    rw [loadingAt, walkAt_rest] at hp
    have hfloor := (hq.waiting_ok _ p (List.mem_of_mem_drop hp)).2
    omega

/-! ## §2 One pass of loading -/

/-- **What `loadPassengers` does**: the candidates board in order while there
is room, and the globals change by exactly them. -/
theorem loadPassengers_spec (B : Building) (g : Globals)
    (hw : ∀ p ∈ g.waitingList (g.currentFloor - 1),
      p.startFloor = g.currentFloor ∧ (p.type = 0 ∨ p.type = 1)) :
    let w := g.waitingList (g.currentFloor - 1)
    let b := (candidates g.status w).take (B.capacity - g.loads).toNat
    loadPassengers B .granted g
      = ({ g with
            onboard := g.onboard ++ b
            waitingList := Function.update g.waitingList (g.currentFloor - 1) (w.diff b)
            loads := g.loads + b.length
            numWaiting := g.numWaiting - b.length
            waitingOnFloor := Function.update g.waitingOnFloor (g.currentFloor - 1)
              (g.waitingOnFloor (g.currentFloor - 1) - b.length)
            status := if g.status = .infected ∨ ∃ p ∈ b, p.type = 1 then .infected
              else .uninfected },
         decide (b ≠ [])) := by
  have hboard := board_eq_candidates (B := B) (g.waitingList (g.currentFloor - 1)) g.loads
    g.status hw
  rw [loadPassengers, loadLocked_eq, boarders, stayers, hboard]
  simp only [boarded, withAll_eq]

/-- A human boards, then a zombie, and the human behind the zombie stays. -/
theorem loadPassengers_spec_mixed :
    let g := { bss with
      currentFloor := 1
      waitingList := fun i =>
        if i = 0 then [⟨0, 0, 1, 2⟩, ⟨1, 1, 1, 3⟩, ⟨2, 0, 1, 4⟩, ⟨3, 1, 1, 5⟩] else [] }
    (loadPassengers .source .granted g).1.onboard = [⟨0, 0, 1, 2⟩, ⟨1, 1, 1, 3⟩, ⟨3, 1, 1, 5⟩] :=
  (congrArg (fun r : Globals × Bool => r.1.onboard)
    (loadPassengers_spec .source _ (by decide))).trans (by decide)

/-! ## §3 The order of boarding -/

variable {B}

/-- Boarding one more never lets in somebody who was turned away. -/
theorem not_admits_boarded {floor : Int} {loads : Int} {status : Status} {p : Passenger}
    (h : ¬ Admits B floor loads status p) (q : Passenger) :
    ¬ Admits B floor (loads + 1) (status.with q) p := by
  rintro ⟨hf, hroom, ht⟩
  refine h ⟨hf, by omega, ht.imp_right fun ⟨hh, hs⟩ => ⟨hh, ?_⟩⟩
  unfold Status.with at hs
  split at hs
  · cases hs
  · exact hs

/-- Everybody whom the loading walk has left behind would be turned away at
this moment too. -/
theorem loadingAt_kept (g : Globals) (n : Nat) :
    ∀ p ∈ (loadingAt B g n).kept, ¬ Admits B g.currentFloor (loadingAt B g n).st.1.loads
      (loadingAt B g n).st.1.status p := by
  refine walk_inv (loadBody B g.currentFloor) (l := g.waitingList (g.currentFloor - 1))
    (s := (g, false)) (I := fun c => ∀ p ∈ c.kept,
      ¬ Admits B g.currentFloor c.st.1.loads c.st.1.status p) (by simp [Cursor.start]) ?_ ?_ n
  · rintro kept moved q rest ⟨g', loaded⟩ st' hinv hb p hp
    rw [loadBody_eq] at hb
    split at hb
    · obtain rfl := Option.some.inj hb
      have hnot := not_admits_boarded (hinv p hp) q
      simpa [boarded, Status.withAll] using hnot
    · cases hb
  · rintro kept moved q rest ⟨g', loaded⟩ hinv hb p hp
    rw [loadBody_eq] at hb
    split at hb
    · cases hb
    · next hrefused =>
        rcases List.mem_append.mp hp with hp | hp
        · exact hinv p hp
        · rw [List.mem_singleton] at hp
          subst hp
          exact hrefused

/-- Whoever was accepted before `q` does not stand behind `q` in a queue. -/
theorem not_mem_behind {g : Globals} (h : RecordInv B g) {p q : Passenger}
    (hbefore : [p, q].Sublist g.allocated) {i : Int} {rest : List Passenger}
    (hrest : (q :: rest).Sublist (g.waitingList i)) : p ∉ q :: rest := by
  have hlt : p.node < q.node := by simpa using h.sorted.sublist hbefore
  have hsorted := h.sorted.sublist (hrest.trans (h.queued i))
  intro hp
  rcases List.mem_cons.mp hp with rfl | hp
  · exact Nat.lt_irrefl _ hlt
  · exact Nat.lt_asymm hlt ((List.pairwise_cons.mp hsorted).1 p hp)

/-- **Boarding goes by arrival**: if `q` boards while `p`, who came to the
same floor before, still waits, then `p` is a human and `q` a zombie. -/
theorem boarding_in_order (B : Building) (ls : List Label) (n : Nat) (p q : Passenger)
    (hfloor : p.startFloor = q.startFloor)
    (hbefore : [p, q].Sublist (Sys.after B ls).g.allocated)
    (hwaits : p ∈ (loadView (Sys.after B ls).g.currentFloor
      (loadingAt B (Sys.after B ls).g n)).waitingList (p.startFloor - 1))
    (hboards : (loadingAt B (Sys.after B ls).g (n + 1)).st.1.onboard
      = (loadingAt B (Sys.after B ls).g n).st.1.onboard ++ [q]) :
    p.type = 0 ∧ q.type = 1 := by
  have hq := (Sys.inv_after (B := B) ls).wf.queues
  have hr := Sys.records_after (B := B) ls
  generalize (Sys.after B ls).g = g at *
  obtain ⟨rest, hrest, ha⟩ := loadingAt_boards hboards
  have hcurrent := hfloor.trans ha.1
  -- `p` is in the queue that is being walked, and the walk has passed it
  have hlist : p ∈ (loadingAt B g n).list := by
    rw [hcurrent] at hwaits
    simpa [loadView] using hwaits
  have hkept : p ∈ (loadingAt B g n).kept := by
    have hbehind : (q :: rest).Sublist (g.waitingList (g.currentFloor - 1)) := by
      rw [← hrest, loadingAt, walkAt_rest]
      exact List.drop_sublist _ _
    rw [Cursor.list, hrest] at hlist
    exact (List.mem_append.mp hlist).resolve_right (not_mem_behind hr hbefore hbehind)
  have hrefused := loadingAt_kept g n p hkept
  obtain ⟨hok, -⟩ := hq.waiting_ok _ p ((walkAt_list_sublist _ _ _ n).subset hlist)
  -- there is room, so `p` was refused as a human in an infected cabin
  have hnotzombie : p.type ≠ 1 := fun hz => hrefused ⟨hcurrent, ha.2.1, Or.inl hz⟩
  have hhuman : p.type = 0 := hok.type_eq.resolve_right hnotzombie
  refine ⟨hhuman, ha.2.2.resolve_right ?_⟩
  rintro ⟨-, huninfected⟩
  exact hrefused ⟨hcurrent, ha.2.1, Or.inr ⟨hhuman, huninfected⟩⟩

/-- Behind a zombie the human on floor 1 is turned away, and the zombie who
came after the human boards. -/
theorem boarding_in_order_source :
    (⟨1, 0, 1, 3⟩ : Passenger).type = 0 ∧ (⟨2, 1, 1, 4⟩ : Passenger).type = 1 :=
  boarding_in_order .source [.call .startElevator, .call (.issueRequest 1 2 1),
    .call (.issueRequest 1 3 0), .call (.issueRequest 1 4 1), .scheduler, .scheduler] 2
    ⟨1, 0, 1, 3⟩ ⟨2, 1, 1, 4⟩ rfl (by decide) (by decide) (by decide)

end KernelElevator
