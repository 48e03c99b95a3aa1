/-
KernelElevator.Module.WaitTheorems — everybody else waits in line.

A human may be passed over for ever when the cabin comes infected each time.
A loading phase that has room, and no infection at its start if it is a human
who waits, takes either the one who waits or somebody ahead in the queue
(`idxOf_board`). Nobody ever gets in ahead (`Effect.ahead_le`), so nobody is
left behind by such phases more often than there were others ahead at first
(`wait_bounded`).
-/
import KernelElevator.Module.StarvationTheorems
import KernelElevator.Module.RecordTheorems

namespace KernelElevator

open Transition

variable {B : Building}

/-! ## The queue ahead -/

/-- `p` is passed over although the status at the start of the phase would
let it in. -/
def LeavesBehind (B : Building) (p : Passenger) (s : Sys) (l : Label) : Prop :=
  PassesOver B p s l ∧ (p.type = 1 ∨ s.g.status = .uninfected)

instance (p : Passenger) (s : Sys) (l : Label) : Decidable (LeavesBehind B p s l) :=
  inferInstanceAs (Decidable (_ ∧ _))

/-- How often that happens in a run. -/
def leftBehind (B : Building) (p : Passenger) (s : Sys) (ls : List Label) : Nat :=
  (system B).total (fun s l => if LeavesBehind B p s l then 1 else 0) s ls

/-- The number of those ahead of `p` in its queue. -/
def ahead (p : Passenger) (g : Globals) : Nat := (g.waitingList (p.startFloor - 1)).idxOf p

/-- Whoever stays behind moves up in the queue, and does move if it would have
been let in at first: then somebody ahead was. -/
theorem idxOf_board {floor : Int} {p : Passenger} {w : List Passenger} {loads : Int}
    {status : Status} (hnodup : w.Nodup) (hp : p ∈ (board B floor loads status w).2) :
    (board B floor loads status w).2.idxOf p + (if Admits B floor loads status p then 1 else 0)
      ≤ w.idxOf p := by
  induction w generalizing loads status with
  | nil => cases hp
  | cons q rest ih =>
    obtain ⟨hq, hrest⟩ := List.nodup_cons.mp hnodup
    by_cases ha : Admits B floor loads status q
    · rw [board_cons_admitted ha] at hp ⊢
      have hne : q ≠ p := fun h => hq (h ▸ (board_snd_sublist _ _ _).subset hp)
      have hup := Nat.le_of_add_right_le (ih hrest hp)
      have hone : (if Admits B floor loads status p then 1 else 0) ≤ 1 := by split <;> omega
      rw [List.idxOf_cons_ne _ hne]
      exact Nat.add_le_add hup hone
    · rw [board_cons_refused ha] at hp ⊢
      by_cases hne : q = p
      · rw [← hne, if_neg ha, List.idxOf_cons_self]
        exact Nat.zero_le _
      · have hup := ih hrest ((List.mem_cons.mp hp).resolve_left fun h => hne h.symm)
        rw [List.idxOf_cons_ne _ hne, List.idxOf_cons_ne _ hne]
        omega

/-- A loading phase. -/
theorem ahead_load {p : Passenger} {g : Globals} (hrec : RecordInv B g)
    (hfloor : g.currentFloor = p.startFloor) (hp : p ∈ stayers B g) :
    ahead p (loadLocked B g).1
      + (if Admits B g.currentFloor g.loads g.status p then 1 else 0) ≤ ahead p g := by
  have hup := idxOf_board (hrec.nodup.sublist (hrec.queued (g.currentFloor - 1))) hp
  simp only [ahead, loadLocked_eq, ← hfloor, Function.update_self]
  exact hup

/-- No step puts anybody ahead of `p`, or brings `p` back to its queue. -/
theorem Effect.ahead_le {s : Sys} {l : Label} {g' : Globals} (he : Effect B s l g')
    (hrec : RecordInv B s.g) {p : Passenger} (hp : p ∈ s.g.allocated)
    (hwaits : p ∈ g'.waitingList (p.startFloor - 1)) :
    p ∈ s.g.waitingList (p.startFloor - 1) ∧ ahead p g' ≤ ahead p s.g := by
  cases he with
  | same _ => exact ⟨hwaits, Nat.le_refl _⟩
  | started _ => exact ⟨hwaits, Nat.le_refl _⟩
  | stopped _ => exact ⟨hwaits, Nat.le_refl _⟩
  | shown _ _ => exact ⟨hwaits, Nat.le_refl _⟩
  | settled _ _ _ => exact ⟨hwaits, Nat.le_refl _⟩
  | moved _ _ _ _ => exact ⟨hwaits, Nat.le_refl _⟩
  | unloaded _ =>
    rw [unloadPassengers_granted] at hwaits ⊢
    exact ⟨hwaits, Nat.le_refl _⟩
  | @added a b t hs hd hreq =>
    by_cases hfloor : p.startFloor - 1 = a - 1
    · -- the new record is behind `p`
      simp only [addPassenger, hfloor, Function.update_self, List.mem_append] at hwaits
      have hold : p ∈ s.g.waitingList (a - 1) := by
        refine hwaits.resolve_right fun hnew => ?_
        have hnode := congrArg Passenger.node (List.mem_singleton.mp hnew)
        exact absurd hnode (hrec.node_lt p hp).ne
      refine ⟨hfloor ▸ hold, ?_⟩
      simp only [ahead, addPassenger, hfloor, Function.update_self,
        List.idxOf_append_of_mem hold, Nat.le_refl]
    · simp only [addPassenger, Function.update_of_ne hfloor] at hwaits
      refine ⟨hwaits, ?_⟩
      simp only [ahead, addPassenger, Function.update_of_ne hfloor, Nat.le_refl]
  | loaded us hpc hroom =>
    by_cases hfloor : p.startFloor - 1 = s.g.currentFloor - 1
    · have hstays : p ∈ stayers B s.g := by
        rw [loadLocked_eq, hfloor] at hwaits
        simpa using hwaits
      refine ⟨?_, Nat.le_of_add_right_le (ahead_load hrec (by omega) hstays)⟩
      rw [hfloor]
      exact (stayers_sublist s.g).subset hstays
    · rw [loadLocked_eq] at hwaits ⊢
      simp only [Function.update_of_ne hfloor] at hwaits
      refine ⟨hwaits, ?_⟩
      simp only [ahead, Function.update_of_ne hfloor, Nat.le_refl]

/-- A phase that leaves `p` behind lets it move up. -/
theorem LeavesBehind.ahead_lt {p : Passenger} {s : Sys} {l : Label} (h : LeavesBehind B p s l)
    (hinv : s.Inv B) (hrec : RecordInv B s.g) (hp : p ∈ s.g.waitingList (p.startFloor - 1)) :
    ahead p (s.step B l).g + 1 ≤ ahead p s.g := by
  obtain ⟨⟨rfl, hpc, hroom, hfloor, hstays⟩, hstatus⟩ := h
  obtain ⟨g, pc⟩ := s
  have htype := (hinv.wf.queues.waiting_ok _ p hp).1.type_eq
  have hadmits : Admits B g.currentFloor g.loads g.status p := by
    refine ⟨hfloor.symm, Int.add_one_le_of_lt hroom, ?_⟩
    rcases htype with hhuman | hzombie
    · exact .inr ⟨hhuman, hstatus.resolve_left (by simp [hhuman])⟩
    · exact .inl hzombie
  cases pc with
  | load us =>
    have hload : (Sys.step B ⟨g, .load us⟩ .scheduler).g = (loadLocked B g).1 := by
      rw [Sys.step, schedulerStep_load, loadPhase_room B hroom]
    rw [hload] at hstays ⊢
    have hup : ahead p (loadLocked B g).1 + _ ≤ ahead p g := ahead_load hrec hfloor (by
      rw [loadLocked_eq, ← hfloor] at hstays
      simpa using hstays)
    rwa [if_pos hadmits] at hup
  | _ => cases hpc

theorem Effect.allocated_subset {s : Sys} {l : Label} {g' : Globals} (he : Effect B s l g') :
    s.g.allocated ⊆ g'.allocated := by
  cases he with
  | added _ _ _ => exact List.subset_append_left _ _
  | unloaded _ => rw [unloadPassengers_granted]; exact List.Subset.refl _
  | loaded _ _ _ => rw [loadLocked_eq]; exact List.Subset.refl _
  | _ => exact List.Subset.refl _

/-- `p` is known, and has been left behind `n` times; with those still ahead
that makes at most `m`. -/
structure InLine (B : Building) (p : Passenger) (m n : Nat) (s : Sys) : Prop where
  inv : s.Inv B
  records : RecordInv B s.g
  known : p ∈ s.g.allocated
  bound : n ≤ m
  ahead_le : p ∈ s.g.waitingList (p.startFloor - 1) → n + ahead p s.g ≤ m

theorem InLine.step {p : Passenger} {m n : Nat} {s : Sys} (h : InLine B p m n s) (l : Label) :
    InLine B p m (n + if LeavesBehind B p s l then 1 else 0) (s.step B l) := by
  have he := Sys.step_effect (B := B) s l
  refine ⟨h.inv.step l, h.records.step h.inv l, he.allocated_subset h.known, ?_, fun hp => ?_⟩
  · split
    next hleft =>
      obtain ⟨hbefore, -⟩ := he.ahead_le h.records h.known hleft.1.2.2.2.2
      have hup := hleft.ahead_lt h.inv h.records hbefore
      have hsum := h.ahead_le hbefore
      omega
    next => exact h.bound
  · obtain ⟨hbefore, hle⟩ := he.ahead_le h.records h.known hp
    have hsum := h.ahead_le hbefore
    split
    next hleft =>
      have hup := hleft.ahead_lt h.inv h.records hbefore
      omega
    next => omega

/-- **Nobody else waits forever.** From any reachable state on, whatever is
asked and stopped, a passenger in a queue is left behind by a loading phase
with room, and for a human without infection at its start, at most as often as
there are others ahead in the queue. -/
theorem wait_bounded (B : Building) (ls ls' : List Label) (p : Passenger)
    (hp : p ∈ (Sys.after B ls).g.waitingList (p.startFloor - 1)) :
    leftBehind B p (Sys.after B ls) ls' ≤ ahead p (Sys.after B ls).g := by
  have hrec := Sys.records_after (B := B) ls
  have hknown := (hrec.queued _).subset hp
  have hline : InLine B p (ahead p (Sys.after B ls).g) 0 (Sys.after B ls) :=
    ⟨Sys.inv_after ls, hrec, hknown, Nat.zero_le _, fun _ => (Nat.zero_add _).le⟩
  have hend := (system B).total_inv_zero (P := InLine B p (ahead p (Sys.after B ls).g))
    (fun _ _ l h => h.step l) ls' _ hline
  exact hend.bound

/-- In a cabin for one the second of two zombies is left behind once. -/
theorem wait_bounded_pair :
    let B : Building := ⟨2, 1, by decide, by decide⟩
    let s := Sys.after B [.call .startElevator, .call (.issueRequest 1 2 1),
      .call (.issueRequest 1 2 1)]
    let n := leftBehind B ⟨1, 1, 1, 2⟩ s (List.replicate 12 .scheduler)
    n ≤ ahead ⟨1, 1, 1, 2⟩ s.g ∧ n = 1 :=
  ⟨wait_bounded _ _ _ _ (by decide), by decide⟩

end KernelElevator
