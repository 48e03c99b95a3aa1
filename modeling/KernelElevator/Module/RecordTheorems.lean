/-
KernelElevator.Module.RecordTheorems — where the passenger records are.

`issue_request` allocates a record and puts it in a floor's queue; loading
moves it to `elevator.onboard`; unloading, a stop and the final cleanup hand
it to `kfree`. `places` counts how often a record occurs in all of these
together, and `RecordInv` says that this is once for every record that was
allocated and never for any other. So nothing is lost, doubled or freed
twice in any run, and after `elevator_exit` everything has been freed
(`records_accounted`).

`RecordInv` also keeps the order of arrival: every queue is a sublist of the
records in the order in which they were allocated.
-/
import KernelElevator.Module.InvariantTheorems
import KernelElevator.Module.Exit
import Mathlib.Algebra.Order.BigOperators.Group.Finset

namespace KernelElevator

open Transition

variable (B : Building)

/-! ## §1 The records in a running module -/

/-- How often `p` occurs in the cabin, in the floor queues and among the
records that were freed. -/
def places (g : Globals) (p : Passenger) : Nat :=
  g.onboard.count p + ∑ i ∈ Finset.range B.floors, (g.waitingList i).count p + g.freed.count p

/-- The records in the order of their allocation, and where they are. -/
structure RecordInv (g : Globals) : Prop where
  node_lt : ∀ p ∈ g.allocated, p.node < g.allocated.length
  sorted : g.allocated.Pairwise (·.node < ·.node)
  places_eq : ∀ p, places B g p = g.allocated.count p
  queued : ∀ i, (g.waitingList i).Sublist g.allocated

variable {B}

theorem RecordInv.nodup {g : Globals} (h : RecordInv B g) : g.allocated.Nodup :=
  h.sorted.imp fun hlt heq => by subst heq; exact Nat.lt_irrefl _ hlt

/-- An allocated record is in one place, once. -/
theorem RecordInv.places_eq_one {g : Globals} (h : RecordInv B g) {p : Passenger}
    (hp : p ∈ g.allocated) : places B g p = 1 := by
  rw [h.places_eq]
  exact List.count_eq_one_of_mem h.nodup hp

/-- A record in a floor's queue has not been freed. -/
theorem RecordInv.not_freed_of_waiting {g : Globals} (h : RecordInv B g) {p : Passenger} {i : Int}
    (hlo : 0 ≤ i) (hhi : i < B.floors) (hp : p ∈ g.waitingList i) : p ∉ g.freed := by
  intro hfreed
  obtain ⟨j, rfl⟩ := Int.eq_ofNat_of_zero_le hlo
  have hone := List.nodup_iff_count_le_one.mp h.nodup p
  have hwaiting : (g.waitingList j).count p
      ≤ ∑ i ∈ Finset.range B.floors, (g.waitingList i).count p :=
    Finset.single_le_sum (f := fun i : Nat => (g.waitingList i).count p)
      (fun _ _ => Nat.zero_le _) (Finset.mem_range.mpr (by omega))
  have hplaces := h.places_eq p
  have h1 := List.count_pos_iff.mpr hp
  have h2 := List.count_pos_iff.mpr hfreed
  rw [places] at hplaces
  omega

/-- A new record goes to the end of its queue, behind every record before it. -/
theorem RecordInv.add {g : Globals} (h : RecordInv B g) {a b t : Int}
    (hreq : Requestable B a b t) : RecordInv B (addPassenger a b t g) := by
  have hlo := hreq.start_pos
  have hhi := hreq.start_le
  constructor
  · intro p hp
    rw [addPassenger, List.mem_append, List.mem_singleton] at hp
    simp only [addPassenger, List.length_append, List.length_singleton]
    rcases hp with hp | rfl
    · exact Nat.lt_succ_of_lt (h.node_lt p hp)
    · exact Nat.lt_succ_self _
  · refine List.pairwise_append.mpr ⟨h.sorted, List.pairwise_singleton _ _, ?_⟩
    intro p hp q hq
    rw [List.mem_singleton] at hq
    subst hq
    exact h.node_lt p hp
  · intro p
    have hsum := sum_update (List.count p) B.floors g.waitingList (i := a - 1) (by omega)
      (by omega) (g.waitingList (a - 1) ++ [⟨g.allocated.length, t, a, b⟩])
    have hplaces := h.places_eq p
    simp only [places, addPassenger, List.count_append] at hsum hplaces ⊢
    omega
  · intro i
    by_cases hi : i = a - 1
    · subst hi
      simp only [addPassenger, Function.update_self]
      exact (h.queued _).append (List.Sublist.refl _)
    · simp only [addPassenger, Function.update_of_ne hi]
      exact (h.queued i).trans (List.sublist_append_left _ _)

/-- Whoever stays keeps the order of the queue. -/
theorem stayers_sublist (g : Globals) :
    (stayers B g).Sublist (g.waitingList (g.currentFloor - 1)) :=
  board_snd_sublist _ _ _

theorem RecordInv.load {g : Globals} (h : RecordInv B g)
    (hfloor : 1 ≤ g.currentFloor ∧ g.currentFloor ≤ B.floors) :
    RecordInv B (loadLocked B g).1 := by
  rw [loadLocked_eq]
  refine ⟨h.node_lt, h.sorted, ?_, ?_⟩
  · intro p
    have hsum := sum_update (List.count p) B.floors g.waitingList (i := g.currentFloor - 1)
      (by omega) (by omega) (stayers B g)
    have hperm := (boarders_perm (B := B) g).count_eq p
    have hplaces := h.places_eq p
    simp only [places, boarded, List.count_append] at hsum hperm hplaces ⊢
    omega
  · intro i
    by_cases hi : i = g.currentFloor - 1
    · subst hi
      simp only [Function.update_self]
      exact (stayers_sublist g).trans (h.queued _)
    · simp only [Function.update_of_ne hi]
      exact h.queued i

theorem RecordInv.effect {s : Sys} {l : Label} {g' : Globals} (h : RecordInv B s.g)
    (hfloor : 1 ≤ s.g.currentFloor ∧ s.g.currentFloor ≤ B.floors) (he : Effect B s l g') :
    RecordInv B g' := by
  cases he with
  | same _ => exact h
  | added _ _ hreq => exact h.add hreq
  | loaded _ _ _ => exact h.load hfloor
  | unloaded _ =>
    rw [unloadPassengers_granted]
    refine ⟨h.node_lt, h.sorted, ?_, h.queued⟩
    intro p
    have hperm := (alighting_append_riding_perm s.g).count_eq p
    have hplaces := h.places_eq p
    simp only [places, List.count_append] at hperm hplaces ⊢
    omega
  | stopped _ =>
    refine ⟨h.node_lt, h.sorted, ?_, h.queued⟩
    intro p
    have hplaces := h.places_eq p
    simp only [places, List.count_append, List.count_nil] at hplaces ⊢
    omega
  | moved _ _ _ _ => exact ⟨h.1, h.2, h.3, h.4⟩
  | started _ => exact ⟨h.1, h.2, h.3, h.4⟩
  | shown _ _ => exact ⟨h.1, h.2, h.3, h.4⟩
  | settled _ _ _ => exact ⟨h.1, h.2, h.3, h.4⟩

theorem loaded_records : RecordInv B (loaded B).g := by
  constructor
  · simp [loaded, setupElevator, bss]
  · simp [loaded, setupElevator, bss]
  · simp [loaded, setupElevator, bss, places]
  · simp [loaded, setupElevator, bss]

/-- A step keeps the two invariants together: that the index of the queue a
passenger boards from is one of the array's is part of the first. -/
theorem RecordInv.step {s : Sys} (hinv : s.Inv B) (h : RecordInv B s.g) (l : Label) :
    RecordInv B (s.step B l).g := by
  obtain ⟨k, hk⟩ := hinv.sweep
  exact h.effect hk.floor_range (Sys.step_effect s l)

theorem Sys.records_after (ls : List Label) : RecordInv B (Sys.after B ls).g :=
  ((system B).run_inv (P := fun s => s.Inv B ∧ RecordInv B s.g)
    (fun _ l h => ⟨h.1.step l, h.2.step h.1 l⟩) ls (loaded B) ⟨loaded_inv, loaded_records⟩).2

/-- Nobody boards but in the loading phase, from the queue of the floor. -/
theorem Effect.boards {s : Sys} {l : Label} {g' : Globals} (he : Effect B s l g') {p : Passenger}
    (hp : p ∈ g'.onboard) (hnew : p ∉ s.g.onboard) :
    ∃ us, l = .scheduler ∧ s.pc = .load us ∧ p ∈ s.g.waitingList (s.g.currentFloor - 1) := by
  cases he with
  | loaded us hpc _ =>
    rw [loadLocked_eq] at hp
    have hboards := (List.mem_append.mp hp).resolve_left hnew
    exact ⟨us, rfl, hpc, mem_waiting_of_mem_boarders hboards⟩
  | unloaded _ =>
    rw [unloadPassengers_granted] at hp
    exact absurd (mem_riding.mp hp).1 hnew
  | stopped _ => simp at hp
  | same _ => exact absurd hp hnew
  | started _ => exact absurd hp hnew
  | added _ _ _ => exact absurd hp hnew
  | shown _ _ => exact absurd hp hnew
  | settled _ _ _ => exact absurd hp hnew
  | moved _ _ _ _ => exact absurd hp hnew

/-- Whoever leaves the cabin is freed. -/
theorem Effect.leaves {s : Sys} {l : Label} {g' : Globals} (he : Effect B s l g') {p : Passenger}
    (hp : p ∈ s.g.onboard) (hgone : p ∉ g'.onboard) : p ∈ g'.freed := by
  cases he with
  | unloaded _ =>
    rw [unloadPassengers_granted] at hgone ⊢
    have hmem := (alighting_append_riding_perm s.g).mem_iff.mpr hp
    exact List.mem_append_right _ ((List.mem_append.mp hmem).resolve_right hgone)
  | stopped _ => exact List.mem_append_right _ hp
  | loaded _ _ _ =>
    rw [loadLocked_eq] at hgone
    exact absurd (List.mem_append_left _ hp) hgone
  | same _ => exact absurd hp hgone
  | started _ => exact absurd hp hgone
  | added _ _ _ => exact absurd hp hgone
  | shown _ _ => exact absurd hp hgone
  | settled _ _ _ => exact absurd hp hgone
  | moved _ _ _ _ => exact absurd hp hgone

/-- A freed record stays freed. -/
theorem Effect.freed_subset {s : Sys} {l : Label} {g' : Globals} (he : Effect B s l g') :
    s.g.freed ⊆ g'.freed := by
  cases he with
  | unloaded _ => rw [unloadPassengers_granted]; exact List.subset_append_left _ _
  | stopped _ => exact List.subset_append_left _ _
  | loaded _ _ _ => rw [loadLocked_eq]; exact List.Subset.refl _
  | _ => exact List.Subset.refl _

/-! ## §2 The end of the module -/

/-- The loop over the floors empties the first `n` queues. -/
theorem removeAll_fold (n : Nat) (deleteList : List Passenger) (g : Globals) :
    (List.range n).foldl removeFloor (deleteList, g)
      = (deleteList ++ (List.range n).flatMap fun i : Nat => g.waitingList i,
         { g with waitingList := fun i => if 0 ≤ i ∧ i < n then [] else g.waitingList i }) := by
  induction n with
  | zero =>
    have hnone : ∀ i : Int, ¬ (0 ≤ i ∧ i < ((0 : Nat) : Int)) := by omega
    simp only [hnone, if_false, List.range_zero, List.flatMap_nil, List.append_nil,
      List.foldl_nil]
  | succ n ih =>
    obtain ⟨hmoved, hlist⟩ := walk_all (fun (_ : Passenger) (_ : Unit) => some ())
      (fun _ _ => rfl) (g.waitingList n) ()
    rw [List.range_succ, List.foldl_append, ih]
    have hself : ¬ ((0 : Int) ≤ n ∧ (n : Int) < n) := by omega
    simp only [List.foldl_cons, List.foldl_nil, removeFloor, hself, if_false, hmoved, hlist,
      List.flatMap_append, List.flatMap_singleton, List.append_assoc]
    congr 2
    funext i
    by_cases hi : i = n
    · subst hi
      rw [Function.update_self, if_pos (by omega)]
    · rw [Function.update_of_ne hi]
      exact if_congr (by omega) rfl rfl

theorem removeAllLocked_eq (g : Globals) :
    removeAllLocked B g
      = (g.onboard ++ (List.range B.floors).flatMap fun i : Nat => g.waitingList i,
        { g with
          onboard := []
          waitingList := fun i => if 0 ≤ i ∧ i < B.floors then [] else g.waitingList i }) := by
  obtain ⟨hmoved, hlist⟩ := walk_all (fun (_ : Passenger) (_ : Unit) => some ())
    (fun _ _ => rfl) g.onboard ()
  simp only [removeAllLocked, hmoved, hlist, removeAll_fold]

theorem removeAllPassengers_granted (g : Globals) :
    removeAllPassengers B .granted g
      = { g with
          onboard := []
          waitingList := fun i => if 0 ≤ i ∧ i < B.floors then [] else g.waitingList i
          freed := g.freed
            ++ (g.onboard ++ (List.range B.floors).flatMap fun i : Nat => g.waitingList i) } := by
  simp only [removeAllPassengers, removeAllLocked_eq, kfreeAll_eq]

/-- `kthread_stop` is some more phases of the scheduler, up to the head of its
loop. -/
theorem kthreadStop_run (s : Sys) :
    ∃ n, kthreadStop B s = (system B).run s (List.replicate n .scheduler) := by
  have hsome : ∀ m s, ∃ n, (fun s => if s.pc = .top then s else schedulerStep B s)^[m] s
      = (system B).run s (List.replicate n .scheduler) := by
    intro m
    induction m with
    | zero => exact fun s => ⟨0, rfl⟩
    | succ m ih =>
      intro s
      rw [Function.iterate_succ_apply]
      by_cases htop : s.pc = .top
      · rw [if_pos htop]
        exact ih s
      · obtain ⟨n, hn⟩ := ih (schedulerStep B s)
        rw [if_neg htop, hn]
        exact ⟨n + 1, rfl⟩
  exact hsome 5 s

/-- The phases an iteration may still have. -/
def Pc.left : Pc → Nat
  | .top => 0
  | .unload => 5
  | .load _ => 4
  | .loading _ _ => 3
  | .dispatch => 2
  | .move => 1

theorem Pc.eq_top_of_left {pc : Pc} (h : pc.left = 0) : pc = .top := by
  cases pc <;> first | rfl | cases h

/-- Inside an iteration every phase takes the thread nearer to its end. -/
theorem schedulerStep_left {s : Sys} (h : s.pc ≠ .top) :
    (schedulerStep B s).pc.left < s.pc.left := by
  obtain ⟨g, pc⟩ := s
  cases pc with
  | top => exact absurd rfl h
  | dispatch =>
    simp only [schedulerStep]
    split <;> simp [Pc.left]
  | unload => simp [schedulerStep, Pc.left]
  | load us => simp [schedulerStep, Pc.left]
  | loading us ls => simp [schedulerStep, Pc.left]
  | move => simp [schedulerStep, Pc.left]

/-- When `kthread_stop` comes back the thread is at the head of its loop. -/
theorem kthreadStop_top (s : Sys) : (kthreadStop B s).pc = .top := by
  have hsome : ∀ m s, s.pc.left ≤ m →
      ((fun s => if s.pc = .top then s else schedulerStep B s)^[m] s).pc = .top := by
    intro m
    induction m with
    | zero =>
      exact fun s hleft => Pc.eq_top_of_left (Nat.le_zero.mp hleft)
    | succ m ih =>
      intro s hleft
      rw [Function.iterate_succ_apply]
      by_cases htop : s.pc = .top
      · rw [if_pos htop]
        exact ih s (by simp [htop, Pc.left])
      · have hlt := schedulerStep_left (B := B) htop
        rw [if_neg htop]
        exact ih _ (by omega)
  exact hsome 5 s (by cases s.pc <;> simp [Pc.left])

theorem count_flatMap_range (w : Nat → List Passenger) (p : Passenger) (n : Nat) :
    ((List.range n).flatMap w).count p = ∑ i ∈ Finset.range n, (w i).count p := by
  induction n with
  | zero => rfl
  | succ n ih =>
    rw [List.range_succ, List.flatMap_append, List.count_append, ih, Finset.sum_range_succ]
    simp

/-! ## §3 Every record is accounted for -/

variable (B)

/-- Every allocated record is in exactly one place, exactly once, and nothing
else is anywhere. -/
structure Accounted (g : Globals) : Prop where
  once : ∀ p ∈ g.allocated, places B g p = 1
  never : ∀ p ∉ g.allocated, places B g p = 0

/-- The lists are empty and every allocated record has been freed once. -/
structure AllFreed (g : Globals) : Prop where
  onboard_nil : g.onboard = []
  waiting_nil : ∀ i, g.waitingList i = []
  once : ∀ p ∈ g.allocated, g.freed.count p = 1
  never : ∀ p ∉ g.allocated, g.freed.count p = 0

variable {B}

theorem RecordInv.accounted {g : Globals} (h : RecordInv B g) : Accounted B g :=
  ⟨fun _ hp => h.places_eq_one hp, fun p hp => by
    rw [h.places_eq]
    exact List.count_eq_zero_of_not_mem hp⟩

/-- The cleanup moves everything to the freed records. -/
theorem removeAll_freed {g : Globals} (hq : QueueInv B g) (h : Accounted B g) :
    AllFreed (removeAllPassengers B .granted g) := by
  rw [removeAllPassengers_granted]
  have hcount : ∀ p, (g.freed
      ++ (g.onboard ++ (List.range B.floors).flatMap fun i : Nat => g.waitingList i)).count p
        = places B g p := by
    intro p
    rw [List.count_append, List.count_append, count_flatMap_range, places]
    omega
  refine ⟨rfl, ?_, fun p hp => (hcount p).trans (h.once p hp),
    fun p hp => (hcount p).trans (h.never p hp)⟩
  intro i
  by_cases hi : 0 ≤ i ∧ i < B.floors
  · exact if_pos hi
  · simp only [hi, if_false]
    -- a queue whose index is not one of the array's has nobody in it
    refine List.eq_nil_iff_forall_not_mem.mpr fun p hp => hi ?_
    obtain ⟨hok, hfloor⟩ := hq.waiting_ok i p hp
    have hlo := hok.start_pos
    have hhi := hok.start_le
    omega

/-- **No record is lost, doubled or freed twice**: in every reachable state
each allocated record is in exactly one place, and after `elevator_exit`,
which stops the thread first, each has been freed exactly once and no list
holds any. -/
theorem records_accounted (B : Building) (ls : List Label) :
    Accounted B (Sys.after B ls).g ∧ (kthreadStop B (Sys.after B ls)).pc = .top ∧
      AllFreed (elevatorExit B (Sys.after B ls)) := by
  refine ⟨(Sys.records_after ls).accounted, kthreadStop_top _, ?_⟩
  obtain ⟨n, hn⟩ := kthreadStop_run (B := B) (Sys.after B ls)
  have hafter : kthreadStop B (Sys.after B ls)
      = Sys.after B (ls ++ List.replicate n .scheduler) := by
    rw [hn, Sys.after, Sys.after, Machine.run_append]
  rw [elevatorExit, hafter]
  exact removeAll_freed (Sys.inv_after _).wf.queues (Sys.records_after _).accounted

end KernelElevator
