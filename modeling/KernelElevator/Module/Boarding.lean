/-
KernelElevator.Module.Boarding — who boards, said without the loop.

`board` splits a floor's queue into the passengers that board and those
that stay, as a function of the cabin's load, its status and the queue
alone. `Module.PhasesTheorems` proves that the walk of `loadPassengers`
computes exactly this split; what a pass of loading does to the cabin
(`loads_board_le`, `board_infected`) and when somebody boards at all
(`board_ne_nil`, `board_eq_of_refused`) is proved here, by induction on the queue.

Who boards can also be said without the order of the tests: `candidates`
lists those whom the status lets in, and the first of them board, as many as
there is room for (`board_eq_candidates`).
-/
import KernelElevator.Module.State
import Mathlib.Data.List.Perm.Basic
import Mathlib.Algebra.Order.Group.Int

namespace KernelElevator

variable (B : Building) (floor : Int)

/-- The tests a passenger has to pass to be taken on board. -/
def Admits (loads : Int) (status : Status) (p : Passenger) : Prop :=
  p.startFloor = floor ∧ loads + 1 ≤ B.capacity ∧
    (p.type = 1 ∨ p.type = 0 ∧ status = .uninfected)

instance (loads : Int) (status : Status) (p : Passenger) :
    Decidable (Admits B floor loads status p) :=
  inferInstanceAs (Decidable (_ ∧ _ ∧ (_ ∨ _ ∧ _)))

/-- The cabin's status once `p` is on board. -/
def Status.with (status : Status) (p : Passenger) : Status :=
  if p.type = 1 then .infected else status

/-- The passengers of a queue that board, and those that stay. -/
def board : Int → Status → List Passenger → List Passenger × List Passenger
  | _, _, [] => ([], [])
  | loads, status, p :: rest =>
    if Admits B floor loads status p then
      let r := board (loads + 1) (status.with p) rest
      (p :: r.1, r.2)
    else
      let r := board loads status rest
      (r.1, p :: r.2)

variable {B floor}

theorem board_cons_admitted {loads : Int} {status : Status} {p : Passenger}
    (h : Admits B floor loads status p) (rest : List Passenger) :
    board B floor loads status (p :: rest)
      = (p :: (board B floor (loads + 1) (status.with p) rest).1,
         (board B floor (loads + 1) (status.with p) rest).2) := by
  rw [board, if_pos h]

theorem board_cons_refused {loads : Int} {status : Status} {p : Passenger}
    (h : ¬ Admits B floor loads status p) (rest : List Passenger) :
    board B floor loads status (p :: rest)
      = ((board B floor loads status rest).1, p :: (board B floor loads status rest).2) := by
  rw [board, if_neg h]

/-- Nobody of the queue is lost or doubled. -/
theorem board_perm (w : List Passenger) (loads : Int) (status : Status) :
    ((board B floor loads status w).1 ++ (board B floor loads status w).2).Perm w := by
  induction w generalizing loads status with
  | nil => exact .nil
  | cons p rest ih =>
    by_cases h : Admits B floor loads status p
    · rw [board_cons_admitted h]
      exact (ih _ _).cons p
    · rw [board_cons_refused h]
      exact List.perm_middle.trans ((ih _ _).cons p)

/-- Those who stay keep their order. -/
theorem board_snd_sublist (w : List Passenger) (loads : Int) (status : Status) :
    (board B floor loads status w).2.Sublist w := by
  induction w generalizing loads status with
  | nil => exact .slnil
  | cons p rest ih =>
    by_cases h : Admits B floor loads status p
    · rw [board_cons_admitted h]
      exact (ih _ _).cons p
    · rw [board_cons_refused h]
      exact (ih _ _).cons_cons p

/-- Boarding never overfills the cabin. -/
theorem loads_board_le (w : List Passenger) {loads : Int} {status : Status}
    (h : loads ≤ B.capacity) :
    loads + (board B floor loads status w).1.length ≤ B.capacity := by
  induction w generalizing loads status with
  | nil => simpa [board] using h
  | cons p rest ih =>
    by_cases ha : Admits B floor loads status p
    · rw [board_cons_admitted ha, List.length_cons]
      have := @ih (loads + 1) (status.with p) ha.2.1
      push_cast
      omega
    · rw [board_cons_refused ha]
      exact ih h

/-- While the cabin is infected only zombies board. -/
theorem board_infected {w : List Passenger} {loads : Int} {p : Passenger}
    (h : p ∈ (board B floor loads .infected w).1) : p.type = 1 := by
  induction w generalizing loads with
  | nil => simp [board] at h
  | cons q rest ih =>
    by_cases ha : Admits B floor loads .infected q
    · have hq : q.type = 1 := by simpa using ha.2.2
      rw [board_cons_admitted ha, List.mem_cons,
        show Status.with .infected q = .infected by simp [Status.with]] at h
      rcases h with rfl | h
      · exact hq
      · exact ih h
    · rw [board_cons_refused ha] at h
      exact ih h

/-- If anybody in the queue could board now, somebody does. -/
theorem board_ne_nil {w : List Passenger} {loads : Int} {status : Status} {p : Passenger}
    (hp : p ∈ w) (ha : Admits B floor loads status p) :
    (board B floor loads status w).1 ≠ [] := by
  induction w with
  | nil => simp at hp
  | cons q rest ih =>
    by_cases hq : Admits B floor loads status q
    · rw [board_cons_admitted hq]
      exact List.cons_ne_nil _ _
    · rw [board_cons_refused hq]
      rcases List.mem_cons.mp hp with rfl | hp
      · exact absurd ha hq
      · exact ih hp

/-- If nobody in the queue can board now, nobody does. -/
theorem board_eq_of_refused {w : List Passenger} {loads : Int} {status : Status}
    (h : ∀ p ∈ w, ¬ Admits B floor loads status p) :
    board B floor loads status w = ([], w) := by
  induction w with
  | nil => rfl
  | cons q rest ih =>
    rw [board_cons_refused (h q (List.mem_cons_self ..)),
      ih fun p hp => h p (List.mem_cons_of_mem q hp)]

theorem board_eq_of_fst_nil {w : List Passenger} {loads : Int} {status : Status}
    (h : (board B floor loads status w).1 = []) : board B floor loads status w = ([], w) :=
  board_eq_of_refused fun _ hp ha => board_ne_nil hp ha h

/-- The cabin's status after a group has boarded, one by one. -/
def Status.withAll (status : Status) (ps : List Passenger) : Status := ps.foldl Status.with status

theorem withAll_infected (ps : List Passenger) :
    Status.withAll .infected ps = .infected := by
  induction ps with
  | nil => rfl
  | cons p ps ih => simpa [Status.withAll, Status.with] using ih

/-- A cabin with a zombie in it ends up infected. -/
theorem withAll_of_zombie {ps : List Passenger} {p : Passenger} (status : Status)
    (hp : p ∈ ps) (hz : p.type = 1) : status.withAll ps = .infected := by
  induction ps generalizing status with
  | nil => simp at hp
  | cons q ps ih =>
    rcases List.mem_cons.mp hp with rfl | hp
    · rw [Status.withAll, List.foldl_cons, Status.with, if_pos hz]
      exact withAll_infected ps
    · exact ih _ hp

/-- An uninfected cabin is infected by nobody but a zombie. -/
theorem withAll_of_humans {ps : List Passenger} (status : Status)
    (h : ∀ p ∈ ps, p.type ≠ 1) : status.withAll ps = status := by
  induction ps generalizing status with
  | nil => rfl
  | cons q ps ih =>
    rw [Status.withAll, List.foldl_cons, Status.with, if_neg (h q (List.mem_cons_self ..))]
    exact ih _ fun p hp => h p (List.mem_cons_of_mem q hp)

theorem withAll_eq (status : Status) (ps : List Passenger) :
    status.withAll ps
      = if status = .infected ∨ ∃ p ∈ ps, p.type = 1 then .infected else .uninfected := by
  split
  · next h =>
      rcases h with rfl | ⟨p, hp, hz⟩
      · exact withAll_infected ps
      · exact withAll_of_zombie status hp hz
  · next h =>
      rw [not_or] at h
      rw [withAll_of_humans status fun p hp hz => h.2 ⟨p, hp, hz⟩]
      cases status with
      | uninfected => rfl
      | infected => exact absurd rfl h.1

/-! ## Who boards, as a list -/

/-- The passengers of a queue whom the status would let in one after the
other if there were room for all: the zombies when the cabin is infected,
else the humans before the first zombie and then the zombies. -/
def candidates : Status → List Passenger → List Passenger
  | .infected, w => w.filter fun p => p.type = 1
  | .uninfected, w => w.takeWhile (fun p => p.type = 0) ++ w.filter fun p => p.type = 1

/-- Whoever is turned away is not among those who board behind. -/
theorem not_mem_board_of_refused (rest : List Passenger) {loads : Int} {status : Status}
    {p : Passenger} (h : ¬ Admits B floor loads status p) (hf : p.startFloor = floor)
    (ht : p.type = 0 ∨ p.type = 1) : p ∉ (board B floor loads status rest).1 := by
  intro hp
  by_cases hroom : loads + 1 ≤ B.capacity
  · -- there is room, so `p` is a human and the cabin is infected
    have hhuman : p.type = 0 ∧ status = .infected := by
      rcases ht with ht | ht
      · refine ⟨ht, ?_⟩
        cases status with
        | infected => rfl
        | uninfected => exact absurd ⟨hf, hroom, Or.inr ⟨ht, rfl⟩⟩ h
      · exact absurd ⟨hf, hroom, Or.inl ht⟩ h
    obtain ⟨hz, rfl⟩ := hhuman
    have hone := board_infected hp
    omega
  · rw [board_eq_of_refused fun q _ ha => hroom ha.2.1] at hp
    simp at hp

/-- The candidates board in their order until the cabin is full. -/
theorem board_eq_candidates (w : List Passenger) (loads : Int) (status : Status)
    (hw : ∀ p ∈ w, p.startFloor = floor ∧ (p.type = 0 ∨ p.type = 1)) :
    board B floor loads status w
      = ((candidates status w).take (B.capacity - loads).toNat,
         w.diff ((candidates status w).take (B.capacity - loads).toNat)) := by
  induction w generalizing loads status with
  | nil => cases status <;> simp [board, candidates]
  | cons p rest ih =>
    obtain ⟨hf, ht⟩ := hw p (List.mem_cons_self ..)
    have hrest : ∀ q ∈ rest, q.startFloor = floor ∧ (q.type = 0 ∨ q.type = 1) :=
      fun q hq => hw q (List.mem_cons_of_mem p hq)
    by_cases ha : Admits B floor loads status p
    · -- `p` is the first candidate, and there is room
      have hcand : candidates status (p :: rest) = p :: candidates (status.with p) rest := by
        rcases ha.2.2 with hz | ⟨hh, rfl⟩
        · cases status <;> simp [candidates, Status.with, hz]
        · simp [candidates, Status.with, hh]
      have hroom : (B.capacity - loads).toNat = (B.capacity - (loads + 1)).toNat + 1 := by
        have := ha.2.1
        omega
      rw [board_cons_admitted ha, ih _ _ hrest, hcand, hroom, List.take_succ_cons,
        List.diff_cons, List.erase_cons_head]
    · have hnot := not_mem_board_of_refused rest ha hf ht
      have htake : (candidates status (p :: rest)).take (B.capacity - loads).toNat
          = (candidates status rest).take (B.capacity - loads).toNat := by
        by_cases hroom : loads + 1 ≤ B.capacity
        · have hz : p.type ≠ 1 := fun hz => ha ⟨hf, hroom, Or.inl hz⟩
          cases status with
          | infected => simp [candidates, hz]
          | uninfected => exact absurd ⟨hf, hroom, Or.inr ⟨ht.resolve_right hz, rfl⟩⟩ ha
        · rw [show (B.capacity - loads).toNat = 0 by omega, List.take_zero, List.take_zero]
      rw [board_cons_refused ha, htake]
      rw [ih _ _ hrest] at hnot ⊢
      rw [List.cons_diff_of_not_mem hnot]

end KernelElevator
