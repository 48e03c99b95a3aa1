/-
KernelElevator.Module.DeskTheorems — what callers are told.

The three calls look at `started`, `deactiving` and their arguments, and the
scheduler writes `deactiving`. It never shows: `deactiving` is only ever set
while `started` is not. So a caller could as well talk to a desk that is open
or closed and has a list of the requests it took (`Desk`), with no elevator
behind it: results and accepted requests are the same, wherever the phases of
the scheduler fall between the calls (`calls_see_the_desk`).

For the calls of concurrent threads this does not hold: there a start or a
stop has two writes, and others see the state between them.
-/
import KernelElevator.Module.RestartTheorems
import KernelElevator.Machine.Simulation

namespace KernelElevator

open Transition

variable (B : Building)

/-- Whether requests are taken, and those that were. -/
structure Desk where
  isOpen : Bool
  accepted : List Passenger
  deriving DecidableEq, Repr

/-- What the arguments of a request have to be. -/
def requestable (startFloor destinationFloor type : Int) : Bool :=
  decide (type = 0 ∨ type = 1) && decide (1 ≤ startFloor ∧ startFloor ≤ B.floors)
    && decide (1 ≤ destinationFloor ∧ destinationFloor ≤ B.floors)

/-- The result of a call, and the desk after it. -/
def Desk.answer (d : Desk) : Call → Int
  | .startElevator => if d.isOpen then 1 else 0
  | .stopElevator => if d.isOpen then 0 else 1
  | .issueRequest a b t => if d.isOpen && requestable B a b t then 0 else 1

def Desk.next (d : Desk) : Call → Desk
  | .startElevator => { d with isOpen := true }
  | .stopElevator => { d with isOpen := false }
  | .issueRequest a b t =>
    if d.isOpen && requestable B a b t then
      { d with accepted := d.accepted ++ [⟨d.accepted.length, t, a, b⟩] }
    else d

def desk : Machine Desk Call where
  init := ⟨false, []⟩
  step := Desk.next B

/-- The calls of a run. -/
def Label.call? : Label → Option Call
  | .call c => some c
  | .scheduler => none

/-- What the module shows of a desk. -/
def Sys.desk (s : Sys) : Desk := ⟨s.g.started, s.g.allocated⟩

variable {B}

theorem requestable_iff {a b t : Int} : requestable B a b t = true ↔ Requestable B a b t := by
  simp only [requestable, Bool.and_eq_true, decide_eq_true_eq]
  constructor
  · intro h
    exact ⟨h.1.1, h.1.2.1, h.1.2.2, h.2.1, h.2.2⟩
  · intro h
    exact ⟨⟨h.type_eq, h.start_pos, h.start_le⟩, h.destination_pos, h.destination_le⟩

theorem rejects_eq (a b t : Int) (g : Globals) :
    issueRequestRejects B a b t g = !(g.started && requestable B a b t) := by
  rw [Bool.eq_iff_iff, ← not_iff_not, Bool.not_eq_true, Bool.not_eq_true, issueRequestRejects_iff,
    ← requestable_iff]
  simp

/-- A call does to the desk, and answers, as the desk would. -/
theorem exec_desk {g : Globals} (h : g.deactiving = true → g.started = false) (c : Call) :
    (c.exec B g).1 = Desk.answer B ⟨g.started, g.allocated⟩ c ∧
      (⟨(c.exec B g).2.started, (c.exec B g).2.allocated⟩ : Desk)
        = Desk.next B ⟨g.started, g.allocated⟩ c := by
  cases c with
  | startElevator =>
    cases hs : g.started <;> simp [Call.exec, startElevator, Desk.answer, Desk.next, hs]
  | stopElevator =>
    by_cases ht : StopTakes g
    · simp [Call.exec, stopElevator_takes ht, Desk.answer, Desk.next, ht.1]
    · have hs : g.started = false := by
        cases hd : g.deactiving with
        | true => exact h hd
        | false => simpa [StopTakes, hd] using ht
      simp [Call.exec, stopElevator_rejected ht, Desk.answer, Desk.next, hs]
  | issueRequest a b t =>
    cases hr : issueRequestRejects B a b t g with
    | true =>
      have hdesk : (g.started && requestable B a b t) = false := by
        rw [rejects_eq, Bool.not_eq_true'] at hr
        exact hr
      simp only [Call.exec, issueRequest_rejected hr, Option.getD_some, Desk.answer, Desk.next,
        hdesk]
      simp
    | false =>
      have hs := (issueRequestRejects_iff.mp hr).1
      have hd : g.deactiving = false := by
        cases hd : g.deactiving with
        | false => rfl
        | true => rw [h hd] at hs; cases hs
      have hdesk : (g.started && requestable B a b t) = true := by
        simpa [rejects_eq] using hr
      simp only [Call.exec, issueRequest_accepted hr hd, Option.getD_some, Desk.answer, Desk.next,
        hdesk]
      simp [addPassenger]

/-- The scheduler touches neither the flag nor the list of the desk. -/
theorem schedulerStep_desk (s : Sys) : (schedulerStep B s).desk = s.desk := by
  have he := schedulerStep_effect (B := B) s
  unfold Sys.desk
  generalize (schedulerStep B s).g = g' at he ⊢
  cases he with
  | unloaded _ => rw [unloadPassengers_granted]
  | loaded _ _ _ => rw [loadLocked_eq]; rfl
  | _ => rfl

/-- **Callers cannot tell the module from a desk**: in every run of calls and
phases, the results of the calls, the flag `started` and the requests taken,
in their order, are those of the desk on the calls alone. The phases of the
scheduler between them make no difference. -/
theorem calls_see_the_desk (B : Building) (ls : List Label) :
    (Sys.after B ls).desk = (desk B).run (desk B).init (ls.filterMap Label.call?) ∧
      ((system B).outputs (fun s l => l.result B s.g) (loaded B) ls).filterMap id
        = (desk B).outputs (Desk.answer B) (desk B).init (ls.filterMap Label.call?) := by
  refine (system B).run_projected (desk B) (I := fun s => s.Inv B) (f := Sys.desk)
    (fun s l h => h.step l) ?_ ?_ ls _ loaded_inv
  · intro s l _ hl
    cases l with
    | call c => cases hl
    | scheduler => exact ⟨schedulerStep_desk s, rfl⟩
  · intro s l c h hl
    cases l with
    | scheduler => cases hl
    | call c' =>
      obtain rfl : c' = c := Option.some.inj hl
      obtain ⟨hanswer, hnext⟩ := exec_desk h.wf.stopping c'
      exact ⟨hnext, congrArg some hanswer⟩

end KernelElevator
