/-
KernelElevator.Module.RequestTheorems — what the result of `issue_request`
says.

The call tests its arguments and `started`, then waits for the mutex, then
tests `deactiving` and allocates a record. Other calls and phases can come
between the first test and the locked section, so `issueRequestAcross` takes
them as an argument.

The result is 1 where a test of the arguments or of `started` fails, and 0
everywhere else: also when the wait is broken off, when a stop has come in
between, and, were it not for the fault, when there is no memory. So the
result tells the caller the truth if and only if none of the three happens
(`issueRequest_reports_iff`).
-/
import KernelElevator.Module.InvariantTheorems

namespace KernelElevator

open Transition

variable (B : Building)

/-! ## §1 The call and what it reports -/

/-- `issue_request`, entered in `s`, with the steps `between` of everybody
else after its tests of lines 112–127 and before its locked section: the
result and the globals it leaves, or a fault. -/
def issueRequestAcross (between : List Label) (lock : LockOutcome) (k : Kmalloc)
    (startFloor destinationFloor type : Int) (s : Sys) : Option (Int × Globals) :=
  let found := ((system B).run s between).g
  if issueRequestRejects B startFloor destinationFloor type s.g then some (1, found)
  else
    match lock with
    | .granted =>
      (issueRequestLocked k startFloor destinationFloor type found).map fun g => (0, g)
    | .interrupted => some (0, found)

/-- With nothing in between it is the call that nothing interrupts. -/
theorem issueRequestAcross_nil (lock : LockOutcome) (k : Kmalloc) (a b t : Int) (s : Sys) :
    issueRequestAcross B [] lock k a b t s = issueRequest B lock k a b t s.g := rfl

/-- From `g` to `g'` one passenger with the given values has been put at the
tail of the queue of `startFloor`, and counted there and in all. -/
structure Appends (startFloor destinationFloor type : Int) (g g' : Globals) : Prop where
  queue : ∃ p : Passenger, p.startFloor = startFloor ∧ p.destinationFloor = destinationFloor ∧
    p.type = type ∧ g'.waitingList = Function.update g.waitingList (startFloor - 1)
      (g.waitingList (startFloor - 1) ++ [p])
  waitingOnFloor_eq : g'.waitingOnFloor = Function.update g.waitingOnFloor (startFloor - 1)
    (g.waitingOnFloor (startFloor - 1) + 1)
  numWaiting_eq : g'.numWaiting = g.numWaiting + 1

/-- The call returns; its result is 0 exactly when it has appended the
passenger; and otherwise it has changed nothing. -/
def ReportsTruly (startFloor destinationFloor type : Int) (found : Globals) :
    Option (Int × Globals) → Prop
  | none => False
  | some (result, g) =>
    (result = 0 ↔ Appends startFloor destinationFloor type found g) ∧ (result ≠ 0 → g = found)

variable {B}

/-! ## §2 When the report is true -/

theorem appends_addPassenger (a b t : Int) (g : Globals) :
    Appends a b t g (addPassenger a b t g) :=
  ⟨⟨⟨g.allocated.length, t, a, b⟩, rfl, rfl, rfl, rfl⟩, rfl, rfl⟩

/-- Whoever changes nothing has appended nobody. -/
theorem not_appends_self (a b t : Int) (g : Globals) : ¬ Appends a b t g g := by
  intro h
  have hn := h.numWaiting_eq
  omega

/-- A call that leaves everything as it found it is reported as such by any
result but 0. -/
theorem reportsTruly_unchanged {a b t : Int} {g : Globals} {result : Int} :
    ReportsTruly a b t g (some (result, g)) ↔ result ≠ 0 := by
  simp [ReportsTruly, not_appends_self]

theorem reportsTruly_added (a b t : Int) (g : Globals) :
    ReportsTruly a b t g (some (0, addPassenger a b t g)) := by
  simp [ReportsTruly, appends_addPassenger]

/-- **What the result of `issue_request` says**: that 0 means "queued", and
anything else means "nothing happened", is true if and only if the call is
turned away by its first tests, or its wait for the mutex is not broken off,
no stop is under way by then, and there is memory for the record. -/
theorem issueRequest_reports_iff (B : Building) (ls between : List Label) (lock : LockOutcome)
    (k : Kmalloc) (a b t : Int) :
    ReportsTruly a b t ((system B).run (Sys.after B ls) between).g
        (issueRequestAcross B between lock k a b t (Sys.after B ls))
      ↔ issueRequestRejects B a b t (Sys.after B ls).g = true ∨
        (lock = .granted ∧ k = .node ∧
          ((system B).run (Sys.after B ls) between).g.deactiving = false) := by
  generalize hfound : ((system B).run (Sys.after B ls) between).g = found
  cases hr : issueRequestRejects B a b t (Sys.after B ls).g with
  | true => simp [issueRequestAcross, hr, hfound, reportsTruly_unchanged]
  | false =>
    cases lock with
    | interrupted => simp [issueRequestAcross, hr, hfound, reportsTruly_unchanged]
    | granted =>
      cases hd : found.deactiving with
      | true =>
        simp [issueRequestAcross, hr, hfound, issueRequestLocked, hd, reportsTruly_unchanged]
      | false =>
        cases k with
        | null =>
          simp [issueRequestAcross, hr, hfound, issueRequestLocked, hd, ReportsTruly]
        | node =>
          simp [issueRequestAcross, hr, hfound, issueRequestLocked, hd, reportsTruly_added]

/-- A stop lands between the test of `started` and the locked section: the
call returns 0 and the passenger is in no queue. -/
theorem issueRequest_reports_lost :
    ¬ ∀ ls between lock k a b t,
      ReportsTruly a b t ((system .source).run (Sys.after .source ls) between).g
        (issueRequestAcross .source between lock k a b t (Sys.after .source ls)) := by
  intro h
  have hlost := h [.call .startElevator] [.call .stopElevator] .granted .node 1 2 0
  exact absurd (hlost.1.mp rfl).numWaiting_eq (by decide)

end KernelElevator
