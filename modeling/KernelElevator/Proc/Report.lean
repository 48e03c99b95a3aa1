/-
KernelElevator.Proc.Report — the report that `elevator_proc_open` builds
(lines 425–515).

A `Report` holds the values the function has read; `Report.text` is the
string it makes of them. `temps` are the contents of the buffer `temp`, one
for each `strcat(message, temp)`. Neither buffer is bounded here.

The function reads the globals one after the other and takes no lock.
`openStep` is one such read, and `OpenPc` says which one comes next; `report`
is what it reads when nothing happens in between (`openStep_alone`).
-/
import KernelElevator.Module.State
import Mathlib.Logic.Function.Iterate

namespace KernelElevator.Proc

variable (B : Building)

/-- What a floor's line shows for one waiting passenger. -/
inductive Mark where
  | human
  | zombie
  deriving DecidableEq, Repr

/-- Lines 501–508: type 0 is marked as a human, any other as a zombie. -/
def Mark.of (type : Int) : Mark := if type = 0 then .human else .zombie

def Mark.text : Mark → String
  | .human => " |"
  | .zombie => " X"

/-- What is read for the line of one floor. -/
structure FloorLine where
  floor : Nat
  here : Bool
  count : Int
  marks : List Mark
  deriving DecidableEq, Repr

/-- What is read for the whole report. -/
structure Report where
  state : ElevatorState
  status : Status
  currentFloor : Int
  loads : Int
  waiting : Int
  serviced : Int
  lines : List FloorLine
  deriving DecidableEq, Repr

/-! ## The text -/

def stateText : ElevatorState → String
  | .offline => "OFFLINE\n"
  | .idle => "IDELE \n"
  | .loading => "LOADING \n"
  | .up => "UP\n"
  | .down => "DOWN\n"

def statusText : Status → String
  | .uninfected => "ELevator status: Uninfected\n"
  | .infected => "ELevator status: Infected\n"

/-- Lines 481–513: the line of a floor. The top floor has one blank less
before its number. -/
def FloorLine.text (l : FloorLine) : String :=
  (if l.here then "[*" else "[ ")
    ++ (if l.floor = B.floors then "] Floor " else "] Floor  ")
    ++ toString l.floor ++ ":  " ++ toString l.count ++ " "
    ++ String.join (l.marks.map Mark.text) ++ "\n"

/-- What `temp` holds at each `strcat(message, temp)`. -/
def Report.temps (r : Report) : List String :=
  [stateText r.state, statusText r.status,
    "Current floor: " ++ toString r.currentFloor ++ "\n",
    "Number of passengers: " ++ toString r.loads ++ "\n",
    "Number of waiting: " ++ toString r.waiting ++ "\n",
    "Number passengers serviced: " ++ toString r.serviced ++ "\n\n"]
    ++ r.lines.map (FloorLine.text B)

/-- The string `message`. -/
def Report.text (r : Report) : String := r.temps B |>.foldl (· ++ ·) "Elevator state: "

/-! ## Reading it in one go -/

/-- The floors in the order of the loop `for (i = FLOORS; i > 0; i--)`. -/
def downFrom : Nat → List Nat
  | 0 => []
  | n + 1 => (n + 1) :: downFrom n

def floorLine (g : Globals) (floor : Nat) : FloorLine where
  floor := floor
  here := decide (g.currentFloor = floor)
  count := g.waitingOnFloor (floor - 1)
  marks := (g.waitingList (floor - 1)).map fun p => Mark.of p.type

/-- The report on one state. -/
def report (g : Globals) : Report where
  state := g.state
  status := g.status
  currentFloor := g.currentFloor
  loads := g.loads
  waiting := g.numWaiting
  serviced := g.serviced
  lines := (downFrom B.floors).map (floorLine g)

/-! ## Reading it piece by piece -/

/-- The next read: of one of the values of the head, or for the line of a
floor, with what has been read for that line already. -/
inductive OpenPc where
  | state
  | status
  | currentFloor
  | loads
  | waiting
  | serviced
  | indicator (floor : Nat)
  | count (floor : Nat) (here : Bool)
  | marks (floor : Nat) (here : Bool) (count : Int)
  | finished
  deriving DecidableEq, Repr

/-- The test `i > 0` of the loop over the floors. -/
def OpenPc.floorLoop : Nat → OpenPc
  | 0 => .finished
  | i + 1 => .indicator (i + 1)

/-- Nothing has been read. -/
def Report.blank : Report := ⟨.offline, .uninfected, 0, 0, 0, 0, []⟩

/-- One read. -/
def openStep (g : Globals) : OpenPc × Report → OpenPc × Report
  | (.state, r) => (.status, { r with state := g.state })
  | (.status, r) => (.currentFloor, { r with status := g.status })
  | (.currentFloor, r) => (.loads, { r with currentFloor := g.currentFloor })
  | (.loads, r) => (.waiting, { r with loads := g.loads })
  | (.waiting, r) => (.serviced, { r with waiting := g.numWaiting })
  | (.serviced, r) => (.floorLoop B.floors, { r with serviced := g.serviced })
  | (.indicator i, r) => (.count i (decide (g.currentFloor = i)), r)
  | (.count i here, r) => (.marks i here (g.waitingOnFloor (i - 1)), r)
  | (.marks i here count, r) =>
    (.floorLoop (i - 1), { r with
      lines := r.lines ++
        [⟨i, here, count, (g.waitingList (i - 1)).map fun p => Mark.of p.type⟩] })
  | (.finished, r) => (.finished, r)

variable {B}

theorem mem_downFrom {n i : Nat} : i ∈ downFrom n ↔ 1 ≤ i ∧ i ≤ n := by
  induction n with
  | zero =>
    simp only [downFrom, List.not_mem_nil, false_iff]
    omega
  | succ n ih =>
    rw [downFrom, List.mem_cons, ih]
    omega

theorem nodup_downFrom (n : Nat) : (downFrom n).Nodup := by
  induction n with
  | zero => exact List.nodup_nil
  | succ n ih =>
    refine List.nodup_cons.mpr ⟨fun h => ?_, ih⟩
    have := (mem_downFrom.mp h).2
    omega

theorem openStep_lines (g : Globals) (n : Nat) (r : Report) :
    (openStep B g)^[3 * n] (.floorLoop n, r)
      = (.finished, { r with lines := r.lines ++ (downFrom n).map (floorLine g) }) := by
  induction n generalizing r with
  | zero => simp [OpenPc.floorLoop, downFrom]
  | succ n ih =>
    have hthree : (openStep B g)^[3] (.floorLoop (n + 1), r)
        = (.floorLoop n, { r with lines := r.lines ++ [floorLine g (n + 1)] }) := by
      simp [OpenPc.floorLoop, openStep, floorLine]
    rw [Nat.mul_add, Function.iterate_add_apply, Nat.mul_one, hthree, ih, downFrom]
    simp

/-- Left alone, the reads make the report on the state they all see. -/
theorem openStep_alone (g : Globals) :
    (openStep B g)^[3 * B.floors + 6] (.state, .blank) = (.finished, report B g) := by
  have hhead : (openStep B g)^[6] (.state, .blank)
      = (.floorLoop B.floors, { report B g with lines := [] }) := rfl
  rw [Function.iterate_add_apply, hhead, openStep_lines]
  rfl

end KernelElevator.Proc
