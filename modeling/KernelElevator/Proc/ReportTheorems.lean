/-
KernelElevator.Proc.ReportTheorems — what the report tells about the state.

Every number of the report ends at a blank or a line break, and the words
and marks cannot be mixed up, so the text is a row of prefix-free codes
(`toList_text`) and two equal texts show the same values. In a reachable
state the types of passengers are 0 and 1, which have marks of their own,
and the elevator is on one of the floors, whose line is the only one with
the `*`: so the report is faithful (`report_faithful`).
-/
import KernelElevator.Proc.File
import KernelElevator.Machine.Code
import KernelElevator.Machine.Decimal
import KernelElevator.Module.InvariantTheorems

namespace KernelElevator.Proc

open Transition Code

variable (B : Building)

/-! ## §1 The text as a row of codes -/

/-- The line of one number, with what stands before it. -/
def numberCode (label : String) (n : Int) : List Char :=
  label.toList ++ ((toString n).toList ++ ['\n'])

/-- The lines above the floors. -/
def headCode (v : ElevatorState × Status × Int × Int × Int × Int) : List Char :=
  ("Elevator state: ".toList ++ (stateText v.1).toList) ++ ((statusText v.2.1).toList ++
    (numberCode "Current floor: " v.2.2.1 ++ (numberCode "Number of passengers: " v.2.2.2.1 ++
      (numberCode "Number of waiting: " v.2.2.2.2.1 ++
        numberCode "Number passengers serviced: " v.2.2.2.2.2))))

/-- The line of a floor, by its indicator, its count and its marks. -/
def lineCode (floor : Nat) (v : Bool × Int × List Mark) : List Char :=
  (if v.1 then "[*" else "[ ").toList ++
    (((if floor = B.floors then "] Floor " else "] Floor  ") ++ toString floor ++ ":  ").toList ++
      (((toString v.2.1).toList ++ [' ']) ++ ((v.2.2.flatMap fun m => m.text.toList) ++ ['\n'])))

variable {B}

theorem prefixFree_state : PrefixFree fun s => (stateText s).toList := by
  intro s s' h
  cases s <;> cases s' <;> first | rfl | exact absurd h (by decide)

theorem prefixFree_status : PrefixFree fun s => (statusText s).toList := by
  intro s s' h
  cases s <;> cases s' <;> first | rfl | exact absurd h (by decide)

theorem prefixFree_mark : PrefixFree fun m : Mark => m.text.toList := by
  intro m m' h
  cases m <;> cases m' <;> first | rfl | exact absurd h (by decide)

theorem prefixFree_indicator :
    PrefixFree fun here : Bool => (if here then "[*" else "[ ").toList := by
  intro b b' h
  cases b <;> cases b' <;> first | rfl | exact absurd h (by decide)

theorem toList_toString_injective : Function.Injective fun n : Int => (toString n).toList :=
  fun _ _ h => toString_injective (String.toList_inj.mp h)

theorem prefixFree_number (label : String) : PrefixFree (numberCode label) :=
  (prefixFree_terminated toList_toString_injective
    (not_mem_toString rfl (by decide))).after label.toList

theorem prefixFree_head : PrefixFree headCode :=
  (prefixFree_state.after _).pair <| prefixFree_status.pair <| (prefixFree_number _).pair <|
    (prefixFree_number _).pair <| (prefixFree_number _).pair (prefixFree_number _)

theorem prefixFree_marks :
    PrefixFree fun marks : List Mark => (marks.flatMap fun m => m.text.toList) ++ ['\n'] := by
  refine prefixFree_terminated (prefixFree_mark.flatMap_injective fun m => ?_) fun marks hmem => ?_
  · cases m <;> decide
  · obtain ⟨m, -, hm⟩ := List.mem_flatMap.mp hmem
    cases m <;> exact absurd hm (by decide)

theorem prefixFree_line (floor : Nat) : PrefixFree (lineCode B floor) :=
  prefixFree_indicator.pair <| PrefixFree.after ((prefixFree_terminated toList_toString_injective
    (not_mem_toString rfl (by decide))).pair prefixFree_marks) _

theorem toList_foldl_append (temps : List String) (s : String) :
    (temps.foldl (· ++ ·) s).toList = s.toList ++ temps.flatMap String.toList := by
  induction temps generalizing s with
  | nil => simp
  | cons t temps ih => simp [ih]

theorem FloorLine.toList_text (l : FloorLine) :
    (l.text B).toList = lineCode B l.floor (l.here, l.count, l.marks) := by
  have hblank : " ".toList = [' '] := rfl
  have hbreak : "\n".toList = ['\n'] := rfl
  simp only [FloorLine.text, lineCode, String.toList_append, String.toList_join, hblank, hbreak,
    List.append_assoc, List.flatMap_map]

theorem toList_number (label : String) (n : Int) :
    (label ++ toString n ++ "\n").toList = numberCode label n := by
  have hbreak : "\n".toList = ['\n'] := rfl
  rw [numberCode, String.toList_append, String.toList_append, hbreak, List.append_assoc]

/-- The number of passengers serviced has an empty line after it. -/
theorem toList_number_last (label : String) (n : Int) :
    (label ++ toString n ++ "\n\n").toList = numberCode label n ++ ['\n'] := by
  have hbreaks : "\n\n".toList = ['\n'] ++ ['\n'] := rfl
  rw [numberCode, String.toList_append, String.toList_append, hbreaks, List.append_assoc,
    List.append_assoc, List.append_assoc]

theorem Report.toList_text (r : Report) :
    (r.text B).toList
      = headCode (r.state, r.status, r.currentFloor, r.loads, r.waiting, r.serviced) ++
        '\n' :: r.lines.flatMap fun l => lineCode B l.floor (l.here, l.count, l.marks) := by
  rw [Report.text, toList_foldl_append, Report.temps, List.flatMap_append, List.flatMap_map]
  unfold headCode
  simp only [List.flatMap_cons, List.flatMap_nil, FloorLine.toList_text]
  rw [toList_number, toList_number, toList_number, toList_number_last]
  simp only [List.append_assoc, List.singleton_append, List.append_nil]

/-! ## §2 What two equal texts have in common -/

/-- What is shown of a floor. -/
def FloorLine.shown (l : FloorLine) : Bool × Int × List Mark := (l.here, l.count, l.marks)

theorem toList_report (g : Globals) :
    ((report B g).text B).toList
      = headCode (g.state, g.status, g.currentFloor, g.loads, g.numWaiting, g.serviced) ++
        '\n' :: (downFrom B.floors).flatMap fun i => lineCode B i (floorLine g i).shown := by
  rw [Report.toList_text, report, List.flatMap_map]
  rfl

/-- The text says what the values are that it is made from. -/
theorem report_inj {g g' : Globals} (h : (report B g).text B = (report B g').text B) :
    (g.state, g.status, g.currentFloor, g.loads, g.numWaiting, g.serviced)
        = (g'.state, g'.status, g'.currentFloor, g'.loads, g'.numWaiting, g'.serviced) ∧
      ∀ i ∈ downFrom B.floors, (floorLine g i).shown = (floorLine g' i).shown := by
  have hchars := congrArg String.toList h
  rw [toList_report, toList_report] at hchars
  obtain ⟨hhead, hrest⟩ := prefixFree_head.append_inj hchars
  have hlines := congrArg (fun t => t ++ []) (List.cons.inj hrest).2
  exact ⟨hhead, flatMap_inj (fun i _ => prefixFree_line i) hlines⟩

/-- The type a mark stands for. -/
def Mark.type : Mark → Int
  | .human => 0
  | .zombie => 1

theorem Mark.type_of {type : Int} (h : type = 0 ∨ type = 1) : (Mark.of type).type = type := by
  rcases h with rfl | rfl <;> rfl

/-- The marks of a queue show the types of its passengers. -/
theorem types_eq {w w' : List Passenger} (hw : ∀ p ∈ w, p.type = 0 ∨ p.type = 1)
    (hw' : ∀ p ∈ w', p.type = 0 ∨ p.type = 1)
    (h : (w.map fun p => Mark.of p.type) = w'.map fun p => Mark.of p.type) :
    w.map Passenger.type = w'.map Passenger.type := by
  have hread : ∀ v : List Passenger, (∀ p ∈ v, p.type = 0 ∨ p.type = 1) →
      v.map Passenger.type = (v.map fun p => Mark.of p.type).map Mark.type := by
    intro v hv
    rw [List.map_map]
    exact List.map_congr_left fun p hp => (Mark.type_of (hv p hp)).symm
  rw [hread w hw, hread w' hw', h]

/-- The two states agree in everything that the report is about. -/
structure SameShown (B : Building) (g g' : Globals) : Prop where
  state : g.state = g'.state
  status : g.status = g'.status
  currentFloor : g.currentFloor = g'.currentFloor
  loads : g.loads = g'.loads
  numWaiting : g.numWaiting = g'.numWaiting
  serviced : g.serviced = g'.serviced
  waitingOnFloor : ∀ i : Nat, i < B.floors → g.waitingOnFloor i = g'.waitingOnFloor i
  types : ∀ i : Nat, i < B.floors →
    (g.waitingList i).map Passenger.type = (g'.waitingList i).map Passenger.type

/-- Where all types are 0 or 1, equal texts are of states that agree. -/
theorem sameShown_of_text {g g' : Globals} (hq : QueueInv B g) (hq' : QueueInv B g')
    (h : (report B g).text B = (report B g').text B) : SameShown B g g' := by
  obtain ⟨hhead, hlines⟩ := report_inj h
  simp only [Prod.mk.injEq] at hhead
  obtain ⟨hstate, hstatus, hcurrent, hloads, hwaiting, hserviced⟩ := hhead
  have hfloor : ∀ i : Nat, i < B.floors → g.waitingOnFloor i = g'.waitingOnFloor i ∧
      ((g.waitingList i).map fun p => Mark.of p.type)
        = (g'.waitingList i).map fun p => Mark.of p.type := by
    intro i hi
    have hline := hlines (i + 1) (mem_downFrom.mpr ⟨by omega, hi⟩)
    simp only [FloorLine.shown, floorLine, Prod.mk.injEq] at hline
    rw [show ((i + 1 : Nat) : Int) - 1 = i by omega] at hline
    exact ⟨hline.2.1, hline.2.2⟩
  refine ⟨hstate, hstatus, hcurrent, hloads, hwaiting, hserviced, fun i hi => (hfloor i hi).1,
    fun i hi => types_eq (fun p hp => ?_) (fun p hp => ?_) (hfloor i hi).2⟩
  · exact (hq.waiting_ok i p hp).1.type_eq
  · exact (hq'.waiting_ok i p hp).1.type_eq

/-- Nothing else goes into the text. -/
theorem text_of_sameShown {g g' : Globals} (h : SameShown B g g') :
    (report B g).text B = (report B g').text B := by
  have hmarks : ∀ v : List Passenger,
      (v.map fun p => Mark.of p.type) = (v.map Passenger.type).map Mark.of := by
    intro v
    rw [List.map_map]
    rfl
  have hlines : (downFrom B.floors).map (floorLine g) = (downFrom B.floors).map (floorLine g') := by
    refine List.map_congr_left fun i hi => ?_
    obtain ⟨hlo, hhi⟩ := mem_downFrom.mp hi
    have hindex : (i : Int) - 1 = (i - 1 : Nat) := by omega
    rw [floorLine, floorLine, hindex, h.currentFloor, h.waitingOnFloor _ (by omega), hmarks,
      hmarks, h.types _ (by omega)]
  rw [report, report, h.state, h.status, h.currentFloor, h.loads, h.numWaiting, h.serviced, hlines]

/-! ## §3 The marker -/

/-- The text has one `*`, at the head of the line of the floor `i`, on which
the elevator is. -/
structure MarkedAt (B : Building) (g : Globals) (i : Nat) (above below : List Char) : Prop where
  currentFloor : g.currentFloor = i
  range : 1 ≤ i ∧ i ≤ B.floors
  text : ((report B g).text B).toList = above ++ ((floorLine g i).text B).toList ++ below
  line : ∃ rest, ((floorLine g i).text B).toList = '[' :: '*' :: rest ∧ '*' ∉ rest
  above : '*' ∉ above
  below : '*' ∉ below

theorem star_not_mem_number {label : String} (hlabel : '*' ∉ label.toList) (n : Int) :
    '*' ∉ numberCode label n := by
  rw [numberCode, List.mem_append, List.mem_append, not_or, not_or]
  exact ⟨hlabel, not_mem_toString rfl (by decide) n, by decide⟩

theorem star_not_mem_head (v : ElevatorState × Status × Int × Int × Int × Int) :
    '*' ∉ headCode v := by
  unfold headCode
  simp only [List.mem_append, not_or]
  refine ⟨⟨by decide, ?_⟩, ?_, star_not_mem_number (by decide) _,
    star_not_mem_number (by decide) _, star_not_mem_number (by decide) _,
    star_not_mem_number (by decide) _⟩
  · cases v.1 <;> decide
  · cases v.2.1 <;> decide

/-- Only the indicator of a line can be a `*`. -/
theorem lineCode_eq (floor : Nat) (v : Bool × Int × List Mark) :
    ∃ rest, lineCode B floor v = (if v.1 then "[*" else "[ ").toList ++ rest ∧ '*' ∉ rest := by
  refine ⟨_, rfl, ?_⟩
  have hfloor : '*' ∉ (toString floor).toList :=
    not_mem_toString (c := '*') rfl (by decide) (floor : Int)
  have hmarks : '*' ∉ v.2.2.flatMap fun m => m.text.toList := by
    intro hmem
    obtain ⟨m, -, hm⟩ := List.mem_flatMap.mp hmem
    cases m <;> exact absurd hm (by decide)
  simp only [String.toList_append, List.mem_append, not_or]
  refine ⟨⟨⟨?_, hfloor⟩, by decide⟩, ⟨not_mem_toString rfl (by decide) _, by decide⟩, hmarks,
    by decide⟩
  split <;> decide

theorem star_not_mem_line {g : Globals} {i : Nat} (h : g.currentFloor ≠ i) :
    '*' ∉ lineCode B i (floorLine g i).shown := by
  obtain ⟨rest, hline, hrest⟩ := lineCode_eq (B := B) i (floorLine g i).shown
  have hhere : (floorLine g i).shown.1 = false := decide_eq_false h
  rw [hline, hhere, List.mem_append, not_or]
  exact ⟨by decide, hrest⟩

theorem star_not_mem_lines {g : Globals} {is : List Nat} (h : ∀ i ∈ is, g.currentFloor ≠ i) :
    '*' ∉ is.flatMap fun i => lineCode B i (floorLine g i).shown := by
  intro hmem
  obtain ⟨i, hi, hstar⟩ := List.mem_flatMap.mp hmem
  exact star_not_mem_line (h i hi) hstar

/-- Every floor is read once, the current one among them. -/
theorem exists_markedAt {g : Globals} (hlo : 1 ≤ g.currentFloor) (hhi : g.currentFloor ≤ B.floors) :
    ∃ i above below, MarkedAt B g i above below := by
  obtain ⟨i, hi⟩ := Int.eq_ofNat_of_zero_le (show 0 ≤ g.currentFloor by omega)
  have hrange : 1 ≤ i ∧ i ≤ B.floors := by omega
  obtain ⟨pre, post, hsplit⟩ := List.append_of_mem (mem_downFrom.mpr hrange)
  have hnodup := nodup_downFrom B.floors
  rw [hsplit, List.nodup_middle, List.nodup_cons, List.mem_append, not_or] at hnodup
  obtain ⟨⟨hpre, hpost⟩, -⟩ := hnodup
  have hother : ∀ is : List Nat, i ∉ is → ∀ j ∈ is, g.currentFloor ≠ j := by
    intro is his j hj heq
    rw [show i = j by omega] at his
    exact his hj
  obtain ⟨rest, hline, hrest⟩ := lineCode_eq (B := B) i (floorLine g i).shown
  have hhere : (floorLine g i).shown.1 = true := decide_eq_true hi
  rw [hhere] at hline
  refine ⟨i, headCode (g.state, g.status, g.currentFloor, g.loads, g.numWaiting, g.serviced) ++
    '\n' :: pre.flatMap fun j => lineCode B j (floorLine g j).shown,
    post.flatMap fun j => lineCode B j (floorLine g j).shown,
    hi, hrange, ?_, ⟨rest, (FloorLine.toList_text _).trans hline, hrest⟩, ?_,
    star_not_mem_lines (hother post hpost)⟩
  · rw [toList_report, hsplit, List.flatMap_append, List.flatMap_cons, FloorLine.toList_text,
      List.append_assoc, List.append_assoc, List.cons_append]
    rfl
  · rw [List.mem_append, List.mem_cons, not_or, not_or]
    exact ⟨star_not_mem_head _, by decide, star_not_mem_lines (hother pre hpre)⟩

/-! ## §4 Every reachable state -/

/-- **The report is faithful**: the messages of two reachable states are the
same if and only if the states agree in all that is shown, and every message
has one `*`, on the line of the current floor. -/
theorem report_faithful (B : Building) (ls ls' : List Label) :
    (elevatorProcOpen B .node .node (Sys.after B ls).g
        = elevatorProcOpen B .node .node (Sys.after B ls').g
      ↔ SameShown B (Sys.after B ls).g (Sys.after B ls').g) ∧
    ∃ i above below, MarkedAt B (Sys.after B ls).g i above below := by
  obtain ⟨k, hk⟩ := (Sys.inv_after (B := B) ls).sweep
  have hq := (Sys.inv_after (B := B) ls).wf.queues
  have hq' := (Sys.inv_after (B := B) ls').wf.queues
  have hfloor := hk.floor_range
  generalize (Sys.after B ls).g = g at hq hfloor ⊢
  generalize (Sys.after B ls').g = g' at hq' ⊢
  refine ⟨?_, exists_markedAt hfloor.1 hfloor.2⟩
  have hopen : elevatorProcOpen B .node .node g = elevatorProcOpen B .node .node g'
      ↔ (report B g).text B = (report B g').text B := by
    simp [elevatorProcOpen]
  rw [hopen]
  exact ⟨sameShown_of_text hq hq', text_of_sameShown⟩

end KernelElevator.Proc
