/-
KernelElevator.Proc.BufferTheorems — whether the report fits the buffers it
is built in.

`elevator_proc_open` prints each line into `temp`, mark by mark, and appends
the line to `message`. Both buffers have a fixed size, and no length is
tested; `tempWrites` and `messageWrites` are what they would have to hold
after each `sprintf` and `strcat`. All of it fits if and only if at most 40
passengers wait on each floor and the whole text is short enough
(`buffers_hold_iff`); nothing in `issue_request` sees to that.
-/
import KernelElevator.Proc.OpeningTheorems
import KernelElevator.Machine.Decimal
import Mathlib.Algebra.Order.BigOperators.Group.Finset

namespace KernelElevator.Proc

open Transition

variable (B : Building)

/-! ## §1 What the buffers hold -/

/-- The bytes of `temp`. -/
def tempSize : Nat := 100

/-- `ENTRY_SIZE`, the bytes of `message`. -/
def entrySize : Nat := 1024

/-- Lines 487–494: what `sprintf` puts before the marks of a floor. -/
def FloorLine.head (l : FloorLine) : String :=
  (if l.here then "[*" else "[ ")
    ++ (if l.floor = B.floors then "] Floor " else "] Floor  ")
    ++ toString l.floor ++ ":  " ++ toString l.count ++ " "

/-- The line of a floor in `temp`, as it grows. -/
def FloorLine.tempWrites (l : FloorLine) : List String :=
  ((List.range (l.marks.length + 1)).map fun k =>
    l.head B ++ String.join ((l.marks.take k).map Mark.text)) ++ [l.text B]

/-- The contents of `temp`. The first six lines are printed in one go. -/
def Report.tempWrites (r : Report) : List String :=
  (r.temps B).take 6 ++ r.lines.flatMap (FloorLine.tempWrites B)

/-- The contents of `message`. -/
def Report.messageWrites (r : Report) : List String :=
  (List.range ((r.temps B).length + 1)).map fun k =>
    ((r.temps B).take k).foldl (· ++ ·) "Elevator state: "

/-- No buffer is ever overrun; one byte is for the terminator. -/
structure BuffersHold (r : Report) : Prop where
  temp : ∀ t ∈ r.tempWrites B, t.length + 1 ≤ tempSize
  message : ∀ m ∈ r.messageWrites B, m.length + 1 ≤ entrySize

variable {B}

theorem length_marks (marks : List Mark) :
    (String.join (marks.map Mark.text)).length = 2 * marks.length := by
  induction marks with
  | nil => rfl
  | cons m marks ih =>
    have hmark : m.text.length = 2 := by cases m <;> rfl
    rw [List.map_cons, String.join_cons, String.length_append, ih, hmark, List.length_cons]
    omega

theorem length_foldl (temps : List String) (s : String) :
    (temps.foldl (· ++ ·) s).length = s.length + (temps.map String.length).sum := by
  induction temps generalizing s with
  | nil => rfl
  | cons t temps ih =>
    rw [List.foldl_cons, ih, String.length_append, List.map_cons, List.sum_cons]
    omega

theorem FloorLine.text_length (l : FloorLine) :
    (l.text B).length = (l.head B).length + 2 * l.marks.length + 1 := by
  have hnewline : "\n".length = 1 := rfl
  have htext : l.text B = l.head B ++ String.join (l.marks.map Mark.text) ++ "\n" := rfl
  rw [htext, String.length_append, String.length_append, length_marks, hnewline]

/-- A line fits as soon as it does in the end. -/
theorem FloorLine.tempWrites_iff (l : FloorLine) (n : Nat) :
    (∀ t ∈ l.tempWrites B, t.length + 1 ≤ n) ↔ (l.text B).length + 1 ≤ n := by
  constructor
  · intro h
    exact h _ (List.mem_append_right _ (List.mem_singleton_self _))
  · intro h t ht
    rcases List.mem_append.mp ht with ht | ht
    · obtain ⟨k, -, rfl⟩ := List.mem_map.mp ht
      have hle := List.length_take_le' k l.marks
      rw [FloorLine.text_length] at h
      rw [String.length_append, length_marks]
      omega
    · rw [List.mem_singleton.mp ht]
      exact h

/-- The message fits as soon as it does in the end. -/
theorem Report.messageWrites_iff (r : Report) (n : Nat) :
    (∀ m ∈ r.messageWrites B, m.length + 1 ≤ n) ↔ (r.text B).length + 1 ≤ n := by
  constructor
  · intro h
    refine h _ (List.mem_map.mpr ⟨(r.temps B).length, List.mem_range.mpr (Nat.lt_succ_self _), ?_⟩)
    rw [List.take_length]
    rfl
  · intro h m hm
    obtain ⟨k, -, rfl⟩ := List.mem_map.mp hm
    have hsum : (((r.temps B).take k).map String.length).sum
        ≤ ((r.temps B).map String.length).sum := by
      rw [List.map_take]
      conv_rhs => rw [← List.take_append_drop k ((r.temps B).map String.length)]
      rw [List.sum_append]
      exact Nat.le_add_right _ _
    rw [Report.text, length_foldl] at h
    rw [length_foldl]
    omega

/-! ## §2 The report of a state -/

/-- How many characters `%d` prints. -/
def decimalWidth (n : Int) : Nat := (toString n).length

/-- The characters of the report on a state in the building of the source:
the fixed ones, the two words, the numbers, and two for each passenger who
waits. -/
def reportLength (g : Globals) : Nat :=
  275 + (stateText g.state).length + (statusText g.status).length + decimalWidth g.currentFloor
    + decimalWidth g.loads + decimalWidth g.numWaiting + decimalWidth g.serviced
    + ∑ i ∈ Finset.range 10,
        (decimalWidth (g.waitingList i).length + 2 * (g.waitingList i).length)

/-- The label and the number of a floor take ten characters together. -/
theorem label_length {floor : Nat} (hlo : 1 ≤ floor) (hhi : floor ≤ 10) :
    (if floor = Building.source.floors then "] Floor " else "] Floor  ").length
      + (toString floor).length = 10 := by
  have hall : ∀ f ∈ Finset.Icc 1 10,
      (if f = Building.source.floors then "] Floor " else "] Floor  ").length
        + (toString f).length = 10 := by decide
  exact hall floor (Finset.mem_Icc.mpr ⟨hlo, hhi⟩)

theorem floorLine_length {g : Globals} (hq : QueueInv .source g) {i : Nat} (hi : i < 10) :
    ((floorLine g (i + 1)).text .source).length
      = 17 + (decimalWidth (g.waitingList i).length + 2 * (g.waitingList i).length) := by
  have hlabel := label_length (Nat.le_add_left 1 i) hi
  have hmarks : (floorLine g (i + 1)).marks.length = (g.waitingList i).length := by
    simp [floorLine]
  have hhere : (if (floorLine g (i + 1)).here then "[*" else "[ ").length = 2 := by
    cases (floorLine g (i + 1)).here <;> rfl
  have hcolon : ":  ".length = 3 := rfl
  have hblank : " ".length = 1 := rfl
  have hfloor : (floorLine g (i + 1)).floor = i + 1 := rfl
  rw [FloorLine.text_length, hmarks]
  unfold FloorLine.head
  rw [floorLine_count hq, hfloor, String.length_append, String.length_append,
    String.length_append, String.length_append, String.length_append, hhere, hcolon, hblank]
  unfold decimalWidth
  omega

/-- The lengths of the six lines above the floors. -/
theorem headTemps_length (r : Report) :
    ((r.temps B).take 6).map String.length
      = [(stateText r.state).length, (statusText r.status).length,
          16 + decimalWidth r.currentFloor, 23 + decimalWidth r.loads,
          20 + decimalWidth r.waiting, 30 + decimalWidth r.serviced] := by
  have hcurrent : "Current floor: ".length = 15 := rfl
  have hloads : "Number of passengers: ".length = 22 := rfl
  have hwaiting : "Number of waiting: ".length = 19 := rfl
  have hserviced : "Number passengers serviced: ".length = 28 := rfl
  have hone : "\n".length = 1 := rfl
  have htwo : "\n\n".length = 2 := rfl
  simp only [Report.temps, List.cons_append, List.nil_append, List.take_succ_cons, List.take_zero,
    List.map_cons, List.map_nil, String.length_append, hcurrent, hloads, hwaiting, hserviced, hone,
    htwo, decimalWidth, List.cons.injEq, and_true, true_and]
  omega

theorem linesLength_eq {g : Globals} (hq : QueueInv .source g) :
    (((downFrom 10).map (floorLine g)).map fun l => (l.text .source).length).sum
      = 170 + ∑ i ∈ Finset.range 10,
        (decimalWidth (g.waitingList i).length + 2 * (g.waitingList i).length) := by
  have hline : ∀ i ∈ Finset.range 10, ((floorLine g (i + 1)).text .source).length
      = 17 + (decimalWidth (g.waitingList i).length + 2 * (g.waitingList i).length) :=
    fun i hi => floorLine_length hq (Finset.mem_range.mp hi)
  rw [List.map_map, sum_downFrom]
  simp only [Function.comp_apply]
  rw [Finset.sum_congr rfl hline, Finset.sum_add_distrib, Finset.sum_const, Finset.card_range]
  rfl

theorem text_length {g : Globals} (hq : QueueInv .source g) :
    ((report .source g).text .source).length = reportLength g := by
  have hstate : "Elevator state: ".length = 16 := rfl
  have hlines := linesLength_eq hq
  have hhead := headTemps_length (B := .source) (report .source g)
  have hsplit : (report .source g).temps .source
      = ((report .source g).temps .source).take 6
        ++ ((downFrom 10).map (floorLine g)).map (FloorLine.text .source) := rfl
  rw [Report.text, length_foldl, hstate, hsplit, List.map_append, List.sum_append, hhead,
    List.map_map]
  simp only [Function.comp_def, hlines, List.sum_cons, List.sum_nil, reportLength, report]
  omega

/-! ## §3 When it fits -/

theorem decimalWidth_pos (n : Nat) : 1 ≤ decimalWidth n := Nat.length_repr_pos

/-- Forty passengers fit a line and forty-one do not. -/
theorem floorLine_fits_iff {g : Globals} (hq : QueueInv .source g) {i : Nat} (hi : i < 10) :
    ((floorLine g (i + 1)).text .source).length + 1 ≤ tempSize
      ↔ (g.waitingList i).length ≤ 40 := by
  have hpos := decimalWidth_pos (g.waitingList i).length
  rw [floorLine_length hq hi, tempSize]
  constructor
  · intro h
    omega
  · intro h
    have hwidth : decimalWidth (g.waitingList i).length ≤ 2 :=
      length_toString_le_of_nonneg (by decide) (by omega) (by omega)
    omega

/-- A number of at most three digits fits the lines above the floors. -/
theorem headTemps_fit_iff {g : Globals} (hloads : 0 ≤ g.loads ∧ g.loads ≤ 10)
    (hfloor : 1 ≤ g.currentFloor ∧ g.currentFloor ≤ 10)
    (hwaiting : 0 ≤ g.numWaiting ∧ g.numWaiting ≤ 400) :
    (∀ t ∈ ((report .source g).temps .source).take 6, t.length + 1 ≤ tempSize)
      ↔ decimalWidth g.serviced ≤ 69 := by
  have hwidth : ∀ n : Int, 0 ≤ n → n ≤ 400 → decimalWidth n ≤ 3 := fun n h0 hn =>
    length_toString_le_of_nonneg (by decide) h0 (by omega)
  have h1 := hwidth g.currentFloor (by omega) (by omega)
  have h2 := hwidth g.loads hloads.1 (by omega)
  have h3 := hwidth g.numWaiting hwaiting.1 hwaiting.2
  have hstate : (stateText g.state).length ≤ 9 := by cases g.state <;> decide
  have hstatus : (statusText g.status).length ≤ 28 := by cases g.status <;> decide
  have hall := headTemps_length (B := .source) (report .source g)
  have hmem : (∀ t ∈ ((report .source g).temps .source).take 6, t.length + 1 ≤ tempSize)
      ↔ ∀ n ∈ (((report .source g).temps .source).take 6).map String.length,
        n + 1 ≤ tempSize := by
    simp only [List.mem_map, forall_exists_index, and_imp, forall_apply_eq_imp_iff₂]
  rw [hmem, hall]
  simp only [report, tempSize, List.forall_mem_cons, List.not_mem_nil, false_implies,
    implies_true, and_true]
  omega

theorem lines_fit_iff {g : Globals} (hq : QueueInv .source g) :
    (∀ t ∈ (report .source g).lines.flatMap (FloorLine.tempWrites .source),
        t.length + 1 ≤ tempSize)
      ↔ ∀ i < 10, (g.waitingList (i : Nat)).length ≤ 40 := by
  constructor
  · intro h i hi
    have hmem : floorLine g (i + 1) ∈ (report .source g).lines :=
      List.mem_map_of_mem (mem_downFrom.mpr ⟨by omega, show i + 1 ≤ 10 by omega⟩)
    refine (floorLine_fits_iff hq hi).mp ((FloorLine.tempWrites_iff _ _).mp fun t ht => ?_)
    exact h t (List.mem_flatMap.mpr ⟨_, hmem, ht⟩)
  · intro h t ht
    obtain ⟨l, hl, ht⟩ := List.mem_flatMap.mp ht
    obtain ⟨floor, hfloor, rfl⟩ := List.mem_map.mp hl
    obtain ⟨hlo, hhi⟩ := mem_downFrom.mp hfloor
    obtain ⟨i, rfl⟩ : ∃ i, floor = i + 1 := ⟨floor - 1, by omega⟩
    have hi : i < 10 := hhi
    exact (FloorLine.tempWrites_iff _ _).mpr ((floorLine_fits_iff hq hi).mpr (h i hi)) t ht

/-- The queues of the floors are counted in `num_waiting`. -/
theorem numWaiting_le {g : Globals} (hq : QueueInv .source g)
    (h : ∀ i < 10, (g.waitingList (i : Nat)).length ≤ 40) : g.numWaiting ≤ 400 := by
  have hsum : ∑ i ∈ Finset.range 10, (g.waitingList i).length ≤ ∑ _i ∈ Finset.range 10, 40 :=
    Finset.sum_le_sum fun i hi => h i (Finset.mem_range.mp hi)
  have hn : g.numWaiting = ∑ i ∈ Finset.range 10, (g.waitingList i).length := hq.numWaiting_eq
  have hforty : ∑ _i ∈ Finset.range 10, 40 = 400 := rfl
  omega

/-- **The report fits its buffers** if and only if at most forty passengers
wait on each floor, the whole report is shorter than `message`, and the
number of passengers serviced has at most 69 digits. -/
theorem buffers_hold_iff (ls : List Label) :
    BuffersHold .source (report .source (Sys.after .source ls).g) ↔
      (∀ i < 10, ((Sys.after .source ls).g.waitingList (i : Nat)).length ≤ 40) ∧
        reportLength (Sys.after .source ls).g + 1 ≤ entrySize ∧
        decimalWidth (Sys.after .source ls).g.serviced ≤ 69 := by
  have hinv := Sys.inv_after (B := .source) ls
  have hq := hinv.wf.queues
  obtain ⟨k, hk⟩ := hinv.sweep
  have hfloor := hk.floor_range
  have hcap := hinv.wf.cabin.loads_le_capacity
  have hon := hinv.wf.cabin.onboard_le_loads
  generalize (Sys.after .source ls).g = g at *
  have hloads : 0 ≤ g.loads ∧ g.loads ≤ 10 := ⟨by omega, hcap⟩
  have hlines := lines_fit_iff hq
  have hmessage : (∀ m ∈ (report .source g).messageWrites .source, m.length + 1 ≤ entrySize)
      ↔ reportLength g + 1 ≤ entrySize := by
    rw [Report.messageWrites_iff, text_length hq]
  constructor
  · rintro ⟨htemp, hm⟩
    have hfew := hlines.mp fun t ht => htemp t (List.mem_append_right _ ht)
    have hwaiting := numWaiting_le hq hfew
    have hhead := headTemps_fit_iff hloads hfloor ⟨hq.numWaiting_nonneg, hwaiting⟩
    exact ⟨hfew, hmessage.mp hm, hhead.mp fun t ht => htemp t (List.mem_append_left _ ht)⟩
  · rintro ⟨hfew, hm, hserviced⟩
    have hwaiting := numWaiting_le hq hfew
    have hhead := (headTemps_fit_iff hloads hfloor ⟨hq.numWaiting_nonneg, hwaiting⟩).mpr hserviced
    refine ⟨fun t ht => ?_, hmessage.mpr hm⟩
    rcases List.mem_append.mp ht with ht | ht
    · exact hhead t ht
    · exact hlines.mpr hfew t ht

/-- Forty-one passengers wait on floor 1. -/
theorem buffer_overrun :
    ¬ ∀ ls, BuffersHold .source (report .source (Sys.after .source ls).g) := by
  intro h
  let ls := .call .startElevator :: List.replicate 41 (Label.call (.issueRequest 1 2 0))
  have hq := (Sys.inv_after (B := .source) ls).wf.queues
  have hfew := (lines_fit_iff hq).mp fun t ht => (h ls).temp t (List.mem_append_right _ ht)
  exact absurd (hfew 0 (by decide)) (by decide +kernel)

end KernelElevator.Proc
