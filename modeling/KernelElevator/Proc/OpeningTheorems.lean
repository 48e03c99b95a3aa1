/-
KernelElevator.Proc.OpeningTheorems — the counts in a report when calls and
phases come between the reads it is made of.

`Opening` is the module together with one `elevator_proc_open` that is under
way; the two take their steps in any order. In a report on one single state
the counts agree: it is `Consistent` (`report_consistent`). In one that is
read while passengers join and board they do so if and only if what it misses
cancels out: over each line between its count and its marks, and over the
whole report between `num_waiting` and the counts of the floors
(`consistent_iff`).

The sums of what is missed are kept beside the state as totals of the run:

  §1 the machine, and what a step does to the length of a queue;
  §2 which lines there are at each point of the function;
  §3 the number of waiting passengers against the counts;
  §4 the count of a line against its marks;
  §5 the report.
-/
import KernelElevator.Proc.Report
import KernelElevator.Module.InvariantTheorems
import Mathlib.Algebra.BigOperators.Ring.Finset

namespace KernelElevator.Proc

open Transition

variable (B : Building)

/-! ## §1 The reads between the steps of the module -/

/-- The module, the next read of `elevator_proc_open`, and what it has read. -/
structure Opening where
  sys : Sys
  pc : OpenPc
  report : Report

inductive OpenLabel where
  | module (l : Label)
  | read
  deriving DecidableEq, Repr

def Opening.step (s : Opening) : OpenLabel → Opening
  | .module l => { s with sys := s.sys.step B l }
  | .read =>
    let r := openStep B s.sys.g (s.pc, s.report)
    ⟨s.sys, r.1, r.2⟩

/-- One opening of the file, beginning anywhere in a run of the module. -/
def opening : Machine Opening OpenLabel where
  init := ⟨loaded B, .state, .blank⟩
  step := Opening.step B

/-- How many passengers the step adds to the queue with index `i`. -/
def joining (s : Sys) (l : Label) (i : Int) : Nat :=
  match l with
  | .call (.issueRequest a b t) =>
    if issueRequestRejects B a b t s.g = false ∧ s.g.deactiving = false ∧ i = a - 1 then 1 else 0
  | _ => 0

/-- How many passengers the step takes from the queue with index `i`. -/
def boarding (s : Sys) (l : Label) (i : Int) : Nat :=
  match l, s.pc with
  | .scheduler, .load _ =>
    if s.g.loads < B.capacity ∧ i = s.g.currentFloor - 1 then (boarders B s.g).length else 0
  | _, _ => 0

/-- By how much the step lengthens the queue with index `i`. -/
def queueGain (s : Sys) (l : Label) (i : Int) : Int := joining B s l i - boarding B s l i

variable {B}

theorem exec_length (s : Sys) (c : Call) (i : Int) :
    ((c.exec B s.g).2.waitingList i).length
      = (s.g.waitingList i).length + joining B s (.call c) i := by
  cases c with
  | startElevator =>
    simp only [Call.exec, startElevator, joining]
    split <;> rfl
  | stopElevator =>
    by_cases h : StopTakes s.g
    · simp [Call.exec, stopElevator_takes h, joining]
    · simp [Call.exec, stopElevator_rejected h, joining]
  | issueRequest a b t =>
    simp only [Call.exec, joining]
    cases hr : issueRequestRejects B a b t s.g with
    | true => simp [issueRequest_rejected hr]
    | false =>
      cases hd : s.g.deactiving with
      | true => simp [issueRequest_deactiving hr hd]
      | false =>
        rw [issueRequest_accepted hr hd]
        by_cases hi : i = a - 1
        · simp [addPassenger, hi]
        · simp [addPassenger, hi]

theorem loadPhase_length (s : Sys) (us : Bool) (hpc : s.pc = .load us) (i : Int) :
    ((loadPhase B s.g).1.waitingList i).length + boarding B s .scheduler i
      = (s.g.waitingList i).length := by
  simp only [boarding, hpc]
  by_cases hroom : s.g.loads < B.capacity
  · have hlen := boarders_length_add (B := B) s.g
    rw [loadPhase_room B hroom, loadLocked_eq]
    by_cases hi : i = s.g.currentFloor - 1
    · subst hi
      simp only [Function.update_self, hroom, and_self, if_true]
      omega
    · simp [hi]
  · simp [loadPhase_full B hroom, hroom]

theorem schedulerStep_length (s : Sys) (i : Int) :
    ((schedulerStep B s).g.waitingList i).length + boarding B s .scheduler i
      = (s.g.waitingList i).length := by
  cases hpc : s.pc with
  | load us =>
    simp only [schedulerStep, hpc]
    exact loadPhase_length s us hpc i
  | top =>
    simp only [schedulerStep, boarding, hpc, standBy_eq, ssleep]
    split <;> rfl
  | unload => simp [schedulerStep, boarding, hpc, unloadPassengers_granted]
  | loading us ls => simp [schedulerStep, boarding, hpc, loadingPhase_eq]
  | dispatch =>
    simp only [schedulerStep, boarding, hpc, settle, changeElevatorState_eq, ssleep]
    split
    · rfl
    · split <;> rfl
  | move =>
    obtain ⟨current, next, hmove⟩ := moveElevator_frame B s.g
    simp [schedulerStep, boarding, hpc, hmove]

/-- Whoever joins or boards is counted by `queueGain`. -/
theorem step_length (s : Sys) (l : Label) (i : Int) :
    (((s.step B l).g.waitingList i).length : Int)
      = (s.g.waitingList i).length + queueGain B s l i := by
  cases l with
  | call c =>
    have hlen := exec_length (B := B) s c i
    simp only [Sys.step, queueGain, show boarding B s (.call c) i = 0 from rfl]
    omega
  | scheduler =>
    have hlen := schedulerStep_length (B := B) s i
    simp only [Sys.step, queueGain, show joining B s .scheduler i = 0 from rfl]
    omega

/-! ## §2 The lines at each point -/

variable (B)

/-- The floors whose lines are not finished. -/
def OpenPc.todo : OpenPc → List Nat
  | .indicator i | .count i _ | .marks i _ _ => i :: downFrom (i - 1)
  | .finished => []
  | _ => downFrom B.floors

/-- The lines written and those to come are those of all the floors. -/
def Opening.LinesInv (s : Opening) : Prop :=
  s.report.lines.map FloorLine.floor ++ s.pc.todo B = downFrom B.floors

variable {B}

theorem todo_floorLoop (n : Nat) : (OpenPc.floorLoop n).todo B = downFrom n := by
  cases n <;> rfl

theorem Opening.LinesInv.step {s : Opening} (h : s.LinesInv B) (l : OpenLabel) :
    (s.step B l).LinesInv B := by
  obtain ⟨sys, pc, report⟩ := s
  cases l with
  | module l => exact h
  | read =>
    cases pc with
    | serviced =>
      simp only [LinesInv, Opening.step, openStep, todo_floorLoop]
      exact h
    | marks i here count =>
      simp only [LinesInv, Opening.step, openStep, todo_floorLoop, List.map_append,
        List.map_singleton, List.append_assoc]
      exact h
    | _ => exact h

/-- A floor whose line is not finished is one of the building's, and has no
line yet. -/
theorem Opening.LinesInv.floor_todo {s : Opening} (h : s.LinesInv B) {i : Nat}
    (hi : i ∈ s.pc.todo B) :
    1 ≤ i ∧ i ≤ B.floors ∧ ∀ line ∈ s.report.lines, line.floor ≠ i := by
  have hmem : i ∈ downFrom B.floors := by
    rw [← h]
    exact List.mem_append_right _ hi
  refine ⟨(mem_downFrom.mp hmem).1, (mem_downFrom.mp hmem).2, ?_⟩
  rintro line hline rfl
  have hnodup : (s.report.lines.map FloorLine.floor ++ s.pc.todo B).Nodup := by
    rw [h]
    exact nodup_downFrom _
  exact (List.nodup_append.mp hnodup).2.2 _ (List.mem_map_of_mem hline) _ hi rfl

/-! ## §3 The number of waiting passengers -/

/-- `num_waiting` has been read. -/
def OpenPc.waitingRead : OpenPc → Bool
  | .state | .status | .currentFloor | .loads | .waiting => false
  | _ => true

/-- The counter read for the line that is not written yet. -/
def OpenPc.pending : OpenPc → Int
  | .marks _ _ value => value
  | _ => 0

variable (B)

/-- How many of the floors, from the lowest up, have a counter that is still
to be read. -/
def OpenPc.unread : OpenPc → Nat
  | .indicator i | .count i _ => i
  | .marks i _ _ => i - 1
  | .finished => 0
  | _ => B.floors

/-- What the step changes between the read of `num_waiting` and that of the
counter of the same floor. -/
def countDrift (s : Opening) : OpenLabel → Int
  | .module l =>
    if s.pc.waitingRead then ∑ i ∈ Finset.range (s.pc.unread B), queueGain B s.sys l i else 0
  | .read => 0

/-- Up to the drift `c`, the number read is the sum of the counters read and
of the queues still to be counted. -/
structure Opening.CountInv (c : Int) (s : Opening) : Prop where
  early : s.pc.waitingRead = false → c = 0
  waiting_eq : s.pc.waitingRead = true →
    s.report.waiting + c = (s.report.lines.map FloorLine.count).sum + s.pc.pending
      + ∑ i ∈ Finset.range (s.pc.unread B), ((s.sys.g.waitingList i).length : Int)

variable {B}

@[simp] theorem waitingRead_floorLoop (n : Nat) : (OpenPc.floorLoop n).waitingRead = true := by
  cases n <;> rfl

@[simp] theorem pending_floorLoop (n : Nat) : (OpenPc.floorLoop n).pending = 0 := by
  cases n <;> rfl

@[simp] theorem unread_floorLoop (n : Nat) : (OpenPc.floorLoop n).unread B = n := by
  cases n <;> rfl

theorem Opening.CountInv.module {c : Int} {s : Opening} (h : s.CountInv B c) (l : Label) :
    (s.step B (.module l)).CountInv B (c + countDrift B s (.module l)) := by
  constructor
  · intro hearly
    have hc := h.early hearly
    simp only [Opening.step] at hearly
    simp [countDrift, hearly, hc]
  · intro hread
    have hcount := h.waiting_eq hread
    simp only [Opening.step] at hread ⊢
    have hgain : ∑ i ∈ Finset.range (s.pc.unread B),
          (((s.sys.step B l).g.waitingList i).length : Int)
        = ∑ i ∈ Finset.range (s.pc.unread B), ((s.sys.g.waitingList i).length : Int)
          + ∑ i ∈ Finset.range (s.pc.unread B), queueGain B s.sys l i := by
      rw [← Finset.sum_add_distrib]
      exact Finset.sum_congr rfl fun i _ => step_length s.sys l i
    rw [hgain, countDrift, if_pos hread]
    omega

theorem Opening.CountInv.read {c : Int} {s : Opening} (hq : QueueInv B s.sys.g)
    (hl : s.LinesInv B) (h : s.CountInv B c) : (s.step B .read).CountInv B c := by
  obtain ⟨sys, pc, report⟩ := s
  cases pc with
  | waiting =>
    -- nothing is written yet, and the counter is right
    have hlines : report.lines = [] :=
      List.map_eq_nil_iff.mp (List.append_left_eq_self.mp hl)
    have hzero := h.early rfl
    have hn : sys.g.numWaiting = totalWaiting B sys.g := hq.numWaiting_eq
    refine ⟨fun hread => (by cases hread), fun _ => ?_⟩
    simp [Opening.step, openStep, OpenPc.pending, OpenPc.unread, hlines, hzero, hn, totalWaiting,
      Nat.cast_sum]
  | serviced =>
    refine ⟨fun hread => ?_, fun _ => ?_⟩
    · simp [Opening.step, openStep] at hread
    · have hcount := h.waiting_eq rfl
      simp only [OpenPc.pending, OpenPc.unread] at hcount
      simpa [Opening.step, openStep] using hcount
  | count i here =>
    -- the counter of the floor is the length of its queue
    obtain ⟨hpos, -, -⟩ := hl.floor_todo (i := i) (List.mem_cons_self ..)
    obtain ⟨k, rfl⟩ : ∃ k, i = k + 1 := ⟨i - 1, by omega⟩
    refine ⟨fun hread => (by cases hread), fun _ => ?_⟩
    have hfloor : sys.g.waitingOnFloor k = (sys.g.waitingList k).length := hq.waitingOnFloor_eq k
    have hcount := h.waiting_eq rfl
    simp only [OpenPc.unread, OpenPc.pending, Finset.sum_range_succ] at hcount
    simp only [Opening.step, openStep, OpenPc.unread, OpenPc.pending, Nat.add_sub_cancel,
      Nat.cast_add, Nat.cast_one, add_sub_cancel_right, hfloor]
    omega
  | marks i here count =>
    refine ⟨fun hread => ?_, fun _ => ?_⟩
    · simp [Opening.step, openStep] at hread
    · have hcount := h.waiting_eq rfl
      simp only [OpenPc.unread, OpenPc.pending] at hcount
      simp [Opening.step, openStep]
      omega
  | _ => exact ⟨h.early, h.waiting_eq⟩

/-! ## §4 The count of a line against its marks -/

variable (B)

/-- What the step changes of the queue with index `i` between the read of
its counter and the walk over it. -/
def lineDrift (i : Nat) (s : Opening) : OpenLabel → Int
  | .module l =>
    match s.pc with
    | .marks j _ _ => if j = i + 1 then queueGain B s.sys l i else 0
    | _ => 0
  | .read => 0

/-- Up to the drift `d`, the line of floor `i + 1` has as many marks as it
counts, and the queue is as long as the counter that has just been read. -/
structure Opening.LineInv (i : Nat) (d : Int) (s : Opening) : Prop where
  ahead : i < s.pc.unread B → d = 0
  reading : ∀ here count, s.pc = .marks (i + 1) here count →
    ((s.sys.g.waitingList i).length : Int) = count + d
  written : ∀ line ∈ s.report.lines, line.floor = i + 1 →
    (line.marks.length : Int) = line.count + d

variable {B}

theorem floorLoop_ne_marks {i : Nat} {here : Bool} {count : Int} (n : Nat) :
    OpenPc.floorLoop n ≠ .marks i here count := by
  cases n <;> simp [OpenPc.floorLoop]

theorem lineDrift_elsewhere {i : Nat} {s : Opening} (l : Label)
    (h : ∀ here count, s.pc ≠ .marks (i + 1) here count) : lineDrift B i s (.module l) = 0 := by
  obtain ⟨sys, pc, report⟩ := s
  cases pc with
  | marks j here count =>
    refine if_neg ?_
    rintro rfl
    exact h here count rfl
  | _ => rfl

theorem Opening.LineInv.module {i : Nat} {d : Int} {s : Opening} (hl : s.LinesInv B)
    (h : s.LineInv B i d) (l : Label) :
    (s.step B (.module l)).LineInv B i (d + lineDrift B i s (.module l)) := by
  by_cases hmarks : ∃ here count, s.pc = .marks (i + 1) here count
  · -- the line is not written yet, and its queue changes as the drift says
    obtain ⟨here, count, hpc⟩ := hmarks
    have hdrift : lineDrift B i s (.module l) = queueGain B s.sys l i := by
      simp [lineDrift, hpc]
    have hnone := (hl.floor_todo (i := i + 1) (by rw [hpc]; exact List.mem_cons_self ..)).2.2
    refine ⟨?_, ?_, ?_⟩
    · simp only [Opening.step, hpc, OpenPc.unread]
      omega
    · intro here' count' hpc'
      have hlen := h.reading here' count' hpc'
      have hstep := step_length (B := B) s.sys l i
      simp only [Opening.step, hdrift]
      omega
    · exact fun line hline hfloor => absurd hfloor (hnone line hline)
  · rw [not_exists] at hmarks
    rw [lineDrift_elsewhere l fun here count hpc => hmarks here ⟨count, hpc⟩, add_zero]
    exact ⟨h.ahead, fun here count hpc => absurd ⟨count, hpc⟩ (hmarks here), h.written⟩

theorem Opening.LineInv.read {i : Nat} {d : Int} {s : Opening} (hq : QueueInv B s.sys.g)
    (hl : s.LinesInv B) (h : s.LineInv B i d) : (s.step B .read).LineInv B i d := by
  obtain ⟨sys, pc, report⟩ := s
  cases pc with
  | serviced =>
    refine ⟨?_, fun here count hpc => absurd hpc (floorLoop_ne_marks _), h.written⟩
    intro hlt
    rw [Opening.step, openStep, unread_floorLoop] at hlt
    exact h.ahead hlt
  | count j here =>
    refine ⟨fun hlt => ?_, ?_, h.written⟩
    · have hj : i < j - 1 := hlt
      exact h.ahead (show i < j by omega)
    · intro here' count' hpc
      -- the counter read is the length of the queue
      simp only [Opening.step, openStep, OpenPc.marks.injEq] at hpc
      obtain ⟨rfl, -, rfl⟩ := hpc
      have hzero := h.ahead (show i < i + 1 by omega)
      have hlen : sys.g.waitingOnFloor i = (sys.g.waitingList i).length := hq.waitingOnFloor_eq i
      simp [Opening.step, hzero, hlen]
  | marks j here count =>
    refine ⟨?_, fun here' count' hpc => absurd hpc (floorLoop_ne_marks _), ?_⟩
    · intro hlt
      rw [Opening.step, openStep, unread_floorLoop] at hlt
      exact h.ahead hlt
    · intro line hline hfloor
      rcases List.mem_append.mp hline with hline | hline
      · exact h.written line hline hfloor
      · rw [List.mem_singleton] at hline
        subst hline
        obtain rfl : j = i + 1 := hfloor
        have hlen := h.reading here count rfl
        simpa using hlen
  | _ =>
    refine ⟨h.ahead, ?_, h.written⟩
    intro here count hpc
    cases hpc

/-! ## §5 The report -/

/-- The number of waiting passengers is the sum of the counts, and every
line has as many marks as it counts. -/
structure Report.Consistent (r : Report) : Prop where
  waiting_eq : r.waiting = (r.lines.map FloorLine.count).sum
  count_eq : ∀ line ∈ r.lines, line.count = line.marks.length

/-- A sum over the lines is one over the floors. -/
theorem sum_downFrom {M : Type*} [AddCommMonoid M] (f : Nat → M) (n : Nat) :
    ((downFrom n).map f).sum = ∑ i ∈ Finset.range n, f (i + 1) := by
  induction n with
  | zero => rfl
  | succ n ih => rw [downFrom, List.map_cons, List.sum_cons, ih, Finset.sum_range_succ, add_comm]

theorem floorLine_count {g : Globals} (hq : QueueInv B g) (i : Nat) :
    (floorLine g (i + 1)).count = (g.waitingList i).length := by
  simp [floorLine, hq.waitingOnFloor_eq]

theorem sum_counts {g : Globals} (hq : QueueInv B g) (n : Nat) :
    (((downFrom n).map (floorLine g)).map FloorLine.count).sum
      = ((∑ i ∈ Finset.range n, (g.waitingList i).length : Nat) : Int) := by
  rw [List.map_map, sum_downFrom, Nat.cast_sum]
  exact Finset.sum_congr rfl fun i _ => floorLine_count hq i

/-- A report on one single state is consistent. -/
theorem report_consistent {g : Globals} (hq : QueueInv B g) : (report B g).Consistent := by
  refine ⟨hq.numWaiting_eq.trans (sum_counts hq _).symm, fun line hline => ?_⟩
  obtain ⟨floor, -, rfl⟩ := List.mem_map.mp hline
  simp [floorLine, hq.waitingOnFloor_eq]

variable (B)

def Opening.Inv (s : Opening) : Prop := s.sys.Inv B ∧ s.LinesInv B

variable {B}

theorem Opening.Inv.step {s : Opening} (h : s.Inv B) (l : OpenLabel) : (s.step B l).Inv B := by
  refine ⟨?_, h.2.step l⟩
  cases l with
  | module l => exact h.1.step l
  | read => exact h.1

theorem opening_init : (opening B).init.Inv B := ⟨loaded_inv, rfl⟩

theorem opening_linesInv (ls : List OpenLabel) :
    ((opening B).run (opening B).init ls).LinesInv B :=
  ((opening B).run_inv (P := Opening.Inv B) (fun _ l h => h.step l) ls _ opening_init).2

theorem opening_countInv (ls : List OpenLabel) :
    ((opening B).run (opening B).init ls).CountInv B
      ((opening B).total (countDrift B) (opening B).init ls) := by
  refine ((opening B).total_inv_zero (w := countDrift B)
    (P := fun c s => s.Inv B ∧ s.CountInv B c) ?_ ls (opening B).init
    ⟨opening_init, fun _ => rfl, fun h => ?_⟩).2
  · rintro c s l ⟨hs, hc⟩
    refine ⟨hs.step l, ?_⟩
    cases l with
    | module l => exact hc.module l
    | read =>
      rw [countDrift, add_zero]
      exact hc.read hs.1.wf.queues hs.2
  · cases h

theorem opening_lineInv (i : Nat) (ls : List OpenLabel) :
    ((opening B).run (opening B).init ls).LineInv B i
      ((opening B).total (lineDrift B i) (opening B).init ls) := by
  refine ((opening B).total_inv_zero (w := lineDrift B i)
    (P := fun d s => s.Inv B ∧ s.LineInv B i d) ?_ ls (opening B).init
    ⟨opening_init, fun _ => rfl, fun _ _ h => ?_, fun _ h => ?_⟩).2
  · rintro d s l ⟨hs, hd⟩
    refine ⟨hs.step l, ?_⟩
    cases l with
    | module l => exact hd.module hs.2 l
    | read =>
      rw [lineDrift, add_zero]
      exact hd.read hs.1.wf.queues hs.2
  · cases h
  · cases h

/-- **When the counts agree**: if and only if as many passengers join
as board between the read of `num_waiting` and those of the counters, summed
over the floors, and on each floor between the read of its counter and the
walk over its queue. -/
theorem consistent_iff (B : Building) (ls : List OpenLabel)
    (hfinished : ((opening B).run (opening B).init ls).pc = .finished) :
    ((opening B).run (opening B).init ls).report.Consistent ↔
      (opening B).total (countDrift B) (opening B).init ls = 0 ∧
        ∀ i < B.floors, (opening B).total (lineDrift B i) (opening B).init ls = 0 := by
  have hlines := opening_linesInv (B := B) ls
  have hcount := (opening_countInv (B := B) ls).waiting_eq
  have hline := fun i => (opening_lineInv (B := B) i ls).written
  generalize (opening B).run (opening B).init ls = s at *
  have hfloors : s.report.lines.map FloorLine.floor = downFrom B.floors := by
    simpa [Opening.LinesInv, hfinished, OpenPc.todo] using hlines
  simp only [hfinished, OpenPc.waitingRead, OpenPc.pending, OpenPc.unread, Finset.range_zero,
    Finset.sum_empty, forall_const] at hcount
  constructor
  · intro h
    refine ⟨?_, fun i hi => ?_⟩
    · have hw := h.waiting_eq
      omega
    · -- the floor has a line
      have hmem : i + 1 ∈ s.report.lines.map FloorLine.floor := by
        rw [hfloors, mem_downFrom]
        omega
      obtain ⟨line, hmem, hfloor⟩ := List.mem_map.mp hmem
      have hmarks := hline i line hmem hfloor
      have heq := h.count_eq line hmem
      omega
  · rintro ⟨hc, hd⟩
    refine ⟨by omega, fun line hmem => ?_⟩
    have hfloor : line.floor ∈ downFrom B.floors := by
      rw [← hfloors]
      exact List.mem_map_of_mem hmem
    obtain ⟨hlo, hhi⟩ := mem_downFrom.mp hfloor
    have hmarks := hline (line.floor - 1) line hmem (by omega)
    have hzero := hd (line.floor - 1) (by omega)
    omega

end KernelElevator.Proc
