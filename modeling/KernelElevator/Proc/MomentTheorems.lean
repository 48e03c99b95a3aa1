/-
KernelElevator.Proc.MomentTheorems — when the report describes one single
state of the run.

The reads of `elevator_proc_open` see as many states as there are reads. They
make a report on one of them if there is a moment in the run before which
nothing is changed that has been read, and after which nothing is changed
that is still to be read (`HasMoment`): at that moment everything had the
value that the report shows (`report_describes`). The proof follows what has
been read through the two halves of the run:

  §1 what is read, and in which order;
  §2 what a step of the module may change;
  §3 what has been read so far (`Opening.ReadAs`);
  §4 the report.
-/
import KernelElevator.Proc.OpeningTheorems

namespace KernelElevator.Proc

open Transition

variable (B : Building)

/-! ## §1 What is read -/

/-- What a read looks at. -/
inductive Item where
  | state
  | status
  | currentFloor
  | loads
  | waiting
  | serviced
  | indicator (floor : Nat)
  | count (floor : Nat)
  | marks (floor : Nat)
  deriving DecidableEq, Repr

/-- The read sees the same in both states. -/
def Item.Same (g g' : Globals) : Item → Prop
  | .state => g.state = g'.state
  | .status => g.status = g'.status
  | .currentFloor => g.currentFloor = g'.currentFloor
  | .loads => g.loads = g'.loads
  | .waiting => g.numWaiting = g'.numWaiting
  | .serviced => g.serviced = g'.serviced
  | .indicator i => decide (g.currentFloor = i) = decide (g'.currentFloor = i)
  | .count i => g.waitingOnFloor (i - 1) = g'.waitingOnFloor (i - 1)
  | .marks i =>
    (g.waitingList (i - 1)).map (fun p => Mark.of p.type)
      = (g'.waitingList (i - 1)).map fun p => Mark.of p.type

instance (g g' : Globals) : (x : Item) → Decidable (x.Same g g')
  | .state | .status => inferInstanceAs (Decidable (_ = _))
  | .currentFloor | .loads | .waiting | .serviced => inferInstanceAs (Decidable ((_ : Int) = _))
  | .indicator _ => inferInstanceAs (Decidable ((_ : Bool) = _))
  | .count _ => inferInstanceAs (Decidable ((_ : Int) = _))
  | .marks _ => inferInstanceAs (Decidable ((_ : List Mark) = _))

/-- The reads for the lines of the floors up to `n`. -/
def floorItems : Nat → List Item
  | 0 => []
  | n + 1 => .indicator (n + 1) :: .count (n + 1) :: .marks (n + 1) :: floorItems n

/-- The reads that are still to come, in their order. -/
def OpenPc.ahead : OpenPc → List Item
  | .state =>
    .state :: .status :: .currentFloor :: .loads :: .waiting :: .serviced :: floorItems B.floors
  | .status => .status :: .currentFloor :: .loads :: .waiting :: .serviced :: floorItems B.floors
  | .currentFloor => .currentFloor :: .loads :: .waiting :: .serviced :: floorItems B.floors
  | .loads => .loads :: .waiting :: .serviced :: floorItems B.floors
  | .waiting => .waiting :: .serviced :: floorItems B.floors
  | .serviced => .serviced :: floorItems B.floors
  | .indicator i => .indicator i :: .count i :: .marks i :: floorItems (i - 1)
  | .count i _ => .count i :: .marks i :: floorItems (i - 1)
  | .marks i _ _ => .marks i :: floorItems (i - 1)
  | .finished => []

variable {B}

theorem ahead_floorLoop (n : Nat) : (OpenPc.floorLoop n).ahead B = floorItems n := by
  cases n <;> rfl

/-- A read takes the first of what is ahead. -/
theorem ahead_openStep (g : Globals) (pc : OpenPc) (r : Report) (hpc : pc ≠ .finished) :
    ∃ x, pc.ahead B = x :: (openStep B g (pc, r)).1.ahead B := by
  cases pc with
  | serviced => exact ⟨.serviced, by rw [openStep, ahead_floorLoop, OpenPc.ahead]⟩
  | marks i here count => exact ⟨.marks i, by rw [openStep, ahead_floorLoop, OpenPc.ahead]⟩
  | finished => exact absurd rfl hpc
  | _ => exact ⟨_, rfl⟩

theorem mem_floorItems {n i : Nat} (hpos : 1 ≤ i) (hle : i ≤ n) :
    Item.indicator i ∈ floorItems n ∧ Item.count i ∈ floorItems n ∧
      Item.marks i ∈ floorItems n := by
  induction n with
  | zero => omega
  | succ n ih =>
    rcases Nat.lt_or_eq_of_le hle with hlt | rfl
    · obtain ⟨hindicator, hcount, hmarks⟩ := ih (by omega)
      simp [floorItems, hindicator, hcount, hmarks]
    · simp [floorItems]

variable (B)

/-! ## §2 What a step may change -/

/-- The step changes nothing that has been read. -/
def KeepsRead (s : Opening) : OpenLabel → Prop
  | .module l =>
    ∀ x ∈ OpenPc.ahead B .state, x ∉ s.pc.ahead B → x.Same s.sys.g (s.sys.step B l).g
  | .read => True

/-- The step changes nothing that is still to be read. -/
def KeepsAhead (s : Opening) : OpenLabel → Prop
  | .module l => ∀ x ∈ s.pc.ahead B, x.Same s.sys.g (s.sys.step B l).g
  | .read => True

instance (s : Opening) : (l : OpenLabel) → Decidable (KeepsRead B s l)
  | .module l => inferInstanceAs (Decidable (∀ x ∈ OpenPc.ahead B .state, x ∉ s.pc.ahead B →
      x.Same s.sys.g (s.sys.step B l).g))
  | .read => .isTrue trivial

instance (s : Opening) : (l : OpenLabel) → Decidable (KeepsAhead B s l)
  | .module l => inferInstanceAs (Decidable (∀ x ∈ s.pc.ahead B,
      x.Same s.sys.g (s.sys.step B l).g))
  | .read => .isTrue trivial

/-- There is a moment in the run before which no step changes what has been
read, and after which none changes what is still to be read. -/
def HasMoment (ls : List OpenLabel) : Prop :=
  ∃ pre post, ls = pre ++ post ∧
    (opening B).Along (KeepsRead B) (opening B).init pre ∧
    (opening B).Along (KeepsAhead B) ((opening B).run (opening B).init pre) post

/-! ## §3 What has been read so far -/

/-- What `s` has read of `x`, if it has, is what `g` shows. The indicator and
the counter of the line under way are in the locals still. -/
def Opening.ReadAs (s : Opening) (g : Globals) : Item → Prop
  | .state => s.report.state = g.state
  | .status => s.report.status = g.status
  | .currentFloor => s.report.currentFloor = g.currentFloor
  | .loads => s.report.loads = g.loads
  | .waiting => s.report.waiting = g.numWaiting
  | .serviced => s.report.serviced = g.serviced
  | .indicator i =>
    (∀ line ∈ s.report.lines, line.floor = i → line.here = decide (g.currentFloor = i)) ∧
      ∀ here, (s.pc = .count i here ∨ ∃ count, s.pc = .marks i here count) →
        here = decide (g.currentFloor = i)
  | .count i =>
    (∀ line ∈ s.report.lines, line.floor = i → line.count = g.waitingOnFloor (i - 1)) ∧
      ∀ here count, s.pc = .marks i here count → count = g.waitingOnFloor (i - 1)
  | .marks i =>
    ∀ line ∈ s.report.lines, line.floor = i →
      line.marks = (g.waitingList (i - 1)).map fun p => Mark.of p.type

/-- What has been read is what `g` shows, and so is what will be read if
nothing changes any more. -/
structure Opening.Shows (s : Opening) (g : Globals) : Prop where
  read : ∀ x ∈ OpenPc.ahead B .state, x ∉ s.pc.ahead B → s.ReadAs g x
  ahead : ∀ x ∈ s.pc.ahead B, x.Same g s.sys.g

variable {B}

theorem Item.same_refl (g : Globals) (x : Item) : x.Same g g := by
  cases x <;> rfl

theorem Item.Same.symm {g g' : Globals} {x : Item} (h : x.Same g g') : x.Same g' g := by
  cases x <;> exact Eq.symm h

theorem Item.Same.trans {g g' g'' : Globals} {x : Item} (h : x.Same g g') (h' : x.Same g' g'') :
    x.Same g g'' := by
  cases x <;> exact Eq.trans h h'

/-- What has been read does not depend on what the module is doing. -/
theorem Opening.ReadAs.same {s : Opening} {g g' : Globals} {x : Item} (h : s.ReadAs g x)
    (hsame : x.Same g g') : s.ReadAs g' x := by
  cases x with
  | indicator i =>
    refine ⟨fun line hline hfloor => (h.1 line hline hfloor).trans hsame, ?_⟩
    exact fun here hpc => (h.2 here hpc).trans hsame
  | count i =>
    refine ⟨fun line hline hfloor => (h.1 line hline hfloor).trans hsame, ?_⟩
    exact fun here count hpc => (h.2 here count hpc).trans hsame
  | marks i => exact fun line hline hfloor => (h line hline hfloor).trans hsame
  | _ => exact Eq.trans h hsame

theorem floorLoop_ne_count {i : Nat} {here : Bool} (n : Nat) :
    OpenPc.floorLoop n ≠ .count i here := by
  cases n <;> simp [OpenPc.floorLoop]

/-- What has been read stays as it is when something else is read. -/
theorem Opening.ReadAs.keep {s : Opening} {g : Globals} {x : Item} (h : s.ReadAs g x)
    (hx : x ∉ s.pc.ahead B) : (s.step B .read).ReadAs g x := by
  obtain ⟨sys, pc, report⟩ := s
  have hhead : ∀ rest, pc.ahead B ≠ x :: rest := fun rest heq =>
    hx (by rw [heq]; exact List.mem_cons_self ..)
  cases x with
  | indicator j =>
    cases pc with
    | indicator i =>
      refine ⟨h.1, ?_⟩
      rintro here (hpc | ⟨count, hpc⟩)
      · obtain ⟨rfl, -⟩ := OpenPc.count.inj hpc
        exact absurd rfl (hhead _)
      · cases hpc
    | count i here =>
      refine ⟨h.1, ?_⟩
      rintro here' (hpc | ⟨count, hpc⟩)
      · cases hpc
      · obtain ⟨rfl, rfl, -⟩ := OpenPc.marks.inj hpc
        exact h.2 here (Or.inl rfl)
    | marks i here count =>
      constructor
      · -- the new line has the indicator that was in the local
        intro line hline hfloor
        rcases List.mem_append.mp hline with hline | hline
        · exact h.1 line hline hfloor
        · obtain rfl := List.mem_singleton.mp hline
          obtain rfl : i = j := hfloor
          exact h.2 here (Or.inr ⟨count, rfl⟩)
      · rintro here' (hpc | ⟨count', hpc⟩)
        · exact absurd hpc (floorLoop_ne_count _)
        · exact absurd hpc (floorLoop_ne_marks _)
    | serviced =>
      refine ⟨h.1, ?_⟩
      rintro here (hpc | ⟨count, hpc⟩)
      · exact absurd hpc (floorLoop_ne_count _)
      · exact absurd hpc (floorLoop_ne_marks _)
    | _ =>
      refine ⟨h.1, ?_⟩
      rintro here (hpc | ⟨count, hpc⟩) <;> cases hpc
  | count j =>
    cases pc with
    | count i here =>
      refine ⟨h.1, fun here' count hpc => ?_⟩
      obtain ⟨rfl, -, -⟩ := OpenPc.marks.inj hpc
      exact absurd rfl (hhead _)
    | marks i here count =>
      refine ⟨fun line hline hfloor => ?_, fun _ _ hpc => absurd hpc (floorLoop_ne_marks _)⟩
      rcases List.mem_append.mp hline with hline | hline
      · exact h.1 line hline hfloor
      · obtain rfl := List.mem_singleton.mp hline
        obtain rfl : i = j := hfloor
        exact h.2 here count rfl
    | serviced => exact ⟨h.1, fun _ _ hpc => absurd hpc (floorLoop_ne_marks _)⟩
    | _ => exact ⟨h.1, fun _ _ hpc => by cases hpc⟩
  | marks j =>
    cases pc with
    | marks i here count =>
      intro line hline hfloor
      rcases List.mem_append.mp hline with hline | hline
      · exact h line hline hfloor
      · obtain rfl := List.mem_singleton.mp hline
        obtain rfl : i = j := hfloor
        exact absurd rfl (hhead _)
    | _ => exact h
  | state =>
    cases pc with
    | state => exact absurd rfl (hhead _)
    | _ => exact h
  | status =>
    cases pc with
    | status => exact absurd rfl (hhead _)
    | _ => exact h
  | currentFloor =>
    cases pc with
    | currentFloor => exact absurd rfl (hhead _)
    | _ => exact h
  | loads =>
    cases pc with
    | loads => exact absurd rfl (hhead _)
    | _ => exact h
  | waiting =>
    cases pc with
    | waiting => exact absurd rfl (hhead _)
    | _ => exact h
  | serviced =>
    cases pc with
    | serviced => exact absurd rfl (hhead _)
    | _ => exact h

/-- What is read is what the state shows. -/
theorem Opening.readAs_read {s : Opening} (hl : s.LinesInv B) {x : Item} {rest : List Item}
    (hx : s.pc.ahead B = x :: rest) : (s.step B .read).ReadAs s.sys.g x := by
  obtain ⟨sys, pc, report⟩ := s
  cases pc with
  | indicator i =>
    obtain ⟨rfl, -⟩ := List.cons.inj hx
    refine ⟨fun line hline hfloor => ?_, ?_⟩
    · exact absurd hfloor ((hl.floor_todo (i := i) (List.mem_cons_self ..)).2.2 line hline)
    · rintro here (hpc | ⟨count, hpc⟩)
      · exact (OpenPc.count.inj hpc).2.symm
      · cases hpc
  | count i here =>
    obtain ⟨rfl, -⟩ := List.cons.inj hx
    refine ⟨fun line hline hfloor => ?_, fun here' count hpc => ?_⟩
    · exact absurd hfloor ((hl.floor_todo (i := i) (List.mem_cons_self ..)).2.2 line hline)
    · exact (OpenPc.marks.inj hpc).2.2.symm
  | marks i here count =>
    obtain ⟨rfl, -⟩ := List.cons.inj hx
    intro line hline hfloor
    rcases List.mem_append.mp hline with hline | hline
    · exact absurd hfloor ((hl.floor_todo (i := i) (List.mem_cons_self ..)).2.2 line hline)
    · obtain rfl := List.mem_singleton.mp hline
      rfl
  | finished => cases hx
  | _ =>
    obtain ⟨rfl, -⟩ := List.cons.inj hx
    rfl

/-- A read keeps what the report shows. -/
theorem Opening.Shows.read_step {s : Opening} {g : Globals} (hl : s.LinesInv B)
    (h : s.Shows B g) : (s.step B .read).Shows B g := by
  by_cases hpc : s.pc = .finished
  · have hstay : s.step B .read = s := by
      obtain ⟨sys, pc, report⟩ := s
      obtain rfl : pc = .finished := hpc
      rfl
    rwa [hstay]
  · obtain ⟨x, hx⟩ := ahead_openStep (B := B) s.sys.g s.pc s.report hpc
    change s.pc.ahead B = x :: (s.step B .read).pc.ahead B at hx
    have hsame : x.Same g s.sys.g := h.ahead x (by rw [hx]; exact List.mem_cons_self ..)
    constructor
    · intro y hy hnot
      by_cases heq : y = x
      · subst heq
        exact (Opening.readAs_read hl hx).same hsame.symm
      · have hread : y ∉ s.pc.ahead B := by
          rw [hx, List.mem_cons, not_or]
          exact ⟨heq, hnot⟩
        exact (h.read y hy hread).keep hread
    · intro y hy
      exact h.ahead y (by rw [hx]; exact List.mem_cons_of_mem _ hy)

/-- Before the moment the report so far is one on the present state. -/
theorem Opening.Shows.before {s : Opening} (h : s.Shows B s.sys.g) {l : Label}
    (hl : KeepsRead B s (.module l)) :
    (s.step B (.module l)).Shows B (s.step B (.module l)).sys.g :=
  ⟨fun x hx hread => (h.read x hx hread).same (hl x hx hread), fun x _ => x.same_refl _⟩

/-- After the moment it is one on the state of that moment. -/
theorem Opening.Shows.after {s : Opening} {g : Globals} (h : s.Shows B g) {l : Label}
    (hl : KeepsAhead B s (.module l)) : (s.step B (.module l)).Shows B g :=
  ⟨h.read, fun x hx => (h.ahead x hx).trans (hl x hx)⟩

/-! ## §4 The report -/

theorem Opening.Shows.report_eq {s : Opening} {g : Globals} (hl : s.LinesInv B)
    (h : s.Shows B g) (hpc : s.pc = .finished) : s.report = Proc.report B g := by
  have hall : ∀ x ∈ OpenPc.ahead B .state, s.ReadAs g x := fun x hx =>
    h.read x hx (by rw [hpc]; exact List.not_mem_nil)
  have hfloors : s.report.lines.map FloorLine.floor = downFrom B.floors := by
    simpa [Opening.LinesInv, hpc, OpenPc.todo] using hl
  have hline : ∀ line ∈ s.report.lines, line = floorLine g line.floor := by
    intro line hline
    have hfloor : line.floor ∈ downFrom B.floors := by
      rw [← hfloors]
      exact List.mem_map_of_mem hline
    obtain ⟨hpos, hle⟩ := mem_downFrom.mp hfloor
    obtain ⟨hindicator, hcount, hmarks⟩ := mem_floorItems hpos hle
    have hhere := (hall (.indicator line.floor) (by simp [OpenPc.ahead, hindicator])).1
    have hvalue := (hall (.count line.floor) (by simp [OpenPc.ahead, hcount])).1
    have hmark := hall (.marks line.floor) (by simp [OpenPc.ahead, hmarks])
    rw [FloorLine.mk.injEq]
    exact ⟨rfl, hhere line hline rfl, hvalue line hline rfl, hmark line hline rfl⟩
  have hlines : s.report.lines = (downFrom B.floors).map (floorLine g) := by
    rw [← hfloors, List.map_map]
    exact (List.map_id'' (fun _ => rfl) _).symm.trans (List.map_congr_left hline)
  rw [Proc.report, Report.mk.injEq]
  exact ⟨hall .state (by simp [OpenPc.ahead]), hall .status (by simp [OpenPc.ahead]),
    hall .currentFloor (by simp [OpenPc.ahead]), hall .loads (by simp [OpenPc.ahead]),
    hall .waiting (by simp [OpenPc.ahead]), hall .serviced (by simp [OpenPc.ahead]), hlines⟩

theorem opening_inv (ls : List OpenLabel) : ((opening B).run (opening B).init ls).Inv B :=
  (opening B).run_inv (P := Opening.Inv B) (fun _ l h => h.step l) ls _ opening_init

/-- Up to the moment the report so far is one on the state reached. -/
theorem shows_before {pre : List OpenLabel}
    (h : (opening B).Along (KeepsRead B) (opening B).init pre) :
    ((opening B).run (opening B).init pre).Shows B
      ((opening B).run (opening B).init pre).sys.g := by
  refine ((opening B).inv_of_along (P := fun s => s.Inv B ∧ s.Shows B s.sys.g) ?_ pre _
    ⟨opening_init, fun x hx hnot => absurd hx hnot, fun x _ => x.same_refl _⟩ h).2
  rintro s (l | _) hl ⟨hinv, hs⟩
  · exact ⟨hinv.step _, hs.before hl⟩
  · exact ⟨hinv.step _, hs.read_step hinv.2⟩

/-- From the moment on it stays one on the state of that moment. -/
theorem shows_after {g : Globals} {s : Opening} (hinv : s.Inv B) (hs : s.Shows B g)
    {post : List OpenLabel} (h : (opening B).Along (KeepsAhead B) s post) :
    ((opening B).run s post).Shows B g := by
  refine ((opening B).inv_of_along (P := fun s => s.Inv B ∧ s.Shows B g) ?_ post s
    ⟨hinv, hs⟩ h).2
  rintro s (l | _) hl ⟨hinv, hs⟩
  · exact ⟨hinv.step _, hs.after hl⟩
  · exact ⟨hinv.step _, hs.read_step hinv.2⟩

variable (B)

/-- The report describes one single state of the run: it is the report on
that state, and its counts agree. -/
structure DescribesState (ls : List OpenLabel) : Prop where
  state : ∃ pre, pre <+: ls ∧ ((opening B).run (opening B).init ls).report
    = report B ((opening B).run (opening B).init pre).sys.g
  consistent : ((opening B).run (opening B).init ls).report.Consistent

/-- **When the report describes one state of the run**: if there is a moment
before which nothing is changed that has been read and after which nothing is
changed that is still to be read. Its counts alone agree if and only if as
many passengers join as board between the read of `num_waiting` and those of
the counters, summed over the floors, and on each floor between the read of
its counter and the walk over its queue. -/
theorem report_describes (ls : List OpenLabel)
    (hfinished : ((opening B).run (opening B).init ls).pc = .finished) :
    (HasMoment B ls → DescribesState B ls) ∧
      (((opening B).run (opening B).init ls).report.Consistent ↔
        (opening B).total (countDrift B) (opening B).init ls = 0 ∧
          ∀ i < B.floors, (opening B).total (lineDrift B i) (opening B).init ls = 0) := by
  refine ⟨?_, consistent_iff B ls hfinished⟩
  rintro ⟨pre, post, rfl, hbefore, hafter⟩
  have hshows := shows_after (opening_inv pre) (shows_before hbefore) hafter
  rw [← (opening B).run_append] at hshows
  have heq := hshows.report_eq (opening_linesInv _) hfinished
  refine ⟨⟨pre, List.prefix_append pre post, heq⟩, ?_⟩
  rw [heq]
  exact report_consistent (opening_inv pre).1.wf.queues

/-- Somebody comes to floor 5 after the head of the report has been read up
to `loads`, and the cabin sets off for floor 3 after that. -/
theorem report_describes_departure :
    DescribesState .source
      ([.module (.call .startElevator), .module (.call (.issueRequest 3 4 0)),
          .module .scheduler, .module .scheduler, .module .scheduler, .module .scheduler]
        ++ List.replicate 4 .read ++ [.module (.call (.issueRequest 5 1 0))]
        ++ (.module .scheduler :: List.replicate 32 .read)) :=
  (report_describes .source _ (by decide)).1 ⟨_, _, rfl, by decide, by decide⟩

/-- A passenger comes to floor 1 after `num_waiting` was read: the report
shows nobody waiting, and one passenger on floor 1. -/
theorem report_inconsistent :
    ¬ ∀ ls, ((opening .source).run (opening .source).init ls).pc = .finished →
      DescribesState .source ls := by
  intro h
  have hwaiting := (h (.module (.call .startElevator) :: List.replicate 5 .read
    ++ .module (.call (.issueRequest 1 2 0)) :: List.replicate 31 .read)
      (by decide)).consistent.waiting_eq
  exact absurd hwaiting (by decide)

end KernelElevator.Proc
