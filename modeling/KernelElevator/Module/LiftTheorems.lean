/-
KernelElevator.Module.LiftTheorems — the module is a lift.

`Machine.Lift` says what a lift may do. `happened` reads off the globals
before and after a step which passengers have asked, boarded, left, and where
the cabin went; whoever leaves in a phase of the scheduler counts as having
alighted, whoever leaves in a call as dropped. Every run of the module, stops
and restarts included, is then a run of the lift (`runs_are_lift_runs`), and
the three counters of the module say how many riders are at which stage: a
dropped passenger keeps a place in `loads` for good.

  §1 Records     — a record is in one place, as memberships;
  §2 Steps       — each effect, and the events that it is;
  §3 Runs;
  §4 Passengers  — the whole story of a passenger (`passenger_history`);
  §5 Lost places — what stops cost (`stops_cost_places`).
-/
import KernelElevator.Machine.Lift
import KernelElevator.Machine.Partition
import KernelElevator.Module.RecordTheorems

namespace KernelElevator

open Transition

variable (B : Building)

/-- The house the lift is in: carriers are the zombies. -/
def Building.house : Lift.House Passenger where
  floors := B.floors
  places := B.capacity
  start := Passenger.startFloor
  destination := Passenger.destinationFloor
  carrier p := p.type = 1

/-- What it is to leave the cabin in a step. -/
def Label.leaving : Label → Lift.Passage
  | .scheduler => .alight
  | .call _ => .drop

/-- Those of the first list who are not on the second. -/
def without (w w' : List Passenger) : List Passenger := w.filter fun p => p ∉ w'

/-- What a step did, read off the globals before and after it. -/
def happened (l : Label) (g g' : Globals) : List (Lift.Event Passenger) :=
  (g'.allocated.drop g.allocated.length).map (.pass .ask)
    ++ (without g.onboard g'.onboard).map (.pass l.leaving)
    ++ (without g'.onboard g.onboard).map (.pass .board)
    ++ if g'.currentFloor = g.currentFloor then [] else [.travel g'.currentFloor]

/-- The events of a run, in order. -/
def eventsFrom (s : Sys) (ls : List Label) : List (Lift.Event Passenger) :=
  ((system B).outputs (fun s l => happened l s.g (s.step B l).g) s ls).flatten

/-- The events since the module was loaded. -/
def Sys.events (ls : List Label) : List (Lift.Event Passenger) := eventsFrom B (loaded B) ls

/-- The lift stands where the cabin does, and the lists of the module hold the
passengers of the stages. -/
structure ShowsLift (g : Globals) (a : Lift.State Passenger) : Prop where
  floor_eq : a.floor = g.currentFloor
  unknown_iff : ∀ p, a.stage p = .unknown ↔ p ∉ g.allocated
  waiting_iff : ∀ p, a.stage p = .waiting ↔ ∃ i, p ∈ g.waitingList i
  riding_iff : ∀ p, a.stage p = .riding ↔ p ∈ g.onboard
  gone_iff : ∀ p, a.stage p = .delivered ∨ a.stage p = .dropped ↔ p ∈ g.freed

/-- What the counters say about the events so far. -/
structure Counted (g : Globals) (es : List (Lift.Event Passenger)) : Prop where
  serviced_eq : g.serviced = Lift.tally .alight es
  loads_eq : g.loads + Lift.tally .alight es = Lift.tally .board es
  numWaiting_eq : g.numWaiting + Lift.tally .board es = Lift.tally .ask es
  allocated_eq : g.allocated.length = Lift.tally .ask es
  freed_eq : g.freed.length = Lift.tally .alight es + Lift.tally .drop es

variable {B}

/-! ## §1 Records -/

theorem waiting_range {g : Globals} (hq : QueueInv B g) {p : Passenger} {i : Int}
    (hp : p ∈ g.waitingList i) : 0 ≤ i ∧ i < B.floors := by
  obtain ⟨hok, hfloor⟩ := hq.waiting_ok i p hp
  have hpos := hok.start_pos
  have hle := hok.start_le
  omega

/-- No record is in two of the three kinds of place, or in one twice. -/
theorem RecordInv.count_le_one {g : Globals} (h : RecordInv B g) (hq : QueueInv B g)
    (p : Passenger) (i : Int) :
    g.onboard.count p + (g.waitingList i).count p + g.freed.count p ≤ 1 := by
  have hone := List.nodup_iff_count_le_one.mp h.nodup p
  have hplaces := h.places_eq p
  rw [places] at hplaces
  rcases Nat.eq_zero_or_pos ((g.waitingList i).count p) with hzero | hpos
  · omega
  · obtain ⟨hlo, hhi⟩ := waiting_range hq (List.count_pos_iff.mp hpos)
    obtain ⟨j, rfl⟩ := Int.eq_ofNat_of_zero_le hlo
    have hwaiting : (g.waitingList j).count p
        ≤ ∑ i ∈ Finset.range B.floors, (g.waitingList i).count p :=
      Finset.single_le_sum (f := fun i : Nat => (g.waitingList i).count p)
        (fun _ _ => Nat.zero_le _) (Finset.mem_range.mpr (by omega))
    omega

theorem RecordInv.onboard_nodup {g : Globals} (h : RecordInv B g) (hq : QueueInv B g) :
    g.onboard.Nodup :=
  List.nodup_iff_count_le_one.mpr fun p => by
    have := h.count_le_one hq p 0
    omega

theorem RecordInv.not_onboard_of_waiting {g : Globals} (h : RecordInv B g) (hq : QueueInv B g)
    {p : Passenger} {i : Int} (hp : p ∈ g.waitingList i) : p ∉ g.onboard := by
  intro hon
  have hle := h.count_le_one hq p i
  have h1 := List.count_pos_iff.mpr hp
  have h2 := List.count_pos_iff.mpr hon
  omega

theorem RecordInv.boarders_nodup {g : Globals} (h : RecordInv B g) :
    (boarders B g ++ stayers B g).Nodup :=
  (boarders_perm g).nodup_iff.mpr ((h.queued _).nodup h.nodup)

/-- Whoever is in a place was allocated. -/
theorem RecordInv.onboard_subset {g : Globals} (h : RecordInv B g) : g.onboard ⊆ g.allocated := by
  intro p hp
  have hpos := List.count_pos_iff.mpr hp
  have hplaces := h.places_eq p
  rw [places] at hplaces
  exact List.count_pos_iff.mp (by omega)

/-! ## §2 Steps -/

theorem without_of_subset {w w' : List Passenger} (h : w ⊆ w') : without w w' = [] := by
  rw [without, List.filter_eq_nil_iff]
  intro p hp
  simp [h hp]

@[simp] theorem without_self (w : List Passenger) : without w w = [] :=
  without_of_subset (List.Subset.refl w)

@[simp] theorem without_nil (w : List Passenger) : without w [] = w := by
  simp [without]

@[simp] theorem nil_without (w : List Passenger) : without [] w = [] := rfl

theorem happened_quiet {l : Label} {g g' : Globals} (hall : g'.allocated = g.allocated)
    (hon : g'.onboard = g.onboard) (hfloor : g'.currentFloor = g.currentFloor) :
    happened l g g' = [] := by
  simp [happened, hall, hon, hfloor]

theorem ShowsLift.congr {g g' : Globals} {a : Lift.State Passenger} (h : ShowsLift g a)
    (hfloor : g'.currentFloor = g.currentFloor) (hall : g'.allocated = g.allocated)
    (hwaiting : g'.waitingList = g.waitingList) (hon : g'.onboard = g.onboard)
    (hfreed : g'.freed = g.freed) : ShowsLift g' a :=
  ⟨h.1.trans hfloor.symm, hall ▸ h.2, hwaiting ▸ h.3, hon ▸ h.4, hfreed ▸ h.5⟩

theorem happened_added (l : Label) (a b k : Int) (g : Globals) :
    happened l g (addPassenger a b k g)
      = [Lift.Event.pass .ask ⟨g.allocated.length, k, a, b⟩] := by
  simp [happened, addPassenger]

theorem happened_stopped {c : Call} {g g' : Globals} (hall : g'.allocated = g.allocated)
    (hon : g'.onboard = []) (hfloor : g'.currentFloor = g.currentFloor) :
    happened (.call c) g g' = g.onboard.map (.pass .drop) := by
  simp [happened, hall, hon, hfloor, Label.leaving]

theorem happened_unloaded (g : Globals) :
    happened .scheduler g (unloadPassengers .granted g).1
      = (alighting g).map (.pass .alight) := by
  have hleft : without g.onboard (riding g) = alighting g :=
    List.filter_congr fun p hp => by simp [mem_riding, hp]
  have hnew : without (riding g) g.onboard = [] :=
    without_of_subset fun p hp => (mem_riding.mp hp).1
  simp [unloadPassengers_granted, happened, hleft, hnew, Label.leaving]

theorem happened_loaded {g : Globals} (h : RecordInv B g) (hq : QueueInv B g) :
    happened .scheduler g (loadLocked B g).1 = (boarders B g).map (.pass .board) := by
  have hleft : without g.onboard (g.onboard ++ boarders B g) = [] :=
    without_of_subset (List.subset_append_left _ _)
  have hnew : without (g.onboard ++ boarders B g) g.onboard = boarders B g := by
    have hold : without g.onboard g.onboard = [] := without_self _
    unfold without at hold ⊢
    rw [List.filter_append, hold, List.nil_append, List.filter_eq_self]
    intro p hp
    simpa using h.not_onboard_of_waiting hq (mem_waiting_of_mem_boarders hp)
  simp [loadLocked_eq, happened, boarded, hleft, hnew]

theorem happened_moved {g : Globals} {current next : Int} (h : current ≠ g.currentFloor) :
    happened .scheduler g { g with currentFloor := current, nextFloor := next }
      = [.travel current] := by
  simp [happened, h]

/-- Each of the cabin's load, the status and the queue lets the next one
board. -/
theorem along_board {floor : Int} {w : List Passenger} {loads : Int} {status : Status}
    {a : Lift.State Passenger} {n : Nat} (hfloor : a.floor = floor) (hnodup : w.Nodup)
    (hwaiting : ∀ p ∈ w, a.stage p = .waiting) (hn : (n : Int) ≤ loads)
    (hcard : (a.at .riding).encard ≤ n)
    (hstatus : status = .uninfected → ∀ q ∈ a.at .riding, q.type ≠ 1) :
    (Lift.lift Passenger).Along (Lift.Allowed B.house) a
      ((board B floor loads status w).1.map (.pass .board)) := by
  induction w generalizing loads status a n with
  | nil => trivial
  | cons p rest ih =>
    obtain ⟨hp, hrest⟩ := List.nodup_cons.mp hnodup
    by_cases ha : Admits B floor loads status p
    · have hstage := hwaiting p (List.mem_cons_self ..)
      have hroom : (n : Int) + 1 ≤ B.capacity := by
        have := ha.2.1
        omega
      have hallowed : Lift.Allowed B.house a (.pass .board p) := by
        refine ⟨hstage, ha.1.trans hfloor.symm, ?_, ?_⟩
        · refine lt_of_le_of_lt hcard ?_
          exact_mod_cast (by omega : n < B.capacity)
        · rcases ha.2.2 with hz | ⟨-, hu⟩
          · exact Or.inl hz
          · exact Or.inr (hstatus hu)
      have hmore := Lift.encard_pass (x := .board) hstage .riding
      rw [board_cons_admitted ha, List.map_cons]
      refine ⟨hallowed, ih (n := n + 1) hfloor hrest ?_ (by push_cast; omega) ?_ ?_⟩
      · intro q hq
        have hne : q ≠ p := fun heq => hp (heq ▸ hq)
        simpa [Lift.lift, Lift.State.step, hne] using hwaiting q (List.mem_cons_of_mem p hq)
      · have hgrown : ((a.step (.pass .board p)).at .riding).encard
            = (a.at .riding).encard + 1 := by
          simpa [Lift.Passage.source, Lift.Passage.target] using hmore
        change ((a.step (.pass .board p)).at .riding).encard ≤ _
        rw [hgrown]
        push_cast
        exact add_le_add_left hcard 1
      · intro hu q hq
        have hnotzombie : p.type ≠ 1 := fun hz => by simp [Status.with, hz] at hu
        have hold : status = .uninfected := by simpa [Status.with, hnotzombie] using hu
        rcases eq_or_ne q p with rfl | hne
        · exact hnotzombie
        · refine hstatus hold q ?_
          simpa [Lift.lift, Lift.State.step, Lift.State.at, hne] using hq
    · rw [board_cons_refused ha]
      exact ih hfloor hrest (fun q hq => hwaiting q (List.mem_cons_of_mem p hq)) hn hcard hstatus

/-- The passengers on board, as a set. -/
theorem ShowsLift.encard_riding {g : Globals} {a : Lift.State Passenger} (h : ShowsLift g a)
    (hnodup : g.onboard.Nodup) : (a.at .riding).encard = g.onboard.length := by
  have hset : a.at .riding = (g.onboard.toFinset : Set Passenger) := by
    ext p
    simpa [Lift.State.at] using h.riding_iff p
  rw [hset, Set.encard_coe_eq_coe_finsetCard, List.toFinset_card_of_nodup hnodup]

variable (B) in
/-- The events `now` are allowed, and after them the lift shows the globals
`g`. -/
structure Answered (g : Globals) (es : List (Lift.Event Passenger)) (a : Lift.State Passenger)
    (now : List (Lift.Event Passenger)) : Prop where
  allowed : (Lift.lift Passenger).Along (Lift.Allowed B.house) a now
  shows : ShowsLift g ((Lift.lift Passenger).run a now)
  counted : Counted g (es ++ now)

section Steps

variable {s : Sys} {a : Lift.State Passenger} {es : List (Lift.Event Passenger)}

theorem answered_quiet {l : Label} {g g' : Globals} (h : ShowsLift g a) (hc : Counted g es)
    (hfloor : g'.currentFloor = g.currentFloor) (hall : g'.allocated = g.allocated)
    (hwaiting : g'.waitingList = g.waitingList) (hon : g'.onboard = g.onboard)
    (hfreed : g'.freed = g.freed) (hserviced : g'.serviced = g.serviced)
    (hloads : g'.loads = g.loads) (hnum : g'.numWaiting = g.numWaiting) :
    Answered B g' es a (happened l g g') := by
  rw [happened_quiet hall hon hfloor]
  refine ⟨trivial, h.congr hfloor hall hwaiting hon hfreed, ?_⟩
  rw [List.append_nil]
  exact ⟨hserviced ▸ hc.1, hloads ▸ hc.2, hnum ▸ hc.3, hall ▸ hc.4, hfreed ▸ hc.5⟩

theorem answered_added {l : Label} {x y k : Int} {g : Globals} (hrec : RecordInv B g)
    (h : ShowsLift g a) (hc : Counted g es) :
    Answered B (addPassenger x y k g) es a (happened l g (addPassenger x y k g)) := by
  rw [happened_added]
  generalize hp : (⟨g.allocated.length, k, x, y⟩ : Passenger) = p
  have hnew : p ∉ g.allocated := fun hmem => by
    have hlt := hrec.node_lt p hmem
    simp [← hp] at hlt
  have hnode : (addPassenger x y k g).allocated = g.allocated ++ [p] := by simp [addPassenger, hp]
  have hunknown := (h.unknown_iff p).mpr hnew
  refine ⟨⟨⟨hunknown, trivial⟩, trivial⟩, ⟨h.floor_eq, ?_, ?_, ?_, ?_⟩, ?_⟩
  · intro q
    rw [hnode]
    rcases eq_or_ne q p with rfl | hq
    · simp [Lift.lift, Lift.State.step, Lift.Passage.target]
    · simpa [Lift.lift, Lift.State.step, hq] using h.unknown_iff q
  · intro q
    have hq' : (∃ i, q ∈ (addPassenger x y k g).waitingList i)
        ↔ (∃ i, q ∈ g.waitingList i) ∨ q = p := by
      simp only [addPassenger, hp, mem_update_append, exists_or, exists_eq_left]
    rw [hq']
    rcases eq_or_ne q p with rfl | hq
    · simp [Lift.lift, Lift.State.step, Lift.Passage.target]
    · simpa [Lift.lift, Lift.State.step, hq] using h.waiting_iff q
  · intro q
    rcases eq_or_ne q p with rfl | hq
    · have hnot : q ∉ g.onboard := fun hon => hnew (hrec.onboard_subset hon)
      simpa [Lift.lift, Lift.State.step, Lift.Passage.target, addPassenger] using hnot
    · simpa [Lift.lift, Lift.State.step, hq, addPassenger] using h.riding_iff q
  · intro q
    rcases eq_or_ne q p with rfl | hq
    · have hnot : q ∉ g.freed := fun hfreed => by
        have hgone := (h.gone_iff q).mpr hfreed
        simp [hunknown] at hgone
      simpa [Lift.lift, Lift.State.step, Lift.Passage.target, addPassenger] using hnot
    · simpa [Lift.lift, Lift.State.step, hq, addPassenger] using h.gone_iff q
  · obtain ⟨h1, h2, h3, h4, h5⟩ := hc
    constructor <;> simp [addPassenger, Lift.tally] <;> omega

/-- Riders who leave, all in the same way, and are freed. -/
theorem shows_left {x : Lift.Passage} (hx : x = .alight ∨ x = .drop) {g g' : Globals}
    {rs : List Passenger} (h : ShowsLift g a) (hrs : rs ⊆ g.onboard)
    (hon : ∀ p, p ∈ g'.onboard ↔ p ∈ g.onboard ∧ p ∉ rs) (hfreed : g'.freed = g.freed ++ rs)
    (hfloor : g'.currentFloor = g.currentFloor) (hall : g'.allocated = g.allocated)
    (hwaiting : g'.waitingList = g.waitingList) :
    ShowsLift g' ((Lift.lift Passenger).run a (rs.map (.pass x))) := by
  rw [Lift.run_pass]
  have hriding := fun p (hp : p ∈ rs) => (h.riding_iff p).mpr (hrs hp)
  refine ⟨h.floor_eq.trans hfloor.symm, ?_, ?_, ?_, ?_⟩
  · intro p
    rw [hall, ← h.unknown_iff p]
    by_cases hp : p ∈ rs
    · rcases hx with rfl | rfl <;> simp [hp, hriding p hp, Lift.Passage.target]
    · simp [hp]
  · intro p
    rw [hwaiting, ← h.waiting_iff p]
    by_cases hp : p ∈ rs
    · rcases hx with rfl | rfl <;> simp [hp, hriding p hp, Lift.Passage.target]
    · simp [hp]
  · intro p
    rw [hon, ← h.riding_iff p]
    by_cases hp : p ∈ rs
    · rcases hx with rfl | rfl <;> simp [hp, Lift.Passage.target]
    · simp [hp]
  · intro p
    rw [hfreed, List.mem_append, ← h.gone_iff p]
    by_cases hp : p ∈ rs
    · rcases hx with rfl | rfl <;> simp [hp, Lift.Passage.target]
    · simp [hp]

theorem answered_stopped {c : Call} {g : Globals} (d st : Bool) (hrec : RecordInv B g)
    (hq : QueueInv B g) (h : ShowsLift g a) (hc : Counted g es) :
    let g' := { g with
      deactiving := d, started := st, onboard := [], freed := g.freed ++ g.onboard }
    Answered B g' es a (happened (.call c) g g') := by
  intro g'
  have hevents : happened (.call c) g g' = g.onboard.map (.pass .drop) :=
    happened_stopped rfl rfl rfl
  rw [hevents]
  refine ⟨?_, ?_, ?_⟩
  · exact Lift.along_pass _ (by simp) (hrec.onboard_nodup hq) fun p hp =>
      ⟨(h.riding_iff p).mpr hp, trivial⟩
  · exact shows_left (Or.inr rfl) h (List.Subset.refl _) (by simp [g']) rfl rfl rfl rfl
  · obtain ⟨h1, h2, h3, h4, h5⟩ := hc
    constructor <;> simp [g'] <;> omega

theorem answered_unloaded {g : Globals} (hrec : RecordInv B g) (hq : QueueInv B g)
    (h : ShowsLift g a) (hc : Counted g es) :
    Answered B (unloadPassengers .granted g).1 es a
      (happened .scheduler g (unloadPassengers .granted g).1) := by
  rw [happened_unloaded, unloadPassengers_granted]
  refine ⟨?_, ?_, ?_⟩
  · exact Lift.along_pass _ (by simp) ((hrec.onboard_nodup hq).filter _) fun p hp =>
      ⟨(h.riding_iff p).mpr (mem_alighting.mp hp).1, (mem_alighting.mp hp).2.trans h.floor_eq.symm⟩
  · refine shows_left (Or.inl rfl) h (List.filter_subset_self _) (fun p => ?_) rfl rfl rfl rfl
    rw [mem_riding, mem_alighting, not_and]
    exact and_congr_right fun hp => ⟨fun hne _ => hne, fun himp => himp hp⟩
  · obtain ⟨h1, h2, h3, h4, h5⟩ := hc
    constructor <;> simp <;> omega

theorem answered_loaded {g : Globals} (hrec : RecordInv B g) (hq : QueueInv B g)
    (hcabin : CabinInv B g) (h : ShowsLift g a) (hc : Counted g es) :
    Answered B (loadLocked B g).1 es a (happened .scheduler g (loadLocked B g).1) := by
  rw [happened_loaded hrec hq, loadLocked_eq]
  have hnodup := hrec.boarders_nodup
  have hwaiting := fun p (hp : p ∈ boarders B g) =>
    (h.waiting_iff p).mpr ⟨_, mem_waiting_of_mem_boarders hp⟩
  refine ⟨?_, ?_, ?_⟩
  · refine along_board (n := g.onboard.length) h.floor_eq ((hrec.queued _).nodup hrec.nodup)
      (fun p hp => (h.waiting_iff p).mpr ⟨_, hp⟩) hcabin.onboard_le_loads
      (h.encard_riding (hrec.onboard_nodup hq)).le fun hu q hon hz => ?_
    have hinfected := hcabin.infected_of_zombie q ((h.riding_iff q).mp hon) hz
    rw [hu] at hinfected
    cases hinfected
  · rw [Lift.run_pass]
    refine ⟨h.floor_eq, ?_, ?_, ?_, ?_⟩
    · intro p
      by_cases hp : p ∈ boarders B g
      · simpa [hp, Lift.Passage.target, hwaiting p hp, boarded] using h.unknown_iff p
      · simpa [hp, boarded] using h.unknown_iff p
    · -- a boarder was in the queue of this floor only, and is not among the stayers
      intro p
      have hmem : (∃ i, p ∈ Function.update g.waitingList (g.currentFloor - 1) (stayers B g) i)
          ↔ (∃ i, p ∈ g.waitingList i) ∧ p ∉ boarders B g := by
        constructor
        · intro hex
          obtain ⟨i, hi⟩ := hex
          rcases eq_or_ne i (g.currentFloor - 1) with rfl | hne
          · rw [Function.update_self] at hi
            exact ⟨⟨_, mem_waiting_of_mem_stayers hi⟩, fun hb =>
              (List.nodup_append.mp hnodup).2.2 p hb p hi rfl⟩
          · rw [Function.update_of_ne hne] at hi
            refine ⟨⟨i, hi⟩, fun hb => hne ?_⟩
            have hhere := (hq.waiting_ok _ p (mem_waiting_of_mem_boarders hb)).2
            have hthere := (hq.waiting_ok i p hi).2
            omega
        · intro hand
          obtain ⟨⟨i, hi⟩, hnot⟩ := hand
          refine ⟨i, ?_⟩
          rcases eq_or_ne i (g.currentFloor - 1) with rfl | hne
          · rw [Function.update_self]
            exact (List.mem_append.mp ((boarders_perm g).mem_iff.mpr hi)).resolve_left hnot
          · rwa [Function.update_of_ne hne]
      rw [hmem, ← h.waiting_iff p]
      by_cases hp : p ∈ boarders B g
      · simp [hp, Lift.Passage.target]
      · simp [hp]
    · intro p
      rw [boarded, List.mem_append, ← h.riding_iff p]
      by_cases hp : p ∈ boarders B g
      · simp [hp, Lift.Passage.target]
      · simp [hp]
    · intro p
      by_cases hp : p ∈ boarders B g
      · simpa [hp, Lift.Passage.target, hwaiting p hp, boarded] using h.gone_iff p
      · simpa [hp, boarded] using h.gone_iff p
  · obtain ⟨h1, h2, h3, h4, h5⟩ := hc
    constructor <;> simp [boarded] <;> omega

theorem answered_moved {g : Globals} {k : Nat} (hk : OnSweep B k g) (hstate : g.state = heading g)
    {current next : Int}
    (hmove : moveElevator B g = { g with currentFloor := current, nextFloor := next })
    (h : ShowsLift g a) (hc : Counted g es) :
    Answered B { g with currentFloor := current, nextFloor := next } es a
      (happened .scheduler g { g with currentFloor := current, nextFloor := next }) := by
  have hnext := hk.move hstate
  rw [hmove] at hnext
  have hcurrent : current = shuttle B.floors (k + 1) := hnext.currentFloor_eq
  have hrange : 1 ≤ current ∧ current ≤ B.floors := hnext.floor_range
  have hfloor := h.floor_eq
  have hold := hk.currentFloor_eq
  have hstep : current = a.floor + 1 ∨ current = a.floor - 1 := by
    rcases shuttle_succ B.two_le_floors k with hup | hdown <;> omega
  rw [happened_moved (by omega)]
  refine ⟨⟨⟨hstep, hrange⟩, trivial⟩, ⟨rfl, h.2, h.3, h.4, h.5⟩, ?_⟩
  obtain ⟨h1, h2, h3, h4, h5⟩ := hc
  constructor <;> simpa [Lift.tally]

/-- **A step of the module is what the lift may do.** -/
theorem Effect.answered {l : Label} {g' : Globals} (hinv : s.Inv B) (hrec : RecordInv B s.g)
    (h : ShowsLift s.g a) (hc : Counted s.g es) (he : Effect B s l g') :
    Answered B g' es a (happened l s.g g') := by
  obtain ⟨k, hk⟩ := hinv.sweep
  cases he with
  | added _ _ _ => exact answered_added hrec h hc
  | stopped _ => exact answered_stopped _ _ hrec hinv.wf.queues h hc
  | unloaded _ => exact answered_unloaded hrec hinv.wf.queues h hc
  | loaded _ _ _ => exact answered_loaded hrec hinv.wf.queues hinv.wf.cabin h hc
  | moved hpc current next hmove => exact answered_moved hk (hinv.heading_eq hpc) hmove h hc
  | same _ => exact answered_quiet h hc rfl rfl rfl rfl rfl rfl rfl rfl
  | started _ => exact answered_quiet h hc rfl rfl rfl rfl rfl rfl rfl rfl
  | shown _ _ => exact answered_quiet h hc rfl rfl rfl rfl rfl rfl rfl rfl
  | settled _ _ _ => exact answered_quiet h hc rfl rfl rfl rfl rfl rfl rfl rfl

end Steps

/-! ## §3 Runs -/

theorem eventsFrom_cons (s : Sys) (l : Label) (ls : List Label) :
    eventsFrom B s (l :: ls)
      = happened l s.g (s.step B l).g ++ eventsFrom B (s.step B l) ls := by
  simp [eventsFrom, Machine.outputs, system]

theorem Answered.trans {g g' : Globals} {a : Lift.State Passenger}
    {es now next : List (Lift.Event Passenger)} (h : Answered B g es a now)
    (h' : Answered B g' (es ++ now) ((Lift.lift Passenger).run a now) next) :
    Answered B g' es a (now ++ next) := by
  refine ⟨?_, ?_, ?_⟩
  · rw [Machine.along_append]
    exact ⟨h.allowed, h'.allowed⟩
  · rw [Machine.run_append]
    exact h'.shows
  · rw [← List.append_assoc]
    exact h'.counted

theorem answered_run (ls : List Label) {s : Sys} {a : Lift.State Passenger}
    {es : List (Lift.Event Passenger)} (hinv : s.Inv B) (hrec : RecordInv B s.g)
    (h : ShowsLift s.g a) (hc : Counted s.g es) :
    Answered B ((system B).run s ls).g es a (eventsFrom B s ls) := by
  induction ls generalizing s a es with
  | nil =>
    refine ⟨trivial, h, ?_⟩
    rw [eventsFrom, Machine.outputs, List.flatten_nil, List.append_nil]
    exact hc
  | cons l ls ih =>
    have hstep := (Sys.step_effect (B := B) s l).answered hinv hrec h hc
    rw [eventsFrom_cons]
    exact hstep.trans (ih (hinv.step l) (hrec.step hinv l) hstep.shows hstep.counted)

theorem answered_after (ls : List Label) :
    Answered B (Sys.after B ls).g [] (Lift.lift Passenger).init (Sys.events B ls) := by
  refine answered_run ls loaded_inv loaded_records ⟨?_, ?_, ?_, ?_, ?_⟩ ⟨?_, ?_, ?_, ?_, ?_⟩ <;>
    simp [loaded, setupElevator, bss, Lift.lift, Lift.tally]

theorem counted_after (ls : List Label) : Counted (Sys.after B ls).g (Sys.events B ls) :=
  (answered_after ls).counted

/-- **The module is a lift.** In every run of calls and phases, stops and
restarts included, whatever happens to passengers and cabin is what a lift
may do; the lists hold the passengers of the stages; and the counters count
them, `loads` those on board together with those whom a stop has dropped. -/
theorem runs_are_lift_runs (B : Building) (ls : List Label) :
    let events := Sys.events B ls
    let a := (Lift.lift Passenger).run (Lift.lift Passenger).init events
    let g := (Sys.after B ls).g
    (Lift.lift Passenger).Along (Lift.Allowed B.house) (Lift.lift Passenger).init events ∧
      ShowsLift g a ∧
      Lift.Counts g.serviced (a.at .delivered) ∧
      Lift.Counts g.numWaiting (a.at .waiting) ∧
      Lift.Counts g.loads (a.at .riding ∪ a.at .dropped) := by
  intro events a g
  obtain ⟨hallowed, hshows, hcounted⟩ := answered_after (B := B) ls
  obtain ⟨h1, h2, h3, h4, h5⟩ : Counted g events := hcounted
  have hstage := fun (k : Lift.Stage) (hk : k ≠ .unknown) =>
    Lift.encard_stage_init B.house hk hallowed
  refine ⟨hallowed, hshows, ?_, ?_, ?_⟩
  · exact .of_add (hstage .delivered (by simp)) (by simp [Lift.departed, Lift.arrived, h1, events])
  · exact .of_add (hstage .waiting (by simp)) h3
  · have hdisjoint : Disjoint (a.at .riding) (a.at .dropped) :=
      Set.disjoint_left.mpr fun p hr hd => by
        simp [Lift.State.at] at hr hd
        rw [hr] at hd
        cases hd
    have hriding := hstage .riding (by simp)
    have hdropped := hstage .dropped (by simp)
    refine .of_add (m := Lift.tally .alight events) (k := Lift.tally .board events) ?_ h2
    rw [Set.encard_union_eq hdisjoint]
    simp only [Lift.departed, Lift.arrived, Nat.cast_zero, add_zero] at hriding hdropped
    rw [hdropped, ← hriding]
    push_cast
    rw [add_assoc, add_comm (Lift.tally .drop _ : ℕ∞)]

/-! ## §4 Passengers -/

/-- What has happened to a passenger, by where the passenger is now. -/
structure Lived (g : Globals) (p : Passenger) (es : List (Lift.Event Passenger)) : Prop where
  of_unknown : p ∉ g.allocated → Lift.history p es = []
  of_waiting : ∀ i, p ∈ g.waitingList i → Lift.history p es = [.ask]
  of_onboard : p ∈ g.onboard → Lift.history p es = [.ask, .board]
  of_freed : p ∈ g.freed →
    Lift.history p es = [.ask, .board, .alight] ∨ Lift.history p es = [.ask, .board, .drop]
  boarded_at : ∀ pre post, es = pre ++ .pass .board p :: post →
    ((Lift.lift Passenger).run (Lift.lift Passenger).init pre).floor = p.startFloor
  alighted_at : ∀ pre post, es = pre ++ .pass .alight p :: post →
    ((Lift.lift Passenger).run (Lift.lift Passenger).init pre).floor = p.destinationFloor

/-- **The story of a passenger**, in any run: asked, boarded at the start
floor, and then alighted at the destination or was dropped by a stop; each at
most once, in this order, and so far as the list says on which the record
is. -/
theorem passenger_history (B : Building) (ls : List Label) (p : Passenger) :
    Lived (Sys.after B ls).g p (Sys.events B ls) := by
  obtain ⟨hallowed, hshows, -⟩ := answered_after (B := B) ls
  have hhistory := Lift.history_eq B.house _ hallowed p
  refine ⟨?_, ?_, ?_, ?_, ?_, ?_⟩
  · intro hp
    simp [hhistory, (hshows.unknown_iff p).mpr hp, Lift.Stage.history]
  · intro i hp
    simp [hhistory, (hshows.waiting_iff p).mpr ⟨i, hp⟩, Lift.Stage.history]
  · intro hp
    simp [hhistory, (hshows.riding_iff p).mpr hp, Lift.Stage.history]
  · intro hp
    rcases (hshows.gone_iff p).mpr hp with hstage | hstage <;>
      simp [hhistory, hstage, Lift.Stage.history]
  · intro pre post heq
    rw [heq] at hallowed
    exact hallowed.at.2.1.symm
  · intro pre post heq
    rw [heq] at hallowed
    exact hallowed.at.2.symm

end KernelElevator
