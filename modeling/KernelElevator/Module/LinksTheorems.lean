/-
KernelElevator.Module.LinksTheorems — the links show the lists.

`Linked.Shows` connects the module on its links with `Globals`: the rings
from `elevator.onboard` and from the array of floor queues are the lists of
the globals, and everything else is equal.

  §1 Heads and rings — the relation, and what the two loops do to it;
  §2 The calls       — `Linked.Shows.exec`;
  §3 The scheduler   — `Linked.Shows.unload`, `Linked.Shows.load` and the
                       phases that touch no list;
  §4 Whole runs      — every run of the module on its links shows the run on
                       lists, no loop of it runs astray and no head is taken
                       for a record (`links_show_system`), and
                       `elevator_exit` leaves empty rings (`links_exit`).
-/
import KernelElevator.Module.Links
import KernelElevator.Module.RecordTheorems

namespace KernelElevator

open Transition Circular

variable (B : Building)

/-! ## §1 Heads and rings -/

/-- The queues of the globals by name. -/
def Globals.queue (g : Globals) : Queue → List Passenger
  | .waiting i => g.waitingList i
  | .onboard => g.onboard

def Globals.setQueue (g : Globals) (q : Queue) (w : List Passenger) : Globals :=
  match q with
  | .waiting i => { g with waitingList := Function.update g.waitingList i w }
  | .onboard => { g with onboard := w }

/-- Everything but the lists. -/
def Globals.scalars (g : Globals) : Globals :=
  { g with onboard := [], waitingList := fun _ => [] }

/-- The heads there are: one for the cabin, and an array of one for each
floor. -/
def Queue.Exists : Queue → Prop
  | .waiting i => 0 ≤ i ∧ i < B.floors
  | .onboard => True

abbrev Heads := {q : Queue // q.Exists B}

def Heads.onboard : Heads B := ⟨.onboard, trivial⟩

/-- The head of a queue, or `delete_list`. -/
def headSite (o : Option (Heads B)) : Site := o.elim .deleteList fun q => q.1.site

/-- The members `list` of the records of a queue. -/
def sites (g : Globals) (q : Heads B) : List Site := (g.queue q.1).map Site.record

def sitesWith (g : Globals) (deleteList : List Passenger) (o : Option (Heads B)) : List Site :=
  o.elim (deleteList.map Site.record) (sites B g)

/-- The rings are the queues of the globals. -/
def Shown (l : Links Site) (g : Globals) : Prop :=
  Represents l (fun q : Heads B => q.1.site) (sites B g)

/-- So they are, and there is a `delete_list` beside them. -/
def ShownWith (l : Links Site) (g : Globals) (deleteList : List Passenger) : Prop :=
  Represents l (headSite B) (sitesWith B g deleteList)

structure Linked.Shows (u : Linked) (g : Globals) : Prop where
  g_eq : u.g = g.scalars
  shown : Shown B u.links g

variable {B}

theorem record_injective : Function.Injective Site.record := fun _ _ h =>
  Address.passenger_injective (Site.known.inj h)

theorem queue_setQueue (g : Globals) (q : Queue) (w : List Passenger) :
    (g.setQueue q w).queue = Function.update g.queue q w := by
  funext q'
  cases q <;> cases q' <;> simp [Globals.setQueue, Globals.queue, Function.update_apply]

theorem queue_congr {g g' : Globals} (hon : g.onboard = g'.onboard)
    (hw : g.waitingList = g'.waitingList) : g.queue = g'.queue := by
  funext q
  cases q with
  | waiting i => exact congrFun hw i
  | onboard => exact hon

theorem sites_congr {g g' : Globals} (h : g.queue = g'.queue) : sites B g = sites B g' := by
  funext q
  rw [sites, sites, h]

theorem Shown.congr {l : Links Site} {g g' : Globals} (h : Shown B l g)
    (hq : g.queue = g'.queue) : Shown B l g' := by
  rwa [Shown, ← sites_congr hq]

theorem update_sites (g : Globals) (q : Heads B) (w : List Passenger) :
    Function.update (sites B g) q (w.map Site.record) = sites B (g.setQueue q.1 w) := by
  funext q'
  rw [sites, queue_setQueue]
  rcases eq_or_ne q' q with rfl | hq
  · rw [Function.update_self, Function.update_self]
  · rw [Function.update_of_ne hq, Function.update_of_ne fun h => hq (Subtype.ext h)]
    rfl

theorem update_sitesWith_some (g : Globals) (dl : List Passenger) (q : Heads B)
    (w : List Passenger) :
    Function.update (sitesWith B g dl) (some q) (w.map Site.record)
      = sitesWith B (g.setQueue q.1 w) dl := by
  funext o
  cases o with
  | none => rw [Function.update_of_ne (Option.some_ne_none q).symm]; rfl
  | some q' =>
    have hq' := congrFun (update_sites g q w) q'
    rw [sitesWith, Option.elim_some, ← hq']
    rcases eq_or_ne q' q with rfl | hq
    · rw [Function.update_self, Function.update_self]
    · rw [Function.update_of_ne hq, Function.update_of_ne fun h => hq (Option.some.inj h)]
      rfl

theorem update_sitesWith_none (g : Globals) (dl dl' : List Passenger) :
    Function.update (sitesWith B g dl) none (dl'.map Site.record) = sitesWith B g dl' := by
  funext o
  cases o with
  | none => rw [Function.update_self]; rfl
  | some q => rw [Function.update_of_ne (Option.some_ne_none q)]; rfl

/-- A walk along a queue whose body moves records to `delete_list`. -/
theorem movedTo_deleteList {σ : Type*} (g : Globals) (dl : List Passenger) (q : Heads B)
    (c : Cursor Passenger σ) :
    movedTo (sitesWith B g dl) Site.record (some q) none c
      = sitesWith B (g.setQueue q.1 c.list) (dl ++ c.moved) := by
  have hnone : sitesWith B g dl none = dl.map Site.record := rfl
  rw [movedTo, update_sitesWith_some, hnone, ← List.map_append, update_sitesWith_none]

/-- A walk along a queue whose body moves records to another one. -/
theorem movedTo_queue {σ : Type*} (g : Globals) (q q' : Heads B) (c : Cursor Passenger σ) :
    movedTo (sites B g) Site.record q q' c
      = sites B ((g.setQueue q.1 c.list).setQueue q'.1 (g.queue q'.1 ++ c.moved)) := by
  have hq' : sites B g q' = (g.queue q'.1).map Site.record := rfl
  rw [movedTo, update_sites, hq', ← List.map_append, update_sites]

/-- `INIT_LIST_HEAD(&delete_list)`. -/
theorem Shown.withLocal {l : Links Site} {g : Globals} (h : Shown B l g) :
    ShownWith B (l.initHead .deleteList) g [] := by
  refine Represents.withLocal h fun q hmem => ?_
  rcases List.mem_cons.mp hmem with heq | hmem
  · cases heq
  · obtain ⟨p, -, heq⟩ := List.mem_map.mp hmem
    cases heq

theorem ShownWith.withoutLocal {l : Links Site} {g : Globals} {dl : List Passenger}
    (h : ShownWith B l g dl) : Shown B l g :=
  Represents.withoutLocal h

variable {fuel : Nat} {u : Linked} {g : Globals} {dl : List Passenger}

/-- The loop that moves every record of a queue to `delete_list`. -/
theorem ShownWith.discard (h : ShownWith B u.links g dl) (q : Heads B)
    (hfuel : (g.queue q.1).length < fuel) :
    ∃ l', u.discard fuel q.1 = some ⟨u.g, l'⟩ ∧
      ShownWith B l' (g.setQueue q.1 []) (dl ++ g.queue q.1) := by
  -- every record is moved, and the loop has no other variables
  let step : Passenger → Unit → Option Unit := fun _ _ => some ()
  have hmove : ∀ p ∈ g.queue q.1, ∀ (l : Links Site) (s s' : Unit), step p s = some s' →
      discardBody (.record p) l (id s)
        = some (l.moveTail (.record p) (headSite B none), id s') := fun _ _ _ _ _ _ => rfl
  have hkeep : ∀ p ∈ g.queue q.1, ∀ (l : Links Site) (s : Unit), step p s = none →
      discardBody (.record p) l (id s) = some (l, id s) := fun _ _ _ _ hs => by cases hs
  obtain ⟨l', hloop, hrep⟩ := Represents.forEachSafe_walk (i := some q) h rfl record_injective
    (Option.some_ne_none q).symm hmove hkeep hfuel ()
  obtain ⟨hmoved, hlist⟩ := walk_all step (fun _ _ => rfl) (g.queue q.1) ()
  rw [movedTo_deleteList, hmoved, hlist] at hrep
  exact ⟨l', congrArg (Option.map _) hloop, hrep⟩

/-- The loop that frees the records on `delete_list`. -/
theorem ShownWith.freeDeleteList (h : ShownWith B u.links g dl) (hfuel : dl.length < fuel) :
    ∃ l', u.freeDeleteList fuel = some ⟨kfreeAll dl u.g, l'⟩ ∧ Shown B l' g := by
  have hbody : ∀ p ∈ dl, ∀ (l : Links Site) (g : Globals),
      freeBody (.record p) l g = some (l.del .poison1 .poison2 (.record p), kfree p g) :=
    fun _ _ _ _ => rfl
  obtain ⟨l', hloop, hrep⟩ := Represents.forEachSafe_del (i := none) h rfl hbody hfuel u.g
  refine ⟨l', ?_, Represents.withoutLocal hrep⟩
  rw [Linked.freeDeleteList]
  exact congrArg (Option.map _) hloop

/-! ## §2 The calls -/

/-- The record that `kmalloc` hands out is on no list. -/
theorem record_fresh (hrec : RecordInv B g) (p : Passenger) (hp : p.node = g.allocated.length)
    (q : Heads B) : Site.record p ∉ q.1.site :: sites B g q := by
  intro hmem
  have hnot : p ∉ g.allocated := fun h => Nat.lt_irrefl _ (hp ▸ hrec.node_lt p h)
  have hplaces := hrec.places_eq p
  rw [List.count_eq_zero_of_not_mem hnot, places] at hplaces
  rcases List.mem_cons.mp hmem with heq | hmem
  · cases heq
  · have hon := (List.mem_map_of_injective record_injective).mp hmem
    obtain ⟨q, hq⟩ := q
    cases q with
    | waiting i => exact hnot ((hrec.queued i).subset hon)
    | onboard =>
      have hcount := List.count_pos_iff.mpr (show p ∈ g.onboard from hon)
      omega

theorem Linked.Shows.addPassenger (h : u.Shows B g) (hrec : RecordInv B g) {a b t : Int}
    (hreq : Requestable B a b t) :
    (u.addPassenger a b t).Shows B (KernelElevator.addPassenger a b t g) := by
  have hlo := hreq.start_pos
  have hhi := hreq.start_le
  let q : Heads B := ⟨.waiting (a - 1), by omega, by omega⟩
  let p : Passenger := ⟨g.allocated.length, t, a, b⟩
  have hadd := Represents.addTail h.shown q (record_fresh hrec p rfl)
  have hsites : sites B g q ++ [Site.record p] = (g.queue q.1 ++ [p]).map Site.record := by
    rw [List.map_append]
    rfl
  rw [hsites, update_sites] at hadd
  refine ⟨?_, ?_⟩
  · simp only [Linked.addPassenger, h.g_eq]
    rfl
  · have hlinks : (u.addPassenger a b t).links = u.links.addTail (.record p) q.1.site := by
      simp only [Linked.addPassenger, h.g_eq]
      rfl
    rw [hlinks]
    exact Shown.congr hadd (queue_setQueue _ _ _ ▸ rfl)

/-- A list of records has at most as many as there are records. -/
theorem RecordInv.length_le {w : List Passenger} (hrec : RecordInv B g)
    (hw : ∀ p, w.count p ≤ places B g p) : w.length ≤ g.allocated.length :=
  (List.subperm_iff_count.mpr fun p => (hw p).trans_eq (hrec.places_eq p)).length_le

theorem RecordInv.queue_length_le (hrec : RecordInv B g) (q : Queue) :
    (g.queue q).length ≤ g.allocated.length := by
  cases q with
  | waiting i => exact (hrec.queued i).length_le
  | onboard => exact hrec.length_le fun p => by rw [places, Globals.queue]; omega

theorem Linked.Shows.stopElevator (h : u.Shows B g) (hrec : RecordInv B g)
    (hfuel : g.allocated.length < fuel) :
    ∃ u', u.stopElevator fuel = some ((KernelElevator.stopElevator .granted g).1, u') ∧
      u'.Shows B (KernelElevator.stopElevator .granted g).2 := by
  obtain ⟨ug, links⟩ := u
  obtain ⟨hg, hshown⟩ := h
  obtain rfl : ug = g.scalars := hg
  have hinit := hshown.withLocal
  by_cases htakes : StopTakes g
  · have hrejects : stopElevatorRejects g.scalars = false := by
      simp [stopElevatorRejects, Globals.scalars, htakes.1, htakes.2]
    have hlen : g.onboard.length < fuel :=
      Nat.lt_of_le_of_lt (hrec.queue_length_le .onboard) hfuel
    let stopped : Globals := { g.scalars with deactiving := true, started := false }
    obtain ⟨l1, hdiscard, h1⟩ :=
      ShownWith.discard (u := ⟨stopped, links.initHead .deleteList⟩) hinit (Heads.onboard B) hlen
    obtain ⟨l2, hfree, h2⟩ := ShownWith.freeDeleteList (u := ⟨stopped, l1⟩) h1 hlen
    rw [stopElevator_takes htakes]
    refine ⟨⟨kfreeAll g.onboard stopped, l2⟩, ?_, ?_, h2⟩
    · simp only [Linked.stopElevator, hrejects]
      change (Linked.discard fuel Queue.onboard ⟨stopped, _⟩).bind _ = _
      rw [show Queue.onboard = (Heads.onboard B).1 from rfl, hdiscard, Option.bind_some]
      exact congrArg (Option.map _) hfree
    · rw [kfreeAll_eq]
      rfl
  · have hrejects : stopElevatorRejects g.scalars = true :=
      (stopElevatorRejects_iff g).mpr htakes
    rw [stopElevator_rejected htakes]
    refine ⟨⟨g.scalars, links.initHead .deleteList⟩, ?_, rfl, hinit.withoutLocal⟩
    simp only [Linked.stopElevator, hrejects, if_true]

theorem Linked.Shows.issueRequest (h : u.Shows B g) (hrec : RecordInv B g) (a b t : Int) :
    (u.issueRequest B a b t).1 = (Call.exec B g (.issueRequest a b t)).1 ∧
      (u.issueRequest B a b t).2.Shows B (Call.exec B g (.issueRequest a b t)).2 := by
  have hsame : issueRequestRejects B a b t u.g = issueRequestRejects B a b t g := by
    rw [h.g_eq]
    rfl
  have hdeactiving : u.g.deactiving = g.deactiving := by
    rw [h.g_eq]
    rfl
  simp only [Linked.issueRequest, Call.exec, hsame, hdeactiving]
  cases hr : issueRequestRejects B a b t g with
  | true =>
    rw [issueRequest_rejected hr]
    exact ⟨rfl, h⟩
  | false =>
    cases hd : g.deactiving with
    | true =>
      rw [issueRequest_deactiving hr hd]
      exact ⟨rfl, h⟩
    | false =>
      rw [issueRequest_accepted hr hd]
      exact ⟨rfl, h.addPassenger hrec (issueRequestRejects_iff.mp hr).2⟩

theorem startElevator_scalars (g : Globals) :
    startElevator g.scalars = ((startElevator g).1, (startElevator g).2.scalars) := by
  cases hs : g.started with
  | true => rw [startElevator_running hs, startElevator_running (g := g.scalars) hs]
  | false =>
    rw [startElevator_stopped hs, startElevator_stopped (g := g.scalars) hs]
    rfl

theorem startElevator_queue (g : Globals) : g.queue = (startElevator g).2.queue := by
  cases hs : g.started with
  | true => rw [startElevator_running hs]
  | false =>
    rw [startElevator_stopped hs]
    rfl

/-- Every call gives the same result on the links and leaves the same lists. -/
theorem Linked.Shows.exec (h : u.Shows B g) (hrec : RecordInv B g)
    (hfuel : g.allocated.length < fuel) (c : Call) :
    ∃ u', u.exec B fuel c = some ((c.exec B g).1, u') ∧ u'.Shows B (c.exec B g).2 := by
  cases c with
  | startElevator =>
    refine ⟨⟨(startElevator g).2.scalars, u.links⟩, ?_, rfl, ?_⟩
    · simp only [Linked.exec, h.g_eq, startElevator_scalars]
      rfl
    · exact h.shown.congr (startElevator_queue g)
  | issueRequest a b t =>
    obtain ⟨hresult, hshows⟩ := h.issueRequest hrec a b t
    exact ⟨_, by rw [Linked.exec, ← hresult], hshows⟩
  | stopElevator => exact h.stopElevator hrec hfuel

/-! ## §3 The scheduler -/

/-- The variables of a loop of the scheduler, without the lists. -/
def scalarView (v : Globals × Bool) : Globals × Bool := (v.1.scalars, v.2)

theorem unloadBody_scalars (p : Passenger) (v : Globals × Bool) :
    unloadBody p (scalarView v) = (unloadBody p v).map scalarView := by
  obtain ⟨g, unloaded⟩ := v
  rw [scalarView, unloadBody_eq, unloadBody_eq]
  by_cases hd : p.destinationFloor = g.currentFloor
  · rw [if_pos hd, if_pos (show p.destinationFloor = g.scalars.currentFloor from hd)]
    rfl
  · rw [if_neg hd, if_neg (show ¬ p.destinationFloor = g.scalars.currentFloor from hd)]
    rfl

/-- Leaving the list aside, a pass of the loading loop does what `loadBody`
does. -/
theorem loadTakes_scalars (floor : Int) (p : Passenger) (v : Globals × Bool) :
    loadTakes B floor p (scalarView v) = (loadBody B floor p v).map scalarView := by
  unfold loadTakes loadBody
  simp only [apply_ite (Option.map scalarView)]
  rfl

theorem unload_walk (g : Globals) :
    walk unloadBody g.onboard (g, false)
      = ⟨riding g, alighting g, [], (alighted (alighting g) g, decide (alighting g ≠ []))⟩ := by
  have h := unload_iterate g.onboard [] [] g false
  rwa [List.nil_append, List.nil_append, Bool.false_or] at h

variable (B) in
theorem load_walk (g : Globals) :
    walk (loadBody B g.currentFloor) (g.waitingList (g.currentFloor - 1)) (g, false)
      = ⟨stayers B g, boarders B g, [],
         (boarded g.currentFloor (boarders B g) g, decide (boarders B g ≠ []))⟩ := by
  have h := load_iterate B g.currentFloor (g.waitingList (g.currentFloor - 1)) [] [] g false
  rwa [List.nil_append, List.nil_append, Bool.false_or] at h

/-- The loop of `unloadPassengers`. -/
theorem ShownWith.unload {l : Links Site} (h : ShownWith B l g [])
    (hfuel : g.onboard.length < fuel) :
    ∃ l', forEachSafe Queue.onboard.site unloadLinkBody fuel l (g.scalars, false)
        = some (l', (alighted (alighting g) g).scalars, decide (alighting g ≠ [])) ∧
      ShownWith B l' (g.setQueue .onboard (riding g)) (alighting g) := by
  have honboard : sitesWith B g [] (some (Heads.onboard B)) = g.onboard.map Site.record := rfl
  have hmove : ∀ p ∈ g.onboard, ∀ (l : Links Site) (v v' : Globals × Bool),
      unloadBody p v = some v' → unloadLinkBody (.record p) l (scalarView v)
        = some (l.moveTail (.record p) (headSite B none), scalarView v') := by
    intro p _ l v v' hv
    simp only [unloadLinkBody, Site.listEntry, Site.record, Option.map_some, unloadBody_scalars,
      hv]
    rfl
  have hkeep : ∀ p ∈ g.onboard, ∀ (l : Links Site) (v : Globals × Bool),
      unloadBody p v = none →
        unloadLinkBody (.record p) l (scalarView v) = some (l, scalarView v) := by
    intro p _ l v hv
    simp only [unloadLinkBody, Site.listEntry, Site.record, Option.map_some, unloadBody_scalars,
      hv]
    rfl
  obtain ⟨l', hloop, hrep⟩ := Represents.forEachSafe_walk h honboard record_injective
    (Option.some_ne_none _).symm hmove hkeep hfuel (g, false)
  rw [movedTo_deleteList, unload_walk, List.nil_append] at hrep
  rw [unload_walk] at hloop
  refine ⟨l', hloop, ?_⟩
  rwa [Cursor.list, List.append_nil] at hrep

theorem Linked.Shows.unload (h : u.Shows B g) (hrec : RecordInv B g)
    (hfuel : g.allocated.length < fuel) :
    ∃ u', u.unloadPassengers fuel
        = some (u', (KernelElevator.unloadPassengers .granted g).2) ∧
      u'.Shows B (KernelElevator.unloadPassengers .granted g).1 := by
  obtain ⟨ug, links⟩ := u
  obtain ⟨hg, hshown⟩ := h
  obtain rfl : ug = g.scalars := hg
  have hlen : g.onboard.length < fuel :=
    Nat.lt_of_le_of_lt (hrec.queue_length_le .onboard) hfuel
  have hlen' : (alighting g).length < fuel :=
    Nat.lt_of_le_of_lt (List.length_filter_le _ _) hlen
  obtain ⟨l1, hloop, h1⟩ := hshown.withLocal.unload hlen
  let unloaded : Linked := ⟨(alighted (alighting g) g).scalars, l1⟩
  obtain ⟨l2, hfree, h2⟩ := ShownWith.freeDeleteList (u := unloaded) h1 hlen'
  have hfrees : Linked.freeDeleteList fuel ⟨(alighted (alighting g) g).scalars, l1⟩
      = some ⟨kfreeAll (alighting g) (alighted (alighting g) g).scalars, l2⟩ := hfree
  rw [unloadPassengers_granted]
  simp only [Linked.unloadPassengers, hloop, Option.bind_some, hfrees, Option.map_some,
    kfreeAll_eq]
  refine ⟨_, rfl, ?_, ?_⟩
  · by_cases hzero : g.loads - (alighting g).length = 0
    · rw [if_pos (show (alighted (alighting g) g).scalars.loads = 0 from hzero)]
      simp only [hzero, if_true, Globals.scalars, alighted]
    · rw [if_neg (show ¬ (alighted (alighting g) g).scalars.loads = 0 from hzero)]
      simp only [hzero, if_false, Globals.scalars, alighted]
  · refine Shown.congr ?_ (queue_congr (g := g.setQueue .onboard (riding g)) rfl rfl)
    split <;> exact h2

/-- The loop of `loadPassengers`. -/
theorem Shown.load {l : Links Site} (h : Shown B l g)
    (hfloor : 1 ≤ g.currentFloor ∧ g.currentFloor ≤ B.floors)
    (hfuel : (g.waitingList (g.currentFloor - 1)).length < fuel) :
    ∃ l', forEachSafe (Queue.waiting (g.currentFloor - 1)).site (loadLinkBody B g.currentFloor)
        fuel l (g.scalars, false) = some (l', scalarView ((loadLocked B g).1, (loadLocked B g).2)) ∧
      Shown B l' (loadLocked B g).1 := by
  let q : Heads B := ⟨.waiting (g.currentFloor - 1), by omega, by omega⟩
  have hqueue : sites B g q = (g.waitingList (g.currentFloor - 1)).map Site.record := rfl
  have hne : Heads.onboard B ≠ q := fun heq => Queue.noConfusion (congrArg Subtype.val heq)
  have hmove : ∀ p ∈ g.waitingList (g.currentFloor - 1), ∀ (l : Links Site)
      (v v' : Globals × Bool), loadBody B g.currentFloor p v = some v' →
        loadLinkBody B g.currentFloor (.record p) l (scalarView v)
          = some (l.moveTail (.record p) (Heads.onboard B).1.site, scalarView v') := by
    intro p _ l v v' hv
    simp only [loadLinkBody, Site.listEntry, Site.record, Option.map_some, loadTakes_scalars, hv]
    rfl
  have hkeep : ∀ p ∈ g.waitingList (g.currentFloor - 1), ∀ (l : Links Site) (v : Globals × Bool),
      loadBody B g.currentFloor p v = none →
        loadLinkBody B g.currentFloor (.record p) l (scalarView v) = some (l, scalarView v) := by
    intro p _ l v hv
    simp only [loadLinkBody, Site.listEntry, Site.record, Option.map_some, loadTakes_scalars, hv]
    rfl
  obtain ⟨l', hloop, hrep⟩ := Represents.forEachSafe_walk h hqueue record_injective hne hmove
    hkeep hfuel (g, false)
  rw [movedTo_queue, load_walk] at hrep
  rw [load_walk] at hloop
  rw [loadLocked_eq]
  refine ⟨l', hloop, Shown.congr hrep ?_⟩
  funext q'
  cases q' with
  | waiting i => simp [q, Globals.queue, Globals.setQueue, Cursor.list, Heads.onboard]
  | onboard => simp [q, Globals.queue, Globals.setQueue, boarded, Heads.onboard]

theorem Linked.Shows.load (h : u.Shows B g) (hrec : RecordInv B g)
    (hfloor : 1 ≤ g.currentFloor ∧ g.currentFloor ≤ B.floors)
    (hfuel : g.allocated.length < fuel) :
    ∃ u', u.loadPassengers B fuel = some (u', (loadLocked B g).2) ∧
      u'.Shows B (loadLocked B g).1 := by
  obtain ⟨ug, links⟩ := u
  obtain ⟨hg, hshown⟩ := h
  obtain rfl : ug = g.scalars := hg
  have hlen : (g.waitingList (g.currentFloor - 1)).length < fuel :=
    Nat.lt_of_le_of_lt (hrec.queue_length_le (.waiting (g.currentFloor - 1))) hfuel
  obtain ⟨l', hloop, hshown'⟩ := hshown.load hfloor hlen
  refine ⟨⟨(loadLocked B g).1.scalars, l'⟩, ?_, rfl, hshown'⟩
  exact congrArg (Option.map _) hloop

theorem Linked.Shows.busy_eq (h : u.Shows B g) : u.busy = KernelElevator.busy g := by
  have hempty := (h.shown.ring (Heads.onboard B)).isEmpty_iff
  have hnil : sites B g (Heads.onboard B) = [] ↔ g.onboard = [] := List.map_eq_nil_iff
  rw [hnil] at hempty
  have hn : u.g.numWaiting = g.numWaiting := by
    rw [h.g_eq]
    rfl
  rw [Linked.busy, KernelElevator.busy, hn]
  change (decide (g.numWaiting ≠ 0) || !u.links.isEmpty (Heads.onboard B).1.site) = _
  cases he : u.links.isEmpty (Heads.onboard B).1.site with
  | true => simp [hempty.mp he]
  | false =>
    have hne : g.onboard ≠ [] := fun hon => by
      rw [hempty.mpr hon] at he
      cases he
    simp [hne]

/-- A phase that neither reads nor writes a list. -/
structure ListFree (f : Globals → Globals) : Prop where
  scalars : ∀ g, f g.scalars = (f g).scalars
  onboard : ∀ g, (f g).onboard = g.onboard
  waiting : ∀ g, (f g).waitingList = g.waitingList

theorem Linked.Shows.phase {f : Globals → Globals} (hf : ListFree f) (h : u.Shows B g) :
    Linked.Shows B { u with g := f u.g } (f g) := by
  refine ⟨?_, h.shown.congr (queue_congr (hf.onboard g).symm (hf.waiting g).symm)⟩
  rw [h.g_eq]
  exact hf.scalars g

theorem standBy_listFree : ListFree standBy := by
  refine ⟨fun g => ?_, fun g => ?_, fun g => ?_⟩
  · rw [standBy_eq, standBy_eq]
    rfl
  · rw [standBy_eq]
    rfl
  · rw [standBy_eq]
    rfl

theorem loadingPhase_listFree (us ls : Bool) : ListFree (loadingPhase us ls) := by
  refine ⟨fun g => ?_, fun g => ?_, fun g => ?_⟩
  · rw [loadingPhase_eq, loadingPhase_eq]
    rfl
  · rw [loadingPhase_eq]
  · rw [loadingPhase_eq]

theorem depart_listFree : ListFree fun g => ssleep moveTime (changeElevatorState g) := by
  refine ⟨fun g => ?_, fun g => ?_, fun g => ?_⟩
  · rw [changeElevatorState_eq, changeElevatorState_eq]
    rfl
  · rw [changeElevatorState_eq]
    rfl
  · rw [changeElevatorState_eq]
    rfl

theorem settle_listFree : ListFree settle := by
  have hsettle : ∀ g, settle g = { g with
      state := if g.deactiving then .offline else g.state, deactiving := false } := by
    intro g
    unfold settle
    cases hd : g.deactiving with
    | true => rfl
    | false =>
      rw [if_neg Bool.false_ne_true, if_neg Bool.false_ne_true, ← hd]
  refine ⟨fun g => ?_, fun g => ?_, fun g => ?_⟩
  · rw [hsettle, hsettle]
    rfl
  · rw [hsettle]
  · rw [hsettle]

variable (B) in
theorem moveElevator_listFree : ListFree (moveElevator B) := by
  have hframe : ∀ g, (moveElevator B g).onboard = g.onboard ∧
      (moveElevator B g).waitingList = g.waitingList := by
    intro g
    obtain ⟨current, next, hmove⟩ := moveElevator_frame B g
    rw [hmove]
    exact ⟨rfl, rfl⟩
  refine ⟨fun g => ?_, fun g => (hframe g).1, fun g => (hframe g).2⟩
  by_cases hu : g.state = .up
  · rw [moveElevator_up B hu, moveElevator_up B (show g.scalars.state = .up from hu)]
    rfl
  · by_cases hd : g.state = .down
    · rw [moveElevator_down B hd, moveElevator_down B (show g.scalars.state = .down from hd)]
      rfl
    · rw [moveElevator_still B hu hd,
        moveElevator_still B (show g.scalars.state ≠ .up from hu)
          (show g.scalars.state ≠ .down from hd)]

variable (B) in
/-- The links show the lists, and the scheduler threads stand at the same
place. -/
structure LinkedSys.Shows (u : LinkedSys) (s : Sys) : Prop where
  mem : u.mem.Shows B s.g
  pc_eq : u.pc = s.pc

theorem LinkedSys.Shows.scheduler {u : LinkedSys} {s : Sys} (h : u.Shows B s) (hinv : s.Inv B)
    (hrec : RecordInv B s.g) (hfuel : s.g.allocated.length < fuel) :
    ∃ u', linkedSchedulerStep B fuel u = some u' ∧ u'.Shows B (schedulerStep B s) := by
  obtain ⟨k, hk⟩ := hinv.sweep
  obtain ⟨mem, pc⟩ := u
  obtain ⟨g, spc⟩ := s
  obtain ⟨hmem, rfl⟩ : mem.Shows B g ∧ pc = spc := ⟨h.mem, h.pc_eq⟩
  cases pc with
  | top =>
    simp only [linkedSchedulerStep, schedulerStep, hmem.busy_eq]
    split
    · exact ⟨_, rfl, hmem, rfl⟩
    · exact ⟨_, rfl, hmem.phase standBy_listFree, rfl⟩
  | unload =>
    obtain ⟨mem', hrun, hshows⟩ := hmem.unload hrec hfuel
    simp only [linkedSchedulerStep, hrun, Option.map_some]
    exact ⟨_, rfl, hshows, rfl⟩
  | load us =>
    have hloads : mem.g.loads = g.loads := by
      rw [hmem.g_eq]
      rfl
    simp only [linkedSchedulerStep, hloads]
    by_cases hroom : g.loads < B.capacity
    · obtain ⟨mem', hrun, hshows⟩ := hmem.load hrec hk.floor_range hfuel
      rw [if_pos hroom, hrun, schedulerStep_load, loadPhase_room B hroom]
      exact ⟨_, rfl, hshows, rfl⟩
    · rw [if_neg hroom, schedulerStep_load, loadPhase_full B hroom]
      exact ⟨_, rfl, hmem, rfl⟩
  | loading us ls => exact ⟨_, rfl, hmem.phase (loadingPhase_listFree us ls), rfl⟩
  | dispatch =>
    have hmust : mustMove mem.g = mustMove g := by
      rw [hmem.g_eq]
      rfl
    simp only [linkedSchedulerStep, schedulerStep, hmust]
    split
    · exact ⟨_, rfl, hmem.phase depart_listFree, rfl⟩
    · exact ⟨_, rfl, hmem.phase settle_listFree, rfl⟩
  | move => exact ⟨_, rfl, hmem.phase (moveElevator_listFree B), rfl⟩

theorem LinkedSys.Shows.step {u : LinkedSys} {s : Sys} (h : u.Shows B s) (hinv : s.Inv B)
    (hrec : RecordInv B s.g) (hfuel : s.g.allocated.length < fuel) (l : Label) :
    ∃ u', u.step B fuel l = some u' ∧ u'.Shows B (s.step B l) := by
  cases l with
  | scheduler => exact h.scheduler hinv hrec hfuel
  | call c =>
    obtain ⟨mem', hrun, hshows⟩ := h.mem.exec hrec hfuel c
    refine ⟨⟨mem', u.pc⟩, ?_, hshows, h.pc_eq⟩
    rw [LinkedSys.step, hrun]
    rfl

/-! ## §4 Whole runs -/

theorem Effect.allocated_length_le {s : Sys} {l : Label} {g' : Globals} (he : Effect B s l g') :
    s.g.allocated.length ≤ g'.allocated.length := by
  cases he with
  | added _ _ _ => simp [KernelElevator.addPassenger]
  | unloaded _ => rw [unloadPassengers_granted]
  | loaded _ _ _ => rw [loadLocked_eq]; exact Nat.le_refl _
  | _ => exact Nat.le_refl _

theorem Effect.scheduler_allocated {s : Sys} {g' : Globals} (he : Effect B s .scheduler g') :
    g'.allocated = s.g.allocated := by
  cases he with
  | unloaded _ => rw [unloadPassengers_granted]
  | loaded _ _ _ => rw [loadLocked_eq]; rfl
  | _ => rfl

/-- Whatever the links were, `setup_elevator` makes every queue empty. -/
theorem shown_setup (l : Links Site) (hg : ∀ q, g.queue q = []) : Shown B (setupLinks B l) g := by
  have hinj : Function.Injective fun q : Heads B => q.1.site := fun q q' h =>
    Subtype.ext (Address.head.inj (Site.known.inj h))
  have halone : ∀ q : Heads B, (setupLinks B l).Alone q.1.site := by
    rintro ⟨q, hq⟩
    have hfold : setupLinks B l = ((List.range B.floors).map fun i : Nat =>
        (Queue.waiting i).site).foldl (fun l head => l.initHead head)
          (l.initHead Queue.onboard.site) := by
      rw [setupLinks, List.foldl_map]
    rw [hfold]
    refine Links.alone_foldl_initHead ?_
    cases q with
    | onboard => exact Or.inr (Links.alone_initHead (Or.inl rfl))
    | waiting i =>
      obtain ⟨hlo, hhi⟩ : 0 ≤ i ∧ i < B.floors := hq
      obtain ⟨j, rfl⟩ := Int.eq_ofNat_of_zero_le hlo
      exact Or.inl (List.mem_map.mpr ⟨j, List.mem_range.mpr (by omega), rfl⟩)
  have hnil : sites B g = fun _ => [] := by
    funext q
    rw [sites, hg, List.map_nil]
  rw [Shown, hnil]
  exact represents_nil hinj halone

variable (B) in
/-- The state after the given steps of a freshly loaded module. -/
def LinkedSys.after (fuel : Nat) (l : Links Site) (ls : List Label) : Option LinkedSys :=
  (linkedSystem B fuel l).run (some (linkedLoaded B l)) ls

theorem linked_after (l : Links Site) (ls : List Label)
    (hfuel : (Sys.after B ls).g.allocated.length < fuel) :
    ∃ u, LinkedSys.after B fuel l ls = some u ∧ u.Shows B (Sys.after B ls) := by
  -- by induction on the run, from its end: the records only grow in number
  induction ls using List.reverseRecOn with
  | nil =>
    refine ⟨linkedLoaded B l, rfl, ⟨?_, shown_setup l fun q => ?_⟩, rfl⟩
    · simp [linkedLoaded, Sys.after, loaded, Globals.scalars, setupElevator, bss]
    · cases q <;> simp [Globals.queue, Sys.after, loaded, setupElevator, bss]
  | append_singleton ls label ih =>
    have hstep : Sys.after B (ls ++ [label]) = (Sys.after B ls).step B label :=
      (system B).run_concat (loaded B) ls label
    have hgrow := (Sys.step_effect (B := B) (Sys.after B ls) label).allocated_length_le
    rw [hstep] at hfuel ⊢
    obtain ⟨u, hrun, hshows⟩ := ih (by omega)
    obtain ⟨u', hnext, hshows'⟩ := hshows.step (Sys.inv_after ls) (Sys.records_after ls)
      (show _ < fuel by omega) label
    refine ⟨u', ?_, hshows'⟩
    rw [LinkedSys.after, Machine.run_concat]
    change (LinkedSys.after B fuel l ls).bind _ = _
    rw [hrun]
    exact hnext

/-- **The links show the lists**, in every run and whatever was in memory
before: no loop runs astray, no head is taken for a record, the rings are the
queues of `Globals`, everything else is equal, and so is the result of any
call that comes next. It is enough to let each loop test its condition once
more than there are records. -/
theorem links_show_system (B : Building) (l : Links Site) (ls : List Label) (extra : Nat) :
    ∃ u, LinkedSys.after B ((Sys.after B ls).g.allocated.length + 1 + extra) l ls = some u ∧
      u.Shows B (Sys.after B ls) ∧
      ∀ c, (u.mem.exec B ((Sys.after B ls).g.allocated.length + 1 + extra) c).map Prod.fst
        = some (c.exec B (Sys.after B ls).g).1 := by
  have hfuel : (Sys.after B ls).g.allocated.length
      < (Sys.after B ls).g.allocated.length + 1 + extra := by omega
  obtain ⟨u, hrun, hshows⟩ := linked_after l ls hfuel
  refine ⟨u, hrun, hshows, fun c => ?_⟩
  obtain ⟨u', hexec, -⟩ := hshows.mem.exec (Sys.records_after ls) hfuel c
  rw [hexec]
  rfl

/-- The loops of `removeAllPassengers`, one queue after the other. -/
theorem ShownWith.discardAll {qs : List Queue} (hqs : ∀ q ∈ qs, q.Exists B) (hnodup : qs.Nodup)
    {l : Links Site} (h : ShownWith B l g dl) (hfuel : ∀ q, (g.queue q).length < fuel)
    (ug : Globals) :
    ∃ l', qs.foldl (fun o q => o.bind (Linked.discard fuel q)) (some ⟨ug, l⟩) = some ⟨ug, l'⟩ ∧
      ShownWith B l' (qs.foldl (fun g q => g.setQueue q []) g) (dl ++ qs.flatMap g.queue) := by
  induction qs generalizing g dl l with
  | nil => exact ⟨l, rfl, by simpa using h⟩
  | cons q qs ih =>
    rw [List.nodup_cons] at hnodup
    rw [List.forall_mem_cons] at hqs
    obtain ⟨l1, hdiscard, h1⟩ := ShownWith.discard (u := ⟨ug, l⟩) h ⟨q, hqs.1⟩ (hfuel q)
    have hother : ∀ q', q' ≠ q → (g.setQueue q []).queue q' = g.queue q' := fun q' hq' => by
      rw [queue_setQueue, Function.update_of_ne hq']
    have hlen : ∀ q', ((g.setQueue q []).queue q').length < fuel := by
      intro q'
      rcases eq_or_ne q' q with rfl | hq'
      · rw [queue_setQueue, Function.update_self]
        exact Nat.lt_of_le_of_lt (Nat.zero_le _) (hfuel q')
      · rw [hother q' hq']
        exact hfuel q'
    obtain ⟨l', hrest, h'⟩ := ih hqs.2 hnodup.2 h1 hlen
    refine ⟨l', ?_, ?_⟩
    · rw [List.foldl_cons, Option.bind_some, hdiscard]
      exact hrest
    · have hsame : qs.flatMap (g.setQueue q []).queue = qs.flatMap g.queue :=
        List.flatMap_congr fun q' hq' => hother q' fun heq => hnodup.1 (heq ▸ hq')
      rw [hsame, List.append_assoc] at h'
      exact h'

/-- After `kthread_stop`. -/
theorem LinkedSys.Shows.kthreadStop {u : LinkedSys} {s : Sys} (h : u.Shows B s) (hinv : s.Inv B)
    (hrec : RecordInv B s.g) (hfuel : s.g.allocated.length < fuel) :
    ∃ u', linkedKthreadStop B fuel u = some u' ∧ u'.Shows B (KernelElevator.kthreadStop B s) ∧
      (KernelElevator.kthreadStop B s).Inv B ∧ RecordInv B (KernelElevator.kthreadStop B s).g ∧
      (KernelElevator.kthreadStop B s).g.allocated = s.g.allocated := by
  unfold linkedKthreadStop KernelElevator.kthreadStop
  generalize 5 = n
  induction n generalizing u s with
  | zero => exact ⟨u, rfl, h, hinv, hrec, rfl⟩
  | succ n ih =>
    rw [Function.iterate_succ_apply, Function.iterate_succ_apply, Option.bind_some, h.pc_eq]
    by_cases htop : s.pc = .top
    · rw [if_pos htop, if_pos htop]
      exact ih h hinv hrec hfuel
    · rw [if_neg htop, if_neg htop]
      obtain ⟨u', hstep, hshows⟩ := h.scheduler hinv hrec hfuel
      have hsame := (Sys.step_effect (B := B) s .scheduler).scheduler_allocated
      rw [hstep]
      obtain ⟨u'', hrun, hshows', hinv', hrec', hsame'⟩ := ih hshows (hinv.step .scheduler)
        (hrec.step hinv .scheduler) (lt_of_eq_of_lt (congrArg List.length hsame) hfuel)
      exact ⟨u'', hrun, hshows', hinv', hrec', hsame'.trans hsame⟩

/-- A queue that has been emptied stays so while others are. -/
theorem queue_foldl_setQueue {qs : List Queue} {q : Queue} (h : q ∈ qs ∨ g.queue q = []) :
    (qs.foldl (fun g q => g.setQueue q []) g).queue q = [] := by
  induction qs generalizing g with
  | nil => exact h.resolve_left List.not_mem_nil
  | cons q' qs ih =>
    refine ih ?_
    by_cases heq : q = q'
    · subst heq
      exact Or.inr (by rw [queue_setQueue, Function.update_self])
    · refine h.imp (fun hmem => (List.mem_cons.mp hmem).resolve_left heq) fun hnil => ?_
      rw [queue_setQueue, Function.update_of_ne heq, hnil]

variable (B) in
/-- The queues in the order in which `removeAllPassengers` empties them. -/
def allQueues : List Queue :=
  .onboard :: (List.range B.floors).map fun i : Nat => Queue.waiting i

theorem mem_allQueues {q : Queue} : q ∈ allQueues B ↔ q.Exists B := by
  cases q with
  | onboard => simp [allQueues, Queue.Exists]
  | waiting i =>
    simp only [allQueues, List.mem_cons, List.mem_map, List.mem_range, Queue.waiting.injEq,
      reduceCtorEq, false_or, Queue.Exists]
    constructor
    · rintro ⟨j, hj, rfl⟩
      omega
    · rintro ⟨hlo, hhi⟩
      exact ⟨i.toNat, by omega, by omega⟩

theorem nodup_allQueues : (allQueues B).Nodup := by
  refine List.nodup_cons.mpr ⟨by simp, List.nodup_range.map fun i j h => ?_⟩
  exact Int.ofNat_inj.mp (Queue.waiting.inj h)

theorem flatMap_allQueues (g : Globals) : (allQueues B).flatMap g.queue
    = g.onboard ++ (List.range B.floors).flatMap fun i : Nat => g.waitingList i := by
  rw [allQueues, List.flatMap_cons, List.flatMap_map]
  rfl

/-- After `removeAllPassengers` every ring is its head alone. -/
theorem Linked.Shows.removeAll (h : u.Shows B g) (hrec : RecordInv B g)
    (hfuel : g.allocated.length < fuel) :
    ∃ u', u.removeAllPassengers B fuel = some u' ∧
      u'.g = (KernelElevator.removeAllPassengers B .granted g).scalars ∧
      ∀ q : Heads B, u'.links.Alone q.1.site := by
  obtain ⟨ug, links⟩ := u
  obtain ⟨hg, hshown⟩ := h
  obtain rfl : ug = g.scalars := hg
  obtain ⟨l1, hdiscard, h1⟩ := hshown.withLocal.discardAll (fun q => mem_allQueues.mp)
    nodup_allQueues (fun q => Nat.lt_of_le_of_lt (hrec.queue_length_le q) hfuel) g.scalars
  rw [List.nil_append, flatMap_allQueues] at h1
  have hcount : ∀ p, (g.onboard ++ (List.range B.floors).flatMap fun i : Nat =>
      g.waitingList i).count p ≤ places B g p := by
    intro p
    rw [List.count_append, count_flatMap_range, places]
    omega
  obtain ⟨l2, hfree, h2⟩ := ShownWith.freeDeleteList (u := ⟨g.scalars, l1⟩) h1
    (Nat.lt_of_le_of_lt (hrec.length_le hcount) hfuel)
  refine ⟨⟨kfreeAll (g.onboard ++ (List.range B.floors).flatMap fun i : Nat => g.waitingList i)
    g.scalars, l2⟩, ?_, ?_, fun q => ?_⟩
  · refine (congrArg (fun o => Option.bind o (Linked.freeDeleteList fuel)) hdiscard).trans ?_
    exact hfree
  · rw [kfreeAll_eq, removeAllPassengers_granted]
    rfl
  · have hring := h2.ring q
    have hnil : sites B ((allQueues B).foldl (fun g q => g.setQueue q []) g) q = [] := by
      rw [sites, queue_foldl_setQueue (Or.inl (mem_allQueues.mpr q.2)), List.map_nil]
    rw [hnil] at hring
    exact isRing_nil_iff.mp hring

/-- **The module leaves empty rings**: in every run `elevator_exit` comes to
its end on the links; every head then points to itself, and every record that
was allocated has been freed, once. -/
theorem links_exit (B : Building) (l : Links Site) (ls : List Label) (extra : Nat) :
    ∃ u, (LinkedSys.after B ((Sys.after B ls).g.allocated.length + 1 + extra) l ls).bind
        (linkedElevatorExit B ((Sys.after B ls).g.allocated.length + 1 + extra)) = some u ∧
      (∀ q : Heads B, u.links.Alone q.1.site) ∧
      ∀ p, u.g.freed.count p = if p ∈ (Sys.after B ls).g.allocated then 1 else 0 := by
  have hfuel : (Sys.after B ls).g.allocated.length
      < (Sys.after B ls).g.allocated.length + 1 + extra := by omega
  obtain ⟨u, hrun, hshows⟩ := linked_after l ls hfuel
  obtain ⟨u', hstop, hshows', hinv, hrec, hsame⟩ :=
    hshows.kthreadStop (Sys.inv_after ls) (Sys.records_after ls) hfuel
  obtain ⟨u'', hremove, hg, halone⟩ := hshows'.mem.removeAll hrec
    (lt_of_eq_of_lt (congrArg List.length hsame) hfuel)
  refine ⟨u'', ?_, halone, fun p => ?_⟩
  · rw [hrun, Option.bind_some, linkedElevatorExit, hstop, Option.bind_some, hremove]
  · have hfreed := removeAll_freed hinv.wf.queues hrec.accounted
    have hallocated : (removeAllPassengers B .granted (kthreadStop B (Sys.after B ls)).g).allocated
        = (Sys.after B ls).g.allocated := by
      rw [removeAllPassengers_granted]
      exact hsame
    rw [hg, ← hallocated]
    by_cases hp : p ∈ (removeAllPassengers B .granted (kthreadStop B (Sys.after B ls)).g).allocated
    · rw [if_pos hp]
      exact hfreed.once p hp
    · rw [if_neg hp]
      exact hfreed.never p hp

end KernelElevator
