/-
KernelElevator.Module.CabinTheorems — who is in the cabin, who leaves it,
and whether `loads` still counts them.

The cabin is bounded and humans never board with a zombie, in every run and
at every pass of the two loops (`cabin_bounds`,
`human_boards_without_zombie`): both follow from `CabinInv`, which a stop
keeps although it empties the list behind the counter's back.

What a stop does break is said exactly. `stop_elevator` frees everybody on
board and leaves `loads` as it was. A run is free of both effects if and
only if each stop that took effect found nobody on board (`StopsEmpty`):
`departures_iff_stopsEmpty` for the passengers who leave, and
`loads_exact_iff_stopsEmpty` for the counter.
-/
import KernelElevator.Module.InvariantTheorems

namespace KernelElevator

open Transition

variable (B : Building)

/-! ## §1 Bounds, also inside the loops -/

/-- The moment of the loop of `loadPassengers`, entered in `g`, after `n`
passes of its body. -/
def loadingAt (g : Globals) (n : Nat) : Cursor Passenger (Globals × Bool) :=
  walkAt (loadBody B g.currentFloor) (g.waitingList (g.currentFloor - 1)) (g, false) n

/-- The moment of the loop of `unloadPassengers`, entered in `g`, after `n`
passes of its body. -/
def unloadingAt (g : Globals) (n : Nat) : Cursor Passenger (Globals × Bool) :=
  walkAt unloadBody g.onboard (g, false) n

/-- `0 ≤ length of onboard ≤ loads ≤ CAPACITY`. -/
structure CabinBounds (g : Globals) : Prop where
  length_nonneg : 0 ≤ (g.onboard.length : Int)
  length_le_loads : (g.onboard.length : Int) ≤ g.loads
  loads_le_capacity : g.loads ≤ B.capacity

variable {B}

theorem CabinInv.bounds {g : Globals} (h : CabinInv B g) : CabinBounds B g :=
  ⟨by omega, h.onboard_le_loads, h.loads_le_capacity⟩

/-- Each pass of the unloading loop takes one from the list and one from the
counter, or nothing from either. -/
theorem unloadingAt_bounds {g : Globals} (h : CabinInv B g) (n : Nat) :
    CabinBounds B (unloadView (unloadingAt g n)) := by
  have hall := walk_inv unloadBody (l := g.onboard) (s := (g, false))
    (I := fun c => (c.list.length : Int) ≤ c.st.1.loads ∧ c.st.1.loads ≤ B.capacity)
    ⟨h.onboard_le_loads, h.loads_le_capacity⟩
    (by
      rintro kept moved a rest ⟨g', unloaded⟩ st' ⟨hlen, hcap⟩ hb
      rw [unloadBody_eq] at hb
      split at hb
      · obtain rfl := Option.some.inj hb
        simp only [Cursor.list, alighted, List.length_append, List.length_cons,
          List.length_nil] at hlen hcap ⊢
        constructor <;> omega
      · cases hb)
    (by
      rintro kept moved a rest st ⟨hlen, hcap⟩ _
      simp only [Cursor.list, List.length_append, List.length_cons,
        List.length_nil] at hlen hcap ⊢
      constructor <;> omega) n
  exact ⟨by omega, hall.1, hall.2⟩

/-- At every moment of the loading loop the cabin meets its invariant: the
body tests for room and for the status that the pass before it left. -/
theorem loadingAt_inv {g : Globals} (h : CabinInv B g) (n : Nat) :
    CabinInv B (loadingAt B g n).st.1 := by
  refine walk_inv (loadBody B g.currentFloor) (l := g.waitingList (g.currentFloor - 1))
    (s := (g, false)) (I := fun c => CabinInv B c.st.1) h ?_ ?_ n
  · rintro kept moved p rest ⟨g', loaded⟩ st' hinv hb
    change CabinInv B g' at hinv
    rw [loadBody_eq] at hb
    split at hb
    · next ha =>
        obtain rfl := Option.some.inj hb
        have hle := hinv.onboard_le_loads
        refine ⟨?_, ha.2.1, ?_, fun _ => ?_⟩
        · simp only [boarded, List.length_append, List.length_singleton]
          push_cast
          omega
        · intro q hq hz
          rcases List.mem_append.mp hq with hq | hq
          · simp only [boarded, hinv.infected_of_zombie q hq hz, withAll_infected]
          · exact withAll_of_zombie g'.status hq hz
        · simp only [boarded, List.length_singleton]
          omega
    · cases hb
  · exact fun kept moved p rest st hinv _ => hinv

theorem loadingAt_bounds {g : Globals} (h : CabinInv B g) (n : Nat) :
    CabinBounds B (loadView g.currentFloor (loadingAt B g n)) := by
  obtain ⟨hlen, hle, hcap⟩ := (loadingAt_inv h n).bounds
  exact ⟨hlen, hle, hcap⟩

/-- **The cabin is never overfull**, in any reachable state and at any pass
of either loop. -/
theorem cabin_bounds (B : Building) (ls : List Label) :
    CabinBounds B (Sys.after B ls).g ∧
      (∀ n, CabinBounds B (unloadView (unloadingAt (Sys.after B ls).g n))) ∧
      ∀ n, CabinBounds B
        (loadView (Sys.after B ls).g.currentFloor (loadingAt B (Sys.after B ls).g n)) := by
  have hcabin := (Sys.inv_after (B := B) ls).wf.cabin
  exact ⟨hcabin.bounds, unloadingAt_bounds hcabin, loadingAt_bounds hcabin⟩

/-- Whoever a pass of the loading loop puts on board was next in the queue,
and `Admits` lets them in. -/
theorem loadingAt_boards {g : Globals} {n : Nat} {p : Passenger}
    (h : (loadingAt B g (n + 1)).st.1.onboard = (loadingAt B g n).st.1.onboard ++ [p]) :
    ∃ rest, (loadingAt B g n).rest = p :: rest ∧
      Admits B g.currentFloor (loadingAt B g n).st.1.loads (loadingAt B g n).st.1.status p := by
  have hsucc : loadingAt B g (n + 1) = (loadingAt B g n).next (loadBody B g.currentFloor) :=
    walkAt_succ _ _ _ n
  rw [hsucc] at h
  generalize loadingAt B g n = c at h ⊢
  obtain ⟨kept, moved, rest, g', loaded⟩ := c
  cases rest with
  | nil => simp [Cursor.next] at h
  | cons q rest =>
    by_cases ha : Admits B g.currentFloor g'.loads g'.status q
    · have hb : loadBody B g.currentFloor q (g', loaded)
          = some (boarded g.currentFloor [q] g', true) := by
        rw [loadBody_eq, if_pos ha]
      rw [Cursor.next_some rfl hb] at h
      obtain rfl : q = p := by simpa [boarded] using h
      exact ⟨rest, rfl, ha⟩
    · have hb : loadBody B g.currentFloor q (g', loaded) = none := by
        rw [loadBody_eq, if_neg ha]
      rw [Cursor.next_none rfl hb] at h
      simp at h

/-- **A human never boards with a zombie**: if a pass of the loading loop
puts a human on board, nobody on board at that moment is a zombie. -/
theorem human_boards_without_zombie (B : Building) (ls : List Label) (n : Nat) (p : Passenger)
    (hboards : (loadingAt B (Sys.after B ls).g (n + 1)).st.1.onboard
      = (loadingAt B (Sys.after B ls).g n).st.1.onboard ++ [p])
    (hhuman : p.type = 0) :
    ∀ q ∈ (loadingAt B (Sys.after B ls).g n).st.1.onboard, q.type ≠ 1 := by
  have hinv := loadingAt_inv (Sys.inv_after (B := B) ls).wf.cabin n
  intro q hq hz
  have hinfected := hinv.infected_of_zombie q hq hz
  obtain ⟨-, -, ha⟩ := loadingAt_boards hboards
  -- a human was let in, so the flag says "uninfected"
  rcases ha.2.2 with h1 | ⟨-, hun⟩
  · omega
  · rw [hinfected] at hun; cases hun

/-- Two humans wait on floor 1; the second boards beside the first. -/
theorem human_boards_without_zombie_source :
    (loadingAt .source (Sys.after .source [.call .startElevator, .call (.issueRequest 1 2 0),
        .call (.issueRequest 1 3 0), .scheduler, .scheduler]).g 1).st.1.onboard = [⟨0, 0, 1, 2⟩] ∧
      ∀ q ∈ (loadingAt .source (Sys.after .source [.call .startElevator,
        .call (.issueRequest 1 2 0), .call (.issueRequest 1 3 0), .scheduler, .scheduler]).g
          1).st.1.onboard, q.type ≠ 1 :=
  ⟨by decide, human_boards_without_zombie .source _ 1 ⟨1, 0, 1, 3⟩ (by decide) (by decide)⟩

/-! ## §2 Leaving the cabin -/

variable (B)

/-- Whoever is no longer on board after the step got off in
`unloadPassengers`, at the floor they asked for, and was counted once. -/
structure DeparturesOk (s : Sys) (l : Label) : Prop where
  at_destination : ∀ p ∈ s.g.onboard, p ∉ (s.step B l).g.onboard →
    l = .scheduler ∧ s.pc = .unload ∧ s.g.currentFloor = p.destinationFloor
  serviced_eq : (s.step B l).g.serviced
    = s.g.serviced + (s.g.onboard.filter fun p => p ∉ (s.step B l).g.onboard).length

/-- A stop that takes effect at this step finds nobody on board. -/
def StopsEmpty (s : Sys) (l : Label) : Prop :=
  l = .call .stopElevator → StopTakes s.g → s.g.onboard = []

variable {B}

theorem departuresOk_of_stay {s : Sys} {l : Label}
    (hstay : ∀ p ∈ s.g.onboard, p ∈ (s.step B l).g.onboard)
    (hserviced : (s.step B l).g.serviced = s.g.serviced) : DeparturesOk B s l := by
  refine ⟨fun p hp hgone => absurd (hstay p hp) hgone, ?_⟩
  have hnone : s.g.onboard.filter (fun p => p ∉ (s.step B l).g.onboard) = [] :=
    List.filter_eq_nil_iff.mpr fun p hp => by simpa using hstay p hp
  rw [hserviced, hnone]
  simp

theorem departuresOk_unload {s : Sys} (hpc : s.pc = .unload)
    (hstep : (s.step B .scheduler).g = (unloadPassengers .granted s.g).1) :
    DeparturesOk B s .scheduler := by
  have hgone : ∀ p ∈ s.g.onboard, p ∉ riding s.g ↔ p.destinationFloor = s.g.currentFloor := by
    intro p hp
    simp [mem_riding, hp]
  constructor
  · intro p hp hleft
    rw [hstep, unloadPassengers_granted] at hleft
    exact ⟨rfl, hpc, ((hgone p hp).mp hleft).symm⟩
  · rw [hstep, unloadPassengers_granted]
    have hfilter : s.g.onboard.filter (fun p => p ∉ riding s.g) = alighting s.g :=
      List.filter_congr fun p hp => by simp only [hgone p hp]
    simp only [hfilter]

/-- Whatever is not a stop lets nobody leave who has not arrived. -/
theorem departuresOk_of_ne_stop {s : Sys} {l : Label} (hl : l ≠ .call .stopElevator) :
    DeparturesOk B s l := by
  have he := Sys.step_effect (B := B) s l
  generalize hg : (s.step B l).g = g' at he
  cases he with
  | stopped _ => exact absurd rfl hl
  | unloaded hpc => exact departuresOk_unload hpc hg
  | loaded _ _ _ =>
    rw [loadLocked_eq] at hg
    refine departuresOk_of_stay (fun p hp => ?_) (by rw [hg]; rfl)
    rw [hg]
    exact List.mem_append_left _ hp
  | added _ _ _ => exact departuresOk_of_stay (by simp [hg, addPassenger]) (by rw [hg]; rfl)
  | same _ => exact departuresOk_of_stay (by simp [hg]) (by rw [hg])
  | started _ => exact departuresOk_of_stay (by simp [hg]) (by rw [hg])
  | shown _ _ => exact departuresOk_of_stay (by simp [hg]) (by rw [hg])
  | settled _ _ _ => exact departuresOk_of_stay (by simp [hg]) (by rw [hg])
  | moved _ _ _ _ => exact departuresOk_of_stay (by simp [hg]) (by rw [hg])

/-- A stop that takes effect is the one step that can take somebody off
board who has not arrived. -/
theorem departuresOk_iff (s : Sys) (l : Label) : DeparturesOk B s l ↔ StopsEmpty s l := by
  by_cases hl : l = .call .stopElevator
  · subst hl
    by_cases htakes : StopTakes s.g
    · have hstep := step_stop (B := B) htakes
      constructor
      · intro hok _ _
        refine List.eq_nil_iff_forall_not_mem.mpr fun p hp => ?_
        obtain ⟨hsched, -⟩ := hok.at_destination p hp (by simp [hstep])
        cases hsched
      · intro hempty
        exact departuresOk_of_stay (by simp [hempty rfl htakes]) (by rw [hstep])
    · have hstep := step_stop_rejected (B := B) htakes
      constructor
      · intro _ _ htakes'
        exact absurd htakes' htakes
      · intro _
        exact departuresOk_of_stay (by simp [hstep]) (by rw [hstep])
  · constructor
    · intro _ hstop
      exact absurd hstop hl
    · intro _
      exact departuresOk_of_ne_stop hl

/-- **Who leaves the cabin**: along a run everybody who leaves it gets off at
the floor they asked for and is counted, if and only if every stop that took
effect found nobody on board. -/
theorem departures_iff_stopsEmpty (B : Building) (ls : List Label) :
    (system B).Along (DeparturesOk B) (loaded B) ls
      ↔ (system B).Along StopsEmpty (loaded B) ls :=
  (system B).along_iff_of_inv (P := fun _ => True) (fun _ _ h => h)
    (fun s l _ => departuresOk_iff s l) ls (loaded B) trivial

/-- A passenger rides from floor 1 to floor 2 and is still on floor 1 when
the stop comes: the stop frees the record there. -/
theorem stop_drops_rider :
    ¬ ∀ ls, (system .source).Along (DeparturesOk .source) (loaded .source) ls := by
  intro h
  have hall := h ([.call .startElevator, .call (.issueRequest 1 2 0), .scheduler, .scheduler,
    .scheduler] ++ .call .stopElevator :: [])
  obtain ⟨hdest, -⟩ := Machine.Along.at _ hall
  obtain ⟨hl, -⟩ := hdest ⟨0, 0, 1, 2⟩ (by decide) (by decide)
  cases hl

/-! ## §3 The counter `loads` -/

/-- `loads` is the number of passengers on board. -/
def LoadsExact (s : Sys) : Prop := s.g.loads = s.g.onboard.length

theorem loadsExact_of_ne_stop {s : Sys} (h : LoadsExact s) {l : Label}
    (hl : l ≠ .call .stopElevator) : LoadsExact (s.step B l) := by
  have hexact : s.g.loads = s.g.onboard.length := h
  have he := Sys.step_effect (B := B) s l
  unfold LoadsExact
  generalize (s.step B l).g = g' at he
  cases he with
  | stopped _ => exact absurd rfl hl
  | unloaded _ =>
    have hlen := alighting_length_add s.g
    rw [unloadPassengers_granted]
    simp only
    omega
  | loaded _ _ _ =>
    rw [loadLocked_eq]
    simp only [boarded, List.length_append]
    push_cast
    omega
  | same _ => exact hexact
  | started _ => exact hexact
  | added _ _ _ => exact hexact
  | shown _ _ => exact hexact
  | settled _ _ _ => exact hexact
  | moved _ _ _ _ => exact hexact

/-- An exact counter stays exact unless somebody is stopped out of the cabin. -/
theorem loadsExact_step_iff {s : Sys} (h : LoadsExact s) (l : Label) :
    LoadsExact (s.step B l) ↔ StopsEmpty s l := by
  have hexact : s.g.loads = s.g.onboard.length := h
  by_cases hl : l = .call .stopElevator
  · subst hl
    by_cases htakes : StopTakes s.g
    · simp only [LoadsExact, step_stop htakes, StopsEmpty, htakes, forall_const, List.length_nil,
        ← List.length_eq_zero_iff]
      omega
    · rw [step_stop_rejected htakes]
      constructor
      · intro _ _ htakes'
        exact absurd htakes' htakes
      · intro _
        exact h
  · constructor
    · intro _ hstop
      exact absurd hstop hl
    · intro _
      exact loadsExact_of_ne_stop h hl

/-- **When `loads` counts the cabin**: it does in every state of a run if and
only if every stop that took effect found nobody on board. -/
theorem loads_exact_iff_stopsEmpty (B : Building) (ls : List Label) :
    (∀ pre, pre <+: ls → (Sys.after B pre).g.loads = (Sys.after B pre).g.onboard.length)
      ↔ (system B).Along StopsEmpty (loaded B) ls :=
  (system B).along_iff_of_survives (I := fun _ => True) (P := LoadsExact) (fun _ _ h => h)
    (fun _ l _ h => loadsExact_step_iff h l) ls (loaded B) trivial rfl

/-- After the same run `loads` is 1 and nobody is on board. -/
theorem stop_leaves_loads :
    ¬ ∀ ls, (Sys.after .source ls).g.loads = (Sys.after .source ls).g.onboard.length := by
  intro h
  exact absurd (h [.call .startElevator, .call (.issueRequest 1 2 0), .scheduler, .scheduler,
    .scheduler, .call .stopElevator]) (by decide)

end KernelElevator
