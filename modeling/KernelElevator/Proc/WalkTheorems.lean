/-
KernelElevator.Proc.WalkTheorems — the walk along a floor's queue, node by
node, while the queues change.

`elevator_proc_open` walks with `list_for_each` and takes no lock, so between
two nodes `issue_request` can add a passenger and `loadPassengers` can move
one away.

  §1 The steps    — the walk and the two writers, on the links;
  §2 One list     — a walk on a ring stays on it, unless the node under the
                    cursor is moved away; left alone after any run of the
                    module it prints the line of its floor (`walk_after`);
  §3 The whole run — the walk ends, having seen only passengers of its floor,
                    if and only if that never happens (`walk_right_iff`): a
                    cursor moved to `elevator.onboard` goes round for ever.
-/
import KernelElevator.Module.Memory
import KernelElevator.Proc.Report
import KernelElevator.Machine.Run

namespace KernelElevator.Proc

open Transition Circular

/-! ## §1 The steps -/

/-- The memory, and the variable `tempList` of the walk. -/
structure WalkState where
  mem : Memory
  tempList : Address

/-- The next pass of the walk, an accepted request, or a passenger of some
floor that boards. -/
inductive WalkLabel where
  | walk
  | add (startFloor destinationFloor type : Int)
  | move (i : Int) (p : Passenger)
  deriving DecidableEq, Repr

/-- What the pass of the loop body prints for the node under the cursor. The
head of a queue is no record. -/
def markAt : Address → Option Mark
  | .head _ => none
  | .passenger p => some (Mark.of p.type)

/-- One step, when the walk is along `waiting_list[i]`. -/
def walkStep (i : Int) (s : WalkState) : WalkLabel → WalkState
  | .walk =>
    if s.tempList = .head (.waiting i) then s
    else { s with tempList := s.mem.links.next s.tempList }
  | .add a b t => { s with mem := s.mem.add a b t }
  | .move j p => { s with mem := s.mem.move j p }

theorem walkStep_walk (i : Int) (s : WalkState) :
    walkStep i s .walk = if s.tempList = .head (.waiting i) then s
      else { s with tempList := s.mem.links.next s.tempList } := rfl

theorem walkStep_next {i : Int} {s : WalkState} {a : Address}
    (hne : s.tempList ≠ .head (.waiting i)) (hnext : s.mem.links.next s.tempList = a) :
    walkStep i s .walk = { s with tempList := a } := by
  rw [walkStep_walk, if_neg hne, hnext]

/-- `list_for_each(tempList, &waiting_list[i])` before its first pass. -/
def walkStart (i : Int) (m : Memory) : WalkState := ⟨m, m.links.next (.head (.waiting i))⟩

def walking (i : Int) (m : Memory) : Machine WalkState WalkLabel where
  init := walkStart i m
  step := walkStep i

/-- The state after the given steps. -/
def walkAfter (i : Int) (m : Memory) (ls : List WalkLabel) : WalkState :=
  (walking i m).run (walkStart i m) ls

/-- After the given steps the walk alone gets to the end, and it never stands
on anything but a node that has been on the list of its floor. -/
structure WalkRight (i : Int) (m : Memory) (ls : List WalkLabel) : Prop where
  ends : ∃ n, (walkAfter i m (ls ++ List.replicate n .walk)).tempList = .head (.waiting i)
  visits : ∀ n pre, pre <+: ls ++ List.replicate n .walk →
    (walkAfter i m pre).tempList = .head (.waiting i) ∨
      ∃ earlier, earlier <+: pre ∧ ∃ p ∈ (walkAfter i m earlier).mem.lists (.waiting i),
        (walkAfter i m pre).tempList = .passenger p

/-- The step does not move away the node that the walk stands on. -/
def LeavesCursor (s : WalkState) : WalkLabel → Prop
  | .move j p => p ∈ s.mem.lists (.waiting j) → s.tempList ≠ .passenger p
  | _ => True

/-! ## §2 One list -/

/-- The walk stands on the head or on a node of the queue `q`. -/
def WalkState.On (s : WalkState) (q : Queue) : Prop :=
  s.tempList ∈ Address.head q :: (s.mem.lists q).map Address.passenger

variable {i : Int} {s : WalkState} {q : Queue}

/-- Where only the queues have changed, and the node under the cursor is
still on its own, the walk is on that queue. -/
theorem WalkState.On.mono {mem : Memory} (h : s.On q)
    (hkept : ∀ p ∈ s.mem.lists q, s.tempList = .passenger p → p ∈ mem.lists q) :
    WalkState.On { s with mem := mem } q := by
  rcases List.mem_cons.mp h with h | h
  · exact List.mem_cons.mpr (Or.inl h)
  · obtain ⟨p, hp, heq⟩ := List.mem_map.mp h
    exact List.mem_cons_of_mem _ (heq ▸ List.mem_map_of_mem (hkept p hp heq.symm))

/-- The walk goes on within a ring. -/
theorem WalkState.On.walk (h : s.On q) : (walkStep i s .walk).On q := by
  rw [walkStep_walk]
  split
  · exact h
  · exact (s.mem.represents.ring q).next_mem h

/-- The walk stays on its queue as long as the node under it is not moved. -/
theorem WalkState.On.step (h : s.On (.waiting i)) {l : WalkLabel} (hl : LeavesCursor s l) :
    (walkStep i s l).On (.waiting i) := by
  cases l with
  | walk => exact h.walk
  | add a b t => exact h.mono fun p hp _ => Memory.mem_add hp a b t
  | move j p' =>
    by_cases hp' : p' ∈ s.mem.lists (.waiting j)
    · refine h.mono fun p hp heq => Memory.mem_move_waiting (fun hpp => ?_) hp
      exact hl hp' (hpp ▸ heq)
    · refine h.mono fun p hp _ => ?_
      rwa [Memory.move_of_not_mem hp']

/-- On `elevator.onboard` it stays whatever happens. -/
theorem WalkState.On.onboard_step (h : s.On .onboard) (l : WalkLabel) :
    (walkStep i s l).On .onboard := by
  cases l with
  | walk => exact h.walk
  | add a b t => exact h.mono fun p hp _ => Memory.mem_add hp a b t
  | move j p' => exact h.mono fun p hp _ => Memory.mem_move_onboard hp

/-- That is where it is once the node under it has been moved. -/
theorem onboard_of_moved {l : WalkLabel} (hl : ¬ LeavesCursor s l) :
    (walkStep i s l).On .onboard := by
  cases l with
  | walk => exact absurd trivial hl
  | add a b t => exact absurd trivial hl
  | move j p =>
    rw [LeavesCursor, Classical.not_imp, not_not] at hl
    obtain ⟨hp, heq⟩ := hl
    refine List.mem_cons_of_mem _ (List.mem_map.mpr ⟨p, ?_, heq.symm⟩)
    rw [walkStep, Memory.move_lists hp, Function.update_self]
    exact List.mem_append_right _ (List.mem_singleton_self _)

/-- No node is on two rings. -/
theorem WalkState.On.ne_head (h : s.On .onboard) : s.tempList ≠ .head (.waiting i) := by
  intro heq
  unfold WalkState.On at h
  rw [heq] at h
  exact s.mem.represents.apart .onboard (.waiting i) (fun h => Queue.noConfusion h) h
    List.mem_cons_self

/-- Left alone, the walk visits the nodes between its own and the head, in
order, and gets to the head. -/
theorem run_walks (m : Memory) {xs : List Address}
    (hchain : (s.tempList :: (xs ++ [.head (.waiting i)])).IsChain s.mem.links.Linked)
    (hnot : Address.head (.waiting i) ∉ s.tempList :: xs) :
    (walking i m).outputs (fun s _ => s.tempList) s (List.replicate (xs.length + 1) .walk)
        = s.tempList :: xs ∧
      (walking i m).run s (List.replicate (xs.length + 1) .walk)
        = { s with tempList := .head (.waiting i) } := by
  induction xs generalizing s with
  | nil =>
    obtain ⟨hnext, -⟩ := List.isChain_pair.mp hchain
    exact ⟨rfl, walkStep_next (List.ne_of_not_mem_cons hnot).symm hnext⟩
  | cons a xs ih =>
    obtain ⟨⟨hnext, -⟩, hrest⟩ := List.isChain_cons_cons.mp hchain
    have hstep : (walking i m).step s .walk = { s with tempList := a } :=
      walkStep_next (List.ne_of_not_mem_cons hnot).symm hnext
    obtain ⟨hout, hrun⟩ := ih (s := { s with tempList := a }) hrest
      fun hmem => hnot (List.mem_cons_of_mem _ hmem)
    rw [List.length_cons, List.replicate_succ, Machine.outputs, Machine.run_cons, hstep, hout, hrun]
    exact ⟨rfl, rfl⟩

/-- From its own queue the walk alone gets to the end. -/
theorem WalkState.On.ends (h : s.On (.waiting i)) (m : Memory) :
    ∃ n, ((walking i m).run s (List.replicate n .walk)).tempList = .head (.waiting i) := by
  rcases List.mem_cons.mp h with h | h
  · exact ⟨0, h⟩
  · have hring := s.mem.represents.ring (.waiting i)
    obtain ⟨us, vs, hsplit⟩ := List.append_of_mem h
    have hchain := hring.chain
    have hnodup := hring.nodup
    rw [hsplit] at hchain hnodup
    rw [← List.cons_append, List.append_assoc] at hchain
    have hnot : Address.head (.waiting i) ∉ s.tempList :: vs := fun hmem =>
      (List.nodup_cons.mp hnodup).1 (List.mem_append_right us hmem)
    obtain ⟨-, hrun⟩ := run_walks m hchain.right_of_append hnot
    exact ⟨vs.length + 1, by rw [hrun]⟩

/-- **The walk alone** prints the marks that are on the line of its floor. -/
theorem walk_alone {m : Memory} {g : Globals} (h : m.Stands g) (floor : Nat) :
    (walking (floor - 1) m).outputs (fun s _ => markAt s.tempList) (walkStart (floor - 1) m)
        (List.replicate (g.waitingList (floor - 1)).length .walk)
      = (floorLine g floor).marks.map some := by
  have hring := m.represents.ring (.waiting (floor - 1))
  rw [h.waiting] at hring
  rw [Machine.outputs_map, floorLine]
  obtain ⟨hchain, hnodup⟩ := hring
  cases hw : g.waitingList (floor - 1) with
  | nil => rfl
  | cons p w =>
    rw [hw] at hchain hnodup
    obtain ⟨⟨hnext, -⟩, hrest⟩ := List.isChain_cons_cons.mp hchain
    have hstart : (walkStart (floor - 1) m).tempList = .passenger p := hnext
    have hahead : ((walkStart (floor - 1) m).tempList ::
        (w.map Address.passenger ++ [.head (.waiting (floor - 1))])).IsChain m.links.Linked := by
      rw [hstart]
      exact hrest
    have hnot : Address.head (.waiting (floor - 1)) ∉
        (walkStart (floor - 1) m).tempList :: w.map Address.passenger := by
      rw [hstart]
      exact (List.nodup_cons.mp hnodup).1
    have hout := (run_walks m hahead hnot).1
    rw [List.length_map] at hout
    rw [List.length_cons, hout, hstart, List.map_cons, List.map_map, List.map_cons, List.map_cons,
      List.map_map]
    rfl

/-- After any run of the module the walk, left alone on the memory that holds
its queues, prints the lines of the report. -/
theorem walk_after (B : Building) (ls : List Label) :
    ∃ m : Memory, m.Stands (Sys.after B ls).g ∧ ∀ floor : Nat,
      (walking (floor - 1) m).outputs (fun s _ => markAt s.tempList) (walkStart (floor - 1) m)
          (List.replicate ((Sys.after B ls).g.waitingList (floor - 1)).length .walk)
        = (floorLine (Sys.after B ls).g floor).marks.map some := by
  obtain ⟨m, hm⟩ := Memory.exists_stands B ls
  exact ⟨m, hm, fun floor => walk_alone hm floor⟩

/-! ## §3 The whole run -/

/-- A walk that has left its queue never gets to the end. -/
theorem never_ends (m : Memory) (h : s.On .onboard) (ls : List WalkLabel) :
    ((walking i m).run s ls).tempList ≠ .head (.waiting i) := by
  have hrun := (walking i m).run_inv (P := fun s => s.On .onboard)
    (fun _ l hs => hs.onboard_step l) ls s h
  exact hrun.ne_head

/-- If the walk gets to the end, no step moved away the node it stood on. -/
theorem leaves_of_ends (m : Memory) (ls : List WalkLabel) {n : Nat}
    (hend : ((walking i m).run s (ls ++ List.replicate n .walk)).tempList = .head (.waiting i)) :
    (walking i m).Along LeavesCursor s ls := by
  induction ls generalizing s with
  | nil => trivial
  | cons l ls ih =>
    refine ⟨?_, ih hend⟩
    by_contra hl
    exact never_ends m (onboard_of_moved hl) _ hend

theorem on_walkStart (i : Int) (m : Memory) : (walkStart i m).On (.waiting i) :=
  (m.represents.ring (.waiting i)).next_mem List.mem_cons_self

theorem leaves_walks (m : Memory) (s : WalkState) (n : Nat) :
    (walking i m).Along LeavesCursor s (List.replicate n .walk) := by
  induction n generalizing s with
  | zero => trivial
  | succ n ih => exact ⟨trivial, ih _⟩

/-- **What becomes of the walk**: it ends, and all that it visits has been on
the list of its floor, if and only if no step moves away the very node that
it stands on. -/
theorem walk_right_iff (i : Int) (m : Memory) (ls : List WalkLabel) :
    WalkRight i m ls ↔ (walking i m).Along LeavesCursor (walkStart i m) ls := by
  constructor
  · rintro ⟨⟨n, hend⟩, -⟩
    exact leaves_of_ends m ls hend
  · intro hal
    have hon : ∀ pre, (walking i m).Along LeavesCursor (walkStart i m) pre →
        (walkAfter i m pre).On (.waiting i) := fun pre =>
      (walking i m).inv_of_along (P := fun s => s.On (.waiting i)) (fun _ _ hl hs => hs.step hl)
        pre (walkStart i m) (on_walkStart i m)
    refine ⟨?_, fun n pre hpre => ?_⟩
    · obtain ⟨n, hn⟩ := (hon ls hal).ends m
      exact ⟨n, by rw [walkAfter, Machine.run_append]; exact hn⟩
    · obtain ⟨post, hpost⟩ := hpre
      have hall : (walking i m).Along LeavesCursor (walkStart i m) (pre ++ post) := by
        rw [hpost, Machine.along_append]
        exact ⟨hal, leaves_walks m _ n⟩
      have hpre := ((walking i m).along_append _ _ pre post).mp hall
      rcases List.mem_cons.mp (hon pre hpre.1) with h | h
      · exact Or.inl h
      · obtain ⟨p, hp, heq⟩ := List.mem_map.mp h
        exact Or.inr ⟨pre, List.prefix_refl pre, p, hp, heq.symm⟩

/-- One passenger waits on floor 1, and the loader takes them on board when
the walk has come to them. -/
theorem walk_astray : ¬ ∀ i m ls, WalkRight i m ls := by
  intro h
  obtain ⟨n, hend⟩ := (h 0 (Memory.init.add 1 2 0) [.move 0 ⟨0, 0, 1, 2⟩]).ends
  have hleaves := (leaves_of_ends _ _ hend).1
  exact hleaves (by decide) (by decide)

end KernelElevator.Proc
