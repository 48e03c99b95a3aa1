/-
KernelElevator.Machine.Lift — what a lift is for, said without any code.

A lift stands at a floor, and each rider is at a stage: unknown to it,
waiting, riding, delivered, or dropped before the destination. A rider goes
from one stage to the next by a `Passage`, and `Allowed` says when that may
happen. A lift is safe if it never does anything else, whatever its
algorithm. From `Allowed` alone follow

  * `history_eq`   — the passages of a rider are those that lead to the stage
                     the rider is at, each once and in their order;
  * `encard_stage` — at each stage there are as many riders as have come to it
                     and not gone on.
-/
import KernelElevator.Machine.Run
import Mathlib.Data.Set.Card

namespace Lift

open Transition

/-- The house and its riders. Some riders are carriers, and nobody else may
get on while one of them is on board. -/
structure House (ρ : Type*) where
  floors : Nat
  places : Nat
  start : ρ → Int
  destination : ρ → Int
  carrier : ρ → Prop

inductive Stage where
  | unknown
  | waiting
  | riding
  | delivered
  | dropped
  deriving DecidableEq, Repr

/-- What happens to a rider. -/
inductive Passage where
  | ask
  | board
  | alight
  | drop
  deriving DecidableEq, Repr

def Passage.source : Passage → Stage
  | .ask => .unknown
  | .board => .waiting
  | .alight | .drop => .riding

def Passage.target : Passage → Stage
  | .ask => .waiting
  | .board => .riding
  | .alight => .delivered
  | .drop => .dropped

/-- What a rider has been through. -/
def Stage.history : Stage → List Passage
  | .unknown => []
  | .waiting => [.ask]
  | .riding => [.ask, .board]
  | .delivered => [.ask, .board, .alight]
  | .dropped => [.ask, .board, .drop]

variable {ρ : Type*}

inductive Event (ρ : Type*) where
  | pass (x : Passage) (r : ρ)
  | travel (floor : Int)
  deriving DecidableEq

structure State (ρ : Type*) where
  floor : Int
  stage : ρ → Stage

/-- The riders at a stage. -/
def State.at (s : State ρ) (k : Stage) : Set ρ := {r | s.stage r = k}

variable (H : House ρ)

/-- What a passage asks of the floor and of the others on board. -/
def Passage.Allowed (s : State ρ) (r : ρ) : Passage → Prop
  | .ask | .drop => True
  | .board =>
    H.start r = s.floor ∧ (s.at .riding).encard < H.places ∧
      (H.carrier r ∨ ∀ q ∈ s.at .riding, ¬ H.carrier q)
  | .alight => H.destination r = s.floor

def Allowed (s : State ρ) : Event ρ → Prop
  | .pass x r => s.stage r = x.source ∧ x.Allowed H s r
  | .travel floor =>
    (floor = s.floor + 1 ∨ floor = s.floor - 1) ∧ 1 ≤ floor ∧ floor ≤ H.floors

/-- How many passages of a kind there were. -/
def tally (x : Passage) : List (Event ρ) → Nat
  | [] => 0
  | .pass y _ :: es => (if y = x then 1 else 0) + tally x es
  | .travel _ :: es => tally x es

/-- How often somebody has come to a stage, and has gone on from it. -/
def arrived (k : Stage) (es : List (Event ρ)) : Nat :=
  match k with
  | .unknown => 0
  | .waiting => tally .ask es
  | .riding => tally .board es
  | .delivered => tally .alight es
  | .dropped => tally .drop es

def departed (k : Stage) (es : List (Event ρ)) : Nat :=
  match k with
  | .unknown => tally .ask es
  | .waiting => tally .board es
  | .riding => tally .alight es + tally .drop es
  | .delivered | .dropped => 0

@[simp] theorem tally_append (x : Passage) (es es' : List (Event ρ)) :
    tally x (es ++ es') = tally x es + tally x es' := by
  induction es with
  | nil => simp [tally]
  | cons e es ih =>
    cases e with
    | pass y q => simp [tally, ih, Nat.add_assoc]
    | travel floor => simp [tally, ih]

/-- A group of riders that make the same passage. -/
@[simp] theorem tally_map (x y : Passage) (rs : List ρ) :
    tally x (rs.map (.pass y)) = if y = x then rs.length else 0 := by
  induction rs with
  | nil => simp [tally]
  | cons r rs ih =>
    rw [List.map_cons, tally, ih]
    by_cases h : y = x
    · simp [h, Nat.add_comm]
    · simp [h]

variable [DecidableEq ρ]

def State.step (s : State ρ) : Event ρ → State ρ
  | .pass x r => { s with stage := Function.update s.stage r x.target }
  | .travel floor => { s with floor := floor }

/-- The lift at the first floor, unknown to everybody. -/
def lift (ρ : Type*) [DecidableEq ρ] : Machine (State ρ) (Event ρ) where
  init := ⟨1, fun _ => .unknown⟩
  step := State.step

/-- The passages of one rider. -/
def history (r : ρ) : List (Event ρ) → List Passage
  | [] => []
  | .pass x q :: es => if q = r then x :: history r es else history r es
  | .travel _ :: es => history r es

@[simp] theorem history_append (r : ρ) (es es' : List (Event ρ)) :
    history r (es ++ es') = history r es ++ history r es' := by
  induction es with
  | nil => rfl
  | cons e es ih =>
    cases e with
    | pass x q => by_cases h : q = r <;> simp [history, h, ih]
    | travel floor => simp [history, ih]

/-! ## One rider -/

theorem source_history (x : Passage) : x.source.history ++ [x] = x.target.history := by
  cases x <;> rfl

theorem history_step {s : State ρ} {e : Event ρ} (h : Allowed H s e) (r : ρ) :
    ((s.step e).stage r).history = (s.stage r).history ++ history r [e] := by
  cases e with
  | travel floor => simp [State.step, history]
  | pass x q =>
    by_cases hq : q = r
    · subst hq
      simp [State.step, history, h.1, source_history]
    · simp [State.step, history, hq, Function.update_of_ne (Ne.symm hq)]

/-- The stage of a rider grows by the passages there are for it. -/
theorem history_run (es : List (Event ρ)) (s : State ρ) (h : (lift ρ).Along (Allowed H) s es)
    (r : ρ) : (((lift ρ).run s es).stage r).history = (s.stage r).history ++ history r es := by
  induction es generalizing s with
  | nil => simp [history]
  | cons e es ih =>
    have happend : history r (e :: es) = history r [e] ++ history r es :=
      history_append r [e] es
    rw [Machine.run_cons, ih _ h.2, happend, ← List.append_assoc, ← history_step H h.1 r]
    rfl

/-- **The passages of a rider** are those that lead to the stage the rider is
at: nobody boards unasked, alights or is dropped without having boarded, or
does anything twice. -/
theorem history_eq (es : List (Event ρ)) (h : (lift ρ).Along (Allowed H) (lift ρ).init es)
    (r : ρ) : history r es = (((lift ρ).run (lift ρ).init es).stage r).history :=
  (history_run H es _ h r).symm

/-! ## All riders -/

/-- A passage takes its rider out of the one stage and into the other. -/
theorem encard_pass {s : State ρ} {x : Passage} {r : ρ} (h : s.stage r = x.source) (k : Stage) :
    ((s.step (.pass x r)).at k).encard + (if x.source = k then 1 else 0)
      = (s.at k).encard + (if x.target = k then 1 else 0) := by
  have hne : x.source ≠ x.target := by cases x <;> decide
  by_cases hsource : x.source = k
  · have hset : (s.step (.pass x r)).at k = s.at k \ {r} := by
      ext q
      rcases eq_or_ne q r with rfl | hq
      · simp [State.at, State.step, ← hsource, hne.symm]
      · simp [State.at, State.step, hq]
    rw [hset, if_pos hsource, if_neg (hsource ▸ hne.symm), add_zero]
    exact Set.encard_sdiff_singleton_add_one (h.trans hsource)
  · rw [if_neg hsource, add_zero]
    by_cases htarget : x.target = k
    · have hset : (s.step (.pass x r)).at k = insert r (s.at k) := by
        ext q
        rcases eq_or_ne q r with rfl | hq
        · simp [State.at, State.step, htarget]
        · simp [State.at, State.step, hq]
      have hnot : r ∉ s.at k := fun hmem => hsource (h.symm.trans hmem)
      rw [hset, if_pos htarget, Set.encard_insert_of_notMem hnot]
    · have hset : (s.step (.pass x r)).at k = s.at k := by
        ext q
        rcases eq_or_ne q r with rfl | hq
        · simp [State.at, State.step, htarget, h, hsource]
        · simp [State.at, State.step, hq]
      rw [hset, if_neg htarget, add_zero]

theorem encard_step {s : State ρ} {e : Event ρ} (h : Allowed H s e) (k : Stage) :
    ((s.step e).at k).encard + departed k [e] = (s.at k).encard + arrived k [e] := by
  cases e with
  | travel floor => cases k <;> simp [State.step, State.at, departed, arrived, tally]
  | pass x r =>
    have hpass := encard_pass h.1 k
    have hsource : departed k [.pass x r] = if x.source = k then 1 else 0 := by
      cases x <;> cases k <;> rfl
    have htarget : arrived k [.pass x r] = if x.target = k then 1 else 0 := by
      cases x <;> cases k <;> rfl
    rw [hsource, htarget]
    exact_mod_cast hpass

/-- **At each stage** there are those who were there before, with those who
have come and without those who have gone on. -/
theorem encard_stage (es : List (Event ρ)) (s : State ρ) (h : (lift ρ).Along (Allowed H) s es)
    (k : Stage) : (((lift ρ).run s es).at k).encard + departed k es
      = (s.at k).encard + arrived k es := by
  induction es generalizing s with
  | nil => cases k <;> simp [departed, arrived, tally]
  | cons e es ih =>
    have hdeparted : departed k (e :: es) = departed k [e] + departed k es := by
      have happend := fun x => tally_append x [e] es
      simp only [List.singleton_append] at happend
      cases k <;> simp [departed, happend]
      omega
    have harrived : arrived k (e :: es) = arrived k [e] + arrived k es := by
      have happend := fun x => tally_append x [e] es
      simp only [List.singleton_append] at happend
      cases k <;> simp [arrived, happend]
    have hhead := encard_step H h.1 k
    have htail := ih _ h.2
    rw [Machine.run_cons, hdeparted, harrived]
    push_cast
    calc (((lift ρ).run ((lift ρ).step s e) es).at k).encard + (departed k [e] + departed k es)
        = (((lift ρ).run ((lift ρ).step s e) es).at k).encard + departed k es + departed k [e] := by
          rw [add_comm (departed k [e] : ℕ∞), add_assoc]
      _ = ((s.step e).at k).encard + arrived k es + departed k [e] := by rw [htail]; rfl
      _ = ((s.step e).at k).encard + departed k [e] + arrived k es := add_right_comm _ _ _
      _ = (s.at k).encard + (arrived k [e] + arrived k es) := by rw [hhead, add_assoc]

/-- Out of the start, where nobody is known. -/
theorem encard_stage_init {k : Stage} (hk : k ≠ .unknown) {es : List (Event ρ)}
    (h : (lift ρ).Along (Allowed H) (lift ρ).init es) :
    (((lift ρ).run (lift ρ).init es).at k).encard + departed k es = arrived k es := by
  have hempty : ((lift ρ).init.at k : Set ρ) = ∅ := by
    ext r
    simpa [lift, State.at] using hk.symm
  rw [encard_stage H es _ h k, hempty, Set.encard_empty, zero_add]

/-- A number that a program keeps counts a set. -/
def Counts (n : Int) (S : Set ρ) : Prop := ∃ m : Nat, n = m ∧ S.encard = m

omit [DecidableEq ρ] in
theorem Counts.of_add {n : Int} {S : Set ρ} {m k : Nat} (h : S.encard + m = k)
    (hn : n + m = k) : Counts n S := by
  have hfinite : S.encard ≠ ⊤ := fun htop => by
    rw [htop] at h
    exact absurd h (by simp)
  obtain ⟨j, hj⟩ := ENat.ne_top_iff_exists.mp hfinite
  rw [← hj] at h
  have hsum : j + m = k := by exact_mod_cast h
  exact ⟨j, by omega, hj.symm⟩

/-! ## Several riders at once -/

theorem run_pass (x : Passage) (rs : List ρ) (s : State ρ) :
    (lift ρ).run s (rs.map (.pass x))
      = { s with stage := fun r => if r ∈ rs then x.target else s.stage r } := by
  induction rs generalizing s with
  | nil => simp
  | cons r rs ih =>
    rw [List.map_cons, Machine.run_cons, ih]
    simp only [lift, State.step, State.mk.injEq, true_and]
    funext q
    rcases eq_or_ne q r with rfl | hq
    · simp
    · simp [hq]

/-- A passage that looks at the floor alone can be made by one after the
other. -/
theorem along_pass {x : Passage} (hx : x ≠ .board) {rs : List ρ} {s : State ρ} (hnodup : rs.Nodup)
    (h : ∀ r ∈ rs, Allowed H s (.pass x r)) :
    (lift ρ).Along (Allowed H) s (rs.map (.pass x)) := by
  induction rs generalizing s with
  | nil => trivial
  | cons r rs ih =>
    obtain ⟨hr, hrs⟩ := List.nodup_cons.mp hnodup
    refine ⟨h r (List.mem_cons_self ..), ih hrs fun q hq => ?_⟩
    obtain ⟨hstage, hallowed⟩ := h q (List.mem_cons_of_mem r hq)
    have hne : q ≠ r := fun heq => hr (heq ▸ hq)
    refine ⟨by simpa [lift, State.step, hne] using hstage, ?_⟩
    cases x with
    | board => exact absurd rfl hx
    | _ => exact hallowed

end Lift
