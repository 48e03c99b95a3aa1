/-
KernelElevator.Machine.Partition — objects that are each in one place.

`place` tells which objects are in which place, and `all` lists the objects
that there are. `Partitions` says that every object is in exactly one place
and exactly once, and that nothing else is anywhere. `Shift` says what may be
done: objects go from one place to another, or a new object is put somewhere.
`withPlace` adds a place, and `Partitions.gather` empties many into one.
-/
import Mathlib.Data.List.Nodup
import Mathlib.Data.List.Perm.Basic
import Mathlib.Logic.Function.Basic

namespace Transition

variable {κ α : Type*}

/-- Every object is in exactly one place, once, and nothing else is. -/
structure Partitions (place : κ → List α) (all : List α) : Prop where
  nodup : ∀ k, (place k).Nodup
  unique : ∀ k k' a, a ∈ place k → a ∈ place k' → k = k'
  mem_iff : ∀ a, a ∈ all ↔ ∃ k, a ∈ place k

variable [DecidableEq κ]

/-- What may be done to the places and the objects that there are. -/
inductive Shift (place : κ → List α) (all : List α) : (κ → List α) → List α → Prop
  | stay : Shift place all place all
  | move (k k' : κ) (hne : k' ≠ k) (xs ys : List α) (h : (xs ++ ys).Perm (place k ++ place k')) :
      Shift place all (Function.update (Function.update place k xs) k' ys) all
  | add (k : κ) (a : α) (h : a ∉ all) :
      Shift place all (Function.update place k (place k ++ [a])) (all ++ [a])

section Places

variable {place : κ → List α} {k k' j : κ} {a : α}

theorem mem_update_update (hne : k' ≠ k) {xs ys : List α} :
    a ∈ Function.update (Function.update place k xs) k' ys j ↔
      j = k ∧ a ∈ xs ∨ j = k' ∧ a ∈ ys ∨ (j ≠ k ∧ j ≠ k') ∧ a ∈ place j := by
  rcases eq_or_ne j k' with rfl | hj'
  · simp [hne]
  · rcases eq_or_ne j k with rfl | hj
    · simp [hne.symm]
    · simp [hj, hj']

theorem mem_update_append {b : α} :
    a ∈ Function.update place k (place k ++ [b]) j ↔ a ∈ place j ∨ j = k ∧ a = b := by
  rcases eq_or_ne j k with rfl | hj
  · simp
  · simp [hj]

end Places

namespace Partitions

variable {place : κ → List α} {all : List α}

omit [DecidableEq κ] in
/-- What two places hold together, each object once. -/
theorem nodup_append (h : Partitions place all) {k k' : κ} (hne : k' ≠ k) :
    (place k ++ place k').Nodup :=
  List.nodup_append'.mpr
    ⟨h.nodup k, h.nodup k', fun _ hk hk' => hne (h.unique _ _ _ hk' hk)⟩

theorem move (h : Partitions place all) {k k' : κ} (hne : k' ≠ k) {xs ys : List α}
    (hperm : (xs ++ ys).Perm (place k ++ place k')) :
    Partitions (Function.update (Function.update place k xs) k' ys) all := by
  obtain ⟨hxs, hys, hapart⟩ :=
    List.nodup_append'.mp (hperm.nodup_iff.mpr (h.nodup_append hne))
  -- what goes to one of the two places comes from one of them
  have hback : ∀ a, a ∈ xs ∨ a ∈ ys ↔ a ∈ place k ∨ a ∈ place k' := fun a => by
    rw [← List.mem_append, ← List.mem_append, hperm.mem_iff]
  have hout : ∀ a j, a ∈ xs ∨ a ∈ ys → (j ≠ k ∧ j ≠ k') → a ∉ place j := by
    intro a j ha hj hin
    rcases (hback a).mp ha with hk | hk
    · exact hj.1 (h.unique _ _ _ hin hk)
    · exact hj.2 (h.unique _ _ _ hin hk)
  refine ⟨fun j => ?_, fun i j a hi hj => ?_, fun a => ?_⟩
  · rcases eq_or_ne j k' with rfl | hj'
    · rwa [Function.update_self]
    · rw [Function.update_of_ne hj']
      rcases eq_or_ne j k with rfl | hj
      · rwa [Function.update_self]
      · rw [Function.update_of_ne hj]
        exact h.nodup j
  · rw [mem_update_update hne] at hi hj
    rcases hi with ⟨rfl, hi⟩ | ⟨rfl, hi⟩ | ⟨hi', hi⟩ <;>
      rcases hj with ⟨rfl, hj⟩ | ⟨rfl, hj⟩ | ⟨hj', hj⟩
    · rfl
    · exact absurd hj (hapart hi)
    · exact absurd hj (hout a j (Or.inl hi) hj')
    · exact absurd hi (hapart hj)
    · rfl
    · exact absurd hj (hout a j (Or.inr hi) hj')
    · exact absurd hi (hout a i (Or.inl hj) hi')
    · exact absurd hi (hout a i (Or.inr hj) hi')
    · exact h.unique _ _ _ hi hj
  · simp only [h.mem_iff, mem_update_update hne]
    constructor
    · rintro ⟨j, ha⟩
      by_cases hj : j = k ∨ j = k'
      · have hin : a ∈ place k ∨ a ∈ place k' := by
          rcases hj with rfl | rfl
          · exact Or.inl ha
          · exact Or.inr ha
        rcases (hback a).mpr hin with hx | hy
        · exact ⟨k, Or.inl ⟨rfl, hx⟩⟩
        · exact ⟨k', Or.inr (Or.inl ⟨rfl, hy⟩)⟩
      · exact ⟨j, Or.inr (Or.inr ⟨not_or.mp hj, ha⟩)⟩
    · rintro ⟨j, ⟨-, hx⟩ | ⟨-, hy⟩ | ⟨-, ha⟩⟩
      · exact ((hback a).mp (Or.inl hx)).elim (fun hk => ⟨k, hk⟩) fun hk => ⟨k', hk⟩
      · exact ((hback a).mp (Or.inr hy)).elim (fun hk => ⟨k, hk⟩) fun hk => ⟨k', hk⟩
      · exact ⟨j, ha⟩

theorem add (h : Partitions place all) (k : κ) {b : α} (hb : b ∉ all) :
    Partitions (Function.update place k (place k ++ [b])) (all ++ [b]) := by
  have hnot : ∀ j, b ∉ place j := fun j hj => hb ((h.mem_iff b).mpr ⟨j, hj⟩)
  refine ⟨fun j => ?_, fun i j a hi hj => ?_, fun a => ?_⟩
  · rcases eq_or_ne j k with rfl | hj
    · rw [Function.update_self]
      exact List.nodup_append'.mpr ⟨h.nodup j, List.nodup_singleton b,
        List.disjoint_singleton.mpr (hnot j)⟩
    · rw [Function.update_of_ne hj]
      exact h.nodup j
  · rw [mem_update_append] at hi hj
    rcases hi with hi | ⟨rfl, rfl⟩ <;> rcases hj with hj | ⟨rfl, heq⟩
    · exact h.unique _ _ _ hi hj
    · exact absurd (heq ▸ hi) (hnot i)
    · exact absurd hj (hnot j)
    · rfl
  · simp only [List.mem_append, List.mem_singleton, h.mem_iff, mem_update_append]
    constructor
    · rintro (⟨j, ha⟩ | ha)
      · exact ⟨j, Or.inl ha⟩
      · exact ⟨k, Or.inr ⟨rfl, ha⟩⟩
    · rintro ⟨j, ha | ⟨-, ha⟩⟩
      · exact Or.inl ⟨j, ha⟩
      · exact Or.inr ha

theorem shift {place' : κ → List α} {all' : List α} (h : Partitions place all)
    (hs : Shift place all place' all') : Partitions place' all' := by
  cases hs with
  | stay => exact h
  | move k k' hne xs ys hperm => exact h.move hne hperm
  | add k a ha => exact h.add k ha

end Partitions

/-! ## One place more -/

section WithPlace

variable {place : κ → List α} {all xs : List α}

/-- The places, and beside them one that holds `xs`. -/
def withPlace (xs : List α) (place : κ → List α) : Option κ → List α
  | none => xs
  | some k => place k

theorem withPlace_update (k : κ) (ys : List α) :
    withPlace xs (Function.update place k ys)
      = Function.update (withPlace xs place) (some k) ys := by
  funext x
  cases x with
  | none => rfl
  | some j =>
    rcases eq_or_ne j k with rfl | hj
    · simp [withPlace]
    · simp [withPlace, hj]

/-- What is done to the places is done beside the new one. -/
theorem Shift.withPlace {place' : κ → List α} {all' : List α}
    (h : Shift place all place' all') (xs : List α) :
    Shift (withPlace xs place) all (withPlace xs place') all' := by
  cases h with
  | stay => exact .stay
  | move k k' hne ys zs hperm =>
    rw [withPlace_update, withPlace_update]
    exact .move (some k) (some k') (by simpa using hne) ys zs hperm
  | add k a ha =>
    rw [withPlace_update]
    exact .add (some k) a ha

omit [DecidableEq κ] in
/-- The new place is empty at first. -/
theorem Partitions.withPlace (h : Partitions place all) :
    Partitions (withPlace [] place) all := by
  refine ⟨fun k => ?_, fun k k' a hk hk' => ?_, fun a => ?_⟩
  · cases k with
    | none => exact List.nodup_nil
    | some k => exact h.nodup k
  · cases k with
    | none => cases hk
    | some k =>
      cases k' with
      | none => cases hk'
      | some k' => exact congrArg some (h.unique k k' a hk hk')
  · rw [h.mem_iff a]
    constructor
    · rintro ⟨k, hk⟩
      exact ⟨some k, hk⟩
    · rintro ⟨k, hk⟩
      cases k with
      | none => cases hk
      | some k => exact ⟨k, hk⟩

omit [DecidableEq κ] in
/-- All that is in the places that are emptied goes to the new place. -/
theorem Partitions.gather (h : Partitions place all) (emptied : κ → Prop)
    {place' : κ → List α} (hxs : xs.Nodup) (hmem : ∀ a, a ∈ xs ↔ ∃ k, emptied k ∧ a ∈ place k)
    (hempty : ∀ k, emptied k → place' k = []) (hrest : ∀ k, ¬ emptied k → place' k = place k) :
    Partitions (Transition.withPlace xs place') all := by
  have hkept : ∀ k a, a ∈ place' k → ¬ emptied k ∧ a ∈ place k := by
    intro k a ha
    by_cases hk : emptied k
    · rw [hempty k hk] at ha
      cases ha
    · exact ⟨hk, hrest k hk ▸ ha⟩
  -- what has been gathered is in none of the places that are left
  have happart : ∀ k a, a ∈ xs → a ∉ place' k := by
    intro k a hx ha
    obtain ⟨hk, hin⟩ := hkept k a ha
    obtain ⟨j, hj, hold⟩ := (hmem a).mp hx
    exact hk (h.unique j k a hold hin ▸ hj)
  refine ⟨fun k => ?_, fun k k' a hk hk' => ?_, fun a => ?_⟩
  · cases k with
    | none => exact hxs
    | some k =>
      by_cases hk : emptied k
      · rw [show Transition.withPlace xs place' (some k) = [] from hempty k hk]
        exact List.nodup_nil
      · rw [show Transition.withPlace xs place' (some k) = place k from hrest k hk]
        exact h.nodup k
  · cases k with
    | none =>
      cases k' with
      | none => rfl
      | some k' => exact absurd hk' (happart k' a hk)
    | some k =>
      cases k' with
      | none => exact absurd hk (happart k a hk')
      | some k' => exact congrArg some (h.unique k k' a (hkept k a hk).2 (hkept k' a hk').2)
  · rw [h.mem_iff a]
    constructor
    · rintro ⟨k, hk⟩
      by_cases hemp : emptied k
      · exact ⟨none, (hmem a).mpr ⟨k, hemp, hk⟩⟩
      · exact ⟨some k, (show a ∈ place' k by rw [hrest k hemp]; exact hk)⟩
    · rintro ⟨k, hk⟩
      cases k with
      | none =>
        obtain ⟨j, -, hj⟩ := (hmem a).mp hk
        exact ⟨j, hj⟩
      | some k => exact ⟨k, (hkept k a hk).2⟩

end WithPlace

end Transition
