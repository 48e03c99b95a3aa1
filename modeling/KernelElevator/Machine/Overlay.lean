/-
KernelElevator.Machine.Overlay — an array that is written again and again,
always from its start.

`overlay ws` is what the writes `ws` leave of one another: each covers as much
of the earlier ones as it is long. So the last write is all that is left
exactly when none before it was longer (`overlay_eq_last_iff`).
-/
import Mathlib.Data.List.Induction

namespace Transition

variable {α : Type*}

/-- What is left of the writes `ws`, the first one first. -/
def overlay (ws : List (List α)) : List α := ws.foldl (fun old w => w ++ old.drop w.length) []

theorem overlay_concat (ws : List (List α)) (w : List α) :
    overlay (ws ++ [w]) = w ++ (overlay ws).drop w.length := by
  simp [overlay]

/-- The longest write says how much is left. -/
theorem length_overlay_le_iff {ws : List (List α)} {n : Nat} :
    (overlay ws).length ≤ n ↔ ∀ w ∈ ws, w.length ≤ n := by
  induction ws using List.reverseRecOn with
  | nil => simp [overlay]
  | append_singleton ws w ih =>
    simp only [List.mem_append, List.mem_singleton, or_imp, forall_and, forall_eq, ← ih]
    rw [overlay_concat, List.length_append, List.length_drop]
    omega

theorem length_overlay_lt_iff {ws : List (List α)} {n : Nat} (hn : 0 < n) :
    (overlay ws).length < n ↔ ∀ w ∈ ws, w.length < n := by
  obtain ⟨k, rfl⟩ := Nat.exists_eq_add_of_lt hn
  simpa only [Nat.zero_add, Nat.lt_succ_iff] using length_overlay_le_iff

theorem exists_mem_of_mem_overlay {ws : List (List α)} {x : α} (h : x ∈ overlay ws) :
    ∃ w ∈ ws, x ∈ w := by
  induction ws using List.reverseRecOn with
  | nil => cases h
  | append_singleton ws w ih =>
    rw [overlay_concat, List.mem_append] at h
    rcases h with hx | hx
    · exact ⟨w, by simp, hx⟩
    · obtain ⟨v, hv, hx⟩ := ih (List.mem_of_mem_drop hx)
      exact ⟨v, List.mem_append_left _ hv, hx⟩

/-- The last write is left alone if and only if no earlier one was longer. -/
theorem overlay_eq_last_iff {ws : List (List α)} {w : List α} :
    overlay (ws ++ [w]) = w ↔ ∀ v ∈ ws, v.length ≤ w.length := by
  rw [overlay_concat, List.append_right_eq_self, List.drop_eq_nil_iff, length_overlay_le_iff]

/-- An array of the size `n` that is filled up with `x` behind what is left is
so after the next write too. -/
theorem overlay_padded (ws : List (List α)) (w : List α) (n : Nat) (x : α) :
    w ++ (overlay ws ++ List.replicate (n - (overlay ws).length) x).drop w.length
      = overlay (ws ++ [w]) ++ List.replicate (n - (overlay (ws ++ [w])).length) x := by
  have hrest : n - (overlay ws).length - (w.length - (overlay ws).length)
      = n - (w.length + ((overlay ws).length - w.length)) := by omega
  rw [overlay_concat, List.length_append, List.length_drop, List.drop_append, List.drop_replicate,
    hrest, List.append_assoc]

end Transition
