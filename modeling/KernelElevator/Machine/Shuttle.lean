/-
KernelElevator.Machine.Shuttle — going back and forth over `1 … F`.

`shuttle F k` is where something is after `k` moves that starts at 1, moves
by one, and turns round at 1 and at `F`. It is periodic with period
`2 * (F - 1)`, and one period visits every position (`shuttle_covers`).

The turn-round rule is `shuttle_up` and `shuttle_down`: from two successive
positions alone the third is known, which is all a machine that stores only
"where I am" and "where I go next" can use.
-/
import Mathlib.Data.Nat.ModEq
import Mathlib.Tactic.Ring

namespace Transition

/-- The number of moves after which the shuttle is back with the same
direction. -/
def shuttlePeriod (F : Nat) : Nat := 2 * (F - 1)

/-- The position after `k` moves. -/
def shuttle (F k : Nat) : Nat :=
  1 + min (k % shuttlePeriod F) (shuttlePeriod F - k % shuttlePeriod F)

theorem shuttlePeriod_pos {F : Nat} (hF : 2 ≤ F) : 0 < shuttlePeriod F := by
  unfold shuttlePeriod; omega

theorem succ_mod_eq (k : Nat) {P : Nat} (hP : 0 < P) :
    (k + 1) % P = if k % P + 1 = P then 0 else k % P + 1 := by
  have hlt := Nat.mod_lt k hP
  rw [Nat.add_mod_eq_ite]
  have h1 : 1 % P = 1 ∨ P = 1 := by
    rcases Nat.lt_or_ge 1 P with h | h
    · exact Or.inl (Nat.mod_eq_of_lt h)
    · exact Or.inr (by omega)
  rcases h1 with h1 | h1
  · rw [h1]; split <;> split <;> omega
  · subst h1; simp [Nat.mod_one]

theorem shuttle_zero (F : Nat) : shuttle F 0 = 1 := by simp [shuttle]

theorem one_le_shuttle (F k : Nat) : 1 ≤ shuttle F k := by unfold shuttle; omega

theorem shuttle_le {F : Nat} (hF : 2 ≤ F) (k : Nat) : shuttle F k ≤ F := by
  have hlt := Nat.mod_lt k (shuttlePeriod_pos hF)
  unfold shuttle
  have : shuttlePeriod F = 2 * (F - 1) := rfl
  omega

/-- Each move goes to a neighbour. -/
theorem shuttle_succ {F : Nat} (hF : 2 ≤ F) (k : Nat) :
    shuttle F (k + 1) = shuttle F k + 1 ∨ shuttle F k = shuttle F (k + 1) + 1 := by
  have hP := shuttlePeriod_pos hF
  have hlt := Nat.mod_lt k hP
  have hdef : shuttlePeriod F = 2 * (F - 1) := rfl
  unfold shuttle
  rw [succ_mod_eq k hP]
  split <;> omega

/-- A move up is made in the first half of the period. -/
theorem rising_of_lt {F : Nat} (hF : 2 ≤ F) {k : Nat} (h : shuttle F k < shuttle F (k + 1)) :
    k % shuttlePeriod F < F - 1 := by
  have hP := shuttlePeriod_pos hF
  have hdef : shuttlePeriod F = 2 * (F - 1) := rfl
  unfold shuttle at h
  rw [succ_mod_eq k hP] at h
  split at h <;> omega

/-- A move down is made in the second half. -/
theorem falling_of_lt {F : Nat} (hF : 2 ≤ F) {k : Nat} (h : shuttle F (k + 1) < shuttle F k) :
    F - 1 ≤ k % shuttlePeriod F := by
  have hP := shuttlePeriod_pos hF
  have hdef : shuttlePeriod F = 2 * (F - 1) := rfl
  unfold shuttle at h
  rw [succ_mod_eq k hP] at h
  split at h <;> omega

/-- After a move up the next move goes up again, unless the top is reached. -/
theorem shuttle_up {F : Nat} (hF : 2 ≤ F) {k : Nat}
    (h : shuttle F k < shuttle F (k + 1)) :
    shuttle F (k + 2)
      = if shuttle F (k + 1) = F then shuttle F (k + 1) - 1 else shuttle F (k + 1) + 1 := by
  have hP := shuttlePeriod_pos hF
  have hdef : shuttlePeriod F = 2 * (F - 1) := rfl
  have hrising := rising_of_lt hF h
  have hone : (k + 1) % shuttlePeriod F = k % shuttlePeriod F + 1 := by
    rw [succ_mod_eq k hP, if_neg (by omega)]
  have htwo := succ_mod_eq (k + 1) hP
  have hnext : shuttle F (k + 1) = k % shuttlePeriod F + 2 := by
    unfold shuttle
    omega
  rw [hnext, shuttle, htwo, hone]
  split_ifs <;> omega

/-- After a move down the next move goes down again, unless the bottom is
reached. -/
theorem shuttle_down {F : Nat} (hF : 2 ≤ F) {k : Nat}
    (h : shuttle F (k + 1) < shuttle F k) :
    shuttle F (k + 2)
      = if shuttle F (k + 1) = 1 then shuttle F (k + 1) + 1 else shuttle F (k + 1) - 1 := by
  have hP := shuttlePeriod_pos hF
  have hlt := Nat.mod_lt k hP
  have hdef : shuttlePeriod F = 2 * (F - 1) := rfl
  have hfalling := falling_of_lt hF h
  have htwo := succ_mod_eq (k + 1) hP
  have hone := succ_mod_eq k hP
  have hnext : shuttle F (k + 1) = shuttlePeriod F - k % shuttlePeriod F := by
    unfold shuttle
    split at hone <;> omega
  rw [hnext, shuttle, htwo]
  split at hone
  · rw [hone]
    split_ifs <;> omega
  · rw [hone]
    split_ifs <;> omega

/-- One period visits every position, wherever it starts. -/
theorem shuttle_covers {F : Nat} (hF : 2 ≤ F) (k : Nat) {x : Nat} (h1 : 1 ≤ x) (h2 : x ≤ F) :
    ∃ j < shuttlePeriod F, shuttle F (k + j) = x := by
  have hP := shuttlePeriod_pos hF
  have hlt := Nat.mod_lt k hP
  have hdef : shuttlePeriod F = 2 * (F - 1) := rfl
  -- wait until the phase of the sweep is `x - 1`, where it is on its way up
  refine ⟨(x - 1 + (shuttlePeriod F - k % shuttlePeriod F)) % shuttlePeriod F,
    Nat.mod_lt _ hP, ?_⟩
  have hphase : (k + (x - 1 + (shuttlePeriod F - k % shuttlePeriod F)) % shuttlePeriod F)
      % shuttlePeriod F = x - 1 := by
    rw [Nat.add_mod_mod, ← Nat.mod_add_mod k,
      show k % shuttlePeriod F + (x - 1 + (shuttlePeriod F - k % shuttlePeriod F))
        = x - 1 + shuttlePeriod F by omega,
      Nat.add_mod_right, Nat.mod_eq_of_lt (by omega)]
  unfold shuttle
  rw [hphase]
  omega

example : (List.range 20).map (shuttle 10)
    = [1, 2, 3, 4, 5, 6, 7, 8, 9, 10, 9, 8, 7, 6, 5, 4, 3, 2, 1, 2] := by decide

end Transition
