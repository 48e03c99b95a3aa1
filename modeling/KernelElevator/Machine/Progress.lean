/-
KernelElevator.Machine.Progress — loops that finish although no single
quantity falls at every round.

`f` is one round of a loop. Most rounds are quiet: they only advance some
position (`g`). A round with an event lowers the work that is left. Two
lemmas turn that into a bound on the number of rounds:

* `exists_event` — if `g` alone would reach an event after `j` rounds, then
  an event comes within `j` rounds of `f`, and up to there `f` follows `g`;
* `exists_iterate_work_zero` — if work that is left is always lowered within
  `K` rounds, none is left after at most `K` times the work.
-/
import Mathlib.Logic.Function.Iterate
import Mathlib.Tactic.Ring

namespace Transition

variable {σ : Type*} {f g : σ → σ} {I : σ → Prop}

theorem iterate_inv (hinv : ∀ s, I s → I (f s)) (n : Nat) (s : σ) (h : I s) : I (f^[n] s) := by
  induction n generalizing s with
  | zero => exact h
  | succ n ih => exact ih (f s) (hinv s h)

/-- Until the first event `f` follows `g`, so an event that `g` alone would
reach in `j` rounds is met, by this event or an earlier one. -/
theorem exists_event {E : σ → Prop} (hinv : ∀ s, I s → I (g s))
    (hquiet : ∀ s, I s → ¬ E s → f s = g s) (j : Nat) (s : σ) (hs : I s) (hev : E (g^[j] s)) :
    ∃ i ≤ j, f^[i] s = g^[i] s ∧ E (g^[i] s) := by
  induction j generalizing s with
  | zero => exact ⟨0, Nat.le_refl 0, rfl, hev⟩
  | succ j ih =>
    by_cases h0 : E s
    · exact ⟨0, Nat.zero_le _, rfl, h0⟩
    · obtain ⟨i, hi, hfollow, hevi⟩ := ih (g s) (hinv s hs) hev
      refine ⟨i + 1, Nat.succ_le_succ hi, ?_, hevi⟩
      rw [Function.iterate_succ_apply, Function.iterate_succ_apply, hquiet s hs h0, hfollow]

/-- If some of the work that is left is always done within `K` rounds, all
of it is done after at most `K` rounds for each unit of work. -/
theorem exists_iterate_work_zero {work : σ → Nat} {K : Nat}
    (hinv : ∀ s, I s → I (f s))
    (hdrop : ∀ s, I s → 0 < work s → ∃ k ≤ K, work (f^[k] s) < work s)
    (s : σ) (hs : I s) : ∃ n ≤ K * work s, work (f^[n] s) = 0 := by
  -- strong induction on the work that is left, for every state with that much
  induction hw : work s using Nat.strong_induction_on generalizing s with
  | _ w ih =>
    rcases Nat.eq_zero_or_pos w with hzero | hpos
    · exact ⟨0, Nat.zero_le _, hw.trans hzero⟩
    · obtain ⟨k, hk, hlt⟩ := hdrop s hs (by omega)
      obtain ⟨n, hn, hdone⟩ := ih _ (hw ▸ hlt) (f^[k] s) (iterate_inv hinv k s hs) rfl
      refine ⟨n + k, ?_, by rw [Function.iterate_add_apply]; exact hdone⟩
      calc n + k ≤ K * work (f^[k] s) + K := Nat.add_le_add hn hk
        _ = K * (work (f^[k] s) + 1) := by ring
        _ ≤ K * w := Nat.mul_le_mul_left K (by omega)

end Transition
