/-
KernelElevator.Machine.Simulation — one machine explained by another.

* `Machine.run_simulated`: a step of the first machine may be answered by any
  number of steps of the second, none included. If every step that meets `ok`
  is answered so that the two states stay related, every run of such steps is
  answered by a run; what holds of all inputs that answer a step holds of all
  that answer the run.
* `Machine.run_followed`: the same where each step has at most one answer,
  which the state and the input determine: then they determine the run.
* `Machine.run_projected`: where a view of the state is changed by some inputs
  only, and these change it as the second machine says, the view and what
  those inputs put out do not depend on the other inputs.
* `Machine.outputs_filter`: inputs that put out nothing and change nothing an
  output depends on can be left out of the run.
-/
import KernelElevator.Machine.Run
import Mathlib.Data.List.ReduceOption

namespace Transition

namespace Machine

variable {σ ι τ κ : Type*} (m : Machine σ ι) (n : Machine τ κ)

/-- Related states that every step keeps related by some answer stay related
in a whole run. -/
theorem run_simulated {R : σ → τ → Prop} {ok : σ → ι → Prop} {Q : κ → Prop}
    (hstep : ∀ s t i, ok s i → R s t →
      ∃ ks, (∀ k ∈ ks, Q k) ∧ R (m.step s i) (n.run t ks))
    (is : List ι) (s : σ) (t : τ) (h : R s t) (hok : m.Along ok s is) :
    ∃ ks, (∀ k ∈ ks, Q k) ∧ R (m.run s is) (n.run t ks) := by
  induction is generalizing s t with
  | nil => exact ⟨[], by simp, h⟩
  | cons i is ih =>
    obtain ⟨ks, hks, hrel⟩ := hstep s t i hok.1 h
    obtain ⟨ks', hks', hrel'⟩ := ih _ _ hrel hok.2
    refine ⟨ks ++ ks', fun k hk => ?_, ?_⟩
    · exact (List.mem_append.mp hk).elim (hks k) (hks' k)
    · rw [run_append, run_cons]
      exact hrel'

/-- Where the first machine's state says which input of the second one answers
a step, if any does, the second machine follows a run by these inputs. -/
theorem run_followed {R : σ → τ → Prop} {ok : σ → ι → Prop} {p : σ → ι → Option κ}
    (hstep : ∀ s t i, ok s i → R s t → R (m.step s i) ((p s i).elim t (n.step t)))
    (is : List ι) (s : σ) (t : τ) (h : R s t) (hok : m.Along ok s is) :
    R (m.run s is) (n.run t (m.outputs p s is).reduceOption) := by
  induction is generalizing s t with
  | nil => exact h
  | cons i is ih =>
    have hrel := ih _ _ (hstep s t i hok.1 h) hok.2
    rw [run_cons, outputs]
    cases hp : p s i with
    | none => rwa [hp] at hrel
    | some k => rwa [hp] at hrel

/-- A view `f` of the state that the inputs with `p i = none` leave alone, and
the others change as `n` does. -/
theorem run_projected {ο : Type*} {I : σ → Prop} {f : σ → τ} {p : ι → Option κ}
    {out : σ → ι → Option ο} {out' : τ → κ → ο} (hinv : ∀ s i, I s → I (m.step s i))
    (hnone : ∀ s i, I s → p i = none → f (m.step s i) = f s ∧ out s i = none)
    (hsome : ∀ s i k, I s → p i = some k →
      f (m.step s i) = n.step (f s) k ∧ out s i = some (out' (f s) k))
    (is : List ι) (s : σ) (h : I s) :
    f (m.run s is) = n.run (f s) (is.filterMap p) ∧
      (m.outputs out s is).filterMap id = n.outputs out' (f s) (is.filterMap p) := by
  induction is generalizing s with
  | nil => exact ⟨rfl, rfl⟩
  | cons i is ih =>
    obtain ⟨hrun, hout⟩ := ih _ (hinv s i h)
    cases hp : p i with
    | none =>
      obtain ⟨hview, hquiet⟩ := hnone s i h hp
      rw [hview] at hrun hout
      have hskip : id (out s i) = none := hquiet
      rw [List.filterMap_cons_none hp, run_cons, outputs, List.filterMap_cons_none hskip]
      exact ⟨hrun, hout⟩
    | some k =>
      obtain ⟨hview, hanswer⟩ := hsome s i k h hp
      rw [hview] at hrun hout
      have hshow : id (out s i) = some (out' (f s) k) := hanswer
      rw [List.filterMap_cons_some hp, run_cons, run_cons, outputs, outputs,
        List.filterMap_cons_some hshow]
      exact ⟨hrun, congrArg _ hout⟩

/-- If the inputs that are left out put out nothing and keep the states
related, and the others put out the same in related states, the run without
them puts out the same. -/
theorem outputs_filter {ο : Type*} {out : σ → ι → Option ο} {keep : ι → Bool} {R : σ → σ → Prop}
    (hskip : ∀ s t i, R s t → keep i = false → out s i = none ∧ R (m.step s i) t)
    (hkeep : ∀ s t i, R s t → keep i = true → out s i = out t i ∧ R (m.step s i) (m.step t i))
    (is : List ι) (s t : σ) (h : R s t) :
    (m.outputs out s is).reduceOption = (m.outputs out t (is.filter keep)).reduceOption := by
  induction is generalizing s t with
  | nil => rfl
  | cons i is ih =>
    cases hi : keep i with
    | false =>
      obtain ⟨hquiet, hrel⟩ := hskip s t i h hi
      rw [List.filter_cons_of_neg (by simp [hi]), outputs, hquiet, List.reduceOption_cons_of_none]
      exact ih _ _ hrel
    | true =>
      obtain ⟨hsame, hrel⟩ := hkeep s t i h hi
      rw [List.filter_cons_of_pos hi, outputs, outputs, hsame]
      cases ho : out t i with
      | none =>
        rw [List.reduceOption_cons_of_none, List.reduceOption_cons_of_none]
        exact ih _ _ hrel
      | some o =>
        rw [List.reduceOption_cons_of_some, List.reduceOption_cons_of_some, ih _ _ hrel]

end Machine

end Transition
