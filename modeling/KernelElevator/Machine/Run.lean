/-
KernelElevator.Machine.Run — runs of a machine driven by inputs.

A `Machine σ ι` is a start state and a total step function: an input the
machine cannot act on leaves the state as it is. A run is the list of its
inputs, so "every run" is `∀ is : List ι` and "every reachable state" is
`m.run m.init is`.

Four shapes of statement are used over runs, each with its induction rule:

* `P (m.run s is)` — a property of the state a run ends in (`Machine.run_inv`);
* `Along ok`       — every step of a run, taken with the state it starts in,
                     meets `ok` (`Machine.along_of_inv`, `along_iff_of_inv`);
* `outputs out`    — the list of what the steps of a run put out, compared
                     between two starts by a simulation
                     (`Machine.outputs_eq_of_simulation`);
* `total w`        — the sum of a weight over the steps of a run, related to
                     the state by an invariant that has it as a parameter
                     (`Machine.total_inv`).
-/
import Mathlib.Algebra.Group.Nat.Defs
import Mathlib.Data.List.Induction
import Mathlib.Logic.Function.Iterate

namespace Transition

/-- A deterministic machine driven by inputs. -/
structure Machine (σ ι : Type*) where
  init : σ
  step : σ → ι → σ

namespace Machine

variable {σ ι ο : Type*} (m : Machine σ ι)

/-- The state after the given inputs. -/
def run (s : σ) (is : List ι) : σ := is.foldl m.step s

@[simp] theorem run_nil (s : σ) : m.run s [] = s := rfl

@[simp] theorem run_cons (s : σ) (i : ι) (is : List ι) :
    m.run s (i :: is) = m.run (m.step s i) is := rfl

theorem run_append (s : σ) (is js : List ι) :
    m.run s (is ++ js) = m.run (m.run s is) js := by
  simp [run, List.foldl_append]

theorem run_concat (s : σ) (is : List ι) (i : ι) :
    m.run s (is ++ [i]) = m.step (m.run s is) i := by
  simp [run_append]

/-- An invariant of every step holds after any run it held before. -/
theorem run_inv {P : σ → Prop} (hstep : ∀ s i, P s → P (m.step s i)) (is : List ι) (s : σ)
    (h : P s) : P (m.run s is) := by
  induction is generalizing s with
  | nil => exact h
  | cons i is ih => exact ih (m.step s i) (hstep s i h)

/-- Where every allowed input but `t` leaves the state as it is, a run only
counts how often `t` came. -/
theorem run_eq_iterate [DecidableEq ι] {t : ι} {I : σ → Prop} {ok : ι → Prop}
    (hstay : ∀ s i, I s → ok i → i ≠ t → m.step s i = s)
    (hinv : ∀ s, I s → I (m.step s t)) (is : List ι) (s : σ) (h : I s)
    (hok : ∀ i ∈ is, ok i) : m.run s is = (m.step · t)^[is.count t] s := by
  induction is generalizing s with
  | nil => rfl
  | cons i is ih =>
    have htail := fun j hj => hok j (List.mem_cons_of_mem i hj)
    by_cases hi : i = t
    · subst hi
      rw [run_cons, List.count_cons_self, Function.iterate_succ_apply, ih _ (hinv s h) htail]
    · rw [run_cons, hstay s i h (hok i (List.mem_cons_self ..)) hi, List.count_cons_of_ne hi,
        ih s h htail]

/-! ## Properties of every step of a run -/

/-- Every step of the run `is` out of `s` meets `ok`. -/
def Along (ok : σ → ι → Prop) : σ → List ι → Prop
  | _, [] => True
  | s, i :: is => ok s i ∧ Along ok (m.step s i) is

@[simp] theorem along_nil (ok : σ → ι → Prop) (s : σ) : m.Along ok s [] := trivial

@[simp] theorem along_cons (ok : σ → ι → Prop) (s : σ) (i : ι) (is : List ι) :
    m.Along ok s (i :: is) ↔ ok s i ∧ m.Along ok (m.step s i) is := Iff.rfl

instance decidableAlong {ok : σ → ι → Prop} [∀ s i, Decidable (ok s i)] :
    (s : σ) → (is : List ι) → Decidable (m.Along ok s is)
  | _, [] => .isTrue trivial
  | s, i :: is => @instDecidableAnd _ _ _ (decidableAlong (m.step s i) is)

theorem along_append (ok : σ → ι → Prop) (s : σ) (is js : List ι) :
    m.Along ok s (is ++ js) ↔ m.Along ok s is ∧ m.Along ok (m.run s is) js := by
  induction is generalizing s with
  | nil => simp
  | cons i is ih => simp [ih, and_assoc]

theorem Along.mono {ok ok' : σ → ι → Prop} (hok : ∀ s i, ok s i → ok' s i) {is : List ι} {s : σ}
    (h : m.Along ok s is) : m.Along ok' s is := by
  induction is generalizing s with
  | nil => trivial
  | cons i is ih => exact ⟨hok s i h.1, ih h.2⟩

theorem Along.and {ok ok' : σ → ι → Prop} {is : List ι} {s : σ} (h : m.Along ok s is)
    (h' : m.Along ok' s is) : m.Along (fun s i => ok s i ∧ ok' s i) s is := by
  induction is generalizing s with
  | nil => trivial
  | cons i is ih => exact ⟨⟨h.1, h'.1⟩, ih h.2 h'.2⟩

/-- A step anywhere in a run that meets `ok` throughout meets `ok`. -/
theorem Along.at {ok : σ → ι → Prop} {s : σ} {pre post : List ι} {i : ι}
    (h : m.Along ok s (pre ++ i :: post)) : ok (m.run s pre) i := by
  rw [along_append] at h
  exact h.2.1

/-- Inputs that meet `ok` in any state make a run that does. -/
theorem along_of_forall {ok : σ → ι → Prop} (is : List ι) (s : σ) (h : ∀ i ∈ is, ∀ s, ok s i) :
    m.Along ok s is := by
  induction is generalizing s with
  | nil => trivial
  | cons i is ih =>
    exact ⟨h i (List.mem_cons_self ..) s, ih _ fun j hj => h j (List.mem_cons_of_mem i hj)⟩

/-- A run without the input `i` has no step by it. -/
theorem along_ne_of_not_mem {i : ι} (is : List ι) (s : σ) (h : i ∉ is) :
    m.Along (fun _ j => j ≠ i) s is :=
  m.along_of_forall is s fun _ hj _ heq => h (heq ▸ hj)

/-- An invariant kept by the steps that meet `ok` holds after a run of such
steps. -/
theorem inv_of_along {ok : σ → ι → Prop} {P : σ → Prop}
    (hstep : ∀ s i, ok s i → P s → P (m.step s i)) (is : List ι) (s : σ) (h : P s)
    (hal : m.Along ok s is) : P (m.run s is) := by
  induction is generalizing s with
  | nil => exact h
  | cons i is ih => exact ih (m.step s i) (hstep s i hal.1 h) hal.2

/-- Steps that meet `ok` keep the invariant, and under the invariant they
meet `ok'`: then a run of such steps meets `ok'` throughout. -/
theorem along_of_inv {ok ok' : σ → ι → Prop} {P : σ → Prop}
    (hstep : ∀ s i, ok s i → P s → P (m.step s i))
    (hok : ∀ s i, ok s i → P s → ok' s i) (is : List ι) (s : σ) (h : P s)
    (hal : m.Along ok s is) : m.Along ok' s is := by
  induction is generalizing s with
  | nil => trivial
  | cons i is ih => exact ⟨hok s i hal.1 h, ih (m.step s i) (hstep s i hal.1 h) hal.2⟩

/-- Two step properties that agree wherever an invariant holds agree along
every run that starts inside it. -/
theorem along_iff_of_inv {ok ok' : σ → ι → Prop} {P : σ → Prop}
    (hstep : ∀ s i, P s → P (m.step s i)) (hok : ∀ s i, P s → (ok s i ↔ ok' s i))
    (is : List ι) (s : σ) (h : P s) : m.Along ok s is ↔ m.Along ok' s is := by
  induction is generalizing s with
  | nil => exact Iff.rfl
  | cons i is ih => rw [along_cons, along_cons, hok s i h, ih (m.step s i) (hstep s i h)]

/-- Inside an invariant `I`, a state property `P` survives exactly the steps
that meet `ok`: then it survives exactly the runs of such steps. Both need
hold only of the steps that meet `given`, if all the run's do. -/
theorem along_iff_of_survives_along {given ok : σ → ι → Prop} {I P : σ → Prop}
    (hinv : ∀ s i, given s i → I s → I (m.step s i))
    (hok : ∀ s i, given s i → I s → P s → (P (m.step s i) ↔ ok s i)) (is : List ι) (s : σ)
    (hs : I s) (hp : P s) (hal : m.Along given s is) :
    (∀ pre, pre <+: is → P (m.run s pre)) ↔ m.Along ok s is := by
  induction is generalizing s with
  | nil => simpa [List.prefix_nil] using hp
  | cons i is ih =>
    constructor
    · intro hall
      have hstep : P (m.step s i) := hall [i] (by simp)
      refine ⟨(hok s i hal.1 hs hp).mp hstep, ?_⟩
      rw [← ih (m.step s i) (hinv s i hal.1 hs) hstep hal.2]
      intro pre hpre
      exact hall (i :: pre) (by simpa using hpre)
    · intro hkept pre hpre
      have hstep : P (m.step s i) := (hok s i hal.1 hs hp).mpr hkept.1
      cases pre with
      | nil => exact hp
      | cons j pre =>
        obtain ⟨rfl, htail⟩ := List.cons_prefix_cons.mp hpre
        exact (ih (m.step s j) (hinv s j hal.1 hs) hstep hal.2).mpr hkept.2 pre htail

/-- `along_iff_of_survives_along` over any run. -/
theorem along_iff_of_survives {ok : σ → ι → Prop} {I P : σ → Prop}
    (hinv : ∀ s i, I s → I (m.step s i))
    (hok : ∀ s i, I s → P s → (P (m.step s i) ↔ ok s i)) (is : List ι) (s : σ) (hs : I s)
    (hp : P s) : (∀ pre, pre <+: is → P (m.run s pre)) ↔ m.Along ok s is :=
  m.along_iff_of_survives_along (fun s i _ => hinv s i)
    (fun s i _ => hok s i) is s hs hp (m.along_of_forall is s fun _ _ _ => trivial)

/-- The steps that meet `ok` keep `P`, and no other step out of `P` leads to
where `Q` holds: then `Q` holds throughout exactly the runs of such steps. -/
theorem along_iff_of_shown {ok : σ → ι → Prop} {P Q : σ → Prop} (hpq : ∀ s, P s → Q s)
    (hkeep : ∀ s i, P s → ok s i → P (m.step s i))
    (hshown : ∀ s i, P s → Q (m.step s i) → ok s i) (is : List ι) (s : σ) (h : P s) :
    (∀ pre, pre <+: is → Q (m.run s pre)) ↔ m.Along ok s is := by
  induction is generalizing s with
  | nil => simpa [List.prefix_nil] using hpq s h
  | cons i is ih =>
    constructor
    · intro hall
      have hok : ok s i := hshown s i h (hall [i] (by simp))
      refine ⟨hok, (ih (m.step s i) (hkeep s i h hok)).mp fun pre hpre => ?_⟩
      exact hall (i :: pre) (by simpa using hpre)
    · intro hal pre hpre
      cases pre with
      | nil => exact hpq s h
      | cons j pre =>
        obtain ⟨rfl, htail⟩ := List.cons_prefix_cons.mp hpre
        exact (ih (m.step s j) (hkeep s j h hal.1)).mpr hal.2 pre htail

/-! ## Outputs and simulation -/

/-- What the steps of a run put out, in order. -/
def outputs (out : σ → ι → ο) : σ → List ι → List ο
  | _, [] => []
  | s, i :: is => out s i :: outputs out (m.step s i) is

theorem outputs_map {ο' : Type*} (out : σ → ι → ο) (f : ο → ο') (is : List ι) (s : σ) :
    m.outputs (fun s i => f (out s i)) s is = (m.outputs out s is).map f := by
  induction is generalizing s with
  | nil => rfl
  | cons i is ih => rw [outputs, outputs, ih, List.map_cons]

theorem outputs_append (out : σ → ι → ο) (is js : List ι) (s : σ) :
    m.outputs out s (is ++ js) = m.outputs out s is ++ m.outputs out (m.run s is) js := by
  induction is generalizing s with
  | nil => rfl
  | cons i is ih => rw [List.cons_append, outputs, ih, outputs, List.cons_append, run_cons]

/-- Two states related by a simulation that agrees on the outputs give the
same outputs on every common run, and stay related. -/
theorem outputs_eq_of_simulation {out : σ → ι → ο} {R : σ → σ → Prop}
    (hout : ∀ s t i, R s t → out s i = out t i)
    (hstep : ∀ s t i, R s t → R (m.step s i) (m.step t i)) (is : List ι) (s t : σ) (h : R s t) :
    m.outputs out s is = m.outputs out t is ∧ R (m.run s is) (m.run t is) := by
  induction is generalizing s t with
  | nil => exact ⟨rfl, h⟩
  | cons i is ih =>
    obtain ⟨houts, hrel⟩ := ih _ _ (hstep s t i h)
    exact ⟨by rw [outputs, outputs, hout s t i h, houts], hrel⟩

/-! ## Sums over a run -/

variable {M : Type*}

/-- The sum of `w` over the steps of the run `is` out of `s`. -/
def total [AddMonoid M] (w : σ → ι → M) : σ → List ι → M
  | _, [] => 0
  | s, i :: is => w s i + total w (m.step s i) is

theorem total_append [AddMonoid M] (w : σ → ι → M) (s : σ) (is js : List ι) :
    m.total w s (is ++ js) = m.total w s is + m.total w (m.run s is) js := by
  induction is generalizing s with
  | nil => exact (zero_add _).symm
  | cons i is ih => rw [List.cons_append, total, ih, total, add_assoc, run_cons]

/-- What each step keeps while its weight is added, a run keeps while the
total is added. -/
theorem total_inv [AddMonoid M] {w : σ → ι → M} {P : M → σ → Prop}
    (hstep : ∀ n s i, P n s → P (n + w s i) (m.step s i)) (is : List ι) (n : M) (s : σ)
    (h : P n s) : P (n + m.total w s is) (m.run s is) := by
  induction is generalizing n s with
  | nil => rw [total, add_zero]; exact h
  | cons i is ih =>
    rw [total, ← add_assoc]
    exact ih _ _ (hstep n s i h)

/-- `total_inv` over the steps that meet `ok`. -/
theorem total_inv_along [AddMonoid M] {ok : σ → ι → Prop} {w : σ → ι → M} {P : M → σ → Prop}
    (hstep : ∀ n s i, ok s i → P n s → P (n + w s i) (m.step s i)) (is : List ι) (n : M) (s : σ)
    (h : P n s) (hal : m.Along ok s is) : P (n + m.total w s is) (m.run s is) := by
  induction is generalizing n s with
  | nil => rw [total, add_zero]; exact h
  | cons i is ih =>
    rw [total, ← add_assoc]
    exact ih _ _ (hstep n s i hal.1 h) hal.2

/-- `total_inv` from where nothing has been added yet. -/
theorem total_inv_zero [AddMonoid M] {w : σ → ι → M} {P : M → σ → Prop}
    (hstep : ∀ n s i, P n s → P (n + w s i) (m.step s i)) (is : List ι) (s : σ) (h : P 0 s) :
    P (m.total w s is) (m.run s is) := by
  have hrun := m.total_inv hstep is 0 s h
  rwa [zero_add] at hrun

/-- A count that grows by at most one a step takes every value on its way. -/
theorem exists_prefix_total_eq {w : σ → ι → Nat} (hw : ∀ s i, w s i ≤ 1) (is : List ι) (s : σ)
    {n : Nat} (h : n ≤ m.total w s is) : ∃ pre, pre <+: is ∧ m.total w s pre = n := by
  induction is generalizing s n with
  | nil => exact ⟨[], List.nil_prefix, (Nat.le_zero.mp h).symm⟩
  | cons i is ih =>
    cases n with
    | zero => exact ⟨[], List.nil_prefix, rfl⟩
    | succ n =>
      have hone := hw s i
      rw [total] at h
      obtain ⟨pre, hpre, htot⟩ := ih (m.step s i) (n := n + 1 - w s i) (by omega)
      refine ⟨i :: pre, List.cons_prefix_cons.mpr ⟨rfl, hpre⟩, ?_⟩
      rw [total, htot]
      omega

end Machine

end Transition
