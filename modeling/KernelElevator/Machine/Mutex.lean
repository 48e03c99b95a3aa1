/-
KernelElevator.Machine.Mutex — a lock that anybody can release.

`Lock` has a holder and, for each thread, the stage the thread has reached.
Acquiring is exclusive; releasing frees the lock whoever does it. A wait can
be broken off, and a thread whose wait was broken off may still go on to the
release: that is `Lock.Interrupt`, and `leaving false` is the stage it leads
to.

Two facts decide who holds what:

* `Consistent` — the holder is a thread that was given the lock and has not
  released it; steps and interrupts keep this;
* `Exclusive`  — every thread past its wait is the holder; steps keep this,
  an interrupt ends it.
-/
import Mathlib.Logic.Function.Basic

namespace Transition

/-- How far a thread has got with the lock; `held` says whether a thread
that is about to release the lock was given it. -/
inductive LockStage where
  | outside
  | waiting
  | inside
  | leaving (held : Bool)
  deriving DecidableEq, Repr

/-- The lock as it is at one moment. -/
structure Lock (θ : Type*) where
  holder : Option θ
  stage : θ → LockStage

namespace Lock

variable {θ : Type*} {x y : θ} {l l' : Lock θ}

/-! ## §1 Who holds the lock -/

/-- `x` is between its acquisition and its release. -/
def InSection (l : Lock θ) (x : θ) : Prop := l.stage x = .inside ∨ l.stage x = .leaving true

/-- The holder was given the lock and has not released it. -/
def Consistent (l : Lock θ) : Prop := ∀ x, l.holder = some x → l.InSection x

/-- Whoever is past the wait holds the lock. -/
def Exclusive (l : Lock θ) : Prop :=
  ∀ x, l.stage x = .inside ∨ (∃ held, l.stage x = .leaving held) → l.holder = some x

/-- Where the exclusion holds a release is the holder's. -/
theorem Exclusive.holder (h : l.Exclusive) {held : Bool} (hx : l.stage x = .leaving held) :
    l.holder = some x :=
  h x (Or.inr ⟨held, hx⟩)

/-- A thread whose wait was broken off is not the holder. -/
theorem Consistent.not_holder (h : l.Consistent) (hx : l.stage x = .leaving false) :
    l.holder ≠ some x := by
  intro hholder
  rcases h x hholder with hin | hin <;> rw [hin] at hx <;> simp at hx

/-- While a thread is outside or waiting it is not the holder. -/
theorem Consistent.ne_holder (h : l.Consistent) (hx : l.stage x = .outside ∨ l.stage x = .waiting)
    (hy : l.holder = some y) : y ≠ x := by
  intro heq
  subst heq
  rcases h y hy with hin | hin <;> rw [hin] at hx <;> simp at hx

/-- At most one thread is in its section. -/
theorem Exclusive.unique (h : l.Exclusive) (hx : l.InSection x) (hy : l.InSection y) : x = y := by
  have holds : ∀ z, l.InSection z → l.holder = some z := fun z hz =>
    h z (hz.imp_right fun hleave => ⟨true, hleave⟩)
  exact Option.some.inj ((holds x hx).symm.trans (holds y hy))

/-! ## §2 Steps -/

variable [DecidableEq θ]

/-- What thread `x` can do to the lock in one step. -/
inductive Step (x : θ) (l : Lock θ) : Lock θ → Prop
  | elsewhere : Step x l l
  | arrive (h : l.stage x = .outside) :
      Step x l ⟨l.holder, Function.update l.stage x .waiting⟩
  | acquire (h : l.stage x = .waiting) (hfree : l.holder = none) :
      Step x l ⟨some x, Function.update l.stage x .inside⟩
  | finish (h : l.stage x = .inside) :
      Step x l ⟨l.holder, Function.update l.stage x (.leaving true)⟩
  | release (held : Bool) (h : l.stage x = .leaving held) :
      Step x l ⟨none, Function.update l.stage x .outside⟩

/-- The wait of `x` is broken off. -/
def Interrupt (x : θ) (l l' : Lock θ) : Prop :=
  l.stage x = .waiting ∧ l' = ⟨l.holder, Function.update l.stage x (.leaving false)⟩

/-- A step that keeps the stage of `x` and the holder. -/
theorem Step.stay {st : LockStage} (h : l.stage x = st) :
    Step x l ⟨l.holder, Function.update l.stage x st⟩ := by
  rw [← h, Function.update_eq_self]
  exact elsewhere

/-- A thread other than `x` does not notice a new stage of `x`. -/
theorem inSection_update {st : LockStage} {holder : Option θ} (hne : y ≠ x) :
    InSection ⟨holder, Function.update l.stage x st⟩ y ↔ l.InSection y := by
  simp [InSection, hne]

theorem Consistent.step (h : l.Consistent) (hs : Step x l l') : l'.Consistent := by
  cases hs with
  | elsewhere => exact h
  | arrive hx =>
    intro y hy
    exact (inSection_update (h.ne_holder (Or.inl hx) hy)).mpr (h y hy)
  | acquire hx hfree =>
    intro y hy
    obtain rfl : x = y := Option.some.inj hy
    exact Or.inl (by simp)
  | finish hx =>
    intro y hy
    by_cases heq : y = x
    · subst heq
      exact Or.inr (by simp)
    · exact (inSection_update heq).mpr (h y hy)
  | release held hx =>
    intro y hy
    cases hy

theorem Consistent.interrupt (h : l.Consistent) (hs : Interrupt x l l') : l'.Consistent := by
  obtain ⟨hx, rfl⟩ := hs
  intro y hy
  exact (inSection_update (h.ne_holder (Or.inr hx) hy)).mpr (h y hy)

theorem Exclusive.step (h : l.Exclusive) (hs : Step x l l') : l'.Exclusive := by
  -- a thread other than `x` that is past its wait is the holder
  have hother : ∀ st y, y ≠ x →
      (Function.update l.stage x st y = .inside ∨
        ∃ held, Function.update l.stage x st y = .leaving held) → l.holder = some y := by
    intro st y hyx hy
    refine h y ?_
    simpa [hyx] using hy
  cases hs with
  | elsewhere => exact h
  | arrive hx =>
    intro y hy
    by_cases heq : y = x
    · subst heq
      simp at hy
    · exact hother _ y heq hy
  | acquire hx hfree =>
    intro y hy
    by_cases heq : y = x
    · rw [heq]
    · rw [hother _ y heq hy] at hfree
      cases hfree
  | finish hx =>
    intro y hy
    by_cases heq : y = x
    · subst heq
      exact h y (Or.inl hx)
    · exact hother _ y heq hy
  | release held hx =>
    intro y hy
    by_cases heq : y = x
    · subst heq
      simp at hy
    · -- both would hold the lock
      have hholds := h x (Or.inr ⟨held, hx⟩)
      rw [hother _ y heq hy] at hholds
      exact absurd (Option.some.inj hholds) heq

/-- What one thread holds the steps of the others leave it. -/
theorem Exclusive.holder_of_ne (h : l.Exclusive) (hs : Step x l l') (hy : l.holder = some y)
    (hne : y ≠ x) : l'.holder = some y := by
  cases hs with
  | elsewhere => exact hy
  | arrive _ => exact hy
  | finish _ => exact hy
  | acquire _ hfree =>
    rw [hy] at hfree
    cases hfree
  | release held hx =>
    have hx := h.holder hx
    rw [hy] at hx
    exact absurd (Option.some.inj hx) hne

end Lock

end Transition
