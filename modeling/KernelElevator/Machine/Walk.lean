/-
KernelElevator.Machine.Walk — walking a list whose nodes may be moved away
under the walk.

The pattern is `list_for_each_safe`: the successor is saved before the body
runs, so the body may unlink the node it is given and put it on another
list. A `Cursor` is one moment of such a walk: the nodes passed and left in
place, the nodes moved away so far, the nodes still ahead, and the other
variables of the loop. The walked list itself is at that moment
`kept ++ rest`.

`walk_inv` is the loop rule: what holds at the start and is kept by every
pass of the body holds at every moment of the walk. From it: a body that
decides by the node alone splits the list by its test (`walk_eq_filter`),
and a body that moves every node empties it (`walk_all`).
-/
import Mathlib.Data.List.Basic
import Mathlib.Logic.Function.Iterate

namespace Transition

/-- One moment of a walk. -/
structure Cursor (α σ : Type*) where
  kept : List α
  moved : List α
  rest : List α
  st : σ

namespace Cursor

variable {α σ : Type*}

/-- The walked list as it is at this moment. -/
def list (c : Cursor α σ) : List α := c.kept ++ c.rest

/-- The walk is about to enter `l`. -/
def start (l : List α) (s : σ) : Cursor α σ := ⟨[], [], l, s⟩

/-- One pass of the loop. The body answers `some` when it moved the node to
another list, with the new values of the loop's variables, and `none` when
it left the node where it is. -/
def next (body : α → σ → Option σ) (c : Cursor α σ) : Cursor α σ :=
  match c.rest with
  | [] => c
  | a :: rest =>
    match body a c.st with
    | some s => ⟨c.kept, c.moved ++ [a], rest, s⟩
    | none => ⟨c.kept ++ [a], c.moved, rest, c.st⟩

variable {body : α → σ → Option σ} {c : Cursor α σ} {a : α} {rest : List α}

theorem next_some (h : c.rest = a :: rest) {s : σ} (hb : body a c.st = some s) :
    c.next body = ⟨c.kept, c.moved ++ [a], rest, s⟩ := by
  unfold next; rw [h]; simp only [hb]

theorem next_none (h : c.rest = a :: rest) (hb : body a c.st = none) :
    c.next body = ⟨c.kept ++ [a], c.moved, rest, c.st⟩ := by
  unfold next; rw [h]; simp only [hb]

end Cursor

open Cursor

variable {α σ : Type*} (body : α → σ → Option σ)

/-- The moment after `n` passes of the loop over `l`. -/
def walkAt (l : List α) (s : σ) (n : Nat) : Cursor α σ :=
  (Cursor.next body)^[n] (start l s)

/-- The moment at which the walk over `l` ends. -/
def walk (l : List α) (s : σ) : Cursor α σ := walkAt body l s l.length

theorem walkAt_succ (l : List α) (s : σ) (n : Nat) :
    walkAt body l s (n + 1) = (walkAt body l s n).next body :=
  Function.iterate_succ_apply' _ _ _

/-- The loop rule. The two step premises are the two ways a pass can end. -/
theorem walk_inv {I : Cursor α σ → Prop} {l : List α} {s : σ} (hstart : I (start l s))
    (hmove : ∀ kept moved a rest st st', I ⟨kept, moved, a :: rest, st⟩ →
      body a st = some st' → I ⟨kept, moved ++ [a], rest, st'⟩)
    (hkeep : ∀ kept moved a rest st, I ⟨kept, moved, a :: rest, st⟩ →
      body a st = none → I ⟨kept ++ [a], moved, rest, st⟩) (n : Nat) :
    I (walkAt body l s n) := by
  induction n with
  | zero => exact hstart
  | succ n ih =>
    rw [walkAt_succ]
    generalize walkAt body l s n = c at ih ⊢
    obtain ⟨kept, moved, rest, st⟩ := c
    cases rest with
    | nil => exact ih
    | cons a rest =>
      cases hb : body a st with
      | none => rw [next_none rfl hb]; exact hkeep _ _ _ _ _ ih hb
      | some st' => rw [next_some rfl hb]; exact hmove _ _ _ _ _ _ ih hb

/-- Each pass consumes one node. -/
theorem walkAt_rest (l : List α) (s : σ) (n : Nat) :
    (walkAt body l s n).rest = l.drop n := by
  induction n with
  | zero => rfl
  | succ n ih =>
    rw [walkAt_succ, ← List.drop_drop, ← ih]
    generalize walkAt body l s n = c
    obtain ⟨kept, moved, rest, st⟩ := c
    cases rest with
    | nil => rfl
    | cons a rest => cases hb : body a st <;> simp [Cursor.next, hb]

@[simp] theorem walk_rest (l : List α) (s : σ) : (walk body l s).rest = [] := by
  rw [walk, walkAt_rest, List.drop_length]

/-- The walk takes nodes out of the list and leaves the others in order. -/
theorem walkAt_list_sublist (l : List α) (s : σ) (n : Nat) :
    (walkAt body l s n).list.Sublist l := by
  refine walk_inv body (I := fun c => c.list.Sublist l) (List.Sublist.refl l) ?_ ?_ n
  · intro kept moved a rest st st' hsub _
    exact ((List.sublist_cons_self a rest).append_left kept).trans hsub
  · intro kept moved a rest st hsub _
    simpa [list] using hsub

/-- A body that looks only at the node splits the list by its test. -/
theorem walk_eq_filter {p : α → Bool} (hp : ∀ a st, (body a st).isSome = p a)
    (l : List α) (s : σ) :
    (walk body l s).moved = l.filter p ∧ (walk body l s).kept = l.filter (fun a => !p a) := by
  have hall := walk_inv body (l := l) (s := s)
    (I := fun c => ∃ passed, l = passed ++ c.rest ∧
      c.moved = passed.filter p ∧ c.kept = passed.filter (fun a => !p a))
    ⟨[], rfl, rfl, rfl⟩
    (by
      rintro kept moved a rest st st' ⟨passed, hl, hm, hk⟩ hb
      have hpa : p a = true := by rw [← hp a st, hb]; rfl
      exact ⟨passed ++ [a], by simpa using hl, by simp_all, by simp_all⟩)
    (by
      rintro kept moved a rest st ⟨passed, hl, hm, hk⟩ hb
      have hpa : p a = false := by rw [← hp a st, hb]; rfl
      exact ⟨passed ++ [a], by simpa using hl, by simp_all, by simp_all⟩)
    l.length
  obtain ⟨passed, hl, hm, hk⟩ := hall
  have hrest : (walkAt body l s l.length).rest = [] := walk_rest body l s
  rw [hrest, List.append_nil] at hl
  subst hl
  exact ⟨hm, hk⟩

/-- A body that moves every node moves them all, in order. -/
theorem walk_all (hb : ∀ a st, (body a st).isSome = true) (l : List α) (s : σ) :
    (walk body l s).moved = l ∧ (walk body l s).list = [] := by
  obtain ⟨hmoved, hkept⟩ := walk_eq_filter body (p := fun _ => true) hb l s
  exact ⟨by simp [hmoved], by simp [Cursor.list, hkept]⟩

end Transition
