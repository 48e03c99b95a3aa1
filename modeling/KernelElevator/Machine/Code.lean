/-
KernelElevator.Machine.Code — texts that are put together from pieces
without a length or a type before them, and taken apart again.

A code gives every value a word over an alphabet. If no word begins another
one (`PrefixFree`), a text that starts with a word says which value it was
and where the word ends (`PrefixFree.append_inj`), so codes can be written
one after the other. A code without a certain letter becomes prefix-free
when every word is ended by that letter (`prefixFree_terminated`).
-/
import Mathlib.Data.List.Basic
import Mathlib.Logic.Function.Basic

namespace Code

variable {α β ι σ : Type*} {f : α → List σ} {g : β → List σ}

/-- No word begins the word of another value. -/
def PrefixFree (f : α → List σ) : Prop := ∀ a b, f a <+: f b → a = b

/-- The word at the front of a text can be told from what follows it. -/
theorem PrefixFree.append_inj (hf : PrefixFree f) {a b : α} {x y : List σ}
    (h : f a ++ x = f b ++ y) : a = b ∧ x = y := by
  have ha : f a <+: f b ++ y := h ▸ List.prefix_append _ _
  have heq : a = b := by
    rcases List.prefix_or_prefix_of_prefix ha (List.prefix_append _ _) with hab | hba
    · exact hf a b hab
    · exact (hf b a hba).symm
  subst heq
  exact ⟨rfl, List.append_cancel_left h⟩

theorem prefixFree_of_append_inj
    (h : ∀ a b x y, f a ++ x = f b ++ y → a = b) : PrefixFree f := by
  rintro a b ⟨rest, hrest⟩
  exact h a b rest [] (by rw [hrest, List.append_nil])

/-! ## Putting codes together -/

/-- A code without the letter `c`, with `c` at the end of every word. -/
theorem prefixFree_terminated {c : σ} (hinj : Function.Injective f) (hc : ∀ a, c ∉ f a) :
    PrefixFree fun a => f a ++ [c] := by
  classical
  refine prefixFree_of_append_inj fun a b x y h => hinj ?_
  have hcut : ∀ (v : α) (z : List σ), (f v ++ [c] ++ z).splitOn c = f v :: z.splitOn c := by
    intro v z
    rw [List.append_assoc, List.singleton_append, List.splitOn_append_cons_self_of_not_mem (hc v)]
  have hsplit := congrArg (List.splitOn c) h
  simp only [hcut] at hsplit
  exact (List.cons.inj hsplit).1

/-- The same word before all of them. -/
theorem PrefixFree.after (hf : PrefixFree f) (w : List σ) : PrefixFree fun a => w ++ f a := by
  intro a b h
  exact hf a b ((List.prefix_append_right_inj w).mp h)

/-- One code and then another. -/
theorem PrefixFree.pair (hf : PrefixFree f) (hg : PrefixFree g) :
    PrefixFree fun p : α × β => f p.1 ++ g p.2 := by
  refine prefixFree_of_append_inj fun p q x y h => ?_
  simp only [List.append_assoc] at h
  obtain ⟨hfst, hrest⟩ := hf.append_inj h
  exact Prod.ext hfst (hg.append_inj hrest).1

/-- A fixed row of codes, each with a value of its own. -/
theorem flatMap_inj {f : ι → α → List σ} {is : List ι} (hf : ∀ i ∈ is, PrefixFree (f i))
    {u v : ι → α} {x y : List σ}
    (h : is.flatMap (fun i => f i (u i)) ++ x = is.flatMap (fun i => f i (v i)) ++ y) :
    ∀ i ∈ is, u i = v i := by
  induction is with
  | nil => simp
  | cons i is ih =>
    rw [List.flatMap_cons, List.flatMap_cons, List.append_assoc, List.append_assoc] at h
    obtain ⟨hfirst, hrest⟩ := (hf i List.mem_cons_self).append_inj h
    have hothers : ∀ j ∈ is, PrefixFree (f j) := fun j hj => hf j (List.mem_cons_of_mem i hj)
    exact List.forall_mem_cons.mpr ⟨hfirst, ih hothers hrest⟩

/-- A list of values, in a code that has no empty word. -/
theorem PrefixFree.flatMap_injective (hf : PrefixFree f) (hne : ∀ a, f a ≠ []) :
    Function.Injective (List.flatMap f) := by
  intro l
  induction l with
  | nil =>
    intro m h
    cases m with
    | nil => rfl
    | cons b m => simp [hne] at h
  | cons a l ih =>
    intro m h
    cases m with
    | nil => simp [hne] at h
    | cons b m =>
      rw [List.flatMap_cons, List.flatMap_cons] at h
      obtain ⟨rfl, hrest⟩ := hf.append_inj h
      rw [ih hrest]

end Code
