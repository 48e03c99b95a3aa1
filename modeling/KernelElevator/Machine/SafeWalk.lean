/-
KernelElevator.Machine.SafeWalk — the safe walk on explicit links.

`forEachSafe` is the loop of `list_for_each_safe`: it follows `next`, with
the successor saved before the body runs, and ends when it is back at the
head. It knows of no list. Its body may write to the links, and may fail.

`forEachSafe_rule` is the loop rule. From it the two loops that occur:

* a body that leaves its node or moves it to the tail of another list does
  to the rings what `Transition.walk` does to the lists
  (`Represents.forEachSafe_walk`);
* a body that deletes every node empties the ring
  (`Represents.forEachSafe_del`).

A head that is used only for a while is added to the represented heads by
`Represents.withLocal` and left out again by `Represents.withoutLocal`.
-/
import KernelElevator.Machine.Ring
import KernelElevator.Machine.Walk

namespace Circular

open Transition

namespace Links

variable {α : Type*} [DecidableEq α]

/-- `INIT_LIST_HEAD`. -/
def initHead (head : α) (l : Links α) : Links α :=
  { next := Function.update l.next head head, prev := Function.update l.prev head head }

/-- `list_del`: the node is left with the two poison values. -/
def del (poison1 poison2 node : α) (l : Links α) : Links α :=
  let l := l.unlink node
  { next := Function.update l.next node poison1, prev := Function.update l.prev node poison2 }

/-- `list_empty`. -/
def isEmpty (head : α) (l : Links α) : Bool := decide (l.next head = head)

omit [DecidableEq α] in
/-- The head is alone on its ring. -/
def Alone (head : α) (l : Links α) : Prop := l.next head = head ∧ l.prev head = head

theorem alone_initHead {l : Links α} {head head' : α} (h : head = head' ∨ l.Alone head) :
    (l.initHead head').Alone head := by
  by_cases heq : head = head'
  · subst heq
    exact ⟨Function.update_self .., Function.update_self ..⟩
  · obtain ⟨hnext, hprev⟩ := h.resolve_left heq
    exact ⟨(Function.update_of_ne heq _ _).trans hnext, (Function.update_of_ne heq _ _).trans hprev⟩

/-- Heads that are initialised one after the other are all alone then. -/
theorem alone_foldl_initHead {heads : List α} {l : Links α} {head : α}
    (h : head ∈ heads ∨ l.Alone head) :
    (heads.foldl (fun l head => l.initHead head) l).Alone head := by
  induction heads generalizing l with
  | nil => exact h.resolve_left List.not_mem_nil
  | cons head' heads ih =>
    refine ih ?_
    rcases h with hmem | halone
    · rcases List.mem_cons.mp hmem with heq | hmem
      · exact Or.inr (alone_initHead (Or.inl heq))
      · exact Or.inl hmem
    · exact Or.inr (alone_initHead (Or.inr halone))

end Links

section Loop

variable {α σ : Type*} [DecidableEq α]

/-- The loop when the cursor is at `pos` and `n` has been saved. -/
def forEachSafeFrom (head : α) (body : α → Links α → σ → Option (Links α × σ)) :
    Nat → α → α → Links α → σ → Option (Links α × σ)
  | 0, _, _, _, _ => none
  | fuel + 1, pos, n, l, s =>
    if pos = head then some (l, s)
    else (body pos l s).bind fun r => forEachSafeFrom head body fuel n (r.1.next n) r.1 r.2

/-- `list_for_each_safe`, cut off (`none`) after `fuel` tests of its
condition. -/
def forEachSafe (head : α) (body : α → Links α → σ → Option (Links α × σ)) (fuel : Nat)
    (l : Links α) (s : σ) : Option (Links α × σ) :=
  forEachSafeFrom head body fuel (l.next head) (l.next (l.next head)) l s

omit [DecidableEq α] in
theorem IsRing.next_node {l : Links α} {head a : α} {xs ys : List α}
    (h : IsRing l head (xs ++ a :: ys)) : l.next a = ys.headD head := by
  have hchain := h.chain
  cases ys with
  | nil =>
    rw [← List.cons_append, List.append_assoc, List.singleton_append,
      List.isChain_append_cons_cons] at hchain
    exact hchain.2.1.1
  | cons b ys =>
    rw [← List.cons_append, List.append_assoc, List.isChain_append] at hchain
    exact (List.isChain_cons_cons.mp hchain.2.1).1.1

omit [DecidableEq α] in
theorem IsRing.next_head {l : Links α} {head : α} {xs : List α} (h : IsRing l head xs) :
    l.next head = xs.headD head := by
  have hchain := h.chain
  cases xs with
  | nil => exact (List.isChain_pair.mp hchain).1
  | cons b xs => exact (List.isChain_cons_cons.mp hchain).1.1

theorem IsRing.isEmpty_iff {l : Links α} {head : α} {xs : List α} (h : IsRing l head xs) :
    l.isEmpty head = true ↔ xs = [] := by
  rw [Links.isEmpty, decide_eq_true_eq, h.next_head]
  cases xs with
  | nil => simp
  | cons b xs =>
    have hne : b ≠ head := fun heq => (List.nodup_cons.mp h.nodup).1 (heq ▸ List.mem_cons_self)
    simp [hne]

variable {head : α} {body : α → Links α → σ → Option (Links α × σ)}
  {I : List α → List α → Links α → σ → Prop}

/-- The loop rule. `I kept rest` holds when the nodes `kept` have been passed
and left where they are and the nodes `rest` are still ahead; a pass leaves
its node or takes it off the list. Then the loop ends, after one test for
each node and one more. -/
theorem forEachSafe_rule (hring : ∀ kept rest l s, I kept rest l s → IsRing l head (kept ++ rest))
    (hbody : ∀ kept a rest l s, I kept (a :: rest) l s → ∃ l' s', body a l s = some (l', s') ∧
      (I kept rest l' s' ∨ I (kept ++ [a]) rest l' s'))
    {xs : List α} {l : Links α} {s : σ} {fuel : Nat} (h : I [] xs l s)
    (hfuel : xs.length < fuel) :
    ∃ l' s' kept, forEachSafe head body fuel l s = some (l', s') ∧ I kept [] l' s' := by
  -- from any pass of the loop on, by induction on the nodes ahead
  have hfrom : ∀ (rest kept : List α) (l : Links α) (s : σ) (fuel : Nat), I kept rest l s →
      rest.length < fuel →
      ∃ l' s' kept', forEachSafeFrom head body fuel (rest.headD head) (l.next (rest.headD head))
        l s = some (l', s') ∧ I kept' [] l' s' := by
    intro rest
    induction rest with
    | nil =>
      intro kept l s fuel h hfuel
      obtain ⟨fuel, rfl⟩ := Nat.exists_eq_succ_of_ne_zero (Nat.ne_of_gt hfuel)
      exact ⟨l, s, kept, by rw [List.headD_nil, forEachSafeFrom, if_pos rfl], h⟩
    | cons a rest ih =>
      intro kept l s fuel h hfuel
      obtain ⟨fuel, rfl⟩ := Nat.exists_eq_succ_of_ne_zero
        (Nat.ne_of_gt (Nat.lt_of_le_of_lt (Nat.zero_le _) hfuel))
      have hr := hring _ _ _ _ h
      have hne : a ≠ head := fun heq =>
        (List.nodup_cons.mp hr.nodup).1 (heq ▸ List.mem_append_right _ List.mem_cons_self)
      obtain ⟨l', s', hpass, hnext⟩ := hbody _ _ _ _ _ h
      have hrest : rest.length < fuel := Nat.lt_of_succ_lt_succ hfuel
      rw [List.headD_cons, forEachSafeFrom, if_neg hne, hpass, Option.bind_some, hr.next_node]
      rcases hnext with hnext | hnext
      · exact ih _ _ _ _ hnext hrest
      · exact ih _ _ _ _ hnext hrest
  have hr := hring _ _ _ _ h
  rw [List.nil_append] at hr
  rw [forEachSafe, hr.next_head]
  exact hfrom xs [] l s fuel h hfuel

end Loop

/-! ## Heads that are used only for a while -/

section Local

variable {ι α : Type*} [DecidableEq α] {l : Links α} {head : ι → α} {lists : ι → List α} {a : α}

omit [DecidableEq α] in
theorem isRing_nil_iff {head : α} : IsRing l head [] ↔ l.Alone head := by
  have hpair : (head :: [] ++ [head]).IsChain l.Linked ↔ l.Alone head := List.isChain_pair
  exact ⟨fun h => hpair.mp h.chain, fun h => ⟨hpair.mpr h, List.nodup_singleton _⟩⟩

omit [DecidableEq α] in
/-- Heads that are alone have empty lists. -/
theorem represents_nil (hinj : Function.Injective head) (h : ∀ i, l.Alone (head i)) :
    Represents l head fun _ => [] :=
  ⟨fun i => isRing_nil_iff.mpr (h i), fun _ _ hij => List.disjoint_singleton.mpr fun hmem =>
    hij (hinj (List.mem_singleton.mp hmem).symm)⟩

/-- A head that is on no list begins an empty list of its own. -/
theorem Represents.withLocal (h : Represents l head lists) (ha : ∀ i, a ∉ head i :: lists i) :
    Represents (l.initHead a) (fun o : Option ι => o.elim a head)
      (fun o => o.elim [] lists) := by
  refine ⟨fun o => ?_, fun o p hop => ?_⟩
  · cases o with
    | none => exact isRing_nil_iff.mpr (Links.alone_initHead (Or.inl rfl))
    | some i =>
      have hne : ∀ b ∈ head i :: lists i, b ≠ a := fun b hb heq => ha i (heq ▸ hb)
      exact (h.ring i).congr (fun b hb => Function.update_of_ne (hne b hb) _ _)
        fun b hb => Function.update_of_ne (hne b hb) _ _
  · cases o with
    | none =>
      cases p with
      | none => exact absurd rfl hop
      | some i => exact List.singleton_disjoint.mpr (ha i)
    | some i =>
      cases p with
      | none => exact List.disjoint_singleton.mpr (ha i)
      | some j => exact h.apart i j fun heq => hop (heq ▸ rfl)

omit [DecidableEq α] in
theorem Represents.withoutLocal {lists : Option ι → List α}
    (h : Represents l (fun o : Option ι => o.elim a head) lists) :
    Represents l head fun i => lists (some i) :=
  ⟨fun i => h.ring (some i), fun i j hij => h.apart (some i) (some j) fun heq =>
    hij (Option.some.inj heq)⟩

end Local

/-! ## The two loops -/

section ManyRings

variable {ι α : Type*} [DecidableEq ι] [DecidableEq α] {l : Links α} {head : ι → α}
  {lists : ι → List α}

/-- `list_del` of a node of the list `i`. -/
theorem Represents.del (h : Represents l head lists) {i : ι} {node : α} (hnode : node ∈ lists i)
    (poison1 poison2 : α) :
    Represents (l.del poison1 poison2 node) head
      (Function.update lists i ((lists i).erase node)) := by
  obtain ⟨hunlink, hfree⟩ := h.unlink hnode
  refine ⟨fun j => ?_, hunlink.apart⟩
  have hne : ∀ b ∈ head j :: Function.update lists i ((lists i).erase node) j, b ≠ node :=
    fun b hb heq => hfree j (heq ▸ hb)
  exact (hunlink.ring j).congr (fun b hb => Function.update_of_ne (hne b hb) _ _)
    fun b hb => Function.update_of_ne (hne b hb) _ _

variable {β σ τ : Type*}

/-- The lists at one moment of a walk along the list `i` whose body moves
nodes to the tail of the list `j`; `f` names the nodes. -/
def movedTo (lists : ι → List α) (f : β → α) (i j : ι) (c : Cursor β σ) : ι → List α :=
  Function.update (Function.update lists i (c.list.map f)) j (lists j ++ c.moved.map f)

variable {f : β → α} {xs : List β} {i j : ι}

/-- The loop on the links and the walk on the list stand at the same place,
and what is left of the walk ends where the whole walk does. -/
structure InStep (head : ι → α) (lists : ι → List α) (f : β → α) (i j : ι)
    (step : β → σ → Option σ) (view : σ → τ) (xs : List β) (last : Cursor β σ)
    (c : Cursor β σ) (kept rest : List α) (l : Links α) (t : τ) : Prop where
  kept_eq : kept = c.kept.map f
  rest_eq : rest = c.rest.map f
  view_eq : t = view c.st
  represents : Represents l head (movedTo lists f i j c)
  ends : (Cursor.next step)^[c.rest.length] c = last
  rest_subset : c.rest ⊆ xs

/-- The body moves the node it is at. -/
theorem Represents.movedTo_move {kept moved rest : List β} {b : β} {st st' : σ}
    (h : Represents l head (movedTo lists f i j ⟨kept, moved, b :: rest, st⟩))
    (hf : Function.Injective f) (hij : j ≠ i) :
    Represents (l.moveTail (f b) (head j)) head
      (movedTo lists f i j ⟨kept, moved ++ [b], rest, st'⟩) := by
  have hi : movedTo lists f i j ⟨kept, moved, b :: rest, st⟩ i = (kept ++ b :: rest).map f := by
    rw [movedTo, Function.update_of_ne hij.symm, Function.update_self]
    rfl
  have hj : movedTo lists f i j ⟨kept, moved, b :: rest, st⟩ j = lists j ++ moved.map f :=
    Function.update_self ..
  have hnodup := (List.nodup_cons.mp (h.ring i).nodup).2
  rw [hi] at hnodup
  have hkept : f b ∉ kept.map f := fun hb =>
    (List.nodup_append.mp (List.Nodup.of_map f hnodup)).2.2 b
      ((List.mem_map_of_injective hf).mp hb) b List.mem_cons_self rfl
  have herase : ((kept ++ b :: rest).map f).erase (f b) = (kept ++ rest).map f := by
    rw [List.map_append, List.map_cons, List.erase_append_right _ hkept, List.erase_cons_head,
      List.map_append]
  have hmem : f b ∈ movedTo lists f i j ⟨kept, moved, b :: rest, st⟩ i := by
    rw [hi]
    exact List.mem_map_of_mem (List.mem_append_right _ List.mem_cons_self)
  have hmove := h.moveTail hij hmem
  rw [hi, hj, herase, movedTo, Function.update_comm hij.symm, Function.update_idem,
    Function.update_comm hij.symm, Function.update_idem, Function.update_comm hij] at hmove
  rw [movedTo, List.map_append, List.map_singleton, ← List.append_assoc]
  exact hmove

section InStep

variable {step : β → σ → Option σ} {view : σ → τ} {last c : Cursor β σ} {kept rest : List α}
  {t : τ}

omit [DecidableEq α] in
theorem InStep.ring (h : InStep head lists f i j step view xs last c kept rest l t)
    (hij : j ≠ i) : IsRing l (head i) (kept ++ rest) := by
  have hr := h.represents.ring i
  rw [movedTo, Function.update_of_ne hij.symm, Function.update_self] at hr
  rw [h.kept_eq, h.rest_eq, ← List.map_append]
  exact hr

/-- A pass of the loop keeps in step. -/
theorem InStep.pass {a : α} (hf : Function.Injective f) (hij : j ≠ i)
    {body : α → Links α → τ → Option (Links α × τ)}
    (hmove : ∀ b ∈ xs, ∀ l s s', step b s = some s' →
      body (f b) l (view s) = some (l.moveTail (f b) (head j), view s'))
    (hkeep : ∀ b ∈ xs, ∀ l s, step b s = none → body (f b) l (view s) = some (l, view s))
    (h : InStep head lists f i j step view xs last c kept (a :: rest) l t) :
    ∃ l' t', body a l t = some (l', t') ∧
      ((∃ c, InStep head lists f i j step view xs last c kept rest l' t') ∨
        ∃ c, InStep head lists f i j step view xs last c (kept ++ [a]) rest l' t') := by
  obtain ⟨ckept, moved, crest, st⟩ := c
  obtain ⟨hkept, hrest, rfl, hrep, hends, hsub⟩ := h
  cases crest with
  | nil => cases hrest
  | cons b crest =>
    obtain ⟨rfl, rfl⟩ := List.cons.inj hrest
    have hb : b ∈ xs := hsub List.mem_cons_self
    have hsub' : crest ⊆ xs := fun x hx => hsub (List.mem_cons_of_mem _ hx)
    rw [List.length_cons, Function.iterate_succ_apply] at hends
    cases hstep : step b st with
    | none =>
      rw [Cursor.next_none rfl hstep] at hends
      refine ⟨l, view st, hkeep b hb l st hstep,
        Or.inr ⟨⟨ckept ++ [b], moved, crest, st⟩, ?_, rfl, rfl, ?_, hends, hsub'⟩⟩
      · rw [hkept, List.map_append, List.map_singleton]
      · simpa [movedTo, Cursor.list] using hrep
    | some st' =>
      rw [Cursor.next_some rfl hstep] at hends
      exact ⟨_, _, hmove b hb l st st' hstep,
        Or.inl ⟨⟨ckept, moved ++ [b], crest, st'⟩, hkept, rfl, rfl, hrep.movedTo_move hf hij,
          hends, hsub'⟩⟩

end InStep

/-- A safe walk whose body leaves its node or moves it to the tail of another
list does what the walk on the list does. The loop's other variables are
those of the walk, seen through `view`. -/
theorem Represents.forEachSafe_walk (h : Represents l head lists) (hxs : lists i = xs.map f)
    (hf : Function.Injective f) (hij : j ≠ i) {step : β → σ → Option σ} {view : σ → τ}
    {body : α → Links α → τ → Option (Links α × τ)}
    (hmove : ∀ b ∈ xs, ∀ l s s', step b s = some s' →
      body (f b) l (view s) = some (l.moveTail (f b) (head j), view s'))
    (hkeep : ∀ b ∈ xs, ∀ l s, step b s = none → body (f b) l (view s) = some (l, view s))
    {fuel : Nat} (hfuel : xs.length < fuel) (s : σ) :
    ∃ l', forEachSafe (head i) body fuel l (view s) = some (l', view (walk step xs s).st) ∧
      Represents l' head (movedTo lists f i j (walk step xs s)) := by
  have hsame : movedTo lists f i j (Cursor.start xs s) = lists := by
    simp [movedTo, Cursor.start, Cursor.list, ← hxs]
  have hstart : InStep head lists f i j step view xs (walk step xs s) (Cursor.start xs s) []
      (xs.map f) l (view s) :=
    ⟨rfl, rfl, rfl, by rwa [hsame], rfl, fun x hx => hx⟩
  obtain ⟨l', t', kept, hrun, c, -, hrest, rfl, hrep, hends, -⟩ :=
    forEachSafe_rule (I := fun kept rest l t =>
        ∃ c, InStep head lists f i j step view xs (walk step xs s) c kept rest l t)
      (fun _ _ _ _ h => h.elim fun _ hc => hc.ring hij)
      (fun _ _ _ _ _ h => h.elim fun _ hc => hc.pass hf hij hmove hkeep)
      ⟨_, hstart⟩ ((List.length_map f).trans_lt hfuel)
  have hnil : c.rest = [] := List.map_eq_nil_iff.mp hrest.symm
  rw [hnil] at hends
  obtain rfl : c = walk step xs s := hends
  exact ⟨l', hrun, hrep⟩

/-- In the middle of a loop that deletes every node: the nodes `ys` are left,
and deleting them leads to `last`. -/
def Deleting (head : ι → α) (lists : ι → List α) (f : β → α) (i : ι) (free : τ → β → τ)
    (xs : List β) (last : τ) (kept rest : List α) (l : Links α) (t : τ) : Prop :=
  kept = [] ∧ ∃ ys, rest = ys.map f ∧ ys ⊆ xs ∧
    Represents l head (Function.update lists i rest) ∧ ys.foldl free t = last

/-- A safe walk whose body deletes every node. -/
theorem Represents.forEachSafe_del (h : Represents l head lists) (hxs : lists i = xs.map f)
    {poison1 poison2 : α} {free : τ → β → τ} {body : α → Links α → τ → Option (Links α × τ)}
    (hbody : ∀ b ∈ xs, ∀ l t, body (f b) l t = some (l.del poison1 poison2 (f b), free t b))
    {fuel : Nat} (hfuel : xs.length < fuel) (t : τ) :
    ∃ l', forEachSafe (head i) body fuel l t = some (l', xs.foldl free t) ∧
      Represents l' head (Function.update lists i []) := by
  have hring : ∀ kept rest l t', Deleting head lists f i free xs (xs.foldl free t) kept rest l t' →
      IsRing l (head i) (kept ++ rest) := by
    rintro kept rest l t' ⟨rfl, ys, -, -, hrep, -⟩
    have hr := hrep.ring i
    rwa [Function.update_self] at hr
  have hpass : ∀ kept a rest l t',
      Deleting head lists f i free xs (xs.foldl free t) kept (a :: rest) l t' →
      ∃ l' t'', body a l t' = some (l', t'') ∧
        (Deleting head lists f i free xs (xs.foldl free t) kept rest l' t'' ∨
          Deleting head lists f i free xs (xs.foldl free t) (kept ++ [a]) rest l' t'') := by
    rintro kept a rest l t' ⟨rfl, ys, hrest, hsub, hrep, hfold⟩
    cases ys with
    | nil => cases hrest
    | cons b ys =>
      obtain ⟨rfl, rfl⟩ := List.cons.inj hrest
      refine ⟨_, _, hbody b (hsub List.mem_cons_self) l t', Or.inl ⟨rfl, ys, rfl,
        fun x hx => hsub (List.mem_cons_of_mem _ hx), ?_, hfold⟩⟩
      have hmem : f b ∈ Function.update lists i (f b :: ys.map f) i := by
        rw [Function.update_self]
        exact List.mem_cons_self
      have hdel := hrep.del hmem poison1 poison2
      rwa [Function.update_self, List.erase_cons_head, Function.update_idem] at hdel
  have hstart : Deleting head lists f i free xs (xs.foldl free t) [] (xs.map f) l t :=
    ⟨rfl, xs, rfl, fun x hx => hx, by rwa [← hxs, Function.update_eq_self], rfl⟩
  obtain ⟨l', t', kept, hrun, -, ys, hnil, -, hrep, hfold⟩ :=
    forEachSafe_rule hring hpass hstart ((List.length_map f).trans_lt hfuel)
  obtain rfl : ys = [] := List.map_eq_nil_iff.mp hnil.symm
  exact ⟨l', by rw [hrun, ← hfold, List.foldl_nil], hrep⟩

end ManyRings

end Circular
