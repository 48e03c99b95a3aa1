/-
KernelElevator.Machine.Ring — circular lists on explicit links.

`Links` are the `next` and `prev` of every list head and every node of one
memory. The operations write them one after the other as the kernel's
`list.h` does, without knowing what list they are in. `IsRing l h xs` says
what list that is: from the head `h` the links lead through `xs` and back to
`h`, and backwards as well. `Represents` says it of many heads at once,
whose rings have no node in common; each operation changes the lists as its
name says and leaves the other rings alone.
-/
import Mathlib.Data.List.Chain
import Mathlib.Data.List.Nodup
import Mathlib.Logic.Function.Iterate

namespace Circular

/-- The two links of every node. -/
structure Links (α : Type*) where
  next : α → α
  prev : α → α

namespace Links

variable {α : Type*} [DecidableEq α]

/-- `__list_add`: between two neighbours. -/
def insert (node before after : α) (l : Links α) : Links α :=
  let l := { l with prev := Function.update l.prev after node }
  let l := { l with next := Function.update l.next node after }
  let l := { l with prev := Function.update l.prev node before }
  { l with next := Function.update l.next before node }

/-- `list_add_tail`. -/
def addTail (node head : α) (l : Links α) : Links α := l.insert node (l.prev head) head

/-- `__list_del`: makes two nodes neighbours. -/
def join (before after : α) (l : Links α) : Links α :=
  let l := { l with prev := Function.update l.prev after before }
  { l with next := Function.update l.next before after }

/-- `__list_del_entry`. -/
def unlink (node : α) (l : Links α) : Links α := l.join (l.prev node) (l.next node)

/-- `list_move_tail`. -/
def moveTail (node head : α) (l : Links α) : Links α := (l.unlink node).addTail node head

/-- `INIT_LIST_HEAD` of everything. -/
def init (α : Type*) : Links α := ⟨id, id⟩

omit [DecidableEq α] in
/-- The one node is followed by the other. -/
def Linked (l : Links α) (a b : α) : Prop := l.next a = b ∧ l.prev b = a

variable {l : Links α} {node before after a : α}

theorem insert_next_of_ne (hnode : a ≠ node) (hbefore : a ≠ before) :
    (l.insert node before after).next a = l.next a := by
  simp [insert, hnode, hbefore]

theorem insert_prev_of_ne (hnode : a ≠ node) (hafter : a ≠ after) :
    (l.insert node before after).prev a = l.prev a := by
  simp [insert, hnode, hafter]

theorem linked_insert_before : (l.insert node before after).Linked before node := by
  simp [insert, Linked]

theorem linked_insert_after (hbefore : node ≠ before) (hafter : after ≠ node) :
    (l.insert node before after).Linked node after := by
  simp [insert, Linked, hbefore, hafter]

theorem join_next_of_ne (hbefore : a ≠ before) : (l.join before after).next a = l.next a := by
  simp [join, hbefore]

theorem join_prev_of_ne (hafter : a ≠ after) : (l.join before after).prev a = l.prev a := by
  simp [join, hafter]

theorem linked_join : (l.join before after).Linked before after := by
  simp [join, Linked]

end Links

/-- From the head through the nodes and back. -/
structure IsRing {α : Type*} (l : Links α) (head : α) (xs : List α) : Prop where
  chain : (head :: xs ++ [head]).IsChain l.Linked
  nodup : (head :: xs).Nodup

section OneRing

variable {α : Type*} {l l' : Links α} {head : α} {xs : List α}

/-- A chain reads `next` of all but its last node, and `prev` of all but its
first. -/
theorem chain_congr (h : xs.IsChain l.Linked) (hnext : ∀ a ∈ xs.dropLast, l'.next a = l.next a)
    (hprev : ∀ b ∈ xs.tail, l'.prev b = l.prev b) : xs.IsChain l'.Linked := by
  induction xs with
  | nil => exact .nil
  | cons a xs ih =>
    cases xs with
    | nil => exact .singleton a
    | cons b xs =>
      obtain ⟨⟨hn, hp⟩, hrest⟩ := List.isChain_cons_cons.mp h
      rw [List.dropLast_cons_cons, List.forall_mem_cons] at hnext
      rw [List.tail_cons, List.forall_mem_cons] at hprev
      refine List.isChain_cons_cons.mpr ⟨⟨hnext.1.trans hn, hprev.1.trans hp⟩, ih hrest hnext.2 ?_⟩
      exact hprev.2

/-- A ring that an operation does not write to stays. -/
theorem IsRing.congr (h : IsRing l head xs) (hnext : ∀ a ∈ head :: xs, l'.next a = l.next a)
    (hprev : ∀ a ∈ head :: xs, l'.prev a = l.prev a) : IsRing l' head xs := by
  refine ⟨chain_congr h.chain (fun a ha => hnext a ?_) (fun a ha => hprev a ?_), h.nodup⟩
  · rwa [List.dropLast_concat] at ha
  · rw [List.cons_append, List.tail_cons, List.mem_append, List.mem_singleton] at ha
    exact List.mem_cons.mpr ha.symm

/-- The last node of a ring, the head itself if there is no other. -/
theorem IsRing.exists_last (h : IsRing l head xs) :
    ∃ ys, head :: xs = ys ++ [l.prev head] ∧ (ys ++ [l.prev head]).IsChain l.Linked := by
  obtain ⟨ys, z, hz⟩ := (List.eq_nil_or_concat' (head :: xs)).resolve_left (List.cons_ne_nil _ _)
  have hchain := h.chain
  rw [hz, List.append_assoc, List.singleton_append, List.isChain_append_cons_cons] at hchain
  rw [hchain.2.1.2]
  exact ⟨ys, hz, hchain.1⟩

theorem IsRing.next_mem (h : IsRing l head xs) {a : α} (ha : a ∈ head :: xs) :
    l.next a ∈ head :: xs := by
  obtain ⟨us, vs, hsplit⟩ := List.append_of_mem ha
  obtain ⟨b, ws, hws⟩ := List.exists_cons_of_ne_nil (List.concat_ne_nil head vs)
  have hchain := h.chain
  rw [hsplit, List.append_assoc, List.cons_append, hws, List.isChain_append_cons_cons] at hchain
  rw [hchain.2.1.1]
  have hb : b ∈ vs ++ [head] := hws ▸ List.mem_cons_self
  rcases List.mem_append.mp hb with hb | hb
  · rw [hsplit]
    exact List.mem_append_right _ (List.mem_cons_of_mem _ hb)
  · rw [List.mem_singleton.mp hb]
    exact List.mem_cons_self

theorem IsRing.prev_mem (h : IsRing l head xs) {a : α} (ha : a ∈ head :: xs) :
    l.prev a ∈ head :: xs := by
  rcases List.mem_cons.mp ha with rfl | ha
  · obtain ⟨ys, hys, -⟩ := h.exists_last
    rw [hys]
    exact List.mem_append_right _ (List.mem_singleton_self _)
  · obtain ⟨us, vs, rfl⟩ := List.append_of_mem ha
    obtain ⟨ws, z, hz⟩ := (List.eq_nil_or_concat' (head :: us)).resolve_left (List.cons_ne_nil _ _)
    have hchain := h.chain
    have hsplit : head :: (us ++ a :: vs) ++ [head] = ws ++ z :: a :: (vs ++ [head]) := by
      rw [← List.cons_append, hz]
      simp
    rw [hsplit, List.isChain_append_cons_cons] at hchain
    rw [hchain.2.1.2, ← List.cons_append, hz]
    exact List.mem_append_left _ (List.mem_append_right _ (List.mem_singleton_self _))

variable [DecidableEq α]

/-- A new node comes last. -/
theorem IsRing.addTail (h : IsRing l head xs) {node : α} (hnode : node ∉ head :: xs) :
    IsRing (l.addTail node head) head (xs ++ [node]) := by
  obtain ⟨ys, hys, hchain⟩ := h.exists_last
  have hnodup := h.nodup
  unfold Links.addTail
  generalize l.prev head = last at hys hchain ⊢
  have hsplit : head :: (xs ++ [node]) ++ [head] = ys ++ last :: node :: [head] := by
    rw [← List.cons_append, hys]
    simp
  have hmem : ∀ a ∈ ys ++ [last], a ≠ node := by
    intro a ha heq
    rw [← hys, heq] at ha
    exact hnode ha
  refine ⟨?_, ?_⟩
  · rw [hsplit, List.isChain_append_cons_cons]
    refine ⟨chain_congr hchain (fun a ha => ?_) (fun a ha => ?_), Links.linked_insert_before,
      List.isChain_pair.mpr (Links.linked_insert_after ?_ ?_)⟩
    · rw [List.dropLast_concat] at ha
      refine Links.insert_next_of_ne (hmem a (List.mem_append_left _ ha)) fun heq => ?_
      rw [hys, List.nodup_append] at hnodup
      exact hnodup.2.2 a ha last (List.mem_singleton_self _) heq
    · refine Links.insert_prev_of_ne (hmem a (List.mem_of_mem_tail ha)) fun heq => ?_
      rw [← hys, List.tail_cons] at ha
      exact (List.nodup_cons.mp hnodup).1 (heq ▸ ha)
    · exact (hmem last (List.mem_append_right _ (List.mem_singleton_self _))).symm
    · exact fun heq => hnode (heq ▸ List.mem_cons_self)
  · rw [← List.cons_append, List.nodup_append]
    refine ⟨hnodup, List.nodup_singleton _, fun a ha b hb heq => hnode ?_⟩
    rw [← List.mem_singleton.mp hb, ← heq]
    exact ha

/-- A node is taken out by making its neighbours each other's. -/
theorem IsRing.unlink {ys : List α} {node : α} (h : IsRing l head (xs ++ node :: ys)) :
    IsRing (l.unlink node) head (xs ++ ys) := by
  obtain ⟨us, a, hus⟩ := (List.eq_nil_or_concat' (head :: xs)).resolve_left (List.cons_ne_nil _ _)
  obtain ⟨b, vs, hvs⟩ := List.exists_cons_of_ne_nil (List.concat_ne_nil head ys)
  have hwhole : head :: (xs ++ node :: ys) ++ [head] = us ++ a :: node :: b :: vs := by
    rw [← List.cons_append, hus, ← hvs]
    simp
  have hrest : head :: (xs ++ ys) ++ [head] = us ++ a :: b :: vs := by
    rw [← List.cons_append, hus, ← hvs]
    simp
  have hchain := h.chain
  rw [hwhole, List.isChain_append_cons_cons, List.isChain_cons_cons] at hchain
  obtain ⟨hfront, ⟨-, hprev⟩, ⟨hnext, -⟩, hback⟩ := hchain
  have hnodup := h.nodup
  rw [← List.cons_append, List.nodup_append, List.nodup_cons (a := node)] at hnodup
  obtain ⟨hxs, ⟨-, hys⟩, hapart⟩ := hnodup
  unfold Links.unlink
  rw [hprev, hnext]
  have ha : a ∈ head :: xs := hus ▸ List.mem_append_right _ (List.mem_singleton_self a)
  have hb : b ∈ ys ++ [head] := hvs ▸ List.mem_cons_self
  refine ⟨?_, ?_⟩
  · rw [hrest, List.isChain_append_cons_cons]
    refine ⟨chain_congr hfront (fun c hc => ?_) (fun c hc => ?_), Links.linked_join,
      chain_congr hback (fun c hc => ?_) (fun c hc => ?_)⟩
    · rw [List.dropLast_concat] at hc
      refine Links.join_next_of_ne fun heq => ?_
      rw [hus, List.nodup_append] at hxs
      exact hxs.2.2 c hc a (List.mem_singleton_self _) heq
    · rw [← hus, List.tail_cons] at hc
      refine Links.join_prev_of_ne fun heq => ?_
      rcases List.mem_append.mp hb with hb | hb
      · exact hapart c (List.mem_cons_of_mem _ hc) b (List.mem_cons_of_mem _ hb) heq
      · rw [heq, List.mem_singleton.mp hb] at hc
        exact (List.nodup_cons.mp hxs).1 hc
    · rw [← hvs, List.dropLast_concat] at hc
      exact Links.join_next_of_ne fun heq =>
        hapart a ha c (List.mem_cons_of_mem _ hc) heq.symm
    · rw [List.tail_cons] at hc
      refine Links.join_prev_of_ne fun heq => ?_
      have hend : (ys ++ [head]).Nodup := by
        refine List.nodup_append.mpr ⟨hys, List.nodup_singleton _, fun y hy z hz heq => ?_⟩
        rw [List.mem_singleton.mp hz] at heq
        exact hapart head List.mem_cons_self y (List.mem_cons_of_mem _ hy) heq.symm
      rw [hvs] at hend
      exact (List.nodup_cons.mp hend).1 (heq ▸ hc)
  · rw [← List.cons_append, List.nodup_append]
    exact ⟨hxs, hys, fun x hx y hy => hapart x hx y (List.mem_cons_of_mem _ hy)⟩

/-- What `list_add_tail` writes to one ring no other ring reads. -/
theorem IsRing.addTail_apart (h : IsRing l head xs) {head' node : α} {ys : List α}
    (h' : IsRing l head' ys) (hapart : (head :: xs).Disjoint (head' :: ys))
    (hnode : node ∉ head' :: ys) : IsRing (l.addTail node head) head' ys := by
  refine h'.congr (fun a ha => ?_) (fun a ha => ?_)
  · exact Links.insert_next_of_ne (fun heq => hnode (heq ▸ ha)) fun heq =>
      hapart (h.prev_mem List.mem_cons_self) (heq ▸ ha)
  · exact Links.insert_prev_of_ne (fun heq => hnode (heq ▸ ha)) fun heq =>
      hapart List.mem_cons_self (heq ▸ ha)

/-- Neither does any read what is written to take a node out. -/
theorem IsRing.unlink_apart (h : IsRing l head xs) {head' node : α} {ys : List α}
    (h' : IsRing l head' ys) (hapart : (head :: xs).Disjoint (head' :: ys)) (hnode : node ∈ xs) :
    IsRing (l.unlink node) head' ys := by
  have hmem : node ∈ head :: xs := List.mem_cons_of_mem _ hnode
  refine h'.congr (fun a ha => ?_) (fun a ha => ?_)
  · exact Links.join_next_of_ne fun heq => hapart (h.prev_mem hmem) (heq ▸ ha)
  · exact Links.join_prev_of_ne fun heq => hapart (h.next_mem hmem) (heq ▸ ha)

end OneRing

/-! ## Many rings -/

/-- Every head has its list, and no two have a node in common. -/
structure Represents {ι α : Type*} (l : Links α) (head : ι → α) (lists : ι → List α) : Prop where
  ring : ∀ i, IsRing l (head i) (lists i)
  apart : ∀ i j, i ≠ j → (head i :: lists i).Disjoint (head j :: lists j)

section ManyRings

variable {ι α : Type*} {l : Links α} {head : ι → α} {lists : ι → List α}

/-- After `INIT_LIST_HEAD` every list is empty. -/
theorem represents_init (hinj : Function.Injective head) :
    Represents (.init α) head fun _ => [] := by
  refine ⟨fun i => ⟨List.isChain_pair.mpr ⟨rfl, rfl⟩, List.nodup_singleton _⟩, fun i j hij => ?_⟩
  exact List.disjoint_singleton.mpr fun hmem => hij (hinj (List.mem_singleton.mp hmem).symm)

variable [DecidableEq ι]

/-- One list changes: its ring is new, the others are as they were. -/
theorem Represents.update {l' : Links α} (h : Represents l head lists) {i : ι} {ys : List α}
    (hring : IsRing l' (head i) ys) (hother : ∀ j, j ≠ i → IsRing l' (head j) (lists j))
    (hapart : ∀ j, j ≠ i → (head i :: ys).Disjoint (head j :: lists j)) :
    Represents l' head (Function.update lists i ys) := by
  refine ⟨fun j => ?_, fun j k hjk => ?_⟩
  · rcases eq_or_ne j i with rfl | hj
    · rwa [Function.update_self]
    · rw [Function.update_of_ne hj]
      exact hother j hj
  · rcases eq_or_ne j i with rfl | hj
    · rw [Function.update_self, Function.update_of_ne hjk.symm]
      exact hapart k hjk.symm
    · rcases eq_or_ne k i with rfl | hk
      · rw [Function.update_self, Function.update_of_ne hj]
        exact List.disjoint_symm (hapart j hj)
      · rw [Function.update_of_ne hj, Function.update_of_ne hk]
        exact h.apart j k hjk

variable [DecidableEq α]

/-- `list_add_tail` of a node that is on no list. -/
theorem Represents.addTail (h : Represents l head lists) (i : ι) {node : α}
    (hnode : ∀ j, node ∉ head j :: lists j) :
    Represents (l.addTail node (head i)) head (Function.update lists i (lists i ++ [node])) := by
  refine h.update ((h.ring i).addTail (hnode i)) (fun j hj => ?_) (fun j hj => ?_)
  · exact (h.ring i).addTail_apart (h.ring j) (h.apart i j hj.symm) (hnode j)
  · rw [← List.cons_append, List.disjoint_append_left, List.singleton_disjoint]
    exact ⟨h.apart i j hj.symm, hnode j⟩

/-- `list_del` of a node of the list `i`; it is on no list then. -/
theorem Represents.unlink (h : Represents l head lists) {i : ι} {node : α}
    (hnode : node ∈ lists i) :
    Represents (l.unlink node) head (Function.update lists i ((lists i).erase node)) ∧
      ∀ j, node ∉ head j :: Function.update lists i ((lists i).erase node) j := by
  have hnodup := (h.ring i).nodup
  obtain ⟨hhead, hlist⟩ := List.nodup_cons.mp hnodup
  have hsub : head i :: (lists i).erase node ⊆ head i :: lists i :=
    List.cons_subset_cons _ List.erase_subset
  have hring : IsRing (l.unlink node) (head i) ((lists i).erase node) := by
    obtain ⟨xs, ys, hxs, hsplit, herase⟩ := List.exists_erase_eq hnode
    have hr := h.ring i
    rw [hsplit] at hr
    rw [herase]
    exact hr.unlink
  refine ⟨h.update hring (fun j hj => ?_) (fun j hj => ?_), fun j hmem => ?_⟩
  · exact (h.ring i).unlink_apart (h.ring j) (h.apart i j hj.symm) hnode
  · exact List.disjoint_of_subset_left hsub (h.apart i j hj.symm)
  · rcases eq_or_ne j i with rfl | hj
    · rw [Function.update_self] at hmem
      rcases List.mem_cons.mp hmem with rfl | hmem
      · exact hhead hnode
      · exact hlist.not_mem_erase hmem
    · rw [Function.update_of_ne hj] at hmem
      exact h.apart i j hj.symm (List.mem_cons_of_mem _ hnode) hmem

/-- `list_move_tail` of a node of the list `i` to another list. -/
theorem Represents.moveTail (h : Represents l head lists) {i j : ι} (hij : j ≠ i) {node : α}
    (hnode : node ∈ lists i) :
    Represents (l.moveTail node (head j)) head
      (Function.update (Function.update lists i ((lists i).erase node)) j (lists j ++ [node])) := by
  obtain ⟨hunlink, hfree⟩ := h.unlink hnode
  have hmove := hunlink.addTail j hfree
  rwa [Function.update_of_ne hij] at hmove

end ManyRings

end Circular
