/-
KernelElevator.Proc.BlockTheorems — the memory that `/proc/elevator` takes and
gives back.

An opening takes two blocks, `temp` and `message`. It frees `temp` itself; a
release frees what `message` points to then. But `message` is one pointer for
all the sessions. `Blocks` is the allocator with this pointer, and its three
operations are those of `Proc.File` with the blocks in place of the text:
they go wrong together, and leave `message` in the same condition
(`opens_pointee`, `reads_pointee`, `releases_pointee`).

Every block in use is within reach and no bad pointer is followed, if and only
if nobody opens the file while anybody has it open, and no opening gets only
one of its blocks (`blocks_kept_iff`).
-/
import KernelElevator.Proc.ReaderTheorems

namespace KernelElevator.Proc

open Transition

/-! ## §1 The allocator -/

/-- The blocks in use, the next one, and the static pointer `message`. -/
structure Blocks where
  live : List Nat
  next : Nat
  message : Option Nat
  deriving DecidableEq, Repr

namespace Blocks

def kmalloc (b : Blocks) : Kmalloc → Option Nat × Blocks
  | .null => (none, b)
  | .node => (some b.next, { b with live := b.next :: b.live, next := b.next + 1 })

/-- `kfree` does nothing with a null pointer; any other one has to be that of
a block in use. -/
def kfree (b : Blocks) : Option Nat → Option Blocks
  | none => some b
  | some a => if a ∈ b.live then some { b with live := b.live.erase a } else none

/-- `elevator_proc_open`. -/
def opens (temp message : Kmalloc) (b : Blocks) : Option (Int × Blocks) :=
  let (temp, b) := b.kmalloc temp
  let (message, b) := b.kmalloc message
  let b := { b with message }
  match message with
  | none => some (-enomem, b)
  | some _ =>
    match temp with
    | none => none
    | some a => (b.kfree (some a)).map fun b => (0, b)

/-- `elevator_proc_read`. -/
def reads (b : Blocks) : Option Blocks :=
  match b.message with
  | none => none
  | some a => if a ∈ b.live then some b else none

/-- `elevator_proc_release`. -/
def releases (b : Blocks) : Option Blocks := b.kfree b.message

/-- A block is in use once, and the next one is a new one. -/
structure Wf (b : Blocks) : Prop where
  nodup : b.live.Nodup
  lt_next : ∀ a ∈ b.live, a < b.next

theorem Wf.kmalloc {b : Blocks} (h : b.Wf) (k : Kmalloc) : (b.kmalloc k).2.Wf := by
  cases k with
  | null => exact h
  | node =>
    refine ⟨List.nodup_cons.mpr ⟨fun hmem => Nat.lt_irrefl _ (h.lt_next _ hmem), h.nodup⟩, ?_⟩
    exact List.forall_mem_cons.mpr
      ⟨Nat.lt_succ_self _, fun a ha => Nat.lt_succ_of_lt (h.lt_next a ha)⟩

theorem Wf.kfree {b b' : Blocks} (h : b.Wf) {a : Option Nat} (hfree : b.kfree a = some b') :
    b'.Wf := by
  cases a with
  | none =>
    cases hfree
    exact h
  | some a =>
    rw [Blocks.kfree] at hfree
    split at hfree
    · cases hfree
      exact ⟨h.nodup.erase a, fun x hx => h.lt_next x (List.mem_of_mem_erase hx)⟩
    · cases hfree

/-- With memory for both the opening keeps the second block. -/
theorem opens_node (b : Blocks) :
    b.opens .node .node
      = some (0, ⟨(b.next + 1) :: b.live, b.next + 2, some (b.next + 1)⟩) := by
  simp [opens, kmalloc, kfree]

theorem reads_eq_some {b b' : Blocks} :
    b.reads = some b' ↔ b' = b ∧ ∃ a ∈ b.live, b.message = some a := by
  obtain ⟨live, next, message⟩ := b
  cases message with
  | none => simp [reads]
  | some a => simp [reads, eq_comm, and_comm]

theorem Wf.opens {b b' : Blocks} (h : b.Wf) {temp message : Kmalloc} {result : Int}
    (hopen : b.opens temp message = some (result, b')) : b'.Wf := by
  cases message with
  | null =>
    cases hopen
    exact ⟨(h.kmalloc temp).nodup, (h.kmalloc temp).lt_next⟩
  | node =>
    cases temp with
    | null => cases hopen
    | node =>
      rw [opens_node] at hopen
      cases hopen
      refine ⟨List.nodup_cons.mpr ⟨fun hmem => ?_, h.nodup⟩, ?_⟩
      · have := h.lt_next _ hmem
        omega
      · exact List.forall_mem_cons.mpr
          ⟨Nat.lt_succ_self _, fun a ha => Nat.lt_add_right 2 (h.lt_next a ha)⟩

end Blocks

/-! ## §2 The pointer `message` -/

/-- What a pointer can lead to. -/
inductive Pointee where
  | nothing
  | gone
  | block
  deriving DecidableEq, Repr

def Message.pointee : Message → Pointee
  | .null => .nothing
  | .freed => .gone
  | .text _ => .block

def Blocks.pointee (b : Blocks) : Pointee :=
  match b.message with
  | none => .nothing
  | some a => if a ∈ b.live then .block else .gone

theorem opens_pointee (B : Building) (temp message : Kmalloc) (g : Globals) (b : Blocks) :
    (elevatorProcOpen B temp message g).map (fun r => (r.1, r.2.message.pointee))
      = (b.opens temp message).map fun r => (r.1, r.2.pointee) := by
  cases message with
  | null => rfl
  | node =>
    cases temp with
    | null => rfl
    | node =>
      rw [Blocks.opens_node]
      simp [elevatorProcOpen, Message.pointee, Blocks.pointee]

theorem pointee_eq_nothing {b : Blocks} : b.pointee = .nothing ↔ b.message = none := by
  obtain ⟨live, next, message⟩ := b
  cases message with
  | none => simp [Blocks.pointee]
  | some a => by_cases ha : a ∈ live <;> simp [Blocks.pointee, ha]

theorem pointee_eq_block {b : Blocks} : b.pointee = .block ↔ ∃ a ∈ b.live, b.message = some a := by
  obtain ⟨live, next, message⟩ := b
  cases message with
  | none => simp [Blocks.pointee]
  | some a => by_cases ha : a ∈ live <;> simp [Blocks.pointee, ha]

theorem pointee_eq_gone {b : Blocks} :
    b.pointee = .gone ↔ ∃ a, a ∉ b.live ∧ b.message = some a := by
  obtain ⟨live, next, message⟩ := b
  cases message with
  | none => simp [Blocks.pointee]
  | some a => by_cases ha : a ∈ live <;> simp [Blocks.pointee, ha]

theorem reads_pointee {f : ProcFile} {b : Blocks} (h : f.message.pointee = b.pointee)
    (size : Nat) :
    (elevatorProcRead size f).map (fun r => r.2.message.pointee) = b.reads.map Blocks.pointee := by
  obtain ⟨readP, message⟩ := f
  cases message with
  | null =>
    have hb := pointee_eq_nothing.mp h.symm
    simp [elevatorProcRead, Blocks.reads, hb]
  | freed =>
    obtain ⟨a, ha, hb⟩ := pointee_eq_gone.mp h.symm
    simp [elevatorProcRead, Blocks.reads, hb, ha]
  | text m =>
    have hp := h.symm
    have hread : b.reads = some b := Blocks.reads_eq_some.mpr ⟨rfl, pointee_eq_block.mp hp⟩
    rw [hread, Option.map_some, hp]
    cases readP <;> rfl

theorem releases_pointee {f : ProcFile} {b : Blocks} (hwf : b.Wf)
    (h : f.message.pointee = b.pointee) :
    (elevatorProcRelease f).map (fun r => r.2.message.pointee)
      = b.releases.map Blocks.pointee := by
  obtain ⟨readP, message⟩ := f
  cases message with
  | null =>
    have hb := pointee_eq_nothing.mp h.symm
    have hrelease : b.releases = some b := by simp [Blocks.releases, Blocks.kfree, hb]
    rw [hrelease]
    exact congrArg some h
  | freed =>
    obtain ⟨a, ha, hb⟩ := pointee_eq_gone.mp h.symm
    simp [elevatorProcRelease, Blocks.releases, Blocks.kfree, hb, ha]
  | text m =>
    obtain ⟨a, ha, hb⟩ := pointee_eq_block.mp h.symm
    have hgone : a ∉ b.live.erase a := hwf.nodup.not_mem_erase
    simp [elevatorProcRelease, Blocks.releases, Blocks.kfree, Blocks.pointee, Message.pointee, hb,
      ha, hgone]

/-! ## §3 The sessions -/

/-- The sessions of `/proc/elevator`, with the memory; `blocks` is `none` once
a bad pointer has been followed. -/
structure Holders where
  readers : Readers
  blocks : Option Blocks

def Holders.step (B : Building) (s : Holders) (l : ReaderLabel) : Holders where
  readers := s.readers.step B l
  blocks :=
    match l with
    | .module _ => s.blocks
    | .opens t temp message =>
      match s.readers.sessions t with
      | .opened _ _ => s.blocks
      | .closed => (s.blocks.bind (Blocks.opens temp message)).map Prod.snd
    | .reads t _ =>
      match s.readers.sessions t with
      | .closed => s.blocks
      | .opened _ _ => s.blocks.bind Blocks.reads
    | .releases t =>
      match s.readers.sessions t with
      | .closed => s.blocks
      | .opened _ _ => s.blocks.bind Blocks.releases

def holders (B : Building) : Machine Holders ReaderLabel where
  init := ⟨(readers B).init, some ⟨[], 0, none⟩⟩
  step := Holders.step B

/-- The two views of `message` agree. -/
structure Holders.Inv (s : Holders) : Prop where
  pointee : s.readers.file.map (fun f => f.message.pointee) = s.blocks.map Blocks.pointee
  wf : ∀ b, s.blocks = some b → b.Wf

theorem file_opens (B : Building) (s : Readers) (t : Nat) (temp message : Kmalloc) :
    (s.opens B t temp message).file
      = (s.file.bind fun _ => elevatorProcOpen B temp message s.sys.g).map Prod.snd := by
  unfold Readers.opens
  split
  next hnone => rw [hnone]; rfl
  next result f hsome =>
    rw [hsome]
    split <;> rfl

/-- Either both views know `message`, or neither does. -/
theorem Holders.Inv.cases {s : Holders} (h : s.Inv) :
    (s.readers.file = none ∧ s.blocks = none) ∨ ∃ f b, s.readers.file = some f ∧
      s.blocks = some b ∧ f.message.pointee = b.pointee ∧ b.Wf := by
  have hp := h.pointee
  cases hfile : s.readers.file with
  | none =>
    rw [hfile, Option.map_none, eq_comm, Option.map_eq_none_iff] at hp
    exact .inl ⟨rfl, hp⟩
  | some f =>
    rw [hfile, Option.map_some, eq_comm, Option.map_eq_some_iff] at hp
    obtain ⟨b, hb, hpb⟩ := hp
    exact .inr ⟨f, b, rfl, hb, hpb.symm, h.wf b hb⟩

theorem holdersInv_opens {B : Building} {s : Holders} (h : s.Inv) (t : Nat)
    (temp message : Kmalloc) :
    Holders.Inv ⟨s.readers.opens B t temp message,
      (s.blocks.bind (Blocks.opens temp message)).map Prod.snd⟩ := by
  rcases h.cases with ⟨hfile, hb⟩ | ⟨f, b, hfile, hb, hp, hwf⟩
  · refine ⟨?_, fun b' hb' => ?_⟩
    · simp [file_opens, hfile, hb]
    · simp [hb] at hb'
  · have hopen := congrArg (Option.map Prod.snd) (opens_pointee B temp message s.readers.sys.g b)
    rw [Option.map_map, Option.map_map] at hopen
    refine ⟨?_, fun b' hb' => ?_⟩
    · simp only [file_opens, hfile, hb, Option.bind_some, Option.map_map]
      exact hopen
    · simp only [hb, Option.bind_some] at hb'
      obtain ⟨r, hr, rfl⟩ := Option.map_eq_some_iff.mp hb'
      exact hwf.opens hr

theorem Holders.Inv.step {B : Building} {s : Holders} (h : s.Inv) (l : ReaderLabel) :
    (s.step B l).Inv := by
  cases l with
  | module l => exact ⟨h.pointee, h.wf⟩
  | opens t temp message =>
    simp only [Holders.step, Readers.step]
    cases s.readers.sessions t with
    | opened own n => exact h
    | closed => exact holdersInv_opens h t temp message
  | reads t size =>
    simp only [Holders.step, Readers.step]
    cases s.readers.sessions t with
    | closed => exact h
    | opened own n =>
      rcases h.cases with ⟨hfile, hb⟩ | ⟨f, b, hfile, hb, hp, hwf⟩
      · exact ⟨by simp [hfile, hb], by simp [hb]⟩
      · refine ⟨?_, fun b' hb' => ?_⟩
        · simp only [hfile, hb, Option.bind_some, Option.map_map]
          exact reads_pointee hp size
        · simp only [hb, Option.bind_some, Blocks.reads_eq_some] at hb'
          exact hb'.1 ▸ hwf
  | releases t =>
    simp only [Holders.step, Readers.step]
    cases s.readers.sessions t with
    | closed => exact h
    | opened own n =>
      rcases h.cases with ⟨hfile, hb⟩ | ⟨f, b, hfile, hb, hp, hwf⟩
      · exact ⟨by simp [hfile, hb], by simp [hb]⟩
      · refine ⟨?_, fun b' hb' => ?_⟩
        · simp only [hfile, hb, Option.bind_some, Option.map_map]
          exact releases_pointee hwf hp
        · simp only [hb, Option.bind_some] at hb'
          exact hwf.kfree hb'

/-- No bad pointer has been followed, and every block in use is the one that
`message` points to. -/
def Kept (s : Holders) : Prop :=
  s.readers.file.isSome ∧ ∀ b, s.blocks = some b → ∀ a ∈ b.live, b.message = some a

/-- An opening comes while nobody has the file open, and gets both blocks or
none. -/
def Alone (s : Holders) : ReaderLabel → Prop
  | .opens t temp message =>
    s.readers.sessions t = .closed → (∀ u, s.readers.sessions u = .closed) ∧ temp = message
  | _ => True

/-- Nobody has the file open and nothing is in use, or one session has it open
and `message` is all that is. -/
inductive Single (s : Holders) : Prop
  | idle {b : Blocks} (hb : s.blocks = some b) (hclosed : ∀ u, s.readers.sessions u = .closed)
      (hlive : b.live = [])
  | busy {b : Blocks} (hb : s.blocks = some b) {t a : Nat}
      (hopen : s.readers.sessions t ≠ .closed)
      (hclosed : ∀ u, u ≠ t → s.readers.sessions u = .closed)
      (hmessage : b.message = some a) (hlive : b.live = [a])

theorem file_isSome_iff {s : Holders} (h : s.Inv) :
    s.readers.file.isSome ↔ ∃ b, s.blocks = some b := by
  rcases h.cases with ⟨hfile, hb⟩ | ⟨f, b, hfile, hb, -⟩
  · simp [hfile, hb]
  · simp [hfile, hb]

theorem Single.kept {s : Holders} (h : Single s) (hinv : s.Inv) : Kept s := by
  cases h with
  | idle hb hclosed hlive =>
    refine ⟨(file_isSome_iff hinv).mpr ⟨_, hb⟩, fun b' hb' a ha => ?_⟩
    obtain rfl := Option.some.inj (hb.symm.trans hb')
    rw [hlive] at ha
    cases ha
  | busy hb hopen hclosed hmessage hlive =>
    refine ⟨(file_isSome_iff hinv).mpr ⟨_, hb⟩, fun b' hb' a ha => ?_⟩
    obtain rfl := Option.some.inj (hb.symm.trans hb')
    rw [hlive, List.mem_singleton] at ha
    rw [hmessage, ha]

/-- With nothing in use nobody has the file open. -/
theorem Single.closed {s : Holders} (h : Single s) {b : Blocks} (hb : s.blocks = some b)
    (hlive : b.live = []) : ∀ u, s.readers.sessions u = .closed := by
  cases h with
  | idle hb' hclosed hlive' => exact hclosed
  | busy hb' hopen hclosed hmessage hlive' =>
    obtain rfl := Option.some.inj (hb.symm.trans hb')
    rw [hlive] at hlive'
    cases hlive'

/-- A session that opens the file or reads it, while the others have it
closed. -/
theorem Single.update {s s' : Holders} {t n : Nat} {own : String} {b : Blocks}
    (hb : s'.blocks = some b)
    (hsessions : s'.readers.sessions = Function.update s.readers.sessions t (.opened own n))
    (hclosed : ∀ u, u ≠ t → s.readers.sessions u = .closed) {a : Nat}
    (hmessage : b.message = some a) (hlive : b.live = [a]) : Single s' := by
  refine .busy hb (t := t) ?_ (fun u hu => ?_) hmessage hlive
  · rw [hsessions, Function.update_self]
    exact Session.noConfusion
  · rw [hsessions, Function.update_of_ne hu]
    exact hclosed u hu

/-- An opening by a session that has not opened the file. -/
theorem blocks_opens {B : Building} {s : Holders} {t : Nat} (ht : s.readers.sessions t = .closed)
    {b : Blocks} (hb : s.blocks = some b) (temp message : Kmalloc) :
    (s.step B (.opens t temp message)).blocks = (b.opens temp message).map Prod.snd := by
  simp only [Holders.step, ht, hb, Option.bind_some]

theorem sessions_opens {B : Building} {s : Holders} {t : Nat} (ht : s.readers.sessions t = .closed)
    (hfile : s.readers.file.isSome) :
    (s.step B (.opens t .node .node)).readers.sessions = Function.update s.readers.sessions t
        (.opened ((report B s.readers.sys.g).text B) 0) ∧
      (s.step B (.opens t .null .null)).readers.sessions = s.readers.sessions := by
  obtain ⟨f, hf⟩ := Option.isSome_iff_exists.mp hfile
  constructor <;>
    simp [Holders.step, Readers.step, Readers.opens, ht, hf, elevatorProcOpen, enomem]

/-- Alone a session keeps the memory in order. -/
theorem Single.opens {B : Building} {s : Holders} (h : Single s) (hinv : s.Inv) {t : Nat}
    (ht : s.readers.sessions t = .closed) {k : Kmalloc}
    (hall : ∀ u, s.readers.sessions u = .closed) : Single (s.step B (.opens t k k)) := by
  cases h with
  | busy hb hopen hclosed hmessage hlive => exact absurd (hall _) hopen
  | @idle b hb hclosed hlive =>
    have hblocks := blocks_opens (B := B) ht hb k k
    obtain ⟨hopened, hfailed⟩ := sessions_opens (B := B) ht ((file_isSome_iff hinv).mpr ⟨_, hb⟩)
    cases k with
    | null =>
      refine .idle hblocks (fun u => ?_) hlive
      rw [hfailed]
      exact hall u
    | node =>
      rw [Blocks.opens_node, Option.map_some, hlive] at hblocks
      exact .update hblocks hopened (fun u _ => hall u) rfl rfl

/-- The session that has the file open is the one. -/
theorem Single.of_opened {s : Holders} (h : Single s) {t : Nat}
    (ht : s.readers.sessions t ≠ .closed) :
    ∃ b a, s.blocks = some b ∧ b.message = some a ∧ b.live = [a] ∧
      ∀ u, u ≠ t → s.readers.sessions u = .closed := by
  cases h with
  | idle hb hclosed hlive => exact absurd (hclosed t) ht
  | @busy b hb t' a hopen hclosed hmessage hlive =>
    obtain rfl : t = t' := by
      by_contra hne
      exact ht (hclosed t hne)
    exact ⟨b, a, hb, hmessage, hlive, hclosed⟩

theorem Single.reads {B : Building} {s : Holders} (h : Single s) {t : Nat} {own : String} {n : Nat}
    (ht : s.readers.sessions t = .opened own n) (size : Nat) :
    Single (s.step B (.reads t size)) := by
  obtain ⟨b, a, hb, hmessage, hlive, hclosed⟩ := h.of_opened (t := t) (by simp [ht])
  have hread : b.reads = some b := Blocks.reads_eq_some.mpr ⟨rfl, a, by simp [hlive], hmessage⟩
  have hblocks : (s.step B (.reads t size)).blocks = some b := by
    simp only [Holders.step, ht, hb, Option.bind_some, hread]
  have hsessions : (s.step B (.reads t size)).readers.sessions
      = Function.update s.readers.sessions t (.opened own (n + 1)) := by
    simp only [Holders.step, Readers.step, ht]
  exact .update hblocks hsessions hclosed hmessage hlive

theorem Single.releases {B : Building} {s : Holders} (h : Single s) {t : Nat} {own : String}
    {n : Nat} (ht : s.readers.sessions t = .opened own n) : Single (s.step B (.releases t)) := by
  obtain ⟨b, a, hb, hmessage, hlive, hclosed⟩ := h.of_opened (t := t) (by simp [ht])
  have hrelease : b.releases = some { b with live := [] } := by
    simp [Blocks.releases, Blocks.kfree, hmessage, hlive]
  have hblocks : (s.step B (.releases t)).blocks = some { b with live := [] } := by
    simp only [Holders.step, ht, hb, Option.bind_some, hrelease]
  refine .idle hblocks (fun u => ?_) rfl
  simp only [Holders.step, Readers.step, ht]
  by_cases hu : u = t
  · subst hu
    rw [Function.update_self]
  · rw [Function.update_of_ne hu]
    exact hclosed u hu

theorem Single.step {B : Building} {s : Holders} (h : Single s) (hinv : s.Inv) {l : ReaderLabel}
    (halone : Alone s l) : Single (s.step B l) := by
  cases l with
  | module l =>
    cases h with
    | idle hb hclosed hlive => exact .idle hb hclosed hlive
    | busy hb hopen hclosed hmessage hlive => exact .busy hb hopen hclosed hmessage hlive
  | opens t temp message =>
    cases ht : s.readers.sessions t with
    | opened own n =>
      have hstep : s.step B (.opens t temp message) = s := by
        simp only [Holders.step, Readers.step, ht]
      rwa [hstep]
    | closed =>
      obtain ⟨hall, rfl⟩ := halone ht
      exact h.opens hinv ht hall
  | reads t size =>
    cases ht : s.readers.sessions t with
    | closed =>
      have hstep : s.step B (.reads t size) = s := by
        simp only [Holders.step, Readers.step, ht]
      rwa [hstep]
    | opened own n => exact h.reads ht size
  | releases t =>
    cases ht : s.readers.sessions t with
    | closed =>
      have hstep : s.step B (.releases t) = s := by
        simp only [Holders.step, Readers.step, ht]
      rwa [hstep]
    | opened own n => exact h.releases ht

/-- An opening that loses nothing finds nothing in use, and gets both blocks or
none. -/
theorem opens_kept {b b' : Blocks} (hwf : b.Wf) {temp message : Kmalloc} {result : Int}
    (hopen : b.opens temp message = some (result, b'))
    (hkept : ∀ a ∈ b'.live, b'.message = some a) : b.live = [] ∧ temp = message := by
  cases message with
  | null =>
    cases hopen
    have hnone : (b.kmalloc temp).2.live = [] :=
      List.eq_nil_iff_forall_not_mem.mpr fun a ha => by cases hkept a ha
    cases temp with
    | null => exact ⟨hnone, rfl⟩
    | node => cases hnone
  | node =>
    cases temp with
    | null => cases hopen
    | node =>
      rw [Blocks.opens_node] at hopen
      cases hopen
      refine ⟨List.eq_nil_iff_forall_not_mem.mpr fun a ha => ?_, rfl⟩
      have hlt := hwf.lt_next a ha
      have hlast := Option.some.inj (hkept a (List.mem_cons_of_mem _ ha))
      omega

/-- Not alone it loses a block, or follows a bad pointer. -/
theorem Single.alone {B : Building} {s : Holders} (h : Single s) (hinv : s.Inv) {l : ReaderLabel}
    (hkept : Kept (s.step B l)) : Alone s l := by
  cases l with
  | module l => trivial
  | reads t size => trivial
  | releases t => trivial
  | opens t temp message =>
    intro ht
    obtain ⟨b, hb⟩ := (file_isSome_iff hinv).mp (h.kept hinv).1
    obtain ⟨b', hb'⟩ := (file_isSome_iff (hinv.step _)).mp hkept.1
    have hrest := hkept.2 b' hb'
    rw [blocks_opens ht hb, Option.map_eq_some_iff] at hb'
    obtain ⟨⟨result, b''⟩, hopen, rfl⟩ := hb'
    obtain ⟨hnone, heq⟩ := opens_kept (hinv.wf b hb) hopen hrest
    exact ⟨h.closed hb hnone, heq⟩

/-- **When the memory is kept**: along a run of any number of sessions, with
any memory for their openings, at every moment every block is within reach of
`message` and no bad pointer has been followed, if and only if every opening
comes while nobody has the file open and gets both of its blocks or none. -/
theorem blocks_kept_iff (B : Building) (ls : List ReaderLabel) :
    (∀ pre, pre <+: ls → Kept ((holders B).run (holders B).init pre))
      ↔ (holders B).Along Alone (holders B).init ls := by
  have hinit : Holders.Inv (holders B).init :=
    ⟨rfl, fun b hb => by
      cases hb
      exact ⟨List.nodup_nil, fun a ha => by cases ha⟩⟩
  refine (holders B).along_iff_of_shown (P := fun s => s.Inv ∧ Single s)
    (fun s h => h.2.kept h.1) (fun s l h halone => ⟨h.1.step l, h.2.step h.1 halone⟩)
    (fun s l h hkept => h.2.alone h.1 hkept) ls _ ⟨hinit, ?_⟩
  exact .idle rfl (fun _ => rfl) rfl

end KernelElevator.Proc
