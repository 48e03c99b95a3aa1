/-
KernelElevator.Proc.ReaderTheorems — several readers of `/proc/elevator` at
the same time.

`Readers` is the module with any number of sessions, each of which opens the
file, reads it, and releases it; every operation is one step. All sessions
share `message` and `read_p`, so what a read gives depends on everything
that was done since the latest opening, whoever did it: `Latest` keeps that
much of the history, and `Readers.Inv` says how the two statics follow from
it. The reads of a session are its own if and only if nobody gets between
the opening and the reads (`readers_isolated_iff`).
-/
import KernelElevator.Proc.File
import KernelElevator.Module.System

namespace KernelElevator.Proc

open Transition

variable (B : Building)

/-! ## §1 The sessions -/

/-- One session: the report its opening has made, and how often it has read. -/
inductive Session where
  | closed
  | opened (own : String) (reads : Nat)
  deriving DecidableEq, Repr

/-- What has been done with the file since the latest opening of it: the
report, if there was memory for it, the number of reads, and whether anybody
has released the file. -/
structure Latest where
  report : Option String
  reads : Nat
  released : Bool
  deriving DecidableEq, Repr

/-- The report that there is to read: none if the latest opening had no
memory, or if somebody has released the file since. -/
def Latest.current (l : Latest) : Option String := if l.released then none else l.report

/-- The module and the sessions. `file` is `none` once an operation has
followed a bad pointer: after that nothing is known of the two statics. -/
structure Readers where
  sys : Sys
  file : Option ProcFile
  sessions : Nat → Session
  latest : Latest

inductive ReaderLabel where
  | module (l : Label)
  | opens (t : Nat) (temp message : Kmalloc)
  | reads (t size : Nat)
  | releases (t : Nat)
  deriving DecidableEq, Repr

/-- Session `t` opens the file; if that fails the session does not begin. -/
def Readers.opens (s : Readers) (t : Nat) (temp message : Kmalloc) : Readers :=
  match s.file.bind fun _ => elevatorProcOpen B temp message s.sys.g with
  | none => { s with file := none }
  | some (result, f) =>
    if result = 0 then
      let own := (report B s.sys.g).text B
      { s with
        file := some f
        sessions := Function.update s.sessions t (.opened own 0)
        latest := ⟨some own, 0, false⟩ }
    else { s with file := some f, latest := ⟨none, 0, false⟩ }

/-- What a read gives now. -/
def Readers.readResult (s : Readers) (size : Nat) : Option ReadResult :=
  (s.file.bind (elevatorProcRead size)).map Prod.fst

def Readers.step (s : Readers) : ReaderLabel → Readers
  | .module l => { s with sys := s.sys.step B l }
  | .opens t temp message =>
    match s.sessions t with
    | .opened _ _ => s
    | .closed => s.opens B t temp message
  | .reads t size =>
    match s.sessions t with
    | .closed => s
    | .opened own n => { s with
        file := (s.file.bind (elevatorProcRead size)).map Prod.snd
        sessions := Function.update s.sessions t (.opened own (n + 1))
        latest := { s.latest with reads := s.latest.reads + 1 } }
  | .releases t =>
    match s.sessions t with
    | .closed => s
    | .opened _ _ => { s with
        file := (s.file.bind elevatorProcRelease).map Prod.snd
        sessions := Function.update s.sessions t .closed
        latest := { s.latest with released := true } }

/-- The freshly loaded module, with the file not open. -/
def readers : Machine Readers ReaderLabel where
  init := ⟨loaded B, some ⟨false, .null⟩, fun _ => .closed, ⟨none, 0, false⟩⟩
  step := Readers.step B

/-! ## §2 Whose report is read -/

/-- If the step is the first read of a session, it gives the report that the
session's opening has made; if it is the second one, it gives nothing. -/
def ReadsOwn (s : Readers) : ReaderLabel → Prop
  | .reads t size =>
    match s.sessions t with
    | .closed => True
    | .opened own 0 => s.readResult size = some ⟨own.length, own⟩
    | .opened _ 1 => s.readResult size = some ⟨0, ""⟩
    | .opened _ _ => True
  | _ => True

/-- If the step is the first or second read of a session: no operation has
followed a bad pointer; the latest opening had the memory it needed, and
nobody has released the file since; and since then there have been an even
number of reads before a first read, when the report is also the session's
own, and an odd number before a second read. -/
def Undisturbed (s : Readers) : ReaderLabel → Prop
  | .reads t _ =>
    match s.sessions t with
    | .closed => True
    | .opened own 0 => s.file.isSome ∧ s.latest.current = some own ∧ s.latest.reads % 2 = 0
    | .opened _ 1 => s.file.isSome ∧ s.latest.current.isSome ∧ s.latest.reads % 2 = 1
    | .opened _ _ => True
  | _ => True

/-- The statics are those that the latest opening and the number of reads
since then make them, as long as there is a report to read. -/
structure Readers.Inv (s : Readers) : Prop where
  held : ∀ f m, s.file = some f → s.latest.current = some m →
    f = ⟨s.latest.reads % 2 = 0, .text m⟩
  gone : ∀ f m, s.file = some f → s.latest.current = none → f.message ≠ .text m
  current_ne : s.latest.current ≠ some ""
  own_ne : ∀ t n, s.sessions t ≠ .opened "" n

variable {B}

/-- A session that changes keeps its report, or has one that is not empty, or
ends. -/
theorem own_ne_update {sessions : Nat → Session} (h : ∀ t n, sessions t ≠ .opened "" n) (t : Nat)
    {session : Session} (hs : ∀ n, session ≠ .opened "" n) (t' n : Nat) :
    Function.update sessions t session t' ≠ .opened "" n := by
  by_cases ht : t' = t
  · subst ht
    rw [Function.update_self]
    exact hs n
  · rw [Function.update_of_ne ht]
    exact h t' n

theorem not_even (n : Nat) : (!decide (n % 2 = 0)) = decide ((n + 1) % 2 = 0) := by
  grind

theorem read_of_some {s : Readers} {size : Nat} {r : ReadResult} {f' : ProcFile}
    (h : s.file.bind (elevatorProcRead size) = some (r, f')) :
    ∃ f m, s.file = some f ∧ f.message = .text m ∧
      r = (if f.readP then ⟨m.length, m⟩ else ⟨0, ""⟩) ∧ f' = { f with readP := !f.readP } := by
  obtain ⟨f, hfile, hread⟩ := Option.bind_eq_some_iff.mp h
  obtain ⟨m, hm, hr, hf⟩ := elevatorProcRead_eq_some.mp hread
  exact ⟨f, m, hfile, hm, hr, hf⟩

/-- After a fault the invariant says nothing of the statics. -/
theorem Readers.Inv.fault {s : Readers} (h : s.Inv) : ({ s with file := none } : Readers).Inv where
  held f m hf := by cases hf
  gone f m hf := by cases hf
  current_ne := h.current_ne
  own_ne := h.own_ne

theorem Readers.Inv.opens {s : Readers} (h : s.Inv) (t : Nat) (temp message : Kmalloc) :
    (s.opens B t temp message).Inv := by
  unfold Readers.opens
  cases s.file with
  | none => exact h.fault
  | some f =>
    cases message with
    | null =>
      refine ⟨fun f m _ hm => ?_, fun f m hf _ => ?_, ?_, h.own_ne⟩
      · cases hm
      · obtain rfl := Option.some.inj hf
        exact Message.noConfusion
      · intro hempty
        cases hempty
    | node =>
      cases temp with
      | null => exact h.fault
      | node =>
        have hne : (report B s.sys.g).text B ≠ "" := text_ne_empty _
        refine ⟨fun f m hf hm => ?_, fun f m _ hnone => ?_, ?_, ?_⟩
        · obtain rfl := Option.some.inj hf
          obtain rfl := Option.some.inj hm
          rfl
        · cases hnone
        · exact fun hempty => hne (Option.some.inj hempty)
        · exact own_ne_update h.own_ne t fun n hown => hne (Session.opened.inj hown).1

theorem Readers.Inv.step {s : Readers} (h : s.Inv) (l : ReaderLabel) : (s.step B l).Inv := by
  cases l with
  | module l => exact ⟨h.held, h.gone, h.current_ne, h.own_ne⟩
  | opens t temp message =>
    simp only [Readers.step]
    split
    · exact h
    · exact h.opens t temp message
  | reads t size =>
    simp only [Readers.step]
    split
    · exact h
    · next own n hs =>
        refine ⟨fun f' m hf hm => ?_, fun f' m hf hnone hm => ?_, h.current_ne,
          own_ne_update h.own_ne t fun k hown => h.own_ne t n ?_⟩
        · -- the text stays, `read_p` and the number of reads turn together
          obtain ⟨⟨r, f'⟩, hread, rfl⟩ := Option.map_eq_some_iff.mp hf
          obtain ⟨f, _, hfile, _, _, rfl⟩ := read_of_some hread
          obtain rfl := h.held f m hfile hm
          exact congrArg (fun readP => ProcFile.mk readP (.text m)) (not_even _)
        · -- there was no text to read
          obtain ⟨⟨r, f'⟩, hread, rfl⟩ := Option.map_eq_some_iff.mp hf
          obtain ⟨f, m', hfile, hm', _, rfl⟩ := read_of_some hread
          exact h.gone f m' hfile hnone hm'
        · rw [hs, (Session.opened.inj hown).1]
  | releases t =>
    simp only [Readers.step]
    split
    · exact h
    · next own n hs =>
        refine ⟨fun f' m _ hm => ?_, fun f' m hf _ => ?_, fun hempty => ?_,
          own_ne_update h.own_ne t fun k hclosed => ?_⟩
        · cases hm
        · obtain ⟨⟨result, f''⟩, hbind, rfl⟩ := Option.map_eq_some_iff.mp hf
          obtain ⟨f, -, hrelease⟩ := Option.bind_eq_some_iff.mp hbind
          exact elevatorProcRelease_message hrelease m
        · cases hempty
        · cases hclosed

/-- What a read gives: the text of the latest opening at every other read,
and nothing in between. -/
theorem Readers.Inv.readResult_iff {s : Readers} (h : s.Inv) (size : Nat) (r : ReadResult) :
    s.readResult size = some r ↔ s.file.isSome ∧ ∃ m, s.latest.current = some m ∧
      r = if s.latest.reads % 2 = 0 then ⟨m.length, m⟩ else ⟨0, ""⟩ := by
  constructor
  · intro hread
    obtain ⟨⟨r', f'⟩, hf, rfl⟩ := Option.map_eq_some_iff.mp hread
    obtain ⟨f, m, hfile, hm, rfl, -⟩ := read_of_some hf
    cases hc : s.latest.current with
    | none => exact absurd hm (h.gone f m hfile hc)
    | some m' =>
      obtain rfl := h.held f m' hfile hc
      obtain rfl := Message.text.inj hm
      exact ⟨by rw [hfile]; rfl, m', rfl, by simp⟩
  · rintro ⟨hsome, m, hm, rfl⟩
    obtain ⟨f, hfile⟩ := Option.isSome_iff_exists.mp hsome
    obtain rfl := h.held f m hfile hm
    have hread : elevatorProcRead size ⟨s.latest.reads % 2 = 0, .text m⟩
        = some (if s.latest.reads % 2 = 0 then ⟨m.length, m⟩ else ⟨0, ""⟩,
          ⟨!(s.latest.reads % 2 = 0), .text m⟩) :=
      elevatorProcRead_eq_some.mpr ⟨m, rfl, by simp, rfl⟩
    rw [Readers.readResult, hfile, Option.bind_some, hread]
    rfl

theorem result_ne {m : String} (h : m ≠ "") : (⟨m.length, m⟩ : ReadResult) ≠ ⟨0, ""⟩ :=
  fun heq => h (ReadResult.mk.inj heq).2

theorem readsOwn_iff {s : Readers} (h : s.Inv) (l : ReaderLabel) :
    ReadsOwn s l ↔ Undisturbed s l := by
  cases l with
  | reads t size =>
    cases hs : s.sessions t with
    | closed => simp [ReadsOwn, Undisturbed, hs]
    | opened own n =>
      have hown : own ≠ "" := by
        rintro rfl
        exact h.own_ne t n hs
      match n with
      | 0 =>
        simp only [ReadsOwn, Undisturbed, hs, h.readResult_iff]
        refine and_congr_right fun _ => ?_
        constructor
        · rintro ⟨m, hm, hr⟩
          split at hr
          · next heven => exact ⟨hm.trans (congrArg some (ReadResult.mk.inj hr).2.symm), heven⟩
          · exact absurd hr (result_ne hown)
        · rintro ⟨hm, heven⟩
          exact ⟨own, hm, (if_pos heven).symm⟩
      | 1 =>
        simp only [ReadsOwn, Undisturbed, hs, h.readResult_iff]
        refine and_congr_right fun _ => ?_
        constructor
        · rintro ⟨m, hm, hr⟩
          split at hr
          · have hne : m ≠ "" := by
              rintro rfl
              exact h.current_ne hm
            exact absurd hr.symm (result_ne hne)
          · next hodd => exact ⟨by rw [hm]; rfl, by omega⟩
        · rintro ⟨hsome, hodd⟩
          obtain ⟨m, hm⟩ := Option.isSome_iff_exists.mp hsome
          exact ⟨m, hm, (if_neg (by omega)).symm⟩
      | n + 2 => simp [ReadsOwn, Undisturbed, hs]
  | _ => exact Iff.rfl

theorem readers_init : (readers B).init.Inv where
  held f m _ hm := by cases hm
  gone f m hf _ := by
    obtain rfl := Option.some.inj hf
    exact Message.noConfusion
  current_ne h := by cases h
  own_ne t n h := by cases h

/-- **The readers of `/proc/elevator` are isolated** if and only if they do
not disturb each other: along a run every first read gives the session's own
report and every second read the end of the file, exactly if no read of the
run comes after an opening, a release or a wrong number of reads by others. -/
theorem readers_isolated_iff (B : Building) (ls : List ReaderLabel) :
    (readers B).Along ReadsOwn (readers B).init ls
      ↔ (readers B).Along Undisturbed (readers B).init ls :=
  (readers B).along_iff_of_inv (P := Readers.Inv) (fun _ l h => h.step l)
    (fun _ l h => readsOwn_iff h l) ls _ readers_init

/-- Two sessions open the file and one of them reads it: then the first read
of the other finds the end of the file. -/
theorem readers_not_isolated :
    ¬ ∀ ls, (readers .source).Along ReadsOwn (readers .source).init ls := by
  intro h
  have hall := h [.opens 0 .node .node, .opens 1 .node .node, .reads 0 4096, .reads 1 4096]
  let own := (report .source (loaded .source).g).text .source
  have hread : some ⟨0, ""⟩ = some (⟨own.length, own⟩ : ReadResult) := hall.2.2.2.1
  exact result_ne (text_ne_empty _) (Option.some.inj hread).symm

end KernelElevator.Proc
