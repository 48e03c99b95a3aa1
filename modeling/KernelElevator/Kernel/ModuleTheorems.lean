/-
KernelElevator.Kernel.ModuleTheorems — the module while it is loaded, and
what is left of it.

  §1 From `setup_elevator` to the cleanup the module's memory is that of
     `Threads.threads` after the steps that the calls inside it and the
     scheduler thread have done since this `insmod`; what went on before,
     unloads, failed loads and calls without a module, makes no difference.
     So the shared data is right and the mutex excludes (`module_runs`), as
     long as `mutex_init` finds the mutex free.
  §2 No passenger record is ever left behind unfreed if and only if no
     `elevator_init` fails with a request already queued, the lock of the
     cleanup is not broken off with a record left, no request gets in after
     the cleanup, and the memory is not freed while a stop still has records
     on its `delete_list` (`records_returned_iff`).

The second result is about runs in which the mutex is never taken away from a
call in its locked section (`SectionsApart`): `mutex_init`, the unlock of a
cleanup whose lock was broken off, and the end of the memory could do that.
Where they do not, no two locked sections overlap (`sections_exclusive`), so
each of them can be one step.
-/
import KernelElevator.Kernel.StubTheorems
import KernelElevator.Machine.Simulation
import KernelElevator.Threads.SharedTheorems

namespace KernelElevator.Kernel

open Transition Threads

variable (B : Building)

/-! ## §1 A load -/

/-- From `setup_elevator` to the cleanup. -/
def Admin.runs : Admin → Bool
  | .setStub _ | .createProc | .startThread | .live | .clearStub _ | .stopThread | .removeLock =>
    true
  | _ => false

/-- What an event is for the threads of the module: a call begins, or it or
the scheduler does a step. -/
def Host.action (s : Host) : Event → Option Action
  | .scheduler => if s.admin.threadRuns then some .scheduler else none
  | .jump t =>
    match s.caller t with
    | .tested c => if s.Mapped (s.stub (syscallOf c)) then some (.invoke t c) else none
    | _ => none
  | .work t =>
    match s.caller t with
    | .inside _ load => if s.Mapped (some load) then some (.advance t) else none
    | _ => none
  | _ => none

/-- What the events are for the threads of the module. -/
def actions (s : Host) (es : List Event) : List Action :=
  ((kernel B).outputs Host.action s es).reduceOption

/-- No call holds the mutex when it is initialised. -/
def InitsFree (s : Host) : Event → Prop
  | .proceed _ => s.admin = .startThread → ∀ m ∈ s.module, m.mutex = none
  | _ => True

instance (s : Host) : (e : Event) → Decidable (InitsFree s e)
  | .proceed _ => inferInstanceAs (Decidable (_ → ∀ m ∈ s.module, m.mutex = none))
  | .insmod | .rmmod | .scheduler | .enter _ _ | .jump _ | .work _ | .back _ => .isTrue trivial

/-- The module's memory is `m`, from `setup_elevator` to the cleanup; before
that `m` is what `setup_elevator` will make of it. -/
structure Holds (s : Host) (m : State) : Prop where
  inv : s.Inv
  zeroed : s.admin = .setup → m = Threads.loaded B ∧ s.module = some placedModule
  runs : s.admin.runs = true → s.module = some m

/-- An event that is no line of `insmod` or `rmmod`. -/
def Event.ofThread : Event → Bool
  | .insmod | .rmmod | .proceed _ => false
  | _ => true

/-- All that a step of a thread changes of the module is what it does there. -/
structure Acts (s s' : Host) (a : Option Action) : Prop where
  admin : s'.admin = s.admin
  leaked : s'.leaked = s.leaked
  module : s'.module = s.module.map fun m => a.elim m (m.step B)

variable {B}

/-- A thread that only goes somewhere else leaves the module as it is. -/
theorem Acts.moveTo (s : Host) (t : Nat) (c : Caller) : Acts B s (s.moveTo t c) none :=
  ⟨rfl, rfl, Option.map_id'.symm⟩

theorem Acts.refl (s : Host) : Acts B s s none := ⟨rfl, rfl, Option.map_id'.symm⟩

theorem step_work (s : Host) (t : Nat) : Acts B s (s.step B (.work t)) (s.action (.work t)) := by
  cases hc : s.caller t with
  | inside c load =>
    cases hm : s.module with
    | none =>
      have haction : s.action (.work t) = none := by simp [Host.action, Host.Mapped, hc, hm]
      have hstep : s.step B (.work t) = s.moveTo t .outside := by simp [Host.step, hc, hm]
      rw [haction, hstep]
      exact .moveTo ..
    | some m =>
      by_cases hl : load = s.placed
      · have haction : s.action (.work t) = some (.advance t) := by
          simp [Host.action, Host.Mapped, hc, hm, hl]
        have hstep : s.step B (.work t) = (s.write fun m => m.step B (.advance t)).moveTo t
            (.on c load ((m.step B (.advance t)).calls t)) := by simp [Host.step, hc, hm, hl]
        rw [haction, hstep]
        exact ⟨rfl, rfl, rfl⟩
      · have haction : s.action (.work t) = none := by simp [Host.action, Host.Mapped, hc, hl]
        have hstep : s.step B (.work t) = s.moveTo t .outside := by simp [Host.step, hc, hm, hl]
        rw [haction, hstep]
        exact .moveTo ..
  | _ =>
    have haction : s.action (.work t) = none := by simp [Host.action, hc]
    have hstep : s.step B (.work t) = s := by simp [Host.step, hc]
    rw [haction, hstep]
    exact .refl s

theorem step_jump (s : Host) (t : Nat) : Acts B s (s.step B (.jump t)) (s.action (.jump t)) := by
  cases hc : s.caller t with
  | tested c =>
    by_cases hm : s.Mapped (s.stub (syscallOf c))
    · have haction : s.action (.jump t) = some (.invoke t c) := by simp [Host.action, hc, hm]
      have hstep : s.step B (.jump t)
          = (s.write fun m => m.step B (.invoke t c)).moveTo t (.inside c s.placed) := by
        simp [Host.step, hc, hm]
      rw [haction, hstep]
      exact ⟨rfl, rfl, rfl⟩
    · have haction : s.action (.jump t) = none := by simp [Host.action, hc, hm]
      have hstep : s.step B (.jump t) = s.moveTo t .outside := by simp [Host.step, hc, hm]
      rw [haction, hstep]
      exact .moveTo ..
  | _ =>
    have haction : s.action (.jump t) = none := by simp [Host.action, hc]
    have hstep : s.step B (.jump t) = s := by simp [Host.step, hc]
    rw [haction, hstep]
    exact .refl s

/-- What a thread does is its action in the module. -/
theorem step_acts (s : Host) {e : Event} (he : e.ofThread = true) :
    Acts B s (s.step B e) (s.action e) := by
  cases e with
  | work t => exact step_work s t
  | jump t => exact step_jump s t
  | scheduler =>
    simp only [Host.step, Host.action]
    split
    · exact ⟨rfl, rfl, rfl⟩
    · exact .refl s
  | enter t c =>
    simp only [Host.step, Host.action]
    split
    · split
      · exact .moveTo ..
      · exact .refl s
    · exact .refl s
  | back t =>
    simp only [Host.step, Host.action]
    split
    · exact .moveTo ..
    · exact .refl s
  | insmod => cases he
  | rmmod => cases he
  | proceed error => cases he

/-- Which event is which action. -/
inductive Enacts (s : Host) : Event → Action → Prop
  | scheduler (h : s.admin.threadRuns = true) : Enacts s .scheduler .scheduler
  | jump {t : Nat} {c : Call} (h : s.caller t = .tested c) : Enacts s (.jump t) (.invoke t c)
  | work (t : Nat) : Enacts s (.work t) (.advance t)

theorem enacts_of_action {s : Host} {e : Event} {a : Action} (h : s.action e = some a) :
    Enacts s e a := by
  cases e with
  | scheduler =>
    simp only [Host.action] at h
    split at h
    · next hr => cases h; exact .scheduler hr
    · cases h
  | jump t =>
    simp only [Host.action] at h
    split at h
    · next c hc =>
        split at h
        · cases h; exact .jump hc
        · cases h
    · cases h
  | work t =>
    simp only [Host.action] at h
    split at h
    · split at h
      · cases h; exact .work t
      · cases h
    · cases h
  | _ => cases h

/-- Nobody can be inside a load that has only just been placed. -/
theorem action_setup {s : Host} (h : s.Inv) (ha : s.admin = .setup) (e : Event) :
    s.action e = none := by
  cases e with
  | scheduler => simp [Host.action, ha, Admin.threadRuns]
  | jump t =>
    simp only [Host.action]
    split
    · next c _ => exact if_neg fun hm => h.stub_ne ha _ hm.1
    · rfl
  | work t =>
    simp only [Host.action]
    split
    · next c load hc =>
        refine if_neg fun hm => h.load_ne ha t ?_
        rw [hc]
        exact hm.1
    · rfl
  | _ => rfl

/-- A line after which the module's memory is what it was. -/
theorem Holds.goesTo {s s' : Host} {m : State} (h : Holds B s m) (hinv : s'.Inv)
    (hne : s'.admin ≠ .setup) (hruns : s'.admin.runs = true → s.admin.runs = true)
    (hmodule : s'.module = s.module) : Holds B s' m :=
  ⟨hinv, fun ha => absurd ha hne, fun hr => hmodule ▸ h.runs (hruns hr)⟩

/-- The cleanup has the module to itself, but for the calls that are inside;
it is at the lock still, or nothing is said of its memory. -/
theorem cleanup_runs (s : Host) (m : State) (error : Nat) (hc : s.admin.cleansUp = true)
    (hr : (s.cleanup B m error).admin.runs = true) :
    s.admin = .removeLock ∧ s.cleanup B m error = s := by
  unfold Host.cleanup at hr ⊢
  cases ha : s.admin with
  | removeLock =>
    simp only [ha] at hr ⊢
    split at hr
    · cases hr
    · next herror =>
        split at hr
        · cases hr
        · next hmutex => exact ⟨trivial, by rw [if_neg herror, if_neg hmutex]⟩
  | removeLocked => simp only [ha] at hr; cases hr
  | removeUnlock dl => simp only [ha] at hr; cases hr
  | removeFree dl => simp only [ha] at hr; cases hr
  | destroyMutex => simp only [ha] at hr; cases hr
  | _ => rw [ha] at hc; cases hc

/-- The lines of `elevator_init` and `elevator_exit`. -/
theorem Holds.proceed {s s' : Host} {m : State} {error : Nat} (h : Holds B s m)
    (hfree : InitsFree s (.proceed error)) (he : Effect B s (.proceed error) s') :
    Holds B s' m := by
  have hinv := h.inv.effect he
  cases he with
  | same _ => exact h
  | setUp ha =>
    obtain ⟨rfl, hm⟩ := h.zeroed ha
    have hset : (s.write fun m => { m with g := setupElevator B m.g }).module
        = some (Threads.loaded B) := by
      simp [Host.write, hm, placedModule, Threads.loaded, KernelElevator.loaded]
    exact ⟨hinv, (fun hs => by cases hs), fun _ => hset⟩
  | pointed c ha =>
    exact h.goesTo hinv (next_ne c).1.2 (fun _ => by simp [ha, Admin.runs]) rfl
  | created ha => exact h.goesTo hinv (by simp) (fun _ => by simp [ha, Admin.runs]) rfl
  | ready ha =>
    -- the mutex is free, so to initialise it changes nothing
    have hm := h.runs (by simp [ha, Admin.runs])
    have hmutex := hfree ha m (by rw [hm]; rfl)
    obtain ⟨g, mutex, sch, calls⟩ := m
    obtain rfl : mutex = none := hmutex
    exact ⟨hinv, (fun hs => by cases hs), fun _ => by simp [Host.write, hm]⟩
  | cleared c ha =>
    exact h.goesTo hinv (next_ne c).2.2 (fun _ => by simp [ha, Admin.runs]) rfl
  | stopped _ ha _ _ => exact h.goesTo hinv (by simp) (fun _ => by simp [ha, Admin.runs]) rfl
  | cleaned m' ha hm' =>
    refine ⟨hinv, fun hs => ?_, fun hr => ?_⟩
    · obtain ⟨_, a, heq, hline⟩ := cleanup_frame (B := B) s m' error ha hm'
      rw [heq] at hs
      exact absurd hs (cleansUp_line hline).1.2
    · obtain ⟨hlock, heq⟩ := cleanup_runs s m' error ha hr
      rw [heq]
      exact h.runs (by rw [hlock]; rfl)
  | gone _ => exact ⟨hinv, (fun hs => by cases hs), fun hr => by cases hr⟩
  | failed _ _ => exact ⟨hinv, (fun hs => by cases hs), fun hr => by cases hr⟩
  | left h => rcases h with h | h | h <;> cases h

theorem step_insmod (s : Host) :
    s.admin = .absent ∧ s.step B .insmod
        = { s with placed := s.placed + 1, module := some placedModule, admin := .setup } ∨
      s.step B .insmod = s := by
  simp only [Host.step]
  split
  · exact Or.inl ⟨‹_›, rfl⟩
  · exact Or.inr rfl

theorem step_rmmod (s : Host) :
    s.admin = .live ∧ s.step B .rmmod = { s with admin := .clearStub .startElevator } ∨
      s.step B .rmmod = s := by
  simp only [Host.step]
  split
  · exact Or.inl ⟨‹_›, rfl⟩
  · exact Or.inr rfl

/-- As long as no other module is placed, an event does to the memory what
its action says. -/
theorem Holds.step {s : Host} {m : State} (e : Event) (hthere : e = .insmod → s.admin ≠ .absent)
    (hfree : InitsFree s e) (h : Holds B s m) :
    Holds B (s.step B e) ((s.action e).elim m (State.step B m)) := by
  have hinv := h.inv.step (B := B) e
  by_cases hthread : e.ofThread = true
  · have hacts := step_acts (B := B) s hthread
    refine ⟨hinv, fun ha => ?_, fun hr => ?_⟩
    · rw [hacts.admin] at ha
      rw [hacts.module, action_setup h.inv ha e]
      obtain ⟨hm, hplaced⟩ := h.zeroed ha
      exact ⟨hm, by rw [hplaced]; rfl⟩
    · rw [hacts.admin] at hr
      rw [hacts.module, h.runs hr]
      rfl
  · cases e with
    | insmod =>
      rcases step_insmod (B := B) s with ⟨ha, -⟩ | hstep
      · exact absurd ha (hthere rfl)
      · rw [hstep]
        exact h
    | rmmod =>
      rcases step_rmmod (B := B) s with ⟨ha, hstep⟩ | hstep
      · rw [hstep] at hinv ⊢
        exact h.goesTo hinv (by simp) (fun _ => by simp [ha, Admin.runs]) rfl
      · rw [hstep]
        exact h
    | proceed error => exact h.proceed hfree (proceed_effect s error)
    | _ => exact absurd rfl hthread

/-- A module that has just been placed holds what `setup_elevator` will set
up. -/
theorem Holds.placed {s : Host} (hinv : s.Inv) (habsent : s.admin = .absent) :
    Holds B (s.step B .insmod) (Threads.loaded B) := by
  have hstep : s.step B .insmod
      = { s with placed := s.placed + 1, module := some placedModule, admin := .setup } := by
    simp [Host.step, habsent]
  have hnext := hinv.step (B := B) .insmod
  rw [hstep] at hnext ⊢
  exact ⟨hnext, fun _ => ⟨rfl, rfl⟩, fun hr => by cases hr⟩

theorem inv_after (es : List Event) : (Host.after B es).Inv :=
  (kernel B).run_inv (P := Host.Inv) (fun _ e h => h.step e) es booted booted_inv

/-- No signal comes to a call. -/
theorem action_ne_interrupt {s : Host} {e : Event} {a : Action} (h : s.action e = some a)
    (t : Nat) : a ≠ .interrupt t := by
  rintro rfl
  cases enacts_of_action h

theorem granted_of_ne_interrupt {as : List Action} (h : ∀ a ∈ as, ∀ t, a ≠ .interrupt t) :
    (threads B).Along Granted (Threads.loaded B) as :=
  (threads B).along_of_forall as _ fun a ha _ t heq => absurd heq (h a ha t)

variable (B) in
/-- The module's memory is that of a run, no signal comes in it, and what it
consists of has the property `Q`. -/
def Host.Reached (Q : Action → Prop) (s : Host) : Prop :=
  ∃ as, (∀ a ∈ as, Q a ∧ ∀ t, a ≠ .interrupt t) ∧ Holds B s (State.after B as)

/-- The memory of every load stays that of a run until the cleanup. -/
theorem Host.Reached.step {Q : Action → Prop} {s : Host} (h : s.Reached B Q) (e : Event)
    (hfree : InitsFree s e) (hq : ∀ a, s.action e = some a → Q a) :
    (s.step B e).Reached B Q := by
  obtain ⟨as, has, hholds⟩ := h
  by_cases hnew : e = .insmod ∧ s.admin = .absent
  · obtain ⟨rfl, ha⟩ := hnew
    exact ⟨[], by simp, Holds.placed hholds.inv ha⟩
  · have hstep := hholds.step e (fun he ha => hnew ⟨he, ha⟩) hfree
    cases ha : s.action e with
    | none =>
      rw [ha] at hstep
      exact ⟨as, has, hstep⟩
    | some a =>
      rw [ha] at hstep
      refine ⟨as ++ [a], fun b hb => ?_, ?_⟩
      · rcases List.mem_append.mp hb with hb | hb
        · exact has b hb
        · obtain rfl := List.mem_singleton.mp hb
          exact ⟨hq b ha, action_ne_interrupt ha⟩
      · rw [State.after, Machine.run_concat]
        exact hstep

theorem booted_reached (Q : Action → Prop) : booted.Reached B Q :=
  ⟨[], by simp, booted_inv, (fun hs => by cases hs), fun hr => by cases hr⟩

/-- Where the memory is that of a run, the shared data is right. -/
theorem Host.Reached.sharedInv {Q : Action → Prop} {s : Host} (h : s.Reached B Q)
    (hr : s.admin.runs = true) {m : State} (hm : s.module = some m) : m.Inv B := by
  obtain ⟨as, has, hholds⟩ := h
  obtain rfl : State.after B as = m := Option.some.inj ((hholds.runs hr).symm.trans hm)
  exact State.inv_after (granted_of_ne_interrupt fun a ha => (has a ha).2)

/-- The actions of a run of the kernel. -/
theorem mem_actions {s : Host} {es : List Event} {a : Action} (h : a ∈ actions B s es) (t : Nat) :
    a ≠ .interrupt t := by
  induction es generalizing s with
  | nil => cases h
  | cons e es ih =>
    rw [actions, Machine.outputs] at h
    cases ha : s.action e with
    | none =>
      rw [ha, List.reduceOption_cons_of_none] at h
      exact ih h
    | some b =>
      rw [ha, List.reduceOption_cons_of_some, List.mem_cons] at h
      rcases h with rfl | h
      · exact action_ne_interrupt ha t
      · exact ih h

/-- **Each load is a run of the threads**: if `insmod` finds no module, and
the module has not gone since, and no call held the mutex when it was
initialised, then from `setup_elevator` to the cleanup the module's memory is
what the steps of the calls inside it and of the scheduler have made of it
since then. So its data is right, and at most one thread is in its locked
section. -/
theorem module_runs (B : Building) (pre post : List Event)
    (habsent : (Host.after B pre).admin = .absent)
    (hthere : (kernel B).Along (fun s e => s.admin ≠ .absent ∧ InitsFree s e)
      (Host.after B (pre ++ [.insmod])) post)
    (hruns : (Host.after B (pre ++ .insmod :: post)).admin.runs = true) :
    ∃ m, (Host.after B (pre ++ .insmod :: post)).module = some m ∧
      m = State.after B (actions B (Host.after B (pre ++ [.insmod])) post) ∧
        m.DataRight B ∧ OneInSection m := by
  have hplaced : Host.after B (pre ++ [.insmod]) = (Host.after B pre).step B .insmod :=
    (kernel B).run_concat booted pre .insmod
  have hsplit : Host.after B (pre ++ .insmod :: post)
      = (kernel B).run (Host.after B (pre ++ [.insmod])) post := by
    rw [hplaced]
    exact (kernel B).run_append booted pre (.insmod :: post)
  have hholds := Holds.placed (B := B) (inv_after pre) habsent
  rw [← hplaced] at hholds
  have hrun := (kernel B).run_followed (threads B) (R := Holds B)
    (fun s m e hok h => h.step e (fun _ => hok.1) hok.2) post _ _ hholds hthere
  rw [hsplit] at hruns ⊢
  have hgranted : (threads B).Along Granted (Threads.loaded B)
      (actions B (Host.after B (pre ++ [.insmod])) post) :=
    granted_of_ne_interrupt fun a ha => mem_actions ha
  exact ⟨_, hrun.runs hruns, rfl, (State.inv_after hgranted).dataRight,
    fun x y hx hy => (exclusive_after hgranted).unique hx hy⟩

/-- A load fails for want of memory; the next one succeeds, and while one
thread has a request in its locked section another one waits for the mutex. -/
theorem module_runs_again :
    ∃ m, (Host.after .source ((.insmod :: List.replicate 4 (.proceed 0)) ++ [.proceed 12] ++
      .insmod :: (List.replicate 6 (.proceed 0)
        ++ [.scheduler, .enter 0 .startElevator, .jump 0, .work 0, .work 0, .work 0, .back 0,
          .enter 1 (.issueRequest 1 2 0), .enter 2 (.issueRequest 3 4 1), .jump 1, .jump 2,
          .work 1, .work 1, .work 2, .work 2, .work 1]))).module = some m ∧
      m = State.after .source [.scheduler, .invoke 0 .startElevator, .advance 0, .advance 0,
        .advance 0, .invoke 1 (.issueRequest 1 2 0), .invoke 2 (.issueRequest 3 4 1), .advance 1,
        .advance 1, .advance 2, .advance 2, .advance 1] ∧
      m.DataRight .source ∧ OneInSection m := by
  have habsent : (Host.after .source ((.insmod :: List.replicate 4 (.proceed 0))
      ++ [.proceed 12])).admin = .absent := by decide
  exact module_runs .source _ _ habsent (by decide) (by decide)

/-! ## §2 What is left behind -/

/-- The pointers are being set, and there is no scheduler thread yet. -/
def Admin.starting : Admin → Bool
  | .setStub _ | .createProc | .startThread => true
  | _ => false

/-- The scheduler thread has gone. -/
def Admin.halted : Admin → Bool
  | .removeLock | .removeLocked | .removeUnlock _ | .removeFree _ | .destroyMutex | .removeProc =>
    true
  | _ => false

/-- The cleanup has taken what it takes. -/
def Admin.cleaned : Admin → Bool
  | .removeUnlock _ | .removeFree _ | .destroyMutex | .removeProc => true
  | _ => false

/-- The records on the `delete_list` of the cleanup. -/
def Admin.deleteList : Admin → List Passenger
  | .removeUnlock deleteList | .removeFree deleteList => deleteList
  | _ => []

/-- Nobody is on board or waits. -/
def ListsEmpty (g : Globals) : Prop := g.onboard = [] ∧ ∀ i, g.waitingList i = []

/-- No record has been left behind, and after the cleanup none is on a list on
which nobody looks for it any more. -/
structure Host.Kept (s : Host) : Prop where
  leaked : s.leaked = 0
  lists : s.admin.cleaned = true → ∀ m ∈ s.module, ListsEmpty m.g

/-- An `elevator_init` that fails has had no request; the lock of the cleanup
is broken off only when the lists are empty; no request gets in after the
cleanup; and when the memory is freed no stop has records on its
`delete_list`. -/
def Tidy (s : Host) : Event → Prop
  | .proceed error =>
    match s.admin with
    | .createProc | .startThread => error ≠ 0 → ∀ m ∈ s.module, m.g.allocated = []
    | .removeLock => error ≠ 0 → ∀ m ∈ s.module, ListsEmpty m.g
    | .removeProc => ∀ m ∈ s.module, ∀ t, (m.calls t).deleteList = []
    | _ => True
  | .work t => s.admin.cleaned = true → ∀ m ∈ s.module, ∀ a b k,
      s.action (.work t) = some (.advance t) → m.calls t = .issueLocked a b k →
        m.g.deactiving = true
  | _ => True

/-- The next line initialises the mutex, unlocks it, or has it freed with the
module's memory. -/
def Admin.endsMutex (a : Admin) (error : Nat) : Bool :=
  match a with
  | .startThread | .removeUnlock _ | .removeProc => true
  | .createProc => error ≠ 0
  | _ => false

/-- No call is in its locked section when the mutex is initialised, when the
cleanup unlocks it, and when the memory it is in is freed. -/
def SectionsApart (s : Host) : Event → Prop
  | .proceed error => s.admin.endsMutex error = true → ∀ m ∈ s.module,
      m.mutex = none ∨ s.admin.cleansUp = true ∧ m.mutex = some .scheduler
  | _ => True

instance (s : Host) : (e : Event) → Decidable (SectionsApart s e)
  | .proceed _ => inferInstanceAs (Decidable (_ → ∀ m ∈ s.module, _ ∨ _ ∧ _))
  | .insmod | .rmmod | .scheduler | .enter _ _ | .jump _ | .work _ | .back _ => .isTrue trivial

/-- Whoever is past the wait for the mutex holds it, and so does the cleanup
in its locked section. -/
structure Host.Exclusive (s : Host) : Prop where
  calls : ∀ m ∈ s.module, m.lock.Exclusive
  cleanup : s.admin = .removeLocked → ∀ m ∈ s.module, m.mutex = some .scheduler

/-- Nobody has boarded yet, and nothing has been freed. -/
structure Untouched (m : State) : Prop where
  onboard : m.g.onboard = []
  freed : m.g.freed = []
  deleteList : ∀ t, (m.calls t).deleteList = []

/-- Where the records are that the module has allocated, if those in
`deleteList` are with the cleanup. -/
structure Ledger (deleteList : List Passenger) (m : State) : Prop where
  records : Partitions (withPlace deleteList m.place) m.g.allocated
  node_lt : ∀ p ∈ m.g.allocated, p.node < m.g.allocated.length

variable (B) in
/-- What is known of the module's memory at each line. -/
structure Host.MemoryInv (s : Host) : Prop where
  reached : s.Reached B fun _ => True
  untouched : s.admin.starting = true → ∀ m ∈ s.module, Untouched m
  halted : s.admin.halted = true → ∀ m ∈ s.module, m.scheduler = .top
  locked : s.admin = .removeLocked → ∀ m ∈ s.module, m.Inv B
  ledger : s.admin.cleaned = true → ∀ m ∈ s.module, Ledger s.admin.deleteList m

/-! ### The steps of a call -/

theorem untouched_loaded : Untouched (Threads.loaded B) := ⟨rfl, rfl, fun _ => rfl⟩

theorem Untouched.calls_update {m : State} (h : Untouched m) (g : Globals) (mutex : Option Tid)
    (hon : g.onboard = []) (hfreed : g.freed = []) (t : Nat) {pc : CallPc}
    (hpc : pc.deleteList = []) :
    Untouched ⟨g, mutex, m.scheduler, Function.update m.calls t pc⟩ := by
  refine ⟨hon, hfreed, fun u => ?_⟩
  rw [deleteList_update m.calls (hpc.trans (h.deleteList t).symm)]
  exact h.deleteList u

/-- Without a scheduler thread a stop finds nobody on board. -/
theorem Untouched.advance {m : State} (h : Untouched m) (t : Nat) :
    Untouched (m.step B (.advance t)) := by
  have he := callStep_effect (B := B) t m.g m.mutex (m.calls t)
  have hdl : (callStep B t m.g m.mutex (m.calls t)).2.2.deleteList = [] := by
    by_cases hlocked : m.calls t = .stopLocked
    · rw [hlocked]
      simp [callStep, stopElevatorLocked_eq, CallPc.deleteList, h.onboard]
    · by_cases hfree : ∃ dl, m.calls t = .stopFree dl
      · obtain ⟨dl, hfree⟩ := hfree
        rw [hfree]
        rfl
      · rw [callStep_deleteList t m.g m.mutex hlocked fun dl hdl => hfree ⟨dl, hdl⟩]
        exact h.deleteList t
  have hlist := h.deleteList t
  simp only [State.step]
  generalize (callStep B t m.g m.mutex (m.calls t)).1 = g' at he ⊢
  generalize m.calls t = pc at he hlist hdl ⊢
  refine h.calls_update g' _ ?_ ?_ t hdl
  · cases he with
    | taken => rfl
    | _ => exact h.onboard
  · cases he with
    | freed dl =>
      simp only [CallPc.deleteList] at hlist
      simp [h.freed, hlist]
    | _ => exact h.freed

theorem Untouched.invoke {m : State} (h : Untouched m) (t : Nat) (c : Call) :
    Untouched (m.step B (.invoke t c)) := by
  simp only [State.step]
  split
  · exact h.calls_update m.g m.mutex h.onboard h.freed t (entry_deleteList c)
  · exact h

theorem Ledger.advance {dl : List Passenger} {m : State} (h : Ledger dl m) (t : Nat) :
    Ledger dl (m.step B (.advance t)) := by
  refine ⟨h.records.shift ((advance_shift m t h.node_lt).withPlace dl), ?_⟩
  have he := callStep_effect (B := B) t m.g m.mutex (m.calls t)
  simp only [State.step]
  generalize (callStep B t m.g m.mutex (m.calls t)).1 = g' at he ⊢
  generalize m.calls t = pc at he
  cases he with
  | added _ => exact node_lt_add h.node_lt _ _ _
  | _ => exact h.node_lt

theorem Ledger.invoke {dl : List Passenger} {m : State} (h : Ledger dl m) (t : Nat) (c : Call) :
    Ledger dl (m.step B (.invoke t c)) := by
  simp only [State.step]
  split
  · next hdone =>
      have hdl := (entry_deleteList c).trans (deleteList_of_done hdone).symm
      have hplace :
          State.place { m with calls := Function.update m.calls t (.entry c) } = m.place :=
        place_congr rfl rfl rfl (deleteList_update m.calls hdl) rfl
      exact ⟨by rw [hplace]; exact h.records, h.node_lt⟩
  · exact h

/-! ### The lines of the cleanup -/

/-- At the lock the records are as in any run. -/
theorem ledger_of_inv {m : State} (h : m.Inv B) : Ledger [] m := ⟨h.records.withPlace, h.node_lt⟩

/-- What the cleanup takes. -/
theorem nodup_removeAll {m : State} (h : m.Inv B) :
    (m.g.onboard ++ (List.range B.floors).flatMap fun i : Nat => m.g.waitingList i).Nodup := by
  refine List.nodup_append'.mpr ⟨h.records.nodup .onboard, List.nodup_flatMap.mpr
    ⟨fun i _ => h.records.nodup (.waiting i), ?_⟩, fun p hp hq => ?_⟩
  · refine List.nodup_range.imp fun {i j} hne p hi hj => hne ?_
    have heq := h.records.unique (.waiting i) (.waiting j) p hi hj
    exact Int.ofNat.inj (Place.waiting.inj heq)
  · obtain ⟨i, -, hq⟩ := List.mem_flatMap.mp hq
    cases h.records.unique .onboard (.waiting i) p hp hq

/-- It takes all there is on the lists. -/
theorem Ledger.removeAll {m : State} (h : m.Inv B) :
    Ledger (removeAllLocked B m.g).1 { m with g := (removeAllLocked B m.g).2 } ∧
      ListsEmpty (removeAllLocked B m.g).2 := by
  have houtside : ∀ i : Int, ¬ (0 ≤ i ∧ i < B.floors) → m.g.waitingList i = [] := by
    intro i hi
    refine List.eq_nil_iff_forall_not_mem.mpr fun p hp => hi ?_
    obtain ⟨hok, hfloor⟩ := h.queues.waiting_ok i p hp
    have hlo := hok.start_pos
    have hhi := hok.start_le
    omega
  have hempty : ∀ i, (if 0 ≤ i ∧ i < (B.floors : Int) then [] else m.g.waitingList i) = [] := by
    intro i
    split
    · rfl
    · next hi => exact houtside i hi
  rw [removeAllLocked_eq]
  refine ⟨⟨?_, h.node_lt⟩, rfl, hempty⟩
  refine h.records.gather (fun x => x = .onboard ∨ ∃ i, x = .waiting i)
    (nodup_removeAll h) (fun p => ?_) ?_ ?_
  · simp only [List.mem_append, List.mem_flatMap, List.mem_range]
    constructor
    · rintro (hp | ⟨i, -, hp⟩)
      · exact ⟨.onboard, Or.inl rfl, hp⟩
      · exact ⟨.waiting i, Or.inr ⟨i, rfl⟩, hp⟩
    · rintro ⟨x, rfl | ⟨i, rfl⟩, hp⟩
      · exact Or.inl hp
      · refine Or.inr ?_
        by_cases hi : 0 ≤ i ∧ i < B.floors
        · obtain ⟨k, rfl⟩ := Int.eq_ofNat_of_zero_le hi.1
          exact ⟨k, by omega, hp⟩
        · exact absurd hp (by simp [State.place, houtside i hi])
  · rintro x (rfl | ⟨i, rfl⟩)
    · rfl
    · exact hempty i
  · intro x hx
    cases x with
    | waiting i => exact absurd (Or.inr ⟨i, rfl⟩) hx
    | onboard => exact absurd (Or.inl rfl) hx
    | _ => rfl

/-- The cleanup frees what it has taken. -/
theorem Ledger.free {dl : List Passenger} {m : State} (h : Ledger dl m) :
    Ledger [] { m with g := kfreeAll dl m.g } := by
  have hplace : withPlace [] (State.place { m with g := kfreeAll dl m.g })
      = Function.update (Function.update (withPlace dl m.place) none []) (some .freed)
          (m.g.freed ++ dl) := by
    funext x
    cases x with
    | none => simp [withPlace]
    | some x => cases x <;> simp [withPlace, State.place, kfreeAll_eq]
  have hall : (kfreeAll dl m.g).allocated = m.g.allocated := by rw [kfreeAll_eq]
  refine ⟨?_, by simpa only [hall] using h.node_lt⟩
  simp only [hplace, hall]
  refine h.records.move (by simp) ?_
  simpa [withPlace, State.place] using List.perm_append_comm

/-- With the lists empty, all records are freed except those that a stop has
on its `delete_list`. -/
theorem Ledger.freed_iff {m : State} (h : Ledger [] m) (hlists : ListsEmpty m.g)
    (htop : m.scheduler = .top) :
    (∀ p ∈ m.g.allocated, p ∈ m.g.freed) ↔ ∀ t, (m.calls t).deleteList = [] := by
  constructor
  · intro hall t
    refine List.eq_nil_iff_forall_not_mem.mpr fun p hp => ?_
    have hfreed := hall p ((h.records.mem_iff p).mpr ⟨some (.call t), hp⟩)
    cases h.records.unique (some .freed) (some (.call t)) p hfreed hp
  · intro hnone p hp
    obtain ⟨x, hx⟩ := (h.records.mem_iff p).mp hp
    match x, hx with
    | none, hx => cases hx
    | some (.waiting i), hx =>
      rw [show withPlace [] m.place (some (.waiting i)) = [] from hlists.2 i] at hx
      cases hx
    | some .onboard, hx =>
      rw [show withPlace [] m.place (some .onboard) = [] from hlists.1] at hx
      cases hx
    | some .freed, hx => exact hx
    | some (.call t), hx =>
      rw [show withPlace [] m.place (some (.call t)) = [] from hnone t] at hx
      cases hx
    | some .scheduler, hx =>
      have hnil : m.scheduler.deleteList = [] := by rw [htop]; rfl
      rw [show withPlace [] m.place (some .scheduler) = [] from hnil] at hx
      cases hx

/-- Who holds the mutex makes no difference to the records. -/
theorem place_mutex (m : State) (mutex : Option Tid) :
    State.place { m with mutex := mutex } = m.place :=
  place_congr rfl rfl rfl (fun _ => rfl) rfl

theorem inv_mutex {m : State} (h : m.Inv B) (mutex : Option Tid) :
    State.Inv B { m with mutex := mutex } :=
  ⟨by rw [place_mutex]; exact h.records, h.node_lt, h.queues, h.cabin, h.sweep, h.heading_eq,
    h.asked⟩

theorem Ledger.mutex {dl : List Passenger} {m : State} (h : Ledger dl m) (mutex : Option Tid) :
    Ledger dl { m with mutex := mutex } :=
  ⟨by rw [place_mutex]; exact h.records, h.node_lt⟩

/-! ### The invariant -/

/-- Without a scheduler thread only calls are at work. -/
theorem step_keeps {P : State → Prop} {s : Host} {e : Event} (he : e.ofThread = true)
    (hidle : s.admin.threadRuns = false) (hinvoke : ∀ m t c, P m → P (m.step B (.invoke t c)))
    (hadvance : ∀ m t, P m → P (m.step B (.advance t))) (h : ∀ m ∈ s.module, P m) :
    ∀ m ∈ (s.step B e).module, P m := by
  rw [(step_acts s he).module]
  intro m' hm'
  obtain ⟨m, hm, rfl⟩ := Option.mem_map.mp hm'
  cases ha : s.action e with
  | none => exact h m hm
  | some a =>
    cases enacts_of_action ha with
    | scheduler hr =>
      rw [hidle] at hr
      cases hr
    | jump _ => exact hinvoke m _ _ (h m hm)
    | work t => exact hadvance m t (h m hm)

theorem starting_idle {a : Admin} (h : a.starting = true) : a.threadRuns = false := by
  cases a <;> first | rfl | cases h

theorem halted_idle {a : Admin} (h : a.halted = true) : a.threadRuns = false := by
  cases a <;> first | rfl | cases h

theorem halted_of_cleaned {a : Admin} (h : a.cleaned = true) : a.halted = true := by
  cases a <;> first | rfl | cases h

theorem halted_of_cleansUp {a : Admin} (h : a.cleansUp = true) : a.halted = true := by
  cases a <;> first | rfl | cases h

theorem invoke_scheduler (m : State) (t : Nat) (c : Call) :
    (m.step B (.invoke t c)).scheduler = m.scheduler := by
  simp only [State.step]
  split <;> rfl

theorem Host.MemoryInv.thread {s : Host} (h : s.MemoryInv B) {e : Event}
    (he : e.ofThread = true) (hfree : InitsFree s e) : (s.step B e).MemoryInv B := by
  have hadmin := (step_acts (B := B) s he).admin
  refine ⟨h.reached.step e hfree fun _ _ => trivial, fun hs => ?_, fun hs => ?_, fun hs => ?_,
    fun hs => ?_⟩
  · rw [hadmin] at hs
    exact step_keeps he (starting_idle hs) (fun m t c hm => hm.invoke t c)
      (fun m t hm => hm.advance t) (h.untouched hs)
  · rw [hadmin] at hs
    exact step_keeps (P := fun m => m.scheduler = .top) he (halted_idle hs)
      (fun m t c hm => (invoke_scheduler m t c).trans hm) (fun _ _ hm => hm) (h.halted hs)
  · rw [hadmin] at hs
    exact step_keeps he (halted_idle (by rw [hs]; rfl)) (fun m t c hm => hm.invoke t c)
      (fun m t hm => hm.advance t) (h.locked hs)
  · rw [hadmin] at hs ⊢
    exact step_keeps he (halted_idle (halted_of_cleaned hs)) (fun m t c hm => hm.invoke t c)
      (fun m t hm => hm.advance t) (h.ledger hs)

/-- A line after which less is said of the memory than before. -/
theorem Host.MemoryInv.goesTo {s s' : Host} (h : s.MemoryInv B)
    (hreached : s'.Reached B fun _ => True) (hmodule : s'.module = s.module)
    (hs : s'.admin.starting = true → s.admin.starting = true)
    (hhalted : s'.admin.halted = false) : s'.MemoryInv B := by
  have hcleaned : s'.admin.cleaned = false := by
    cases hc : s'.admin.cleaned with
    | false => rfl
    | true => rw [halted_of_cleaned hc] at hhalted; cases hhalted
  refine ⟨hreached, fun hs' => hmodule ▸ h.untouched (hs hs'), fun hh => ?_, fun hh => ?_,
    fun hh => ?_⟩
  · rw [hhalted] at hh
    cases hh
  · rw [hh] at hhalted
    cases hhalted
  · rw [hcleaned] at hh
    cases hh

/-- A load that has only begun, or is gone. -/
theorem Host.MemoryInv.fresh {s : Host} (hreached : s.Reached B fun _ => True)
    (hs : s.admin.starting = false) (hhalted : s.admin.halted = false) : s.MemoryInv B := by
  have hcleaned : s.admin.cleaned = false := by
    cases hc : s.admin.cleaned with
    | false => rfl
    | true => rw [halted_of_cleaned hc] at hhalted; cases hhalted
  refine ⟨hreached, fun h => ?_, fun h => ?_, fun h => ?_, fun h => ?_⟩
  · rw [hs] at h
    cases h
  · rw [hhalted] at h
    cases h
  · rw [h] at hhalted
    cases hhalted
  · rw [hcleaned] at h
    cases h

/-- The lines of the cleanup. -/
theorem Host.MemoryInv.cleanup {s : Host} {m : State} {error : Nat} (h : s.MemoryInv B)
    (hreached : (s.cleanup B m error).Reached B fun _ => True) (hc : s.admin.cleansUp = true)
    (hm : s.module = some m) : (s.cleanup B m error).MemoryInv B := by
  have htop := h.halted (halted_of_cleansUp hc) m hm
  unfold Host.cleanup at hreached ⊢
  cases ha : s.admin with
  | removeLock =>
    have hinv := h.reached.sharedInv (by rw [ha]; rfl) hm
    simp only [ha] at hreached ⊢
    split at hreached
    · next herror =>
        rw [if_pos herror]
        refine ⟨hreached, (fun hs => by cases hs), fun _ m' hm' => ?_, (fun hs => by cases hs),
          fun _ m' hm' => ?_⟩
        · obtain rfl : m = m' := Option.some.inj (hm.symm.trans hm')
          exact htop
        · obtain rfl : m = m' := Option.some.inj (hm.symm.trans hm')
          exact ledger_of_inv hinv
    · next herror =>
        rw [if_neg herror]
        split at hreached
        · next hmutex =>
            rw [if_pos hmutex]
            refine ⟨hreached, (fun hs => by cases hs), fun _ m' hm' => ?_, fun _ m' hm' => ?_,
              fun hs => by cases hs⟩
            · obtain rfl := Option.some.inj hm'
              exact htop
            · obtain rfl := Option.some.inj hm'
              exact inv_mutex hinv _
        · next hmutex =>
            rw [if_neg hmutex]
            exact h
  | removeLocked =>
    simp only [ha] at hreached ⊢
    refine ⟨hreached, (fun hs => by cases hs), fun _ m' hm' => ?_, (fun hs => by cases hs),
      fun _ m' hm' => ?_⟩
    · obtain rfl := Option.some.inj hm'
      exact htop
    · obtain rfl := Option.some.inj hm'
      exact (Ledger.removeAll (h.locked ha m hm)).1
  | removeUnlock dl =>
    have hledger := h.ledger (by rw [ha]; rfl) m hm
    rw [ha] at hledger
    simp only [ha] at hreached ⊢
    refine ⟨hreached, (fun hs => by cases hs), fun _ m' hm' => ?_, (fun hs => by cases hs),
      fun _ m' hm' => ?_⟩
    · obtain rfl := Option.some.inj hm'
      exact htop
    · obtain rfl := Option.some.inj hm'
      exact hledger.mutex none
  | removeFree dl =>
    have hledger := h.ledger (by rw [ha]; rfl) m hm
    rw [ha] at hledger
    simp only [ha] at hreached ⊢
    refine ⟨hreached, (fun hs => by cases hs), fun _ m' hm' => ?_, (fun hs => by cases hs),
      fun _ m' hm' => ?_⟩
    · obtain rfl := Option.some.inj hm'
      exact htop
    · obtain rfl := Option.some.inj hm'
      exact hledger.free
  | destroyMutex =>
    have hledger := h.ledger (by rw [ha]; rfl) m hm
    rw [ha] at hledger
    simp only [ha] at hreached ⊢
    refine ⟨hreached, (fun hs => by cases hs), fun _ m' hm' => ?_, (fun hs => by cases hs),
      fun _ m' hm' => ?_⟩
    · obtain rfl : m = m' := Option.some.inj (hm.symm.trans hm')
      exact htop
    · obtain rfl : m = m' := Option.some.inj (hm.symm.trans hm')
      exact hledger
  | _ => rw [ha] at hc; cases hc

/-- The lines of `elevator_init` and `elevator_exit` keep what is known of the
memory. -/
theorem Host.MemoryInv.proceed {s s' : Host} {error : Nat} (h : s.MemoryInv B)
    (hfree : InitsFree s (.proceed error)) (he : Effect B s (.proceed error) s') :
    s'.MemoryInv B := by
  have hreached : s'.Reached B fun _ => True := by
    obtain ⟨as, has, hholds⟩ := h.reached
    exact ⟨as, has, hholds.proceed hfree he⟩
  cases he with
  | same _ => exact h
  | setUp ha =>
    obtain ⟨as, -, hholds⟩ := h.reached
    refine ⟨hreached, fun _ m hm => ?_, (fun hs => by cases hs), (fun hs => by cases hs),
      fun hs => by cases hs⟩
    simp only [Host.write, (hholds.zeroed ha).2, Option.map_some] at hm
    obtain rfl := Option.some.inj hm
    exact untouched_loaded (B := B)
  | pointed c ha =>
    exact h.goesTo hreached rfl (fun _ => by rw [ha]; rfl) (by cases c <;> rfl)
  | created ha => exact h.goesTo hreached rfl (fun _ => by rw [ha]; rfl) rfl
  | ready ha => exact .fresh hreached rfl rfl
  | failed _ _ => exact .fresh hreached rfl rfl
  | cleared c _ => exact .fresh hreached (by cases c <;> rfl) (by cases c <;> rfl)
  | stopped m _ hm htop =>
    refine ⟨hreached, (fun hs => by cases hs), fun _ m' hm' => ?_, (fun hs => by cases hs),
      fun hs => by cases hs⟩
    obtain rfl : m = m' := Option.some.inj (hm.symm.trans hm')
    exact htop
  | cleaned m ha hm => exact h.cleanup hreached ha hm
  | gone _ => exact .fresh hreached rfl rfl
  | left h => rcases h with h | h | h <;> cases h

theorem Host.MemoryInv.step {s : Host} (h : s.MemoryInv B) (e : Event) (hfree : InitsFree s e) :
    (s.step B e).MemoryInv B := by
  have hreached := h.reached.step e hfree fun _ _ => trivial
  by_cases hthread : e.ofThread = true
  · exact h.thread hthread hfree
  · cases e with
    | insmod =>
      rcases step_insmod (B := B) s with ⟨-, hstep⟩ | hstep
      · rw [hstep] at hreached ⊢
        exact .fresh hreached rfl rfl
      · rw [hstep]
        exact h
    | rmmod =>
      rcases step_rmmod (B := B) s with ⟨-, hstep⟩ | hstep
      · rw [hstep] at hreached ⊢
        exact .fresh hreached rfl rfl
      · rw [hstep]
        exact h
    | proceed error => exact h.proceed hfree (proceed_effect s error)
    | _ => exact absurd rfl hthread

theorem booted_memoryInv : booted.MemoryInv B := .fresh (booted_reached _) rfl rfl

/-! ### The locked sections -/

theorem initsFree_of_apart {s : Host} {e : Event} (h : SectionsApart s e) : InitsFree s e := by
  cases e with
  | proceed error =>
    intro ha m hm
    rcases h (by rw [ha]; rfl) m hm with hfree | ⟨hc, -⟩
    · exact hfree
    · rw [ha] at hc
      cases hc
  | _ => trivial

theorem Host.Exclusive.goesTo {s s' : Host} (h : s.Exclusive) (hmodule : s'.module = s.module)
    (hne : s'.admin ≠ .removeLocked) : s'.Exclusive :=
  ⟨hmodule ▸ h.calls, fun ha => absurd ha hne⟩

/-- Without a module there is no mutex. -/
theorem Host.Exclusive.gone {s : Host} (h : s.module = none) : s.Exclusive :=
  ⟨fun m hm => by simp [h] at hm, fun _ m hm => by simp [h] at hm⟩

theorem Host.Exclusive.thread {s : Host} (h : s.Exclusive) {e : Event} (he : e.ofThread = true) :
    (s.step B e).Exclusive := by
  have hacts := step_acts (B := B) s he
  constructor
  · rw [hacts.module]
    intro m' hm'
    obtain ⟨m, hm, rfl⟩ := Option.mem_map.mp hm'
    cases ha : s.action e with
    | none => exact h.calls m hm
    | some a =>
      exact exclusive_step m a (fun t heq => absurd heq (action_ne_interrupt ha t)) (h.calls m hm)
  · rw [hacts.admin, hacts.module]
    intro hlocked m' hm'
    obtain ⟨m, hm, rfl⟩ := Option.mem_map.mp hm'
    have hmutex := h.cleanup hlocked m hm
    cases ha : s.action e with
    | none => exact hmutex
    | some a =>
      cases enacts_of_action ha with
      | scheduler hr =>
        rw [hlocked] at hr
        cases hr
      | @jump t c => exact (congrArg Lock.holder (invoke_lock (B := B) m t c)).trans hmutex
      | work t =>
        exact (h.calls m hm).holder_of_ne (advance_lock m t) hmutex fun heq => by cases heq

/-- With the scheduler thread gone, an unlock by the cleanup takes the mutex
from nobody but itself. -/
theorem exclusive_unlock {m : State} (h : m.lock.Exclusive) (htop : m.scheduler = .top)
    (hmutex : m.mutex = none ∨ m.mutex = some .scheduler) :
    Lock.Exclusive (State.lock { m with mutex := none }) := by
  intro x hx
  have hholds : m.mutex = some x := h x hx
  rcases hmutex with hnone | hown
  · rw [hnone] at hholds
    cases hholds
  · obtain rfl : Tid.scheduler = x := Option.some.inj (hown.symm.trans hholds)
    have hst : m.scheduler.stage = .inside ∨ ∃ held, m.scheduler.stage = .leaving held := hx
    simp [htop, SchedulerPc.stage] at hst

theorem Host.Exclusive.cleanup_step {s : Host} {m : State} {error : Nat} (h : s.Exclusive)
    (hmem : s.MemoryInv B) (hap : SectionsApart s (.proceed error))
    (hc : s.admin.cleansUp = true) (hm : s.module = some m) :
    (s.cleanup B m error).Exclusive := by
  have hex := h.calls m hm
  unfold Host.cleanup
  cases ha : s.admin with
  | removeLock =>
    simp only
    split
    · exact h.goesTo rfl (by simp)
    · split
      · next hfree =>
          -- nobody is past the wait, for nobody holds the mutex
          have hnobody : Lock.Exclusive (State.lock { m with mutex := some .scheduler }) := by
            intro x hx
            have hholds : m.mutex = some x := hex x hx
            rw [hfree] at hholds
            cases hholds
          exact ⟨fun m' hm' => by cases hm'; exact hnobody, fun _ m' hm' => by cases hm'; rfl⟩
      · exact h
  | removeLocked => exact ⟨fun m' hm' => by cases hm'; exact hex, fun hs => by cases hs⟩
  | removeUnlock dl =>
    have htop := hmem.halted (by rw [ha]; rfl) m hm
    have hmutex := (hap (by rw [ha]; rfl) m hm).imp_right And.right
    exact ⟨fun m' hm' => by cases hm'; exact exclusive_unlock hex htop hmutex,
      fun hs => by cases hs⟩
  | removeFree dl => exact ⟨fun m' hm' => by cases hm'; exact hex, fun hs => by cases hs⟩
  | destroyMutex => exact h.goesTo rfl (by simp)
  | _ => rw [ha] at hc; cases hc

theorem Host.Exclusive.proceed {s s' : Host} {error : Nat} (h : s.Exclusive)
    (hmem : s.MemoryInv B) (hap : SectionsApart s (.proceed error))
    (he : Effect B s (.proceed error) s') : s'.Exclusive := by
  cases he with
  | same _ => exact h
  | setUp _ =>
    refine ⟨fun m' hm' => ?_, fun hs => by cases hs⟩
    obtain ⟨m, hm, rfl⟩ := Option.mem_map.mp hm'
    exact h.calls m hm
  | pointed c _ => exact h.goesTo rfl (by cases c <;> exact fun hs => by cases hs)
  | created _ => exact h.goesTo rfl fun hs => by cases hs
  | ready ha =>
    refine ⟨fun m' hm' => ?_, fun hs => by cases hs⟩
    obtain ⟨m, hm, rfl⟩ := Option.mem_map.mp hm'
    have hex := h.calls m hm
    rw [State.lock, initsFree_of_apart hap ha m hm] at hex
    exact hex
  | cleared c _ => exact h.goesTo rfl (by cases c <;> exact fun hs => by cases hs)
  | stopped _ _ _ _ => exact h.goesTo rfl fun hs => by cases hs
  | cleaned m ha hm => exact h.cleanup_step hmem hap ha hm
  | failed _ _ => exact .gone rfl
  | gone _ => exact .gone rfl
  | left h => rcases h with h | h | h <;> cases h

theorem Host.Exclusive.step {s : Host} (h : s.Exclusive) (hmem : s.MemoryInv B) (e : Event)
    (hap : SectionsApart s e) : (s.step B e).Exclusive := by
  by_cases hthread : e.ofThread = true
  · exact h.thread hthread
  · cases e with
    | insmod =>
      rcases step_insmod (B := B) s with ⟨-, hstep⟩ | hstep
      · rw [hstep]
        exact ⟨fun m' hm' => by cases hm'; exact exclusive_loaded (B := B), fun hs => by cases hs⟩
      · rw [hstep]
        exact h
    | rmmod =>
      rcases step_rmmod (B := B) s with ⟨-, hstep⟩ | hstep
      · rw [hstep]
        exact h.goesTo rfl fun hs => by cases hs
      · rw [hstep]
        exact h
    | proceed error => exact h.proceed hmem hap (proceed_effect s error)
    | _ => exact absurd rfl hthread

/-- While the sections are kept apart from what the kernel does, they are kept
apart from one another, that of the cleanup included. -/
theorem sections_exclusive {es : List Event} (h : (kernel B).Along SectionsApart booted es) :
    (Host.after B es).Exclusive :=
  ((kernel B).inv_of_along (P := fun s => s.MemoryInv B ∧ s.Exclusive)
    (fun _ e hap hs => ⟨hs.1.step e (initsFree_of_apart hap), hs.2.step hs.1 e hap⟩) es booted
    ⟨booted_memoryInv, .gone rfl⟩ h).2

/-! ### One event -/

theorem unfreed_eq_zero_iff {s : Host} {m : State} (h : s.module = some m) :
    s.unfreed = 0 ↔ ∀ p ∈ m.g.allocated, p ∈ m.g.freed := by
  simp [Host.unfreed, h, List.countP_eq_zero]

/-- Before the cleanup nothing is lost yet. -/
theorem Host.Kept.before {s s' : Host} (h : s.Kept) (hleaked : s'.leaked = s.leaked)
    (hc : s'.admin.cleaned = false) : s'.Kept :=
  ⟨hleaked.trans h.leaked, fun hc' => by rw [hc] at hc'; cases hc'⟩

/-- When the memory is freed all records must have been. -/
theorem kept_unplace {s : Host} (h : s.Kept) : s.unplace.Kept ↔ s.unfreed = 0 := by
  constructor
  · intro hk
    have hzero : s.leaked + s.unfreed = 0 := hk.leaked
    omega
  · exact fun hzero => ⟨by simp only [Host.unplace, h.leaked, hzero], fun hc => by cases hc⟩

/-- With the lists empty only a request that gets in fills one. -/
theorem lists_advance {m : State} (h : ListsEmpty m.g) (t : Nat) :
    ListsEmpty (m.step B (.advance t)).g
      ↔ ∀ a b k, m.calls t = .issueLocked a b k → m.g.deactiving = true := by
  have he := callStep_effect (B := B) t m.g m.mutex (m.calls t)
  have hlocked : ∀ a b k, m.calls t = .issueLocked a b k → m.g.deactiving = true →
      (callStep B t m.g m.mutex (m.calls t)).1 = m.g := by
    intro a b k hpc hd
    simp [hpc, callStep, issueRequestLocked, hd]
  simp only [State.step]
  generalize hg : (callStep B t m.g m.mutex (m.calls t)).1 = g' at he hlocked
  generalize hpc : m.calls t = pc at he hlocked
  cases he with
  | @added a b k hd =>
    refine iff_of_false (fun hl => ?_) fun hall => ?_
    · have hnil := hl.2 (a - 1)
      simp [addPassenger] at hnil
    · rw [hall a b k rfl] at hd
      cases hd
  | same pc =>
    refine iff_of_true h fun a b k heq => ?_
    subst heq
    cases hd : m.g.deactiving with
    | true => rfl
    | false =>
      -- it would have been added
      simp only [hpc, callStep, issueRequestLocked, hd] at hg
      have hlen := congrArg (fun g => (g.waitingList (a - 1)).length) hg
      simp [addPassenger] at hlen
  | taken => exact iff_of_true ⟨rfl, h.2⟩ fun _ _ _ heq => by cases heq
  | _ => exact iff_of_true ⟨h.1, h.2⟩ fun _ _ _ heq => by cases heq

/-- Only a step of a call can be untidy. -/
theorem tidy_thread {s : Host} {e : Event} (he : e.ofThread = true)
    (h : ∀ t, e = .work t → Tidy s (.work t)) : Tidy s e := by
  cases e with
  | work t => exact h t rfl
  | proceed error => cases he
  | _ => trivial

theorem kept_thread {s : Host} (hs : s.Kept) {e : Event} (he : e.ofThread = true) :
    (s.step B e).Kept ↔ Tidy s e := by
  have hacts := step_acts (B := B) s he
  cases hc : s.admin.cleaned with
  | false =>
    refine iff_of_true (hs.before hacts.leaked (by rw [hacts.admin, hc])) ?_
    refine tidy_thread he fun t _ hc' => ?_
    rw [hc] at hc'
    cases hc'
  | true =>
    have hkept : (s.step B e).Kept ↔ ∀ m ∈ (s.step B e).module, ListsEmpty m.g :=
      ⟨fun h => h.lists (by rw [hacts.admin, hc]), fun h => ⟨hacts.leaked.trans hs.leaked,
        fun _ => h⟩⟩
    rw [hkept, hacts.module]
    have hlists := hs.lists hc
    cases ha : s.action e with
    | none =>
      refine iff_of_true (fun m hm => ?_) (tidy_thread he fun t ht _ _ _ _ _ _ haction => ?_)
      · obtain ⟨m', hm', rfl⟩ := Option.mem_map.mp hm
        exact hlists m' hm'
      · rw [ht, haction] at ha
        cases ha
    | some a =>
      cases enacts_of_action ha with
      | scheduler hr =>
        rw [halted_idle (halted_of_cleaned hc)] at hr
        cases hr
      | jump _ =>
        refine iff_of_true (fun m hm => ?_) (tidy_thread he fun u hu => by cases hu)
        obtain ⟨m', hm', rfl⟩ := Option.mem_map.mp hm
        simp only [Option.elim_some, State.step]
        split <;> exact hlists m' hm'
      | work t =>
        constructor
        · intro h _ m hm a b k _ hpc
          have hnext := h _ (Option.mem_map_of_mem _ hm)
          exact (lists_advance (hlists m hm) t).mp hnext a b k hpc
        · intro h m' hm'
          obtain ⟨m, hm, rfl⟩ := Option.mem_map.mp hm'
          exact (lists_advance (hlists m hm) t).mpr fun a b k hpc => h hc m hm a b k ha hpc

/-- The lines of the cleanup. -/
theorem kept_cleanup {s : Host} {m : State} {error : Nat} (hs : s.Kept) (hmem : s.MemoryInv B)
    (hc : s.admin.cleansUp = true) (hm : s.module = some m) :
    (s.cleanup B m error).Kept ↔ Tidy s (.proceed error) := by
  unfold Host.cleanup
  cases ha : s.admin with
  | removeLock =>
    simp only [Tidy, ha]
    by_cases herror : error ≠ 0
    · rw [if_pos herror]
      exact ⟨fun h _ => h.lists rfl, fun h => ⟨hs.leaked, fun _ => h herror⟩⟩
    · rw [if_neg herror]
      refine iff_of_true ?_ fun h => absurd h herror
      split
      · exact hs.before rfl rfl
      · exact hs
  | removeLocked =>
    refine iff_of_true ⟨hs.leaked, fun _ m' hm' => ?_⟩ (by simp [Tidy, ha])
    obtain rfl := Option.some.inj hm'
    exact (Ledger.removeAll (hmem.locked ha m hm)).2
  | removeUnlock dl =>
    refine iff_of_true ⟨hs.leaked, fun _ m' hm' => ?_⟩ (by simp [Tidy, ha])
    obtain rfl := Option.some.inj hm'
    exact hs.lists (by rw [ha]; rfl) m hm
  | removeFree dl =>
    refine iff_of_true ⟨hs.leaked, fun _ m' hm' => ?_⟩ (by simp [Tidy, ha])
    obtain rfl := Option.some.inj hm'
    have hlists := hs.lists (by rw [ha]; rfl) m hm
    simpa [ListsEmpty, kfreeAll_eq] using hlists
  | destroyMutex =>
    exact iff_of_true ⟨hs.leaked, fun _ => hs.lists (by rw [ha]; rfl)⟩ (by simp [Tidy, ha])
  | _ => rw [ha] at hc; cases hc

theorem kept_proceed {s s' : Host} {error : Nat} (hs : s.Kept) (hmem : s.MemoryInv B)
    (he : Effect B s (.proceed error) s') : s'.Kept ↔ Tidy s (.proceed error) := by
  cases he with
  | same hidle =>
    refine iff_of_true hs ?_
    rcases hidle.line error rfl with ha | ha | ha | ⟨-, hnone⟩
    · simp [Tidy, ha]
    · simp [Tidy, ha]
    · simp [Tidy, ha]
    · cases ha : s.admin <;> simp [Tidy, ha, hnone]
  | setUp ha => exact iff_of_true (hs.before rfl rfl) (by simp [Tidy, ha])
  | pointed c ha => exact iff_of_true (hs.before rfl (by cases c <;> rfl)) (by simp [Tidy, ha])
  | created ha => exact iff_of_true (hs.before rfl rfl) (by simp [Tidy, ha])
  | ready ha => exact iff_of_true (hs.before rfl rfl) (by simp [Tidy, ha])
  | cleared c ha => exact iff_of_true (hs.before rfl (by cases c <;> rfl)) (by simp [Tidy, ha])
  | stopped _ ha _ _ => exact iff_of_true (hs.before rfl rfl) (by simp [Tidy, ha])
  | cleaned m ha hm => exact kept_cleanup hs hmem ha hm
  | failed ha hf =>
    obtain ⟨_, herror, hne, -⟩ := hf.admin
    cases herror
    have hstarting : s.admin.starting = true := by
      rcases ha with ha | ha <;> simp [ha, Admin.starting]
    obtain ⟨as, -, hholds⟩ := hmem.reached
    have hm := hholds.runs (by rcases ha with ha | ha <;> simp [ha, Admin.runs])
    have hfreed := (hmem.untouched hstarting _ hm).freed
    -- no record has been freed yet, so all of them are left behind
    have hnone : s.unplace.Kept ↔ (State.after B as).g.allocated = [] := by
      rw [kept_unplace hs, unfreed_eq_zero_iff hm, hfreed]
      simp [List.eq_nil_iff_forall_not_mem]
    rw [hnone]
    rcases ha with ha | ha <;> simp [Tidy, ha, hne, hm]
  | gone ha =>
    have hcleaned : s.admin.cleaned = true := by rw [ha]; rfl
    have hthere := (kept_unplace hs).trans (b := s.unfreed = 0) Iff.rfl
    rw [hthere]
    simp only [Tidy, ha]
    cases hm : s.module with
    | none => simp [Host.unfreed, hm]
    | some m =>
      have hledger := hmem.ledger hcleaned m hm
      rw [ha] at hledger
      have hall := hledger.freed_iff (hs.lists hcleaned m hm)
        (hmem.halted (halted_of_cleaned hcleaned) m hm)
      rw [unfreed_eq_zero_iff hm, hall]
      simp
  | left h => rcases h with h | h | h <;> cases h

theorem kept_step {s : Host} (hmem : s.MemoryInv B) (hs : s.Kept) (e : Event) :
    (s.step B e).Kept ↔ Tidy s e := by
  by_cases hthread : e.ofThread = true
  · exact kept_thread hs hthread
  · cases e with
    | proceed error => exact kept_proceed hs hmem (proceed_effect s error)
    | insmod =>
      refine iff_of_true ?_ trivial
      rcases step_insmod (B := B) s with ⟨-, hstep⟩ | hstep <;> rw [hstep]
      · exact hs.before rfl rfl
      · exact hs
    | rmmod =>
      refine iff_of_true ?_ trivial
      rcases step_rmmod (B := B) s with ⟨-, hstep⟩ | hstep <;> rw [hstep]
      · exact hs.before rfl rfl
      · exact hs
    | _ => exact absurd rfl hthread

/-- **When every record is given back**: if what the kernel does comes at no
call's locked section, then in a run with any loads and unloads no record is
left behind in freed memory, or on a list that nobody looks at any more, if
and only if no `elevator_init` fails with a request already queued, the lock
of the cleanup is not broken off while there are records to free, no request
gets in after the cleanup, and no stop is still to free its `delete_list` when
the memory goes. -/
theorem records_returned_iff (B : Building) (es : List Event)
    (hapart : (kernel B).Along SectionsApart booted es) :
    (∀ pre, pre <+: es → (Host.after B pre).Kept) ↔ (kernel B).Along Tidy booted es :=
  (kernel B).along_iff_of_survives_along (I := Host.MemoryInv B) (P := Host.Kept)
    (fun _ e hf h => h.step e hf) (fun _ e _ hmem hs => kept_step hmem hs e) es booted
    booted_memoryInv ⟨rfl, fun hc => by cases hc⟩
    (hapart.mono _ fun _ _ => initsFree_of_apart)

/-- The memory may not go while a stop still has records to free. -/
theorem not_tidy_gone (es : List Event) (error t : Nat)
    (ha : (Host.after B es).admin = .removeProc)
    (hstop : ∃ m ∈ (Host.after B es).module, (m.calls t).deleteList ≠ []) :
    ¬ (kernel B).Along Tidy booted (es ++ [.proceed error]) := by
  intro hal
  have hlast : Tidy (Host.after B es) (.proceed error) := Machine.Along.at _ hal
  obtain ⟨m, hm, hne⟩ := hstop
  simp only [Tidy, ha] at hlast
  exact hne (hlast m hm t)

/-- A stop has unlocked and not yet freed its only rider when the module is
removed from under it. -/
theorem records_returned_stop :
    ¬ ∀ pre, pre <+: ((.insmod :: List.replicate 6 (.proceed 0)) ++
      ([.enter 0 .startElevator, .jump 0, .work 0, .work 0, .work 0, .back 0,
        .enter 1 (.issueRequest 1 2 0), .jump 1, .work 1, .work 1, .work 1, .work 1, .back 1] ++
      List.replicate 12 .scheduler ++ [.enter 2 .stopElevator, .jump 2] ++
      List.replicate 7 (.work 2) ++ .rmmod :: List.replicate 9 (.proceed 0)) ++ [.proceed 0]) →
        (Host.after .source pre).Kept := by
  rw [records_returned_iff .source _ (by decide +kernel)]
  exact not_tidy_gone _ 0 2 (by decide +kernel) (by decide +kernel)

end KernelElevator.Kernel
