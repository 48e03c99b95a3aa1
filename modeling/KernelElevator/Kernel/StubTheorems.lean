/-
KernelElevator.Kernel.StubTheorems — which system calls find their way into
the module, and back.

`Effect` says once what an event can do; `step_effect` proves it. Over it

  §2 `Host.Inv` — what the pointers are at each line of `elevator_init` and
     `elevator_exit`, and which loads the threads can be inside of;
  §3 the pointers are `NULL` or lead into the module exactly as long as no
     `elevator_init` has come back with an error (`stubs_sound_iff`): the
     error paths leave them as they are;
  §4 no thread is ever about to jump through `NULL` or to go on in freed
     memory exactly if the pointers are cleared and the memory is freed while
     no thread is on its way, and no call is made over a pointer that an
     error has left behind (`callers_safe_iff`).
-/
import KernelElevator.Kernel.Stubs

namespace KernelElevator.Kernel

open Transition

variable (B : Building)

/-! ## §1 What one event can do -/

/-- `elevator_init` comes back with an error. -/
def Fails (s : Host) (e : Event) : Prop := ∃ r, s.initResult e = some r ∧ r ≠ 0

/-- A line of `removeAllPassengers`, or `mutex_destroy`, comes next. -/
def Admin.cleansUp : Admin → Bool
  | .removeLock | .removeLocked | .removeUnlock _ | .removeFree _ | .destroyMutex => true
  | _ => false

/-- There is nothing to go on with: no line, or no pointer to go through. -/
structure Idle (s : Host) (e : Event) : Prop where
  line : ∀ error, e = .proceed error →
    s.admin = .absent ∨ s.admin = .live ∨ s.admin = .stopThread ∨
      s.admin.cleansUp = true ∧ s.module = none
  pointer : ∀ t c, e = .enter t c → s.caller t = .outside → s.stub (syscallOf c) = none

/-- The changes one event can make. -/
inductive Effect (s : Host) : Event → Host → Prop
  | same {e : Event} (h : Idle s e) : Effect s e s
  | placed (h : s.admin = .absent) :
      Effect s .insmod
        { s with placed := s.placed + 1, module := some placedModule, admin := .setup }
  | leaves (h : s.admin = .live) :
      Effect s .rmmod { s with admin := .clearStub .startElevator }
  | setUp {error : Nat} (h : s.admin = .setup) : Effect s (.proceed error)
      { s.write (fun m => { m with g := setupElevator B m.g }) with
        admin := .setStub .startElevator }
  | pointed {error : Nat} (c : Syscall) (h : s.admin = .setStub c) : Effect s (.proceed error)
      { s with
        stub := Function.update s.stub c (some s.placed)
        admin := c.next.elim .createProc .setStub }
  | created (h : s.admin = .createProc) :
      Effect s (.proceed 0) { s with procEntry := true, admin := .startThread }
  | ready (h : s.admin = .startThread) : Effect s (.proceed 0)
      { s.write (fun m => { m with mutex := none }) with admin := .live }
  | failed {e : Event} (h : s.admin = .createProc ∨ s.admin = .startThread) (hf : Fails s e) :
      Effect s e s.unplace
  | cleared {error : Nat} (c : Syscall) (h : s.admin = .clearStub c) : Effect s (.proceed error)
      { s with
        stub := Function.update s.stub c none
        admin := c.next.elim .stopThread .clearStub }
  | stopped {error : Nat} (m : Threads.State) (h : s.admin = .stopThread)
      (hm : s.module = some m) (htop : m.scheduler = .top) :
      Effect s (.proceed error) { s with admin := .removeLock }
  | cleaned {error : Nat} (m : Threads.State) (h : s.admin.cleansUp = true)
      (hm : s.module = some m) : Effect s (.proceed error) (s.cleanup B m error)
  | gone {error : Nat} (h : s.admin = .removeProc) : Effect s (.proceed error) s.unplace
  | ran (h : s.admin.threadRuns = true) :
      Effect s .scheduler (s.write fun m => m.step B .scheduler)
  | entered {t n : Nat} {c : Call} (h : s.caller t = .outside)
      (hn : s.stub (syscallOf c) = some n) : Effect s (.enter t c) (s.moveTo t (.tested c))
  | jumped {t : Nat} {c : Call} (h : s.caller t = .tested c)
      (hm : s.Mapped (s.stub (syscallOf c))) : Effect s (.jump t)
      ((s.write fun m => m.step B (.invoke t c)).moveTo t (.inside c s.placed))
  | worked {t : Nat} {c : Call} (m : Threads.State) (h : s.caller t = .inside c s.placed)
      (hm : s.module = some m) : Effect s (.work t)
      ((s.write fun m => m.step B (.advance t)).moveTo t
        (.on c s.placed ((m.step B (.advance t)).calls t)))
  | left {e : Event} {t : Nat} (h : e = .jump t ∨ e = .work t ∨ e = .back t) :
      Effect s e (s.moveTo t .outside)

variable {B}

theorem cleanup_effect {s : Host} (h : s.admin.cleansUp = true) (error : Nat) :
    Effect B s (.proceed error) (s.module.elim s fun m => s.cleanup B m error) := by
  cases hm : s.module with
  | none =>
    exact .same ⟨fun _ _ => Or.inr (Or.inr (Or.inr ⟨h, hm⟩)), fun _ _ he => by cases he⟩
  | some m => exact .cleaned m h hm

theorem proceed_effect (s : Host) (error : Nat) :
    Effect B s (.proceed error) (s.proceed B error) := by
  have hidle : s.admin = .absent ∨ s.admin = .live ∨ s.admin = .stopThread →
      Effect B s (.proceed error) s := fun h =>
    .same ⟨fun _ _ => h.imp_right fun h => h.imp_right Or.inl, fun _ _ he => by cases he⟩
  unfold Host.proceed
  cases h : s.admin with
  | absent => exact hidle (Or.inl h)
  | setup => exact .setUp h
  | setStub c => exact .pointed c h
  | createProc =>
    by_cases he : error = 0
    · subst he
      exact .created h
    · have hfails : Fails s (.proceed error) :=
        ⟨-eNoMem, by simp [Host.initResult, h, he], by decide⟩
      simpa only [if_neg he] using Effect.failed (Or.inl h) hfails
  | startThread =>
    by_cases he : error = 0
    · subst he
      exact .ready h
    · have hfails : Fails s (.proceed error) := ⟨-error, by simp [Host.initResult, h], by omega⟩
      simpa only [if_neg he] using Effect.failed (Or.inr h) hfails
  | live => exact hidle (Or.inr (Or.inl h))
  | clearStub c => exact .cleared c h
  | stopThread =>
    by_cases hany : s.module.any (·.scheduler = .top) = true
    · obtain ⟨m, hm, htop⟩ := (Option.any_eq_true _ _).mp hany
      simpa only [if_pos hany] using Effect.stopped m h hm (of_decide_eq_true htop)
    · simpa only [if_neg hany] using hidle (Or.inr (Or.inr h))
  | removeProc => exact .gone h
  | _ => exact cleanup_effect (by rw [h]; rfl) error

/-- Every step is one of the effects. -/
theorem step_effect (s : Host) (e : Event) : Effect B s e (s.step B e) := by
  have hidle : (∀ error, e ≠ .proceed error) → (∀ t c, e ≠ .enter t c) → Effect B s e s :=
    fun hp he => .same ⟨fun error h => absurd h (hp error), fun t c h => absurd h (he t c)⟩
  cases e with
  | proceed error => exact proceed_effect s error
  | insmod =>
    simp only [Host.step]
    split
    · next h => exact .placed h
    · exact hidle (by simp) (by simp)
  | rmmod =>
    simp only [Host.step]
    split
    · next h => exact .leaves h
    · exact hidle (by simp) (by simp)
  | scheduler =>
    simp only [Host.step]
    split
    · next h => exact .ran h
    · exact hidle (by simp) (by simp)
  | enter t c =>
    simp only [Host.step]
    split
    · next h =>
        cases hs : s.stub (syscallOf c) with
        | some n => exact .entered h hs
        | none =>
          refine .same ⟨by simp, fun u d he _ => ?_⟩
          cases he
          exact hs
    · next h =>
        refine .same ⟨by simp, fun u d he hout => ?_⟩
        cases he
        exact absurd hout h
  | jump t =>
    simp only [Host.step]
    split
    · next h =>
        split
        · next hm => exact .jumped h hm
        · exact .left (Or.inl rfl)
    · exact hidle (by simp) (by simp)
  | work t =>
    simp only [Host.step]
    split
    · next h hm =>
        split
        · next hl => subst hl; exact .worked _ h hm
        · exact .left (Or.inr (Or.inl rfl))
    · exact .left (Or.inr (Or.inl rfl))
    · exact hidle (by simp) (by simp)
  | back t =>
    simp only [Host.step]
    split
    · exact .left (Or.inr (Or.inr rfl))
    · exact hidle (by simp) (by simp)

/-! ## §2 The pointers, line by line -/

/-- The place of a pointer in the order of the assignments. -/
def Syscall.rank : Syscall → Nat
  | .startElevator => 0
  | .issueRequest => 1
  | .stopElevator => 2

/-- `elevator_init` has set the pointer, and `elevator_exit` has not yet
cleared it. -/
def Admin.isSet (a : Admin) (c : Syscall) : Bool :=
  match a with
  | .setStub d => c.rank < d.rank
  | .createProc | .startThread | .live => true
  | .clearStub d => d.rank ≤ c.rank
  | _ => false

/-- `elevator_exit` has cleared the pointer. -/
def Admin.isCleared (a : Admin) (c : Syscall) : Bool :=
  match a with
  | .clearStub d => c.rank < d.rank
  | .stopThread | .removeLock | .removeLocked | .removeUnlock _ | .removeFree _
  | .destroyMutex | .removeProc => true
  | _ => false

/-- The load whose function the thread is in. -/
def Caller.load : Caller → Option Nat
  | .inside _ load | .returning _ load => some load
  | _ => none

/-- What holds after any events. -/
structure Host.Inv (s : Host) : Prop where
  module_iff : s.module = none ↔ s.admin = .absent
  set : ∀ c, s.admin.isSet c = true → s.stub c = some s.placed
  cleared : ∀ c, s.admin.isCleared c = true → s.stub c = none
  stub_le : ∀ c n, s.stub c = some n → n ≤ s.placed
  load_le : ∀ t n, (s.caller t).load = some n → n ≤ s.placed
  stub_ne : s.admin = .setup → ∀ c, s.stub c ≠ some s.placed
  load_ne : s.admin = .setup → ∀ t, (s.caller t).load ≠ some s.placed

theorem Host.Inv.isSome {s : Host} (h : s.Inv) (ha : s.admin ≠ .absent) :
    s.module.isSome = true := by
  cases hm : s.module with
  | none => exact absurd (h.module_iff.mp hm) ha
  | some m => rfl

/-- The order of the assignments, as `elevator_init` goes through it. -/
theorem isSet_next (c d : Syscall) :
    (c.next.elim Admin.createProc Admin.setStub).isSet d
      = decide (d = c ∨ (Admin.setStub c).isSet d = true) := by
  cases c <;> cases d <;> rfl

/-- And as `elevator_exit` does. -/
theorem isSet_clear (c d : Syscall) :
    (c.next.elim Admin.stopThread Admin.clearStub).isSet d
      = decide (d ≠ c ∧ (Admin.clearStub c).isSet d = true) := by
  cases c <;> cases d <;> rfl

theorem isCleared_clear (c d : Syscall) :
    (c.next.elim Admin.stopThread Admin.clearStub).isCleared d
      = decide (d = c ∨ (Admin.clearStub c).isCleared d = true) := by
  cases c <;> cases d <;> rfl

theorem isCleared_next (c d : Syscall) :
    (c.next.elim Admin.createProc Admin.setStub).isCleared d = false := by
  cases c <;> cases d <;> rfl

theorem next_ne (c : Syscall) :
    (c.next.elim Admin.createProc Admin.setStub ≠ .absent ∧
      c.next.elim Admin.createProc Admin.setStub ≠ .setup) ∧
    (c.next.elim Admin.stopThread Admin.clearStub ≠ .absent ∧
      c.next.elim Admin.stopThread Admin.clearStub ≠ .setup) := by
  cases c <;> decide

/-- A call that goes on stays in its load. -/
theorem load_on (c : Call) (load : Nat) (pc : Threads.CallPc) :
    (Caller.on c load pc).load = some load := by
  cases pc <;> rfl

theorem moveTo_caller (s : Host) (t u : Nat) (c : Caller) :
    (s.moveTo t c).caller u = if u = t then c else s.caller u := by
  simp only [Host.moveTo, Function.update_apply]

/-- A thread that goes on elsewhere keeps the invariant, if it does not go
into another load than the one that is there. -/
theorem Host.Inv.moveTo {s : Host} (h : s.Inv) (t : Nat) {c : Caller}
    (hc : ∀ n, c.load = some n → n ≤ s.placed ∧ (s.admin = .setup → n ≠ s.placed)) :
    (s.moveTo t c).Inv := by
  refine ⟨h.module_iff, h.set, h.cleared, h.stub_le, fun u n hu => ?_, h.stub_ne,
    fun ha u hu => ?_⟩
  · rw [moveTo_caller] at hu
    split at hu
    · exact (hc n hu).1
    · exact h.load_le u n hu
  · rw [moveTo_caller] at hu
    split at hu
    · exact (hc _ hu).2 ha rfl
    · exact h.load_ne ha u hu

/-- So does the module when it writes its own memory. -/
theorem Host.Inv.write {s : Host} (h : s.Inv) (f : Threads.State → Threads.State) :
    (s.write f).Inv :=
  ⟨Option.map_eq_none_iff.trans h.module_iff, h.set, h.cleared, h.stub_le, h.load_le, h.stub_ne,
    h.load_ne⟩

/-- The next line of `elevator_init` or `elevator_exit`, where it leaves the
pointers alone. -/
theorem Host.Inv.goesTo {s : Host} (h : s.Inv) (ha : s.admin ≠ .absent) {a : Admin} (p : Bool)
    (hset : ∀ c, a.isSet c = true → s.admin.isSet c = true)
    (hcleared : ∀ c, a.isCleared c = true → s.admin.isCleared c = true)
    (ha' : a ≠ .absent ∧ a ≠ .setup) : ({ s with admin := a, procEntry := p } : Host).Inv where
  module_iff := iff_of_false (fun hm => ha (h.module_iff.mp hm)) ha'.1
  set c hc := h.set c (hset c hc)
  cleared c hc := h.cleared c (hcleared c hc)
  stub_le := h.stub_le
  load_le := h.load_le
  stub_ne hs := absurd hs ha'.2
  load_ne hs := absurd hs ha'.2

/-- The lines of the cleanup write the module's memory and go on. -/
theorem cleanup_frame (s : Host) (m : Threads.State) (error : Nat)
    (h : s.admin.cleansUp = true) (hm : s.module = some m) :
    ∃ m' a, s.cleanup B m error = { s with module := some m', admin := a } ∧
      (a.cleansUp = true ∨ a = .removeProc) := by
  unfold Host.cleanup
  cases ha : s.admin with
  | removeLock =>
    simp only
    split
    · exact ⟨m, _, by rw [← hm], Or.inl rfl⟩
    · split
      · exact ⟨_, _, rfl, Or.inl rfl⟩
      · exact ⟨m, s.admin, by rw [← hm], Or.inl h⟩
  | removeLocked => exact ⟨_, _, rfl, Or.inl rfl⟩
  | removeUnlock dl => exact ⟨_, _, rfl, Or.inl rfl⟩
  | removeFree dl => exact ⟨_, _, rfl, Or.inl rfl⟩
  | destroyMutex => exact ⟨m, _, by rw [← hm], Or.inr rfl⟩
  | _ => rw [ha] at h; cases h

/-- In the cleanup the pointers are cleared. -/
theorem cleansUp_line {a : Admin} (h : a.cleansUp = true ∨ a = .removeProc) :
    (a ≠ .absent ∧ a ≠ .setup) ∧ ∀ c, a.isSet c = false ∧ a.isCleared c = true := by
  rcases h with h | rfl
  · cases a <;> first | cases h; done | exact ⟨⟨by simp, by simp⟩, fun _ => ⟨rfl, rfl⟩⟩
  · exact ⟨⟨by simp, by simp⟩, fun _ => ⟨rfl, rfl⟩⟩

theorem Host.Inv.unplace {s : Host} (h : s.Inv) : s.unplace.Inv where
  module_iff := iff_of_true rfl rfl
  set c hc := by cases hc
  cleared c hc := by cases hc
  stub_le := h.stub_le
  load_le := h.load_le
  stub_ne hs := by cases hs
  load_ne hs := by cases hs

theorem Host.Inv.effect {s s' : Host} {e : Event} (h : s.Inv) (he : Effect B s e s') : s'.Inv := by
  cases he with
  | same _ => exact h
  | placed ha =>
    refine ⟨iff_of_false (by simp) (by simp), (fun c hc => by cases hc), (fun c hc => by cases hc),
      fun c n hn => Nat.le_succ_of_le (h.stub_le c n hn),
      fun t n hn => Nat.le_succ_of_le (h.load_le t n hn), fun _ c hc => ?_, fun _ t ht => ?_⟩
    · have hle := h.stub_le c _ hc
      simp only at hle
      omega
    · have hle := h.load_le t _ ht
      simp only at hle
      omega
  | leaves ha =>
    exact h.goesTo (by simp [ha]) s.procEntry (fun c _ => by simp [ha, Admin.isSet])
      (fun c hc => by cases c <;> cases hc) (by decide)
  | setUp ha =>
    exact (h.write _).goesTo (by simpa [Host.write] using fun hx => by simp [ha] at hx) s.procEntry
      (fun c hc => by cases c <;> cases hc) (fun c hc => by cases hc) (by decide)
  | pointed c ha =>
    refine ⟨iff_of_false (fun hm => ?_) (next_ne c).1.1, fun d hd => ?_, fun d hd => ?_,
      fun d n hn => ?_, h.load_le, fun hs => absurd hs (next_ne c).1.2,
      fun hs => absurd hs (next_ne c).1.2⟩
    · have hx := h.module_iff.mp hm
      simp [ha] at hx
    · simp only [isSet_next, decide_eq_true_eq] at hd
      rcases hd with rfl | hd
      · exact Function.update_self ..
      · by_cases hdc : d = c
        · subst hdc; exact Function.update_self ..
        · exact (Function.update_of_ne hdc ..).trans (h.set d (ha ▸ hd))
    · rw [isCleared_next] at hd
      cases hd
    · by_cases hdc : d = c
      · subst hdc
        simp only [Function.update_self, Option.some.injEq] at hn
        exact hn ▸ Nat.le_refl _
      · simp only [Function.update_of_ne hdc] at hn
        exact h.stub_le d n hn
  | created ha =>
    exact h.goesTo (by simp [ha]) true (fun c _ => by simp [ha, Admin.isSet])
      (fun c hc => by cases hc) (by decide)
  | ready ha =>
    exact (h.write _).goesTo (by simpa [Host.write] using fun hx => by simp [ha] at hx) s.procEntry
      (fun c _ => by simp [Host.write, ha, Admin.isSet]) (fun c hc => by cases hc) (by decide)
  | failed _ _ => exact h.unplace
  | cleared c ha =>
    refine ⟨iff_of_false (fun hm => ?_) (next_ne c).2.1, fun d hd => ?_, fun d hd => ?_,
      fun d n hn => ?_, h.load_le, fun hs => absurd hs (next_ne c).2.2,
      fun hs => absurd hs (next_ne c).2.2⟩
    · have hx := h.module_iff.mp hm
      simp [ha] at hx
    · simp only [isSet_clear, decide_eq_true_eq] at hd
      exact (Function.update_of_ne hd.1 ..).trans (h.set d (ha ▸ hd.2))
    · simp only [isCleared_clear, decide_eq_true_eq] at hd
      rcases hd with rfl | hd
      · exact Function.update_self ..
      · by_cases hdc : d = c
        · subst hdc; exact Function.update_self ..
        · exact (Function.update_of_ne hdc ..).trans (h.cleared d (ha ▸ hd))
    · by_cases hdc : d = c
      · subst hdc
        simp at hn
      · simp only [Function.update_of_ne hdc] at hn
        exact h.stub_le d n hn
  | stopped m ha _ _ =>
    exact h.goesTo (by simp [ha]) s.procEntry (fun c hc => by cases hc)
      (fun c _ => by simp [ha, Admin.isCleared]) (by decide)
  | @cleaned error m ha hm =>
    obtain ⟨m', a, heq, hline⟩ := cleanup_frame (B := B) s m error ha hm
    obtain ⟨hne, hline⟩ := cleansUp_line hline
    rw [heq]
    refine ⟨iff_of_false (by simp) hne.1, fun c hc => ?_, fun c _ => ?_, h.stub_le, h.load_le,
      fun hs => absurd hs hne.2, fun hs => absurd hs hne.2⟩
    · rw [(hline c).1] at hc
      cases hc
    · exact h.cleared c ((cleansUp_line (Or.inl ha)).2 c).2
  | gone _ => exact h.unplace
  | ran _ => exact h.write _
  | entered _ _ => exact h.moveTo _ fun n hn => by cases hn
  | jumped _ hm =>
    refine (h.write _).moveTo _ fun n hn => ?_
    obtain rfl : s.placed = n := by simpa [Caller.load] using hn
    exact ⟨Nat.le_refl _, fun ha => absurd hm.1 (h.stub_ne ha _)⟩
  | worked m ht hm =>
    refine (h.write _).moveTo _ fun n hn => ?_
    obtain rfl : s.placed = n := by simpa [load_on] using hn
    exact ⟨Nat.le_refl _, fun ha => absurd (by rw [ht]; rfl) (h.load_ne ha _)⟩
  | left _ => exact h.moveTo _ fun n hn => by cases hn

theorem Host.Inv.step {s : Host} (h : s.Inv) (e : Event) : (s.step B e).Inv :=
  h.effect (step_effect s e)

theorem booted_inv : booted.Inv where
  module_iff := iff_of_true rfl rfl
  set c hc := by cases hc
  cleared c hc := by cases hc
  stub_le c n hn := by cases hn
  load_le t n hn := by cases hn
  stub_ne hs := by cases hs
  load_ne hs := by cases hs

/-! ## §3 The pointers -/

/-- Every pointer is `NULL` or leads into the module. -/
def StubsSound (s : Host) : Prop := ∀ c, s.stub c = none ∨ s.Mapped (s.stub c)

/-- `elevator_init` can fail in two lines only. -/
theorem Fails.admin {s : Host} {e : Event} (h : Fails s e) :
    ∃ error, e = .proceed error ∧ error ≠ 0 ∧ (s.admin = .createProc ∨ s.admin = .startThread) := by
  obtain ⟨r, hr, hne⟩ := h
  cases e with
  | proceed error =>
    cases ha : s.admin with
    | createProc =>
      refine ⟨error, rfl, fun hzero => ?_, Or.inl rfl⟩
      simp [Host.initResult, ha, hzero] at hr
    | startThread =>
      refine ⟨error, rfl, fun hzero => hne ?_, Or.inr rfl⟩
      simpa [Host.initResult, ha, hzero] using hr.symm
    | _ => simp [Host.initResult, ha] at hr
  | _ => cases hr

theorem StubsSound.congr {s s' : Host} (h : StubsSound s) (hstub : s'.stub = s.stub)
    (hplaced : s'.placed = s.placed) (hmodule : s'.module.isSome = s.module.isSome) :
    StubsSound s' := fun c => by
  have hc := h c
  simpa only [Host.Mapped, hstub, hplaced, hmodule] using hc

/-- With the pointers sound, an event makes one dangle exactly if it is the
last line of an `elevator_init` that fails. -/
theorem stubsSound_iff {s s' : Host} {e : Event} (hinv : s.Inv) (hs : StubsSound s)
    (he : Effect B s e s') : StubsSound s' ↔ ¬ Fails s e := by
  have hkeeps : (∀ error, e = .proceed error → error ≠ 0 →
      s.admin ≠ .createProc ∧ s.admin ≠ .startThread) → StubsSound s' →
        (StubsSound s' ↔ ¬ Fails s e) := fun hno hsound =>
    iff_of_true hsound fun hf => by
      obtain ⟨error, he, hne, ha⟩ := hf.admin
      exact ha.elim (hno error he hne).1 (hno error he hne).2
  cases he with
  | failed ha hf =>
    refine iff_of_false (fun hall => ?_) (not_not_intro hf)
    -- the pointers have been set, and the memory goes
    have hset : s.stub .startElevator = some s.placed := by
      refine hinv.set _ ?_
      rcases ha with ha | ha <;> simp [ha, Admin.isSet]
    rcases hall .startElevator with hnone | hmapped
    · exact absurd (hset.symm.trans hnone) (by simp)
    · exact absurd hmapped.2 (by simp [Host.unplace])
  | same hidle =>
    refine hkeeps (fun error he _ => ?_) hs
    rcases hidle.line error he with ha | ha | ha | ⟨ha, -⟩
    · simp [ha]
    · simp [ha]
    · simp [ha]
    · constructor <;> intro heq <;> rw [heq] at ha <;> cases ha
  | placed ha =>
    refine hkeeps (by simp) fun c => Or.inl ?_
    refine (hs c).resolve_right fun hm => ?_
    have hnone := hinv.module_iff.mpr ha
    exact absurd hm.2 (by simp [hnone])
  | leaves _ => exact hkeeps (by simp) (hs.congr rfl rfl rfl)
  | setUp ha => exact hkeeps (by simp [ha]) (hs.congr rfl rfl (by simp [Host.write]))
  | pointed c ha =>
    refine hkeeps (by simp [ha]) fun d => ?_
    by_cases hdc : d = c
    · subst hdc
      exact Or.inr ⟨Function.update_self .., hinv.isSome (by simp [ha])⟩
    · simpa only [Host.Mapped, Function.update_of_ne hdc] using hs d
  | created _ => exact hkeeps (fun error he hne => by simp_all) (hs.congr rfl rfl rfl)
  | ready _ =>
    exact hkeeps (fun error he hne => by simp_all) (hs.congr rfl rfl (by simp [Host.write]))
  | cleared c ha =>
    refine hkeeps (by simp [ha]) fun d => ?_
    by_cases hdc : d = c
    · subst hdc
      exact Or.inl (Function.update_self ..)
    · simpa only [Host.Mapped, Function.update_of_ne hdc] using hs d
  | stopped _ ha _ _ => exact hkeeps (by simp [ha]) (hs.congr rfl rfl rfl)
  | @cleaned error m ha hm =>
    obtain ⟨m', a, heq, -⟩ := cleanup_frame (B := B) s m error ha hm
    rw [heq] at hkeeps ⊢
    refine hkeeps (fun _ _ _ => ?_) (hs.congr rfl rfl (by simp [hm]))
    constructor <;> intro heq <;> rw [heq] at ha <;> cases ha
  | gone ha =>
    exact hkeeps (by simp [ha]) fun c => Or.inl (hinv.cleared c (by simp [ha, Admin.isCleared]))
  | ran _ => exact hkeeps (by simp) (hs.congr rfl rfl (by simp [Host.write]))
  | entered _ _ => exact hkeeps (by simp) (hs.congr rfl rfl rfl)
  | jumped _ _ => exact hkeeps (by simp) (hs.congr rfl rfl (by simp [Host.write, Host.moveTo]))
  | worked _ _ _ => exact hkeeps (by simp) (hs.congr rfl rfl (by simp [Host.write, Host.moveTo]))
  | left h => exact hkeeps (by rcases h with rfl | rfl | rfl <;> simp) (hs.congr rfl rfl rfl)

/-- **Where dangling pointers come from**: in every run the pointers of the
three calls are `NULL` or lead into the module after every event, if and only
if no `elevator_init` comes back with an error. -/
theorem stubs_sound_iff (B : Building) (es : List Event) :
    (∀ pre, pre <+: es → StubsSound (Host.after B pre))
      ↔ (kernel B).Along (fun s e => ¬ Fails s e) booted es :=
  (kernel B).along_iff_of_survives (I := Host.Inv) (P := StubsSound) (fun _ e h => h.step e)
    (fun s e hinv hs => stubsSound_iff hinv hs (step_effect s e)) es booted booted_inv
    fun _ => Or.inl rfl

/-! ## §4 The threads -/

/-- What the thread needs to be there for its next step. -/
def Host.Safe (s : Host) : Caller → Prop
  | .outside => True
  | .tested c => s.Mapped (s.stub (syscallOf c))
  | .inside _ load | .returning _ load => s.Mapped (some load)

/-- No thread is about to jump through `NULL` or to go on in freed memory. -/
def CallersSafe (s : Host) : Prop := ∀ t, s.Safe (s.caller t)

/-- Nobody is between the test of this pointer and the jump when it is
cleared, and nobody is on their way when the memory is freed; and a call that
finds the pointer not to be `NULL` finds it leading into the module. -/
def Undisturbed (s : Host) : Event → Prop
  | .enter t c => s.caller t = .outside →
      s.stub (syscallOf c) = none ∨ s.Mapped (s.stub (syscallOf c))
  | .proceed error =>
    match s.admin with
    | .clearStub c => ∀ t d, s.caller t = .tested d → syscallOf d ≠ c
    | .createProc | .startThread => error ≠ 0 → ∀ t, s.caller t = .outside
    | .removeProc => ∀ t, s.caller t = .outside
    | _ => True
  | _ => True

/-- What a thread needs stays there, if the pointers and the memory do. -/
theorem CallersSafe.congr {s s' : Host} (h : CallersSafe s) (hstub : s'.stub = s.stub)
    (hplaced : s'.placed = s.placed) (hmodule : s'.module.isSome = s.module.isSome)
    (hcaller : s'.caller = s.caller) : CallersSafe s' := fun t => by
  have hsame : ∀ c, s'.Safe c ↔ s.Safe c := fun c => by
    cases c <;> simp only [Host.Safe, Host.Mapped, hstub, hplaced, hmodule]
  rw [hsame, hcaller]
  exact h t

theorem CallersSafe.moveTo_iff {s : Host} (h : CallersSafe s) (t : Nat) (c : Caller) :
    CallersSafe (s.moveTo t c) ↔ s.Safe c := by
  have hsame : ∀ d, (s.moveTo t c).Safe d ↔ s.Safe d := fun d => by cases d <;> rfl
  simp only [CallersSafe, hsame, moveTo_caller]
  constructor
  · intro hall
    exact (if_pos rfl : (if t = t then c else s.caller t) = c) ▸ hall t
  · intro hc u
    split
    · exact hc
    · exact h u

/-- Once the memory is freed, nobody may be on their way. -/
theorem CallersSafe.unplace_iff (s : Host) :
    CallersSafe s.unplace ↔ ∀ t, s.caller t = .outside := by
  have hgone : ∀ stub, ¬ s.unplace.Mapped stub := fun stub hm =>
    absurd hm.2 (by simp [Host.unplace])
  constructor
  · intro hall t
    have ht := hall t
    cases hc : s.caller t with
    | outside => rfl
    | tested c => exact absurd (show s.unplace.Safe (.tested c) from hc ▸ ht) (hgone _)
    | inside c load => exact absurd (show s.unplace.Safe (.inside c load) from hc ▸ ht) (hgone _)
    | returning r load =>
      exact absurd (show s.unplace.Safe (.returning r load) from hc ▸ ht) (hgone _)
  · intro hall t
    rw [show s.unplace.caller t = .outside from hall t]
    trivial

/-- A pointer is set or cleared: only those who have tested it and not jumped
yet can be hurt. -/
theorem CallersSafe.update_iff {s : Host} (h : CallersSafe s) (c : Syscall) (stub : Option Nat)
    (a : Admin) :
    CallersSafe { s with stub := Function.update s.stub c stub, admin := a }
      ↔ ∀ t d, s.caller t = .tested d → syscallOf d = c → s.Mapped stub := by
  constructor
  · intro hall t d ht hd
    have hsafe := hall t
    simp only [ht, Host.Safe, hd, Function.update_self] at hsafe
    exact hsafe
  · intro hall t
    have ht := h t
    cases hc : s.caller t with
    | tested d =>
      simp only [hc, Host.Safe] at ht ⊢
      by_cases hd : syscallOf d = c
      · simp only [hd, Function.update_self]
        exact hall t d hc hd
      · simp only [Function.update_of_ne hd]
        exact ht
    | _ =>
      simp only [hc] at ht ⊢
      exact ht

/-- A call goes on in the module that is there. -/
theorem safe_on {s : Host} (h : s.module.isSome = true) (c : Call) (pc : Threads.CallPc) :
    s.Safe (.on c s.placed pc) := by
  cases pc <;> exact ⟨rfl, h⟩

/-- The lines of the cleanup hurt nobody. -/
theorem undisturbed_cleanup {s : Host} (h : s.admin.cleansUp = true) (error : Nat) :
    Undisturbed s (.proceed error) := by
  unfold Undisturbed
  cases ha : s.admin <;> first | trivial | (rw [ha] at h; cases h)

theorem callersSafe_iff {s s' : Host} {e : Event} (hinv : s.Inv) (hs : CallersSafe s)
    (he : Effect B s e s') : CallersSafe s' ↔ Undisturbed s e := by
  cases he with
  | same hidle =>
    refine iff_of_true hs ?_
    cases e with
    | enter t c => exact fun hout => Or.inl (hidle.pointer t c rfl hout)
    | proceed error =>
      rcases hidle.line error rfl with ha | ha | ha | ⟨ha, -⟩
      · simp [Undisturbed, ha]
      · simp [Undisturbed, ha]
      · simp [Undisturbed, ha]
      · exact undisturbed_cleanup ha error
    | _ => trivial
  | placed ha =>
    refine iff_of_true (fun t => ?_) trivial
    -- nobody is on their way when there is no module
    have hnone := hinv.module_iff.mpr ha
    have ht := hs t
    change Host.Safe _ (s.caller t)
    cases hc : s.caller t with
    | outside => trivial
    | _ => simp [hc, Host.Safe, Host.Mapped, hnone] at ht
  | leaves _ => exact iff_of_true (hs.congr rfl rfl rfl rfl) trivial
  | setUp ha =>
    exact iff_of_true (hs.congr rfl rfl (by simp [Host.write]) rfl) (by simp [Undisturbed, ha])
  | pointed c ha =>
    refine iff_of_true ((hs.update_iff c _ _).mpr fun _ _ _ _ => ⟨rfl, ?_⟩) ?_
    · exact hinv.isSome (by simp [ha])
    · simp [Undisturbed, ha]
  | created ha => exact iff_of_true (hs.congr rfl rfl rfl rfl) (by simp [Undisturbed, ha])
  | ready ha =>
    exact iff_of_true (hs.congr rfl rfl (by simp [Host.write]) rfl) (by simp [Undisturbed, ha])
  | failed ha hf =>
    obtain ⟨error, rfl, hne, -⟩ := hf.admin
    rw [CallersSafe.unplace_iff]
    rcases ha with ha | ha <;> simp [Undisturbed, ha, hne]
  | cleared c ha =>
    rw [hs.update_iff c _ _]
    simp only [Undisturbed, ha, Host.Mapped]
    simp
  | stopped _ ha _ _ => exact iff_of_true (hs.congr rfl rfl rfl rfl) (by simp [Undisturbed, ha])
  | @cleaned error m ha hm =>
    obtain ⟨m', a, heq, -⟩ := cleanup_frame (B := B) s m error ha hm
    rw [heq]
    exact iff_of_true (hs.congr rfl rfl (by simp [hm]) rfl) (undisturbed_cleanup ha error)
  | gone ha =>
    rw [CallersSafe.unplace_iff]
    simp [Undisturbed, ha]
  | ran _ => exact iff_of_true (hs.congr rfl rfl (by simp [Host.write]) rfl) trivial
  | entered hout hn =>
    rw [hs.moveTo_iff]
    simp [Undisturbed, Host.Safe, hout, hn]
  | @jumped t c _ hm =>
    have hgoes : CallersSafe (s.moveTo t (.inside c s.placed)) :=
      (hs.moveTo_iff _ _).mpr ⟨rfl, hm.2⟩
    exact iff_of_true (hgoes.congr rfl rfl (by simp [Host.write, Host.moveTo]) rfl) trivial
  | @worked t c m ht hm =>
    have hgoes : CallersSafe (s.moveTo t (.on c s.placed ((m.step B (.advance t)).calls t))) :=
      (hs.moveTo_iff _ _).mpr (safe_on (by simp [hm]) c _)
    exact iff_of_true (hgoes.congr rfl rfl (by simp [Host.write, Host.moveTo]) rfl) trivial
  | left h =>
    refine iff_of_true ((hs.moveTo_iff _ _).mpr trivial) ?_
    rcases h with rfl | rfl | rfl <;> trivial

/-- **When the system calls are safe**: after every event of a run each thread
that makes a call can go on, if and only if throughout the run a pointer is
cleared only while nobody is between testing it and jumping, the memory is
freed only while nobody is on their way, and no call starts over a pointer
that leads nowhere. -/
theorem callers_safe_iff (B : Building) (es : List Event) :
    (∀ pre, pre <+: es → CallersSafe (Host.after B pre))
      ↔ (kernel B).Along Undisturbed booted es :=
  (kernel B).along_iff_of_survives (I := Host.Inv) (P := CallersSafe) (fun _ e h => h.step e)
    (fun s e hinv hs => callersSafe_iff hinv hs (step_effect s e)) es booted booted_inv
    fun _ => trivial

/-- `rmmod` clears the pointer between the test and the jump. -/
example : ¬ CallersSafe (Host.after .source (.insmod :: List.replicate 6 (.proceed 0)
    ++ [.enter 0 .startElevator, .rmmod, .proceed 0])) := fun h =>
  absurd (show Host.Mapped _ _ from h 0) (by decide)

end KernelElevator.Kernel
