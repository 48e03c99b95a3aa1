/-
KernelElevator.Kernel.AnswerTheorems — what the answer to a request stands for.

Between a thread that calls `issue_request` and the queues there are the test
of the pointer, the jump, the tests of the function, the mutex and the locked
section, and anything can come in between: other calls, the scheduler,
unloads and loads. `Stage` is how far the request has got, and `Stage.step`
that no event takes it more than one stage on. So it is queued at most once;
an answer `-ENOSYS` or 1 means that it has not been; and 0 means that it has
been, or that its locked section has found `deactiving` set (`request_once`).
It is queued in one step because no other locked section overlaps its own,
which is where `SectionsApart` comes in.
-/
import KernelElevator.Kernel.ModuleTheorems

namespace KernelElevator.Kernel

open Transition Threads

variable (B : Building)

/-! ## §1 A thread among others -/

/-- The thread whose call the event is a step of. -/
def Event.thread : Event → Option Nat
  | .enter t _ | .jump t | .work t | .back t => some t
  | _ => none

/-- What others do leaves a thread where it is, and as long as the module is
there its call as well. -/
structure LeavesAlone (t : Nat) (s s' : Host) : Prop where
  caller : s'.caller t = s.caller t
  module : (s'.placed = s.placed ∧ ∀ m' ∈ s'.module, ∃ m ∈ s.module, m'.calls t = m.calls t) ∨
    s.module = none ∧ s'.placed = s.placed + 1 ∧ s'.module = some placedModule

/-- A call is under way in the module only for a thread that is inside. -/
def Host.Settled (s : Host) : Prop :=
  ∀ m ∈ s.module, ∀ t, (m.calls t).done = false → ∃ c, s.caller t = .inside c s.placed

variable {B}

theorem LeavesAlone.of_module {t : Nat} {s s' : Host} (hcaller : s'.caller t = s.caller t)
    (hplaced : s'.placed = s.placed)
    (hmodule : ∀ m' ∈ s'.module, ∃ m ∈ s.module, m'.calls t = m.calls t) : LeavesAlone t s s' :=
  ⟨hcaller, .inl ⟨hplaced, hmodule⟩⟩

theorem mem_write {s : Host} {f : State → State} {t : Nat} (hf : ∀ m, (f m).calls t = m.calls t) :
    ∀ m' ∈ (s.write f).module, ∃ m ∈ s.module, m'.calls t = m.calls t := by
  intro m' hm'
  obtain ⟨m, hm, rfl⟩ := Option.mem_map.mp hm'
  exact ⟨m, hm, hf m⟩

theorem cleanup_calls (s : Host) (m : State) (error : Nat) (h : s.admin.cleansUp = true)
    (hm : s.module = some m) : ∀ m' ∈ (s.cleanup B m error).module, m'.calls = m.calls := by
  have hsame : ∀ m' ∈ s.module, m'.calls = m.calls := by simp [hm]
  unfold Host.cleanup
  cases ha : s.admin with
  | removeLock =>
    simp only
    split
    · exact hsame
    · split
      · simp
      · exact hsame
  | destroyMutex => exact hsame
  | removeLocked => simp
  | removeUnlock dl => simp
  | removeFree dl => simp
  | _ => rw [ha] at h; cases h

theorem step_calls_of_ne {m : State} {t u : Nat} (hu : t ≠ u) (c : Call) :
    (m.step B (.invoke u c)).calls t = m.calls t ∧
      (m.step B (.advance u)).calls t = m.calls t := by
  constructor
  · simp only [State.step]
    split
    · exact Function.update_of_ne hu ..
    · rfl
  · exact Function.update_of_ne hu ..

theorem others_step {s : Host} (hinv : s.Inv) {t : Nat} {e : Event} (he : e.thread ≠ some t) :
    LeavesAlone t s (s.step B e) := by
  have hsame : ∀ m' ∈ s.module, ∃ m ∈ s.module, m'.calls t = m.calls t := fun m hm => ⟨m, hm, rfl⟩
  have hmoved : ∀ (s : Host) (u : Nat) (c : Caller), t ≠ u → (s.moveTo u c).caller t = s.caller t :=
    fun s u c hu => by rw [moveTo_caller, if_neg hu]
  have heffect := step_effect (B := B) s e
  generalize s.step B e = s' at heffect
  cases heffect with
  | placed ha => exact ⟨rfl, .inr ⟨hinv.module_iff.mpr ha, rfl, rfl⟩⟩
  | setUp _ => exact .of_module rfl rfl (mem_write fun _ => rfl)
  | ready _ => exact .of_module rfl rfl (mem_write fun _ => rfl)
  | ran _ => exact .of_module rfl rfl (mem_write fun _ => rfl)
  | failed _ _ => exact .of_module rfl rfl fun m' hm' => by cases hm'
  | gone _ => exact .of_module rfl rfl fun m' hm' => by cases hm'
  | @cleaned error m ha hm =>
    have hcalls := cleanup_calls (B := B) s m error ha hm
    obtain ⟨m₁, a, heq, -⟩ := cleanup_frame (B := B) s m error ha hm
    rw [heq] at hcalls ⊢
    exact .of_module rfl rfl fun m' hm' => ⟨m, hm, congrFun (hcalls m' hm') t⟩
  | @entered u n c _ _ =>
    have hu : t ≠ u := fun h => he (congrArg some h.symm)
    exact .of_module (hmoved _ _ _ hu) rfl hsame
  | @jumped u c _ _ =>
    have hu : t ≠ u := fun h => he (congrArg some h.symm)
    exact .of_module (hmoved _ _ _ hu) rfl (mem_write fun m => (step_calls_of_ne hu c).1)
  | @worked u c m _ _ =>
    have hu : t ≠ u := fun h => he (congrArg some h.symm)
    exact .of_module (hmoved _ _ _ hu) rfl (mem_write fun m => (step_calls_of_ne hu c).2)
  | @left e u hleft =>
    have hu : t ≠ u := by
      rintro rfl
      rcases hleft with rfl | rfl | rfl <;> exact he rfl
    exact .of_module (hmoved _ _ _ hu) rfl hsame
  | _ => exact .of_module rfl rfl hsame

/-- A step of a call in the module that is there. -/
theorem work_inside {s : Host} {t : Nat} {c : Call} {m : State}
    (hc : s.caller t = .inside c s.placed) (hm : s.module = some m) :
    s.step B (.work t) = (s.write fun m => m.step B (.advance t)).moveTo t
      (.on c s.placed ((m.step B (.advance t)).calls t)) := by
  simp [Host.step, hc, hm]

/-- A step of a call in a module that has gone. -/
theorem work_lost {s : Host} {t : Nat} {c : Call} {load : Nat}
    (hc : s.caller t = .inside c load) (hgone : ¬ (load = s.placed ∧ s.module.isSome = true)) :
    s.step B (.work t) = s.moveTo t .outside := by
  cases hm : s.module with
  | none => simp [Host.step, hc, hm]
  | some m =>
    have hne : load ≠ s.placed := fun hl => hgone ⟨hl, by rw [hm]; rfl⟩
    simp [Host.step, hc, hm, hne]

/-- A call that is not over is still inside. -/
theorem on_of_not_done (c : Call) (load : Nat) {pc : CallPc} (h : pc.done = false) :
    Caller.on c load pc = .inside c load := by
  cases pc <;> first | rfl | cases h

theorem Host.Settled.step {s : Host} (h : s.Settled) (hinv : s.Inv) (e : Event) :
    (s.step B e).Settled := by
  intro m' hm' t hdone
  by_cases he : e.thread = some t
  · -- where the thread is not inside, none of its steps begins a call without it
    have hout : (∀ c load, s.caller t ≠ .inside c load) → ∀ m ∈ s.module, (m.calls t).done = true :=
      fun hne m hm => by
        by_contra hnot
        obtain ⟨c, hc⟩ := h m hm t (by simpa using hnot)
        exact hne c _ hc
    cases e with
    | enter u c =>
      obtain rfl := Option.some.inj he
      simp only [Host.step] at hm' ⊢
      cases hc : s.caller u with
      | outside =>
        simp only [hc] at hm' ⊢
        have hmem : m' ∈ s.module := by split at hm' <;> exact hm'
        rw [hout (by simp [hc]) m' hmem] at hdone
        cases hdone
      | _ => simp only [hc] at hm' ⊢; exact hc ▸ h m' hm' u hdone
    | jump u =>
      obtain rfl := Option.some.inj he
      simp only [Host.step] at hm' ⊢
      cases hc : s.caller u with
      | tested c =>
        simp only [hc] at hm' ⊢
        by_cases hmapped : s.Mapped (s.stub (syscallOf c))
        · rw [if_pos hmapped]
          exact ⟨c, by rw [moveTo_caller, if_pos rfl]; rfl⟩
        · rw [if_neg hmapped] at hm'
          rw [hout (by simp [hc]) m' hm'] at hdone
          cases hdone
      | _ => simp only [hc] at hm' ⊢; exact hc ▸ h m' hm' u hdone
    | work u =>
      obtain rfl := Option.some.inj he
      cases hc : s.caller u with
      | inside c load =>
        by_cases hgone : load = s.placed ∧ s.module.isSome = true
        · obtain ⟨rfl, hsome⟩ := hgone
          obtain ⟨m, hm⟩ := Option.isSome_iff_exists.mp hsome
          rw [work_inside hc hm] at hm' ⊢
          obtain rfl : m.step B (.advance u) = m' := by
            simpa [Host.moveTo, Host.write, hm] using hm'
          exact ⟨c, by rw [moveTo_caller, if_pos rfl, on_of_not_done c _ hdone]; rfl⟩
        · have hstep := work_lost (B := B) hc hgone
          rw [hstep] at hm'
          obtain ⟨d, hd⟩ := h m' hm' u hdone
          rw [hc] at hd
          cases hd
          exact absurd ⟨rfl, by rw [show s.module = some m' from hm']; rfl⟩ hgone
      | _ =>
        simp only [Host.step, hc] at hm' ⊢
        exact hc ▸ h m' hm' u hdone
    | back u =>
      obtain rfl := Option.some.inj he
      simp only [Host.step] at hm' ⊢
      cases hc : s.caller u with
      | returning r load =>
        simp only [hc] at hm' ⊢
        rw [hout (by simp [hc]) m' hm'] at hdone
        cases hdone
      | _ => simp only [hc] at hm' ⊢; exact hc ▸ h m' hm' u hdone
    | _ => cases he
  · obtain ⟨hcaller, ⟨hplaced, hcalls⟩ | ⟨-, -, hmodule⟩⟩ := others_step (B := B) hinv he
    · obtain ⟨m, hm, heq⟩ := hcalls m' hm'
      rw [heq] at hdone
      rw [hcaller, hplaced]
      exact h m hm t hdone
    · rw [hmodule] at hm'
      obtain rfl := Option.some.inj hm'
      cases hdone

theorem settled_after (es : List Event) : (Host.after B es).Settled := by
  refine ((kernel B).run_inv (P := fun s => s.Inv ∧ s.Settled)
    (fun s e h => ⟨h.1.step e, h.2.step h.1 e⟩) es booted ⟨booted_inv, ?_⟩).2
  intro m hm
  cases hm

/-! ## §2 A request -/

/-- The number of records that the module has allocated. -/
def Host.records (s : Host) : Nat := s.module.elim 0 fun m => m.g.allocated.length

variable (B)

/-- How many of them the steps of the thread `t` add. -/
def added (t : Nat) (s : Host) (es : List Event) : Nat :=
  (kernel B).total (fun s e => if e = .work t then (s.step B e).records - s.records else 0) s es

/-- Nobody but the thread `t` is in a locked section. -/
structure Alone (t : Nat) (s : Host) (m : State) : Prop where
  calls : ∀ x, m.lock.InSection x → x = .call t
  cleanup : s.admin ≠ .removeLocked

/-- The thread `t` has put one passenger into a queue, who wants to go from
the floor `a` to the floor `b` and is of type `k`, and was alone then. -/
structure Queued (t : Nat) (a b k : Int) (s : Host) (es : List Event) : Prop where
  once : added B t s es = 1
  record : ∃ pre m m' post, es = pre ++ .work t :: post ∧
    ((kernel B).run s pre).module = some m ∧ Alone t ((kernel B).run s pre) m ∧
    ((kernel B).run s (pre ++ [.work t])).module = some m' ∧ m'.g = addPassenger a b k m.g

/-- The thread `t` has found `deactiving` set in its locked section. -/
structure TurnedAway (t : Nat) (a b k : Int) (s : Host) (es : List Event) : Prop where
  none : added B t s es = 0
  found : ∃ pre m post, es = pre ++ .work t :: post ∧ ((kernel B).run s pre).module = some m ∧
    m.calls t = .issueLocked a b k ∧ m.g.deactiving = true

/-- What stands behind the result `r` of the request. -/
def StandsBehind (t : Nat) (a b k : Int) (s : Host) (es : List Event) (r : Int) : Prop :=
  r = 1 ∧ added B t s es = 0 ∨ r = 0 ∧ (Queued B t a b k s es ∨ TurnedAway B t a b k s es)

/-- How far the request is in the module. -/
inductive Inside (t : Nat) (a b k : Int) (s : Host) (es : List Event) : CallPc → Prop
  | test (h : added B t s es = 0) : Inside t a b k s es (.issueTest a b k)
  | lock (h : added B t s es = 0) : Inside t a b k s es (.issueLock a b k)
  | locked (h : added B t s es = 0) : Inside t a b k s es (.issueLocked a b k)
  | unlock {lock : LockOutcome} (h : Queued B t a b k s es ∨ TurnedAway B t a b k s es) :
      Inside t a b k s es (.issueUnlock lock)

/-- How far the request of the thread `t` is after the events `es`, which
lead from its entry to `u`. -/
inductive Stage (t : Nat) (a b k : Int) (s : Host) (es : List Event) (u : Host) : Caller → Prop
  | tested (h : added B t s es = 0) : Stage t a b k s es u (.tested (.issueRequest a b k))
  | inside {m : State} (hm : u.module = some m) (h : Inside B t a b k s es (m.calls t)) :
      Stage t a b k s es u (.inside (.issueRequest a b k) u.placed)
  | lost {c : Call} {load : Nat} (hgone : ¬ (load = u.placed ∧ u.module.isSome = true))
      (h : added B t s es ≤ 1) : Stage t a b k s es u (.inside c load)
  | returning {r : Int} {load : Nat} (h : StandsBehind B t a b k s es r) :
      Stage t a b k s es u (.returning r load)
  | ended (h : added B t s es ≤ 1) : Stage t a b k s es u .outside

variable {B} {t : Nat} {a b k : Int} {s : Host} {es : List Event}

theorem added_concat (t : Nat) (s : Host) (es : List Event) (e : Event) :
    added B t s (es ++ [e]) = added B t s es
      + if e = .work t then ((kernel B).run s (es ++ [e])).records - ((kernel B).run s es).records
        else 0 := by
  rw [added, Machine.total_append, Machine.run_concat]
  rfl

/-- An event that adds nothing for the thread. -/
def AddsNone (B : Building) (t : Nat) (s : Host) (es : List Event) (e : Event) : Prop :=
  added B t s (es ++ [e]) = added B t s es

theorem addsNone_of_ne {e : Event} (h : e ≠ .work t) : AddsNone B t s es e := by
  rw [AddsNone, added_concat, if_neg h, Nat.add_zero]

theorem addsNone_of_records {e : Event}
    (h : ((kernel B).run s (es ++ [e])).records = ((kernel B).run s es).records) :
    AddsNone B t s es e := by
  rw [AddsNone, added_concat, h, Nat.sub_self, ite_self, Nat.add_zero]

theorem Queued.concat (h : Queued B t a b k s es) {e : Event} (he : AddsNone B t s es e) :
    Queued B t a b k s (es ++ [e]) := by
  obtain ⟨pre, m, m', post, rfl, hm, halone, hm', hg⟩ := h.record
  exact ⟨he.trans h.once, pre, m, m', post ++ [e], by simp, hm, halone, hm', hg⟩

theorem TurnedAway.concat (h : TurnedAway B t a b k s es) {e : Event} (he : AddsNone B t s es e) :
    TurnedAway B t a b k s (es ++ [e]) := by
  obtain ⟨pre, m, post, rfl, hm, hpc, hd⟩ := h.found
  exact ⟨he.trans h.none, pre, m, post ++ [e], by simp, hm, hpc, hd⟩

theorem decided_concat (h : Queued B t a b k s es ∨ TurnedAway B t a b k s es) {e : Event}
    (he : AddsNone B t s es e) :
    Queued B t a b k s (es ++ [e]) ∨ TurnedAway B t a b k s (es ++ [e]) :=
  h.imp (fun h => h.concat he) fun h => h.concat he

theorem StandsBehind.concat {r : Int} (h : StandsBehind B t a b k s es r) {e : Event}
    (he : AddsNone B t s es e) : StandsBehind B t a b k s (es ++ [e]) r :=
  h.imp (fun h => ⟨h.1, he.trans h.2⟩) fun h => ⟨h.1, decided_concat h.2 he⟩

theorem Inside.concat {pc : CallPc} (h : Inside B t a b k s es pc) {e : Event}
    (he : AddsNone B t s es e) : Inside B t a b k s (es ++ [e]) pc := by
  cases h with
  | test h => exact .test (he.trans h)
  | lock h => exact .lock (he.trans h)
  | locked h => exact .locked (he.trans h)
  | unlock h => exact .unlock (decided_concat h he)

theorem added_le_of_decided (h : Queued B t a b k s es ∨ TurnedAway B t a b k s es) :
    added B t s es ≤ 1 := by
  rcases h with h | h
  · exact h.once.le
  · exact h.none.le.trans (Nat.zero_le 1)

theorem Inside.added_le {pc : CallPc} (h : Inside B t a b k s es pc) : added B t s es ≤ 1 := by
  cases h with
  | unlock h => exact added_le_of_decided h
  | _ => omega

theorem StandsBehind.added_le {r : Int} (h : StandsBehind B t a b k s es r) :
    added B t s es ≤ 1 := by
  rcases h with ⟨-, h⟩ | ⟨-, h⟩
  · omega
  · exact added_le_of_decided h

theorem Stage.added_le {u : Host} {d : Caller} (h : Stage B t a b k s es u d) :
    added B t s es ≤ 1 := by
  cases h with
  | tested h => omega
  | inside _ h => exact h.added_le
  | lost _ h => exact h
  | returning h => exact h.added_le
  | ended h => exact h

theorem alone_of_locked {u : Host} {m : State} (hex : u.Exclusive) (hm : u.module = some m)
    (hpc : m.calls t = .issueLocked a b k) : Alone t u m := by
  have hst : m.lock.stage (.call t) = .inside := congrArg CallPc.stage hpc
  refine ⟨fun x hx => (hex.calls m hm).unique hx (Or.inl hst), fun hlocked => ?_⟩
  have hholds : m.mutex = some (.call t) := hex.calls m hm _ (Or.inl hst)
  rw [hex.cleanup hlocked m hm] at hholds
  cases hholds

/-- A step of the request in the module takes it one stage on. -/
theorem Inside.step {m : State} (h : Inside B t a b k s es (m.calls t))
    (hc : ((kernel B).run s es).caller t
      = .inside (.issueRequest a b k) ((kernel B).run s es).placed)
    (hm : ((kernel B).run s es).module = some m) (hex : ((kernel B).run s es).Exclusive) :
    Stage B t a b k s (es ++ [.work t]) ((kernel B).run s (es ++ [.work t]))
      (((kernel B).run s (es ++ [.work t])).caller t) := by
  have hrun : (kernel B).run s (es ++ [.work t]) = _ :=
    ((kernel B).run_concat s es (.work t)).trans (work_inside hc hm)
  have hmodule : ((kernel B).run s (es ++ [.work t])).module = some (m.step B (.advance t)) := by
    rw [hrun]
    simp [Host.moveTo, Host.write, hm]
  have hplaced : ((kernel B).run s (es ++ [.work t])).placed = ((kernel B).run s es).placed := by
    rw [hrun]
    rfl
  have hcaller : ((kernel B).run s (es ++ [.work t])).caller t
      = .on (.issueRequest a b k) ((kernel B).run s es).placed
          ((m.step B (.advance t)).calls t) := by
    rw [hrun, moveTo_caller, if_pos rfl]
  have hpc : (m.step B (.advance t)).calls t = (callStep B t m.g m.mutex (m.calls t)).2.2 :=
    Function.update_self ..
  have hnone : (m.step B (.advance t)).g = m.g → AddsNone B t s es (.work t) := fun hg =>
    addsNone_of_records (by simp only [Host.records, hmodule, hm, Option.elim_some, hg])
  have hg : (m.step B (.advance t)).g = (callStep B t m.g m.mutex (m.calls t)).1 := rfl
  have hinside : ∀ pc, (m.step B (.advance t)).calls t = pc →
      Inside B t a b k s (es ++ [.work t]) pc →
      Stage B t a b k s (es ++ [.work t]) ((kernel B).run s (es ++ [.work t]))
        (.inside (.issueRequest a b k) ((kernel B).run s es).placed) := by
    rintro pc rfl h
    rw [← hplaced]
    exact .inside hmodule h
  rw [hcaller, hpc]
  generalize hpc₀ : m.calls t = pc at h hpc hg ⊢
  cases h with
  | test h =>
    have hzero := (hnone hg).trans h
    by_cases hr : issueRequestRejects B a b k m.g = true
    · simp only [callStep, if_pos hr]
      exact .returning (.inl ⟨rfl, hzero⟩)
    · simp only [callStep, if_neg hr] at hpc ⊢
      exact hinside _ hpc (.lock hzero)
  | lock h =>
    by_cases hmutex : m.mutex = none
    · simp only [callStep, if_pos hmutex] at hpc hg ⊢
      exact hinside _ hpc (.locked ((hnone hg).trans h))
    · simp only [callStep, if_neg hmutex] at hpc hg ⊢
      exact hinside _ hpc (.lock ((hnone hg).trans h))
  | locked h =>
    have hdecided : Queued B t a b k s (es ++ [.work t])
        ∨ TurnedAway B t a b k s (es ++ [.work t]) := by
      cases hd : m.g.deactiving with
      | true =>
        simp only [callStep, issueRequestLocked, hd, if_true, Option.getD_some] at hg
        exact .inr ⟨(hnone hg).trans h, es, m, [], rfl, hm, hpc₀, hd⟩
      | false =>
        simp only [callStep, issueRequestLocked, hd, Bool.false_eq_true, if_false,
          Option.getD_some] at hg
        refine .inl ⟨?_, es, m, _, [], rfl, hm, alone_of_locked hex hm hpc₀, hmodule, hg⟩
        rw [added_concat, h, if_pos rfl]
        simp [Host.records, hmodule, hm, hg, addPassenger]
    exact hinside _ hpc (.unlock hdecided)
  | unlock h => exact .returning (.inr ⟨rfl, decided_concat h (hnone hg)⟩)

/-- What others do leaves the request at its stage. -/
theorem Stage.others {u u' : Host} (h : Stage B t a b k s es u (u.caller t)) (hinv : u.Inv)
    (hothers : LeavesAlone t u u') {e : Event} (he : AddsNone B t s es e) :
    Stage B t a b k s (es ++ [e]) u' (u'.caller t) := by
  obtain ⟨hcaller, hmodule⟩ := hothers
  have hload := hinv.load_le t
  rw [hcaller]
  generalize u.caller t = d at h hload
  cases h with
  | tested h => exact .tested (he.trans h)
  | returning h => exact .returning (h.concat he)
  | ended h => exact .ended (he.le.trans h)
  | @lost c load hgone h =>
    refine .lost (fun hback => hgone ?_) (he.le.trans h)
    obtain ⟨hback, hsome⟩ := hback
    rcases hmodule with ⟨hplaced, hcalls⟩ | ⟨-, hplaced, -⟩
    · obtain ⟨m', hm'⟩ := Option.isSome_iff_exists.mp hsome
      obtain ⟨m, hm, -⟩ := hcalls m' hm'
      exact ⟨hback.trans hplaced, Option.isSome_iff_exists.mpr ⟨m, hm⟩⟩
    · -- the next module has a number of its own
      have hle := hload load rfl
      omega
  | @inside m hm h =>
    rcases hmodule with ⟨hplaced, hcalls⟩ | ⟨hnone, -, -⟩
    · cases hm' : u'.module with
      | none => exact .lost (fun hback => by simp [hm'] at hback) (he.le.trans h.added_le)
      | some m' =>
        obtain ⟨m₀, hm₀, hpc⟩ := hcalls m' hm'
        obtain rfl := Option.some.inj (hm.symm.trans hm₀)
        rw [← hplaced]
        exact .inside hm' (by rw [hpc]; exact h.concat he)
    · rw [hm] at hnone
      cases hnone

/-- The steps of a thread that is making a call: it goes nowhere, its call is
over, it comes into the module, or it does a step there. -/
inductive OwnStep (B : Building) (t : Nat) (u : Host) : Event → Prop
  | stays {e : Event} (h : u.step B e = u) : OwnStep B t u e
  | leaves {e : Event} (h : u.step B e = u.moveTo t .outside) : OwnStep B t u e
  | comes {c : Call} (hc : u.caller t = .tested c) (hm : u.module.isSome = true)
      (h : u.step B (.jump t)
        = (u.write fun m => m.step B (.invoke t c)).moveTo t (.inside c u.placed)) :
      OwnStep B t u (.jump t)
  | works {c : Call} {m : State} (hc : u.caller t = .inside c u.placed)
      (hm : u.module = some m) : OwnStep B t u (.work t)

theorem ownStep (t : Nat) (u : Host) {e : Event} (he : e.thread = some t)
    (henter : ∀ c, e ≠ .enter t c) : OwnStep B t u e := by
  cases e with
  | enter v c =>
    obtain rfl := Option.some.inj he
    exact absurd rfl (henter c)
  | jump v =>
    obtain rfl := Option.some.inj he
    cases hc : u.caller v with
    | tested c =>
      by_cases hm : u.Mapped (u.stub (syscallOf c))
      · exact .comes hc hm.2 (by simp [Host.step, hc, hm])
      · exact .leaves (by simp [Host.step, hc, hm])
    | _ => exact .stays (by simp [Host.step, hc])
  | work v =>
    obtain rfl := Option.some.inj he
    cases hc : u.caller v with
    | inside c load =>
      by_cases hgone : load = u.placed ∧ u.module.isSome = true
      · obtain ⟨rfl, hsome⟩ := hgone
        obtain ⟨m, hm⟩ := Option.isSome_iff_exists.mp hsome
        exact .works hc hm
      · exact .leaves (work_lost hc hgone)
    | _ => exact .stays (by simp [Host.step, hc])
  | back v =>
    obtain rfl := Option.some.inj he
    cases hc : u.caller v with
    | returning r load => exact .leaves (by simp [Host.step, hc])
    | _ => exact .stays (by simp [Host.step, hc])
  | _ => cases he

/-- No event but a new call of the thread takes its request more than one
stage on. -/
theorem Stage.step
    (h : Stage B t a b k s es ((kernel B).run s es) (((kernel B).run s es).caller t))
    (hinv : ((kernel B).run s es).Inv) (hsettled : ((kernel B).run s es).Settled)
    (hex : ((kernel B).run s es).Exclusive) {e : Event} (henter : ∀ c, e ≠ .enter t c) :
    Stage B t a b k s (es ++ [e]) ((kernel B).run s (es ++ [e]))
      (((kernel B).run s (es ++ [e])).caller t) := by
  have hrun : (kernel B).run s (es ++ [e]) = ((kernel B).run s es).step B e :=
    (kernel B).run_concat s es e
  by_cases he : e.thread = some t
  · cases ownStep (B := B) t ((kernel B).run s es) he henter with
    | stays hstep =>
      rw [hstep] at hrun
      rw [hrun]
      exact h.others hinv (.of_module rfl rfl fun m hm => ⟨m, hm, rfl⟩)
        (addsNone_of_records (by rw [hrun]))
    | leaves hstep =>
      rw [hstep] at hrun
      have hnone : AddsNone B t s es e := addsNone_of_records (by rw [hrun]; rfl)
      rw [hrun, moveTo_caller, if_pos rfl]
      exact .ended (hnone.le.trans h.added_le)
    | @comes c hc hm hstep =>
      obtain ⟨m, hm⟩ := Option.isSome_iff_exists.mp hm
      have hnone : AddsNone B t s es (.jump t) := addsNone_of_ne fun heq => by cases heq
      -- the last call of the thread is over, so this one begins
      have hdone : (m.calls t).done = true := by
        by_contra hnot
        obtain ⟨d, hd⟩ := hsettled m hm t (by simpa using hnot)
        rw [hc] at hd
        cases hd
      rw [hc] at h
      cases h with
      | tested h =>
        have hpc : (m.step B (.invoke t (.issueRequest a b k))).calls t = .issueTest a b k := by
          simp [State.step, hdone, CallPc.entry]
        rw [hstep] at hrun
        rw [hrun, moveTo_caller, if_pos rfl]
        refine .inside (m := m.step B (.invoke t (.issueRequest a b k)))
          (by simp [Host.moveTo, Host.write, hm]) ?_
        rw [hpc]
        exact .test (hnone.trans h)
    | @works c m hc hm =>
      rw [hc] at h
      cases h with
      | inside hm' h =>
        obtain rfl := Option.some.inj (hm'.symm.trans hm)
        exact h.step hc hm hex
      | lost hgone _ => exact absurd ⟨rfl, by rw [hm]; rfl⟩ hgone
  · rw [hrun]
    refine h.others hinv (others_step hinv he) (addsNone_of_ne fun heq => he ?_)
    rw [heq]
    rfl

theorem stage_run (pre : List Event) {s : Host} (hs : s = Host.after B pre)
    (h : Stage B t a b k s [] s (s.caller t)) (es : List Event) (henter : ∀ c, .enter t c ∉ es)
    (hapart : (kernel B).Along SectionsApart booted (pre ++ es)) :
    Stage B t a b k s es ((kernel B).run s es) (((kernel B).run s es).caller t) := by
  induction es using List.reverseRecOn with
  | nil => exact h
  | append_singleton es e ih =>
    have hafter : (kernel B).run s es = Host.after B (pre ++ es) := by
      rw [hs]
      exact ((kernel B).run_append booted pre es).symm
    rw [← List.append_assoc, Machine.along_append] at hapart
    refine (ih (fun c hc => henter c (List.mem_append_left _ hc)) hapart.1).step
      (by rw [hafter]; exact inv_after _) (by rw [hafter]; exact settled_after _)
      (by rw [hafter]; exact sections_exclusive hapart.1) fun c he => ?_
    exact henter c (he ▸ List.mem_append_right _ (List.mem_singleton.mpr rfl))

/-- A thread that is outside, and makes no call, adds nothing. -/
theorem added_outside (h : s.caller t = .outside) (hinv : s.Inv) (es : List Event)
    (henter : ∀ c, .enter t c ∉ es) :
    ((kernel B).run s es).caller t = .outside ∧ added B t s es = 0 := by
  induction es using List.reverseRecOn with
  | nil => exact ⟨h, rfl⟩
  | append_singleton es e ih =>
    obtain ⟨hout, hzero⟩ := ih fun c hc => henter c (List.mem_append_left _ hc)
    have hne : ∀ c, e ≠ .enter t c := fun c he =>
      henter c (he ▸ List.mem_append_right _ (List.mem_singleton.mpr rfl))
    have hrun : (kernel B).run s (es ++ [e]) = ((kernel B).run s es).step B e :=
      (kernel B).run_concat s es e
    have hinv' : ((kernel B).run s es).Inv :=
      (kernel B).run_inv (P := Host.Inv) (fun _ e h => h.step e) es s hinv
    by_cases he : e.thread = some t
    · cases ownStep (B := B) t ((kernel B).run s es) he hne with
      | stays hstep =>
        rw [hstep] at hrun
        exact ⟨by rw [hrun, hout], (addsNone_of_records (by rw [hrun])).trans hzero⟩
      | leaves hstep =>
        rw [hstep] at hrun
        exact ⟨by rw [hrun, moveTo_caller, if_pos rfl],
          (addsNone_of_records (by rw [hrun]; rfl)).trans hzero⟩
      | comes hc _ _ => rw [hout] at hc; cases hc
      | works hc _ => rw [hout] at hc; cases hc
    · refine ⟨by rw [hrun, (others_step hinv' he).caller, hout],
        (addsNone_of_ne fun heq => he ?_).trans hzero⟩
      rw [heq]
      rfl

/-- **What the answer to a request stands for**: a request that a thread
makes is queued at most once, whatever comes in between, as long as what the
kernel does comes at no call's locked section. If it is answered at the entry,
the answer is `-ENOSYS` and it is not queued. If it comes back with an answer,
that is 1, and it has not been queued; or it is 0, and it has been queued as
it was asked for, with nobody else in a locked section, or it has found
`deactiving` set in its own. -/
theorem request_once (B : Building) (pre post : List Event) (t : Nat) (a b k : Int)
    (hout : (Host.after B pre).caller t = .outside) (henter : ∀ c, .enter t c ∉ post)
    (hapart : (kernel B).Along SectionsApart booted
      (pre ++ .enter t (.issueRequest a b k) :: post)) :
    let s := Host.after B (pre ++ [.enter t (.issueRequest a b k)])
    added B t s post ≤ 1 ∧
      (∀ r, (Host.after B pre).answer (.enter t (.issueRequest a b k)) = some r →
        r = -eNoSys ∧ added B t s post = 0) ∧
      ∀ r, ((kernel B).run s post).answer (.back t) = some r → StandsBehind B t a b k s post r := by
  intro s
  have hs : s = (Host.after B pre).step B (.enter t (.issueRequest a b k)) :=
    (kernel B).run_concat booted pre _
  cases hstub : (Host.after B pre).stub .issueRequest with
  | none =>
    have hcaller : s.caller t = .outside := by simp [hs, Host.step, hout, hstub, syscallOf]
    obtain ⟨hend, hzero⟩ := added_outside (B := B) hcaller (inv_after _) post henter
    refine ⟨by omega, fun r hr => ⟨?_, hzero⟩, fun r hr => ?_⟩
    · simpa [Host.answer, hout, hstub, syscallOf, eq_comm] using hr
    · simp [Host.answer, hend] at hr
  | some n =>
    have hcaller : s.caller t = .tested (.issueRequest a b k) := by
      simp [hs, Host.step, hout, hstub, syscallOf, Host.moveTo]
    have hstage : Stage B t a b k s [] s (s.caller t) := by
      rw [hcaller]
      exact .tested rfl
    have hend := stage_run (B := B) _ rfl hstage post henter
      (by rwa [List.append_assoc, List.singleton_append])
    refine ⟨hend.added_le, fun r hr => ?_, fun r hr => ?_⟩
    · simp [Host.answer, hout, hstub, syscallOf] at hr
    · -- only a call that is returning is answered, with its result
      simp only [Host.answer] at hr
      generalize ((kernel B).run s post).caller t = d at hr hend
      cases d with
      | returning result load =>
        cases hend with
        | returning h =>
          simp only at hr
          split at hr
          · exact Option.some.inj hr ▸ h
          · cases hr
      | _ => cases hr

/-- A stop comes between the tests of a request and its locked section: the
answer is 0, and nobody is queued. -/
theorem request_once_stopped :
    let s := Host.after .source ((.insmod :: List.replicate 6 (.proceed 0)) ++
      [.enter 0 .startElevator, .jump 0, .work 0, .work 0, .work 0, .back 0] ++
      [.enter 1 (.issueRequest 1 2 0)])
    let post : List Event := [.jump 1, .work 1, .enter 0 .stopElevator, .jump 0, .work 0, .work 0,
      .work 0, .work 0, .work 1, .work 1, .work 1]
    ((kernel .source).run s post).answer (.back 1) = some 0 ∧
      TurnedAway .source 1 1 2 0 s post := by
  intro s post
  have hanswer : ((kernel .source).run s post).answer (.back 1) = some 0 := by decide +kernel
  refine ⟨hanswer, ?_⟩
  rcases (request_once .source _ post 1 1 2 0 (by decide +kernel) (by simp [post])
    (by decide +kernel)).2.2 0 hanswer with ⟨hone, -⟩ | ⟨-, hqueued | haway⟩
  · cases hone
  · have hzero : added .source 1 s post = 0 := by decide +kernel
    cases hzero.symm.trans hqueued.once
  · exact haway

end KernelElevator.Kernel
