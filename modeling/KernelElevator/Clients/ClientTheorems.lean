/-
KernelElevator.Clients.ClientTheorems — what the programs ask for, and what
they get.

  §1 `rnd` gives each value of its range equally often, except that the first
     ones come once more: the "slight bias" of the source (`rnd_count`), as
     long as the size of the range is an `int`;
  §2 `producer` comes to an end if and only if some draw differs from the
     start floor, and it then asks for a ride that the module accepts, to
     another floor (`producer_requests`);
  §3 with no other programs, through any loads and unloads of the module and
     any interleaving, a request is turned down only when the elevator is not
     started, and nobody is carried past their floor (`clients_served`).
-/
import KernelElevator.Clients.Programs
import KernelElevator.Kernel.ModuleTheorems
import KernelElevator.Module.IterationTheorems
import Mathlib.Data.Int.CardIntervalMod

namespace KernelElevator.Clients

open Transition

/-! ## §1 The random values -/

theorem toInt_eq {n : Int} (hlo : -intMax - 1 ≤ n) (hhi : n ≤ intMax) : toInt n = n := by
  unfold intMax at hlo hhi
  exact Int.bmod_eq_of_le (by omega) (by omega)

/-- What a range must be for `rnd`: its bounds and its size are `int`s. -/
structure IntRange (min max : Int) : Prop where
  min_ge : -intMax - 1 ≤ min
  max_le : max ≤ intMax
  le : min ≤ max
  size_le : max - min + 1 ≤ intMax

/-- Nothing overflows then. -/
theorem rnd_eq {min max : Int} (h : IntRange min max) (rand : Nat) :
    rnd rand min max = rand % (max - min + 1) + min := by
  obtain ⟨hmin, hmax, hle, hsize⟩ := h
  have hlo := Int.emod_nonneg (rand : Int) (show max - min + 1 ≠ 0 by omega)
  have hhi := Int.emod_lt_of_pos (rand : Int) (show 0 < max - min + 1 by omega)
  unfold intMax at *
  rw [rnd, toInt_eq (n := max - min) (by unfold intMax; omega) (by unfold intMax; omega),
    toInt_eq (n := max - min + 1) (by unfold intMax; omega) (by unfold intMax; omega),
    Int.tmod_eq_emod_of_nonneg (Int.natCast_nonneg rand),
    toInt_eq (by unfold intMax; omega) (by unfold intMax; omega)]

theorem rnd_range {min max : Int} (h : IntRange min max) (rand : Nat) :
    min ≤ rnd rand min max ∧ rnd rand min max ≤ max := by
  have hle := h.le
  have hlo := Int.emod_nonneg (rand : Int) (show max - min + 1 ≠ 0 by omega)
  have hhi := Int.emod_lt_of_pos (rand : Int) (show 0 < max - min + 1 by omega)
  rw [rnd_eq h]
  omega

/-- **The bias of `rnd`**: of the values `0 … n - 1` of `rand`, which has none
above `RAND_MAX`, every value of the range comes from `n / k`, where `k` is
the size of the range, and the first `n % k` of them from one more. -/
theorem rnd_count {n : Nat} (_hn : n ≤ intMax + 1) {min max v : Int} (h : IntRange min max)
    (hlo : min ≤ v) (hhi : v ≤ max) :
    n.count (fun rand => rnd rand min max = v)
      = n / (max - min + 1).toNat
        + if (v - min).toNat < n % (max - min + 1).toNat then 1 else 0 := by
  obtain ⟨k, hk⟩ := Int.eq_ofNat_of_zero_le (show 0 ≤ max - min by omega)
  obtain ⟨d, hd⟩ := Int.eq_ofNat_of_zero_le (show 0 ≤ v - min by omega)
  have hsize : (max - min + 1).toNat = k + 1 := by omega
  have hoffset : (v - min).toNat = d := by omega
  have hmod : ∀ rand : Nat, rnd rand min max = v ↔ rand ≡ d [MOD k + 1] := by
    intro rand
    have hcast : (rand : Int) % (max - min + 1) = ((rand % (k + 1) : Nat) : Int) := by
      rw [hk]
      push_cast
      rfl
    rw [rnd_eq h, hcast, Nat.ModEq, Nat.mod_eq_of_lt (show d < k + 1 by omega)]
    omega
  have hcount := Nat.count_modEq_card (b := n) (Nat.succ_pos k) d
  simp only [hmod, hsize, hoffset]
  rw [Nat.mod_eq_of_lt (show d < k + 1 by omega)] at hcount
  exact hcount

theorem intRange_floors : IntRange 1 10 := ⟨by decide, by decide, by decide, by decide⟩

theorem intRange_types : IntRange 0 1 := ⟨by decide, by decide, by decide, by decide⟩

/-- With `RAND_MAX` at 2147483647 floor 3 is drawn once more than floor 10. -/
theorem rnd_count_floors :
    (2147483648 : Nat).count (fun rand => rnd rand 1 10 = 3) = 214748365 ∧
      (2147483648 : Nat).count (fun rand => rnd rand 1 10 = 10) = 214748364 :=
  ⟨rnd_count (by decide) intRange_floors (by decide) (by decide),
    rnd_count (by decide) intRange_floors (by decide) (by decide)⟩

/-! ## §2 A request -/

/-- The loop gives the first draw that differs from the start floor. -/
theorem drawDest_eq (rand : Nat → Nat) (start : Int) (draws i : Nat) {dest : Int}
    (h : drawDest rand start i draws = some dest) :
    dest ≠ start ∧ ∃ j, i ≤ j ∧ j < i + draws ∧ rnd (rand j) 1 10 = dest ∧
      ∀ k, i ≤ k → k < j → rnd (rand k) 1 10 = start := by
  induction draws generalizing i with
  | zero => cases h
  | succ draws ih =>
    simp only [drawDest] at h
    split at h
    · next hsame =>
        obtain ⟨hne, j, hij, hj, hdest, hbefore⟩ := ih (i + 1) h
        refine ⟨hne, j, by omega, by omega, hdest, fun k hik hkj => ?_⟩
        rcases Nat.eq_or_lt_of_le hik with rfl | hlt
        · exact hsame
        · exact hbefore k hlt hkj
    · next hne =>
        obtain rfl : rnd (rand i) 1 10 = dest := by simpa using h
        exact ⟨hne, i, Nat.le_refl _, by omega, rfl, fun k hik hki => by omega⟩

/-- With enough draws it comes to its end. -/
theorem drawDest_isSome {rand : Nat → Nat} {start : Int} (draws i : Nat)
    (h : rnd (rand (i + draws)) 1 10 ≠ start) :
    (drawDest rand start i (draws + 1)).isSome = true := by
  induction draws generalizing i with
  | zero =>
    rw [Nat.add_zero] at h
    simp [drawDest, h]
  | succ draws ih =>
    rw [drawDest]
    split
    · exact ih (i + 1) (by rwa [show i + 1 + draws = i + (draws + 1) by omega])
    · rfl

/-- A request for a ride to another floor that the module accepts. -/
structure Sensible (startFloor destinationFloor type : Int) : Prop where
  requestable : Requestable .source startFloor destinationFloor type
  elsewhere : destinationFloor ≠ startFloor

/-- What `producer` asks for, if it comes to asking. -/
theorem producer_call {argc : Nat} {rand : Nat → Nat} {draws : Nat} {c : Call}
    (h : (Process.producer argc rand draws).call = some c) :
    ∃ a b t, c = .issueRequest a b t ∧ Sensible a b t := by
  simp only [Process.call, producer] at h
  split at h
  · cases h
  · cases hdraw : drawDest rand (rnd (rand 1) 1 10) 2 draws with
    | none => simp [hdraw] at h
    | some dest =>
      simp only [hdraw, Option.map_some, Option.bind_some, Option.some.injEq] at h
      obtain ⟨hne, j, -, -, hdest, -⟩ := drawDest_eq rand _ draws 2 hdraw
      obtain ⟨h1, h2⟩ := rnd_range intRange_floors (rand 1)
      obtain ⟨h3, h4⟩ := rnd_range intRange_floors (rand j)
      obtain ⟨h5, h6⟩ := rnd_range intRange_types (rand 0)
      rw [hdest] at h3 h4
      have hfloors : ((Building.source.floors : Nat) : Int) = 10 := rfl
      exact ⟨_, _, _, h.symm, ⟨by omega, h1, by omega, h3, by omega⟩, hne⟩

theorem consumer_call {argv : List String} {c : Call}
    (h : (Process.consumer argv).call = some c) : c = .startElevator ∨ c = .stopElevator := by
  simp only [Process.call, consumer] at h
  split at h
  · split at h
    · exact Or.inl (Option.some.inj h).symm
    · split at h
      · exact Or.inr (Option.some.inj h).symm
      · cases h
  · cases h

theorem sensible_of_client {a b t : Int} (h : ClientCall (.issueRequest a b t)) :
    Sensible a b t := by
  obtain ⟨p, hp⟩ := h
  cases p with
  | consumer argv => rcases consumer_call hp with hc | hc <;> cases hc
  | producer argc rand draws =>
    obtain ⟨_, _, _, hc, hs⟩ := producer_call hp
    cases hc
    exact hs

/-- **What `producer` does**: it comes to an end if and only if some draw
after the start floor's differs from it; and whatever it then asks for is a
ride to another floor that a started module accepts. -/
theorem producer_requests (rand : Nat → Nat) :
    ((∃ draws, (producer 1 rand draws).isSome = true)
      ↔ ∃ i, 2 ≤ i ∧ rnd (rand i) 1 10 ≠ rnd (rand 1) 1 10) ∧
    ∀ draws c, (Process.producer 1 rand draws).call = some c →
      ∃ a b t, c = .issueRequest a b t ∧ Sensible a b t := by
  refine ⟨⟨?_, ?_⟩, fun draws c h => producer_call h⟩
  · rintro ⟨draws, hsome⟩
    simp only [producer, ne_eq, not_true_eq_false, if_false, Option.isSome_map] at hsome
    obtain ⟨dest, hdest⟩ := Option.isSome_iff_exists.mp hsome
    obtain ⟨hne, j, hj, -, hrnd, -⟩ := drawDest_eq rand _ draws 2 hdest
    refine ⟨j, hj, ?_⟩
    rw [hrnd]
    exact hne
  · rintro ⟨i, hi, hne⟩
    obtain ⟨draws, rfl⟩ := Nat.exists_eq_add_of_le hi
    refine ⟨draws + 1, ?_⟩
    simp only [producer, ne_eq, not_true_eq_false, if_false, Option.isSome_map]
    exact drawDest_isSome draws 2 hne

/-! ## §3 The module under the programs -/

open Threads

/-- A request that is still to be queued is a sensible one. -/
def AsksSensibly : CallPc → Prop
  | .issueTest startFloor destinationFloor type | .issueLock startFloor destinationFloor type
  | .issueLocked startFloor destinationFloor type => Sensible startFloor destinationFloor type
  | _ => True

/-- The scheduler has let those off who are there, and has not moved since. -/
def hasUnloaded : SchedulerPc → Bool
  | .top | .unloadLock | .unloadLocked => false
  | _ => true

/-- A module that has been called by clients only. -/
structure Served (m : State) : Prop where
  inv : m.Inv .source
  asked : ∀ t, AsksSensibly (m.calls t)
  elsewhere : ∀ p ∈ m.g.allocated, p.destinationFloor ≠ p.startFloor
  arrived : hasUnloaded m.scheduler = true →
    ∀ p ∈ m.g.onboard, p.destinationFloor ≠ m.g.currentFloor

/-- What clients can rely on. -/
structure Relies (m : State) : Prop where
  answered : ∀ t a b k, m.calls t = .issueTest a b k →
    ((m.step .source (.advance t)).calls t = .returned 1 ↔ m.g.started = false)
  elsewhere : ∀ p ∈ m.g.allocated, p.destinationFloor ≠ p.startFloor
  carried : m.scheduler = .move → ∀ p ∈ m.g.onboard, p.destinationFloor ≠ m.g.currentFloor

/-- A step of the module by one of its threads, or a call of a client. -/
def ClientAction (a : Action) : Prop := ∀ t c, a = .invoke t c → ClientCall c

theorem asksSensibly_entry {c : Call} (h : ClientCall c) : AsksSensibly (.entry c) := by
  cases c with
  | issueRequest a b k => exact sensible_of_client h
  | startElevator => trivial
  | stopElevator => trivial

theorem asksSensibly_step (t : Nat) (g : Globals) (mutex : Option Tid) {pc : CallPc}
    (h : AsksSensibly pc) : AsksSensibly (callStep .source t g mutex pc).2.2 := by
  cases pc with
  | issueTest a b k =>
    simp only [callStep]
    split
    · trivial
    · exact h
  | issueLock a b k => simp only [callStep]; split <;> exact h
  | startTest => simp only [callStep]; split <;> trivial
  | stopTestStarted => simp only [callStep]; split <;> trivial
  | stopTestDeactiving => simp only [callStep]; split <;> trivial
  | stopLock => simp only [callStep]; split <;> trivial
  | _ => trivial

theorem asksSensibly_update {calls : Nat → CallPc} (h : ∀ t, AsksSensibly (calls t)) (t : Nat)
    {pc : CallPc} (hpc : AsksSensibly pc) (u : Nat) :
    AsksSensibly (Function.update calls t pc u) := by
  rcases eq_or_ne u t with rfl | hu
  · rwa [Function.update_self]
  · rw [Function.update_of_ne hu]
    exact h u

theorem Served.invoke {m : State} (h : Served m) (t : Nat) {c : Call} (hc : ClientCall c) :
    Served (m.step .source (.invoke t c)) := by
  have hinv := h.inv.invoke t c
  simp only [State.step] at hinv ⊢
  split at hinv
  · next hdone =>
      rw [if_pos hdone]
      exact ⟨hinv, asksSensibly_update h.asked t (asksSensibly_entry hc), h.elsewhere, h.arrived⟩
  · next hdone =>
      rw [if_neg hdone]
      exact h

theorem Served.advance {m : State} (h : Served m) (t : Nat) :
    Served (m.step .source (.advance t)) := by
  have hinv := h.inv.advance t
  have hasked := asksSensibly_update h.asked t (asksSensibly_step t m.g m.mutex (h.asked t))
  have he := callStep_effect (B := .source) t m.g m.mutex (m.calls t)
  have hask := h.asked t
  simp only [State.step] at hinv ⊢
  generalize m.calls t = pc at *
  generalize (callStep .source t m.g m.mutex pc).1 = g' at *
  cases he with
  | added hd =>
    refine ⟨hinv, hasked, fun p hp => ?_, h.arrived⟩
    simp only [addPassenger, List.mem_append, List.mem_singleton] at hp
    rcases hp with hp | rfl
    · exact h.elsewhere p hp
    · exact hask.elsewhere
  | taken => exact ⟨hinv, hasked, h.elsewhere, fun _ p hp => absurd hp List.not_mem_nil⟩
  | _ => exact ⟨hinv, hasked, h.elsewhere, h.arrived⟩

/-- Whoever boards has asked for another floor than this one. -/
theorem Served.boarders {m : State} (h : Served m) {p : Passenger}
    (hp : p ∈ boarders .source m.g) : p.destinationFloor ≠ m.g.currentFloor := by
  have hwaiting := mem_waiting_of_mem_boarders hp
  rw [← mem_boarders_floor h.inv.queues hp]
  exact h.elsewhere p ((h.inv.records.mem_iff p).mpr ⟨.waiting (m.g.currentFloor - 1), hwaiting⟩)

theorem Served.arrived_scheduler {m : State} (h : Served m) :
    hasUnloaded (m.step .source .scheduler).scheduler = true →
      ∀ p ∈ (m.step .source .scheduler).g.onboard,
        p.destinationFloor ≠ (m.step .source .scheduler).g.currentFloor := by
  have hboarders := fun p hp => h.boarders (p := p) hp
  have harrived := h.arrived
  simp only [State.step]
  generalize m.scheduler = pc at harrived ⊢
  generalize m.g = g at harrived hboarders ⊢
  cases pc with
  | top => simp only [Threads.schedulerStep]; split <;> exact fun hpc => by cases hpc
  | unloadLock => simp only [Threads.schedulerStep]; split <;> exact fun hpc => by cases hpc
  | unloadLocked =>
    -- who wants off here gets off
    simp only [Threads.schedulerStep, unloadLocked_eq]
    exact fun _ p hp => (mem_riding.mp hp).2
  | unloadUnlock dl unloaded => exact harrived
  | unloadTail dl unloaded =>
    simp only [Threads.schedulerStep, unloadTail_eq]
    exact harrived
  | room us => simp only [Threads.schedulerStep]; split <;> exact harrived
  | loadLock us => simp only [Threads.schedulerStep]; split <;> exact harrived
  | loadLocked us =>
    simp only [Threads.schedulerStep, loadLocked_eq]
    intro _ p hp
    rcases List.mem_append.mp hp with hp | hp
    · exact harrived rfl p hp
    · exact hboarders p hp
  | loadUnlock us ls => exact harrived
  | loading us ls =>
    simp only [Threads.schedulerStep, loadingPhase_eq]
    exact harrived
  | dispatch =>
    simp only [Threads.schedulerStep, changeElevatorState_eq, ssleep]
    split
    · exact harrived
    · exact fun hpc => by cases hpc
  | move => exact fun hpc => by cases hpc

theorem Served.scheduler {m : State} (h : Served m) : Served (m.step .source .scheduler) := by
  refine ⟨h.inv.scheduler, h.asked, ?_, h.arrived_scheduler⟩
  have he := Threads.schedulerStep_effect (B := .source) m.g m.mutex m.scheduler
  simp only [State.step]
  generalize (Threads.schedulerStep .source m.g m.mutex m.scheduler).1 = g' at he ⊢
  generalize m.scheduler = pc at he
  cases he with
  | loaded us => rw [loadLocked_eq]; exact h.elsewhere
  | _ => exact h.elsewhere

theorem loaded_served : Served (Threads.loaded .source) := by
  refine ⟨loaded_shared, fun _ => trivial, ?_, fun hpc => by cases hpc⟩
  simp [Threads.loaded, KernelElevator.loaded, setupElevator, bss]

theorem served_after (as : List Action)
    (h : ∀ a ∈ as, ClientAction a ∧ ∀ t, a ≠ .interrupt t) : Served (State.after .source as) := by
  have hal : (threads .source).Along (fun _ a => ClientAction a ∧ ∀ t, a ≠ .interrupt t)
      (Threads.loaded .source) as := (threads .source).along_of_forall as _ fun a ha _ => h a ha
  refine (threads .source).inv_of_along (P := Served) (fun m a ha hm => ?_) as _ loaded_served hal
  cases a with
  | invoke t c => exact hm.invoke t (ha.1 t c rfl)
  | advance t => exact hm.advance t
  | scheduler => exact hm.scheduler
  | interrupt t => exact absurd rfl (ha.2 t)

theorem Served.relies {m : State} (h : Served m) : Relies m := by
  refine ⟨fun t a b k hpc => ?_, h.elsewhere, fun hpc => h.arrived (by rw [hpc]; rfl)⟩
  have hreq : Sensible a b k := by
    have hask := h.asked t
    rwa [hpc] at hask
  simp only [State.step, hpc, callStep, Function.update_self]
  cases hs : m.g.started with
  | false => simp [issueRequestRejects, hs]
  | true =>
    have hr := issueRequestRejects_iff.mpr ⟨hs, hreq.requestable⟩
    simp [hr]

/-! ### Under any loads and unloads -/

open Kernel

/-- Only the programs make calls. -/
def OnlyClients (_ : Host) (e : Event) : Prop := ∀ t c, e = .enter t c → ClientCall c

/-- Under the programs alone: what the module's memory comes from, and what
the threads are about to call. -/
structure ClientInv (s : Host) : Prop where
  reached : s.Reached .source ClientAction
  callers : ∀ t c, s.caller t = .tested c → ClientCall c

theorem ClientInv.moveTo {s : Host} (h : ∀ t c, s.caller t = .tested c → ClientCall c)
    (t : Nat) {d : Caller} (hd : ∀ c, d = .tested c → ClientCall c) (u : Nat) (c : Call)
    (hu : (s.moveTo t d).caller u = .tested c) : ClientCall c := by
  rw [moveTo_caller] at hu
  split at hu
  · exact hd c hu
  · exact h u c hu

/-- A call comes into the module only from a thread that is on its way. -/
theorem action_client {s : Host} (h : ∀ t c, s.caller t = .tested c → ClientCall c) {e : Event}
    {a : Action} (ha : s.action e = some a) : ClientAction a := by
  rintro t c rfl
  cases enacts_of_action ha with
  | jump hc => exact h t c hc

theorem caller_on_ne_tested (c d : Call) (load : Nat) (pc : CallPc) :
    Caller.on c load pc ≠ .tested d := by
  cases pc <;> exact fun h => by cases h

theorem ClientInv.step {s : Host} (h : ClientInv s) (e : Event) (he : OnlyClients s e)
    (hfree : InitsFree s e) : ClientInv (s.step .source e) := by
  refine ⟨h.reached.step e hfree fun a ha => action_client h.callers ha, ?_⟩
  have hstep := step_effect (B := .source) s e
  generalize s.step .source e = s' at hstep
  cases hstep with
  | entered _ _ =>
    refine ClientInv.moveTo h.callers _ fun c hc => ?_
    cases hc
    exact he _ _ rfl
  | jumped _ _ => exact ClientInv.moveTo h.callers _ fun c hc => by cases hc
  | worked m _ _ =>
    exact ClientInv.moveTo h.callers _ fun c hc => absurd hc (caller_on_ne_tested _ _ _ _)
  | left _ => exact ClientInv.moveTo h.callers _ fun c hc => by cases hc
  | cleaned m ha hm =>
    obtain ⟨m', a, heq, -⟩ := cleanup_frame (B := .source) s m _ ha hm
    rw [heq]
    exact h.callers
  | _ => exact h.callers

/-- **What the programs can rely on**: if nobody but `producer` and `consumer`
makes calls, then through any loads and unloads and at any step, while the
module is there, a request that has come into it is turned down exactly if the
elevator is not started when it tests that, nobody has asked for the floor
they are on, and no move carries anybody past the floor they asked for. -/
theorem clients_served (es : List Event)
    (h : (kernel .source).Along (fun s e => OnlyClients s e ∧ InitsFree s e) booted es)
    (m : State) (hm : (Host.after .source es).module = some m)
    (hruns : (Host.after .source es).admin.runs = true) : Relies m := by
  have hinv := (kernel .source).inv_of_along (P := ClientInv)
    (fun s e he hs => ClientInv.step hs e he.1 he.2) es booted
    ⟨booted_reached _, fun t c hc => by cases hc⟩ h
  obtain ⟨as, has, hholds⟩ := hinv.reached
  obtain rfl := Option.some.inj (hm.symm.trans (hholds.runs hruns))
  exact (served_after as has).relies

theorem clientCall_start : ClientCall .startElevator :=
  ⟨.consumer ["consumer", "--start"], by decide⟩

/-- With a zombie on board who wants off at floor 2 and a human queued there
the cabin leaves floor 1, while another request is at its tests. -/
theorem clients_served_moving :
    ∃ m, (Host.after .source (.insmod :: List.replicate 6 (.proceed 0)
        ++ [.enter 0 .startElevator, .jump 0, .work 0, .work 0, .work 0, .back 0,
          .enter 1 (.issueRequest 1 2 1), .enter 2 (.issueRequest 2 3 0), .jump 1, .jump 2,
          .work 1, .work 1, .work 1, .work 1, .work 2, .work 2, .work 2, .work 2]
        ++ List.replicate 11 .scheduler
        ++ [.enter 3 (.issueRequest 2 3 0), .jump 3])).module = some m ∧
      m.scheduler = .move ∧ m.g.onboard = [⟨0, 1, 1, 2⟩] ∧ m.g.numWaiting = 1 ∧
        m.calls 3 = .issueTest 2 3 0 ∧ Relies m := by
  have hzombie : ClientCall (.issueRequest 1 2 1) := ⟨.producer 1 (· + 9) 1, by decide⟩
  have hhuman : ClientCall (.issueRequest 2 3 0) := ⟨.producer 1 id 1, by decide⟩
  have hshown : (Host.after .source (.insmod :: List.replicate 6 (.proceed 0)
        ++ [.enter 0 .startElevator, .jump 0, .work 0, .work 0, .work 0, .back 0,
          .enter 1 (.issueRequest 1 2 1), .enter 2 (.issueRequest 2 3 0), .jump 1, .jump 2,
          .work 1, .work 1, .work 1, .work 1, .work 2, .work 2, .work 2, .work 2]
        ++ List.replicate 11 .scheduler
        ++ [.enter 3 (.issueRequest 2 3 0), .jump 3])).module.map
          (fun m => (m.scheduler, m.g.onboard, m.g.numWaiting, m.calls 3))
      = some (.move, [⟨0, 1, 1, 2⟩], 1, .issueTest 2 3 0) := by decide +kernel
  obtain ⟨m, hm, heq⟩ := Option.map_eq_some_iff.mp hshown
  simp only [Prod.mk.injEq] at heq
  obtain ⟨hmove, hon, hwaiting, hcall⟩ := heq
  refine ⟨m, hm, hmove, hon, hwaiting, hcall, clients_served _ (.and _ ?_ (by decide +kernel)) m hm
    (by decide +kernel)⟩
  refine Machine.along_of_forall _ _ _ fun e he _ t c heq => ?_
  subst heq
  simp at he
  rcases he with ⟨-, rfl⟩ | ⟨-, rfl⟩ | ⟨-, rfl⟩ | ⟨-, rfl⟩
  · exact clientCall_start
  · exact hzombie
  · exact hhuman
  · exact hhuman

end KernelElevator.Clients
