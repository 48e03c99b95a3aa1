/-
KernelElevator.Timer.MyTimerTheorems — what the reads of `/proc/timer`
print.

`Timed` is the module together with the clock of the last call that
delivered text, the reference time of the next one. The static `t0` is that
time, and all zero before the first (`Timed.Inv`). So the elapsed time is
printed when there is a reference time, and it is the exact difference,
unless the reference time falls on an exact second: then its nanoseconds
are zero and `procfile_read` takes it for no time at all
(`elapsed_iff_referenceValid`).
-/
import KernelElevator.Timer.MyTimer
import KernelElevator.Machine.Run
import KernelElevator.Machine.Decimal

namespace KernelElevator.Timer

open Transition

/-! ## §1 One call -/

/-- The nanoseconds since the Epoch. -/
def Timespec.total (t : Timespec) : Int := t.sec * 1000000000 + t.nsec

/-- The borrow makes the difference exact and normalised. -/
theorem difference_spec {t0 t1 : Timespec} (h0 : t0.Normalised) (h1 : t1.Normalised) :
    (difference t0 t1).Normalised ∧ (difference t0 t1).total = t1.total - t0.total := by
  obtain ⟨h0lo, h0hi⟩ := h0
  obtain ⟨h1lo, h1hi⟩ := h1
  unfold difference Timespec.Normalised Timespec.total
  split
  · simp only
    omega
  · simp only
    omega

theorem length_print (t : Timespec) :
    t.print.length = (toString t.sec).length + 1 + (toString t.nsec).length := by
  have hdot : ".".length = 1 := rfl
  rw [Timespec.print, String.length_append, String.length_append, hdot]

theorem length_currentLine (t : Timespec) : (currentLine t).length = 15 + t.print.length := by
  have hlabel : "current time: ".length = 14 := rfl
  have hbreak : "\n".length = 1 := rfl
  unfold currentLine
  rw [String.length_append, String.length_append, hlabel, hbreak]
  omega

theorem length_elapsedLine (t : Timespec) : (elapsedLine t).length = 15 + t.print.length := by
  have hlabel : "elapsed time: ".length = 14 := rfl
  have hbreak : "\n".length = 1 := rfl
  unfold elapsedLine
  rw [String.length_append, String.length_append, hlabel, hbreak]
  omega

theorem print_length {t : Timespec} (ht : t.Normalised) (hlo : -(10 ^ 19) < t.sec)
    (hhi : t.sec < 10 ^ 19) : t.print.length ≤ 30 := by
  have hsec := length_toString_le (k := 19) (by omega) hlo hhi
  have hnsec := length_toString_le_of_nonneg (k := 9) (by omega) ht.1 ht.2
  rw [length_print]
  omega

/-- The longest text fits a `char` with room to spare. -/
theorem text_length (r c : ClockValue) :
    (currentLine c.time ++ elapsedLine (difference r.time c.time)).length ≤ 127 := by
  have hr := r.sec_lt
  have hr0 := r.sec_nonneg
  have hc := c.sec_lt
  have hc0 := c.sec_nonneg
  have hcurrent := print_length c.normalised (by omega) (by omega)
  have hdiff : -(10 ^ 19) < (difference r.time c.time).sec ∧
      (difference r.time c.time).sec < 10 ^ 19 := by
    unfold difference
    split <;> simp only <;> omega
  have helapsed := print_length (difference_spec r.normalised c.normalised).1 hdiff.1 hdiff.2
  rw [String.length_append, length_currentLine, length_elapsedLine]
  omega

theorem currentLine_length (c : ClockValue) : (currentLine c.time).length ≤ 127 := by
  have h := text_length c c
  rw [String.length_append] at h
  omega

theorem toChar_of_le {n : Nat} (h : n ≤ 127) : toChar n = n := by
  unfold toChar Int.bmod
  simp only
  split <;> omega

/-- The call reads from the start of the file, has room for the text, and
`copy_to_user` does not fail. -/
def ReadCall.Takes (c : ReadCall) (currentT : String) : Prop :=
  c.ppos ≤ 0 ∧ currentT.length ≤ c.count ∧ c.copyFails = false

instance (c : ReadCall) (currentT : String) : Decidable (c.Takes currentT) :=
  inferInstanceAs (Decidable (_ ∧ _ ∧ _))

/-- The text goes out whole or not at all. -/
theorem deliver_text (c : ReadCall) {currentT : String} (s : TimerState)
    (hlen : currentT.length ≤ 127) :
    (deliver c currentT s).1.text = if c.Takes currentT then some currentT else none := by
  have hsize : toSize (toChar currentT.length) = currentT.length := by
    rw [toChar_of_le hlen]
    unfold toSize
    omega
  have htake : String.ofList (currentT.toList.take currentT.length) = currentT := by
    rw [← String.length_toList, List.take_length, String.ofList_toList]
  simp only [deliver, hsize, htake]
  by_cases hskip : c.ppos > 0 ∨ c.count < currentT.length
  · rw [if_pos hskip, if_neg (by unfold ReadCall.Takes; omega)]
  · rw [if_neg hskip]
    cases hc : c.copyFails with
    | true => simp [ReadCall.Takes, hc]
    | false =>
      rw [not_or] at hskip
      rw [if_neg (by simp), if_pos ⟨by omega, by omega, hc⟩]

/-- Only a call that delivers text moves `t0`, to the clock it printed. -/
theorem deliver_t0 (c : ReadCall) (currentT : String) (s : TimerState) :
    (deliver c currentT s).2.t0
      = if (deliver c currentT s).1.text.isSome then s.t1 else s.t0 := by
  simp only [deliver]
  split
  · rfl
  · split <;> rfl

theorem deliver_diff (c : ReadCall) (currentT : String) (s : TimerState) :
    (deliver c currentT s).2.diff = s.diff := by
  simp only [deliver]
  split
  · rfl
  · split <;> rfl

theorem procfileRead_elapsed {c : ReadCall} {s : TimerState} (h : 0 < s.t0.nsec) :
    procfileRead c s
      = deliver c (currentLine c.now.time ++ elapsedLine (difference s.t0 c.now.time))
          { s with t1 := c.now.time, diff := difference s.t0 c.now.time } := by
  rw [procfileRead, if_pos h]

theorem procfileRead_first {c : ReadCall} {s : TimerState} (h : ¬ 0 < s.t0.nsec) :
    procfileRead c s = deliver c (currentLine c.now.time) { s with t1 := c.now.time } := by
  rw [procfileRead, if_neg h]

/-- Whichever branch is taken, `t0` moves to the clock of this call exactly
when the call delivers text. -/
theorem procfileRead_t0 (c : ReadCall) (s : TimerState) :
    (procfileRead c s).2.t0
      = if (procfileRead c s).1.text.isSome then c.now.time else s.t0 := by
  by_cases hvalid : 0 < s.t0.nsec
  · rw [procfileRead_elapsed hvalid]
    exact deliver_t0 _ _ _
  · rw [procfileRead_first hvalid]
    exact deliver_t0 _ _ _

/-- A call that delivers nothing leaves `t0` as it was. -/
theorem procfileRead_kept (c : ReadCall) (s : TimerState)
    (h : (procfileRead c s).1.text = none) : (procfileRead c s).2.t0 = s.t0 := by
  rw [procfileRead_t0, h]
  rfl

/-! ## §2 Every sequence of calls -/

/-- The module, and the clock of the latest call that delivered text. -/
structure Timed where
  state : TimerState
  reference : Option ClockValue

def Timed.step (s : Timed) (c : ReadCall) : Timed where
  state := (procfileRead c s.state).2
  reference := if (procfileRead c s.state).1.text.isSome then some c.now else s.reference

/-- The freshly loaded module, called again and again. -/
def reads : Machine Timed ReadCall where
  init := ⟨.bss, none⟩
  step := Timed.step

/-- A call that delivers text prints the clock, and the elapsed time exactly
when there was an earlier such call; the elapsed time printed is normalised
and is the exact difference of the two clocks. A call that delivers nothing
leaves `t0` as it was. -/
structure ReadsRight (s : Timed) (c : ReadCall) : Prop where
  first : ∀ t, (procfileRead c s.state).1.text = some t → s.reference = none →
    t = currentLine c.now.time
  later : ∀ t, (procfileRead c s.state).1.text = some t → ∀ r, s.reference = some r →
    t = currentLine c.now.time ++ elapsedLine (procfileRead c s.state).2.diff ∧
      (procfileRead c s.state).2.diff.Normalised ∧
      (procfileRead c s.state).2.diff.total = c.now.time.total - r.time.total
  kept : (procfileRead c s.state).1.text = none → (procfileRead c s.state).2.t0 = s.state.t0

/-- If the call reads from the start of the file, has room for the line with
the clock and can be given it, its reference time is not on an exact second. -/
def ReferenceValid (s : Timed) (c : ReadCall) : Prop :=
  c.Takes (currentLine c.now.time) → ∀ r, s.reference = some r → r.time.nsec ≠ 0

/-- `t0` is the reference time, and zero as long as there is none. -/
def Timed.Inv (s : Timed) : Prop :=
  s.state.t0 = (s.reference.map ClockValue.time).getD ⟨0, 0⟩

theorem Timed.Inv.step {s : Timed} (h : s.Inv) (c : ReadCall) : (s.step c).Inv := by
  unfold Timed.Inv Timed.step
  simp only [procfileRead_t0]
  split
  · rfl
  · exact h

/-- The lines printed by the two branches are never the same. -/
theorem currentLine_ne (t diff : Timespec) : currentLine t ≠ currentLine t ++ elapsedLine diff := by
  intro h
  have hempty : elapsedLine diff = "" := String.append_eq_left_iff.mp h.symm
  have hlen := length_elapsedLine diff
  rw [hempty, String.length_empty] at hlen
  omega

/-- Without a reference time only the clock is printed, which is right. -/
theorem readsRight_of_none {s : Timed} (h : s.Inv) (href : s.reference = none) (c : ReadCall) :
    ReadsRight s c := by
  have hzero : ¬ 0 < s.state.t0.nsec := by
    rw [h, href]
    simp
  refine ⟨fun t ht _ => ?_, fun t _ r hr => ?_, procfileRead_kept c s.state⟩
  · rw [procfileRead_first hzero, deliver_text _ _ (currentLine_length c.now)] at ht
    split at ht
    · exact (Option.some.inj ht).symm
    · cases ht
  · rw [href] at hr
    cases hr

/-- With a reference time off the exact second both lines are printed. -/
theorem readsRight_of_subsecond {s : Timed} (h : s.Inv) {r : ClockValue}
    (href : s.reference = some r) (hsub : r.time.nsec ≠ 0) (c : ReadCall) : ReadsRight s c := by
  have ht0 : s.state.t0 = r.time := by
    rw [h, href]
    rfl
  have hpos : 0 < s.state.t0.nsec := by
    have := r.normalised.1
    rw [ht0]
    omega
  refine ⟨fun t _ hnone => ?_, fun t ht r' hr' => ?_, procfileRead_kept c s.state⟩
  · rw [href] at hnone
    cases hnone
  · rw [href] at hr'
    obtain rfl := Option.some.inj hr'
    rw [procfileRead_elapsed hpos, ht0] at ht ⊢
    rw [deliver_text _ _ (text_length r c.now)] at ht
    rw [deliver_diff]
    refine ⟨?_, difference_spec r.normalised c.now.normalised⟩
    split at ht
    · exact (Option.some.inj ht).symm
    · cases ht

/-- With a reference time on an exact second the elapsed time is missing, so
the call is right only if it delivers nothing. -/
theorem readsRight_whole_iff {s : Timed} (h : s.Inv) {r : ClockValue}
    (href : s.reference = some r) (hwhole : r.time.nsec = 0) (c : ReadCall) :
    ReadsRight s c ↔ ¬ c.Takes (currentLine c.now.time) := by
  have hzero : ¬ 0 < s.state.t0.nsec := by
    rw [h, href]
    simp [hwhole]
  have htext : (procfileRead c s.state).1.text
      = if c.Takes (currentLine c.now.time) then some (currentLine c.now.time) else none := by
    rw [procfileRead_first hzero, deliver_text _ _ (currentLine_length c.now)]
  constructor
  · intro hright htakes
    rw [if_pos htakes] at htext
    exact absurd (hright.later _ htext r href).1 (currentLine_ne _ _)
  · intro hnot
    rw [if_neg hnot] at htext
    refine ⟨fun t ht => ?_, fun t ht => ?_, procfileRead_kept c s.state⟩
    · rw [htext] at ht
      cases ht
    · rw [htext] at ht
      cases ht

theorem readsRight_iff {s : Timed} (h : s.Inv) (c : ReadCall) :
    ReadsRight s c ↔ ReferenceValid s c := by
  unfold ReferenceValid
  cases href : s.reference with
  | none => simp [readsRight_of_none h href c]
  | some r =>
    by_cases hwhole : r.time.nsec = 0
    · simp [readsRight_whole_iff h href hwhole c, hwhole]
    · simp [readsRight_of_subsecond h href hwhole c, hwhole]

/-- **What the timer prints**: along a sequence of calls every text is right
if and only if no call that can be given text has a reference time on an
exact second. -/
theorem elapsed_iff_referenceValid (cs : List ReadCall) :
    reads.Along ReadsRight reads.init cs ↔ reads.Along ReferenceValid reads.init cs :=
  reads.along_iff_of_inv (P := Timed.Inv) (fun _ c h => h.step c) (fun _ c h => readsRight_iff h c)
    cs reads.init rfl

/-- The first call prints the clock at 5 s sharp; the second one prints no
elapsed time. -/
theorem elapsed_missing : ¬ ∀ cs, reads.Along ReadsRight reads.init cs := by
  intro h
  have hall := h [⟨⟨⟨5, 0⟩, by decide, by decide, by decide⟩, 200, 0, false⟩,
    ⟨⟨⟨7, 5⟩, by decide, by decide, by decide⟩, 200, 0, false⟩]
  have hline := (hall.2.1.later "current time: 7.5\n" (by decide) _ rfl).1
  exact absurd hline (by decide)

end KernelElevator.Timer
