/-
KernelElevator.Timer.PrintTheorems — the numbers that `procfile_read`
prints, and the buffers it prints them in.

`"%ld.%ld"` does not pad the nanoseconds to nine digits, so 5 s and 9 ns
print as `5.9`. A number is right if its nanoseconds need no padding, and a
later time prints as no smaller number if the digits after the point are in
order where the seconds are the same (`printsExactly_iff`). The buffers of 21
bytes hold ten digits, the point, nine digits and the terminator, but no sign,
which only the elapsed time can have: it is overrun when the clock has been
set back far enough (`readFits_iff`).
-/
import KernelElevator.Timer.MyTimerTheorems
import Mathlib.Tactic.Ring

namespace KernelElevator.Timer

open Transition

/-! ## §1 The numbers -/

/-- What follows `label` on the line of `text` that begins with it. -/
def lineAfter (label text : String) : Option (List Char) :=
  ((text.toList.splitOn '\n').find? fun line => label.toList.isPrefixOf line).map fun line =>
    line.drop label.toList.length

/-- The number there. -/
def numberAfter (label text : String) : Option ℚ := (lineAfter label text).map decimalValue

/-- A time in seconds. -/
def Timespec.seconds (t : Timespec) : ℚ := t.sec + t.nsec / 10 ^ 9

/-- The numbers of a text printed at `t1`, where `t0` is the time of the last
one, are the two times, and `t1` does not print as a smaller number than `t0`
does. -/
structure PrintsExactly (text : String) (t0 t1 : Timespec) : Prop where
  current : numberAfter "current time: " text = some t1.seconds
  elapsed : ∀ x, numberAfter "elapsed time: " text = some x → x = t1.seconds - t0.seconds
  ordered : decimalValue t0.print.toList ≤ decimalValue t1.print.toList

/-- The nanoseconds have all their nine digits, or there are none. -/
def NinePlaces (nsec : Int) : Prop := nsec = 0 ∨ 100000000 ≤ nsec

instance (nsec : Int) : Decidable (NinePlaces nsec) := inferInstanceAs (Decidable (_ ∨ _))

/-- In the same second, the nanoseconds of `t0` with zeros appended up to nine
digits are no more than those of `t1`. -/
def DigitsInOrder (t0 t1 : Timespec) : Prop :=
  t0.sec < t1.sec ∨ padRight 9 t0.nsec.toNat ≤ t1.nsec

instance (t0 t1 : Timespec) : Decidable (DigitsInOrder t0 t1) :=
  inferInstanceAs (Decidable (_ ∨ _))

theorem toList_print {t : Timespec} (ht : t.Normalised) (h0 : 0 ≤ t.sec) :
    t.print.toList = Nat.toDigits 10 t.sec.toNat ++ '.' :: Nat.toDigits 10 t.nsec.toNat := by
  have hdot : ".".toList = ['.'] := rfl
  rw [Timespec.print, String.toList_append, String.toList_append, toList_toString h0,
    toList_toString ht.1, hdot, List.append_assoc, List.singleton_append]

/-- A time prints as itself if and only if its nanoseconds need no
padding. -/
theorem print_value_iff {t : Timespec} (ht : t.Normalised) (h0 : 0 ≤ t.sec) :
    decimalValue t.print.toList = t.seconds ↔ NinePlaces t.nsec := by
  obtain ⟨s, hs⟩ := Int.eq_ofNat_of_zero_le h0
  obtain ⟨n, hn⟩ := Int.eq_ofNat_of_zero_le ht.1
  have hlt : n < 10 ^ (8 + 1) := by
    have := ht.2
    omega
  have hnine : NinePlaces t.nsec ↔ n = 0 ∨ 10 ^ 8 ≤ n := by
    unfold NinePlaces
    omega
  rw [toList_print ht h0, decimalValue_pair, hnine, ← fraction_eq_iff (by decide) hlt,
    Timespec.seconds, hs, hn]
  simp

theorem padRight_of_ninePlaces {t : Timespec} (ht : t.Normalised) (hplaces : NinePlaces t.nsec) :
    (padRight 9 t.nsec.toNat : Int) = t.nsec := by
  obtain ⟨hlo, hhi⟩ := ht
  unfold NinePlaces at hplaces
  rw [padRight_eq_self (by decide) (by omega) (by omega), Int.toNat_of_nonneg hlo]

/-- A later time whose nanoseconds need no padding prints as a smaller number
only in the same second. -/
theorem print_le_iff {t0 t1 : Timespec} (ht0 : t0.Normalised) (ht1 : t1.Normalised)
    (h0 : 0 ≤ t0.sec) (hle : t0.total ≤ t1.total) (hplaces : NinePlaces t1.nsec) :
    decimalValue t0.print.toList ≤ decimalValue t1.print.toList ↔ DigitsInOrder t0 t1 := by
  have hpad := padRight_of_ninePlaces ht1 hplaces
  obtain ⟨hlo0, hhi0⟩ := ht0
  obtain ⟨hlo1, hhi1⟩ := ht1
  unfold Timespec.total at hle
  rw [toList_print ⟨hlo0, hhi0⟩ h0, toList_print ⟨hlo1, hhi1⟩ (by omega), decimalValue_pair,
    decimalValue_pair, decimal_le_iff (k := 9) (by decide) (by omega) (by omega), DigitsInOrder]
  omega

theorem DigitsInOrder.of_ninePlaces {t0 t1 : Timespec} (ht0 : t0.Normalised)
    (ht1 : t1.Normalised) (hle : t0.total ≤ t1.total) (hplaces : NinePlaces t0.nsec) :
    DigitsInOrder t0 t1 := by
  have hpad := padRight_of_ninePlaces ht0 hplaces
  obtain ⟨hlo0, hhi0⟩ := ht0
  obtain ⟨hlo1, hhi1⟩ := ht1
  unfold Timespec.total at hle
  unfold DigitsInOrder
  omega

theorem seconds_eq (t : Timespec) : t.seconds = t.total / 10 ^ 9 := by
  unfold Timespec.seconds Timespec.total
  push_cast
  ring

/-- What is printed after a label ends at the line break. -/
theorem newline_not_mem_print (t : Timespec) : '\n' ∉ t.print.toList := by
  have hdot : ".".toList = ['.'] := rfl
  rw [Timespec.print, String.toList_append, String.toList_append, hdot, List.mem_append,
    List.mem_append, not_or, not_or]
  exact ⟨⟨not_mem_toString rfl (by decide) _, by decide⟩, not_mem_toString rfl (by decide) _⟩

/-- A label, a time and a line break, as they stand in the text. -/
def lineOf (label : String) (t : Timespec) : List Char := label.toList ++ t.print.toList

theorem toList_currentLine (t : Timespec) :
    (currentLine t).toList = lineOf "current time: " t ++ ['\n'] := by
  have hbreak : "\n".toList = ['\n'] := rfl
  unfold currentLine lineOf
  rw [String.toList_append, String.toList_append, hbreak]

theorem toList_elapsedLine (t : Timespec) :
    (elapsedLine t).toList = lineOf "elapsed time: " t ++ ['\n'] := by
  have hbreak : "\n".toList = ['\n'] := rfl
  unfold elapsedLine lineOf
  rw [String.toList_append, String.toList_append, hbreak]

theorem newline_not_mem_lineOf {label : String} (hlabel : '\n' ∉ label.toList) (t : Timespec) :
    '\n' ∉ lineOf label t := by
  rw [lineOf, List.mem_append, not_or]
  exact ⟨hlabel, newline_not_mem_print t⟩

/-- A time is found on a line that has the label. -/
theorem lineAfter_head {label text : String} {t : Timespec} {rest : List (List Char)}
    (hlines : text.toList.splitOn '\n' = lineOf label t :: rest) :
    lineAfter label text = some t.print.toList := by
  have hlabel : label.toList.isPrefixOf (lineOf label t) = true :=
    List.isPrefixOf_iff_prefix.mpr (List.prefix_append _ _)
  rw [lineAfter, hlines, List.find?_cons_of_pos hlabel, Option.map_some, lineOf, List.drop_left]

/-- A line with another label is passed over. -/
theorem lineAfter_tail {label text text' : String} {line : List Char}
    (hother : label.toList.isPrefixOf line = false)
    (hlines : text.toList.splitOn '\n' = line :: text'.toList.splitOn '\n') :
    lineAfter label text = lineAfter label text' := by
  rw [lineAfter, hlines, List.find?_cons_of_neg (by simp [hother]), lineAfter]

theorem splitOn_currentLine (t : Timespec) (text : String) :
    (currentLine t ++ text).toList.splitOn '\n'
      = lineOf "current time: " t :: text.toList.splitOn '\n' := by
  rw [String.toList_append, toList_currentLine, List.append_assoc, List.singleton_append,
    List.splitOn_append_cons_self_of_not_mem (newline_not_mem_lineOf (by decide) t)]

theorem splitOn_elapsedLine (t : Timespec) :
    (elapsedLine t).toList.splitOn '\n' = [lineOf "elapsed time: " t, []] := by
  rw [toList_elapsedLine,
    List.splitOn_append_cons_self_of_not_mem (newline_not_mem_lineOf (by decide) t),
    List.splitOn_nil]

theorem numberAfter_current (t : Timespec) (text : String) :
    numberAfter "current time: " (currentLine t ++ text)
      = some (decimalValue t.print.toList) :=
  congrArg (Option.map decimalValue) (lineAfter_head (splitOn_currentLine t text))

/-- The clock is not on a line with the other label. -/
theorem elapsed_label_ne (t : Timespec) :
    "elapsed time: ".toList.isPrefixOf (lineOf "current time: " t) = false := by
  have hlabel : "elapsed time: ".toList = 'e' :: "lapsed time: ".toList := rfl
  have hline : lineOf "current time: " t = 'c' :: ("urrent time: ".toList ++ t.print.toList) := rfl
  rw [hlabel, hline, List.isPrefixOf_cons_cons, Bool.and_eq_false_iff]
  exact Or.inl rfl

theorem lineAfter_elapsed (t diff : Timespec) :
    lineAfter "elapsed time: " (currentLine t ++ elapsedLine diff)
      = some diff.print.toList := by
  rw [lineAfter_tail (elapsed_label_ne t) (splitOn_currentLine t _),
    lineAfter_head (splitOn_elapsedLine diff)]

theorem lineAfter_elapsed_none (t : Timespec) :
    lineAfter "elapsed time: " (currentLine t) = none := by
  have h := splitOn_currentLine t ""
  rw [String.append_empty] at h
  rw [lineAfter_tail (elapsed_label_ne t) h]
  rfl

theorem numberAfter_elapsed (t diff : Timespec) :
    numberAfter "elapsed time: " (currentLine t ++ elapsedLine diff)
      = some (decimalValue diff.print.toList) :=
  congrArg (Option.map decimalValue) (lineAfter_elapsed t diff)

theorem numberAfter_elapsed_none (t : Timespec) :
    numberAfter "elapsed time: " (currentLine t) = none :=
  congrArg (Option.map decimalValue) (lineAfter_elapsed_none t)

/-- The text of a call with the reference time `t0`. -/
def wholeText (t0 t1 : Timespec) : String :=
  if t0.nsec > 0 then currentLine t1 ++ elapsedLine (difference t0 t1) else currentLine t1

theorem wholeText_length (t0 t1 : ClockValue) : (wholeText t0.time t1.time).length ≤ 127 := by
  unfold wholeText
  split
  · exact text_length t0 t1
  · exact currentLine_length t1

/-- Whichever branch is taken, the call ends with the delivery of its text. -/
theorem procfileRead_eq (c : ReadCall) (s : TimerState) :
    ∃ s', procfileRead c s = deliver c (wholeText s.t0 c.now.time) s' := by
  unfold wholeText
  split
  next hvalid => exact ⟨_, procfileRead_elapsed hvalid⟩
  next hvalid => exact ⟨_, procfileRead_first hvalid⟩

/-- What is delivered is the whole text. -/
theorem text_eq_wholeText {c : ReadCall} {s : TimerState} {t0 : ClockValue} (ht0 : s.t0 = t0.time)
    {text : String} (htext : (procfileRead c s).1.text = some text) :
    text = wholeText t0.time c.now.time := by
  obtain ⟨s', hs'⟩ := procfileRead_eq c s
  rw [hs', ht0, deliver_text _ _ (wholeText_length t0 c.now)] at htext
  split at htext
  · exact (Option.some.inj htext).symm
  · cases htext

/-- The two halves of a difference. -/
theorem difference_eq {t0 t1 : Timespec} (h0 : t0.Normalised) (h1 : t1.Normalised) :
    (difference t0 t1).sec = (t1.total - t0.total) / 1000000000 ∧
      (difference t0 t1).nsec = (t1.total - t0.total) % 1000000000 := by
  obtain ⟨⟨hlo, hhi⟩, htotal⟩ := difference_spec h0 h1
  rw [← htotal]
  unfold Timespec.total
  omega

/-- The elapsed time prints as itself if and only if its nanoseconds need no
padding. -/
theorem elapsed_value_iff {t0 t1 : ClockValue} (hle : t0.time.total ≤ t1.time.total) :
    decimalValue (difference t0.time t1.time).print.toList = t1.time.seconds - t0.time.seconds
      ↔ NinePlaces ((t1.time.nsec - t0.time.nsec) % 1000000000) := by
  obtain ⟨hnorm, htotal⟩ := difference_spec t0.normalised t1.normalised
  obtain ⟨hsec, hnsec⟩ := difference_eq t0.normalised t1.normalised
  have hrest : (t1.time.nsec - t0.time.nsec) % 1000000000
      = (difference t0.time t1.time).nsec := by
    rw [hnsec]
    unfold Timespec.total
    omega
  have hseconds : t1.time.seconds - t0.time.seconds = (difference t0.time t1.time).seconds := by
    rw [seconds_eq, seconds_eq, seconds_eq, htotal]
    push_cast
    ring
  rw [hrest, hseconds]
  exact print_value_iff hnorm (by omega)

theorem printsExactly_wholeText {t0 t1 : ClockValue} (hle : t0.time.total ≤ t1.time.total) :
    PrintsExactly (wholeText t0.time t1.time) t0.time t1.time
      ↔ NinePlaces t1.time.nsec ∧
        (0 < t0.time.nsec → NinePlaces ((t1.time.nsec - t0.time.nsec) % 1000000000)) ∧
        DigitsInOrder t0.time t1.time := by
  have hcurrent := print_value_iff t1.normalised t1.sec_nonneg
  have hordered := print_le_iff t0.normalised t1.normalised t0.sec_nonneg hle
  rw [← elapsed_value_iff hle]
  unfold wholeText
  split
  next hvalid =>
    constructor
    · rintro ⟨hnow, helapsed, hle⟩
      rw [numberAfter_current] at hnow
      have hplaces := hcurrent.mp (Option.some.inj hnow)
      exact ⟨hplaces, fun _ => helapsed _ (numberAfter_elapsed _ _), (hordered hplaces).mp hle⟩
    · rintro ⟨hplaces, helapsed, hdigits⟩
      refine ⟨by rw [numberAfter_current, hcurrent.mpr hplaces], fun x hx => ?_,
        (hordered hplaces).mpr hdigits⟩
      rw [numberAfter_elapsed] at hx
      rw [← Option.some.inj hx]
      exact helapsed hvalid
  next hvalid =>
    have hline := numberAfter_current t1.time ""
    rw [String.append_empty] at hline
    constructor
    · rintro ⟨hnow, -, hle⟩
      rw [hline] at hnow
      have hplaces := hcurrent.mp (Option.some.inj hnow)
      exact ⟨hplaces, fun h => absurd h hvalid, (hordered hplaces).mp hle⟩
    · rintro ⟨hplaces, -, hdigits⟩
      refine ⟨by rw [hline, hcurrent.mpr hplaces], fun x hx => ?_,
        (hordered hplaces).mpr hdigits⟩
      rw [numberAfter_elapsed_none] at hx
      cases hx

/-- **What the numbers say**: those of a text printed at `c.now`, with `t0`
not later, are the two times, and `c.now` prints as no smaller number than
`t0`, if and only if neither the nanoseconds of the clock nor those of a
printed difference need padding and the digits of `t0` are in order with
those of the clock. They are in order if the nanoseconds of `t0` need no
padding either. -/
theorem printsExactly_iff {c : ReadCall} {s : TimerState} {t0 : ClockValue} (ht0 : s.t0 = t0.time)
    (hle : t0.time.total ≤ c.now.time.total) {text : String}
    (htext : (procfileRead c s).1.text = some text) :
    (PrintsExactly text t0.time c.now.time
      ↔ NinePlaces c.now.time.nsec ∧
        (0 < t0.time.nsec → NinePlaces ((c.now.time.nsec - t0.time.nsec) % 1000000000)) ∧
        DigitsInOrder t0.time c.now.time) ∧
    (NinePlaces t0.time.nsec → DigitsInOrder t0.time c.now.time) := by
  rw [text_eq_wholeText ht0 htext]
  exact ⟨printsExactly_wholeText hle,
    DigitsInOrder.of_ninePlaces t0.normalised c.now.normalised hle⟩

/-- Read at 5.2 s and at 5.7 s. -/
theorem printsExactly_tenths :
    PrintsExactly "current time: 5.700000000\nelapsed time: 0.500000000\n"
      ⟨5, 200000000⟩ ⟨5, 700000000⟩ := by
  have ht0 : (⟨⟨5, 200000000⟩, ⟨5, 200000000⟩, ⟨0, 0⟩, 0⟩ : TimerState).t0
      = (⟨⟨5, 200000000⟩, by decide, by decide, by decide⟩ : ClockValue).time := rfl
  have htext : (procfileRead
      ⟨⟨⟨5, 700000000⟩, by decide, by decide, by decide⟩, 200, 0, false⟩
      ⟨⟨5, 200000000⟩, ⟨5, 200000000⟩, ⟨0, 0⟩, 0⟩).1.text
        = some "current time: 5.700000000\nelapsed time: 0.500000000\n" := by decide
  have h := printsExactly_iff ht0 (by decide) htext
  exact h.1.mpr ⟨by decide, by decide, h.2 (by decide)⟩

/-- Read at 5.1 s and 9 ns after 6 s: the second text has `6.9` for the
clock. -/
theorem nanoseconds_unpadded :
    ¬ ∀ (c : ReadCall) (s : TimerState) (t0 : ClockValue), s.t0 = t0.time →
      t0.time.total ≤ c.now.time.total → ∀ text, (procfileRead c s).1.text = some text →
        PrintsExactly text t0.time c.now.time := by
  intro h
  have hexact := h ⟨⟨⟨6, 9⟩, by decide, by decide, by decide⟩, 200, 0, false⟩
    ⟨⟨5, 100000000⟩, ⟨5, 100000000⟩, ⟨0, 0⟩, 0⟩
    ⟨⟨5, 100000000⟩, by decide, by decide, by decide⟩ rfl (by decide)
    (wholeText ⟨5, 100000000⟩ ⟨6, 9⟩) (by decide)
  have hnumber := Option.some.inj ((numberAfter_current ⟨6, 9⟩ _).symm.trans hexact.current)
  have hplaces : NinePlaces 9 := (print_value_iff (by decide) (by decide)).mp hnumber
  exact absurd hplaces (by decide)

/-! ## §2 The buffers -/

/-- The buffers of a call, with what they hold in the end and their sizes.
Nothing is ever taken out of one, so no more than that goes in. -/
def buffers (t0 t1 : Timespec) : List (String × Nat) :=
  if t0.nsec > 0 then
    let diff := difference t0 t1
    [(t1.print, 21), (diff.print, 21), (elapsedLine diff, 100),
      (currentLine t1 ++ elapsedLine diff, 200)]
  else [(t1.print, 21), (currentLine t1, 1000)]

/-- Every buffer holds its text and the terminator, the `char` holds the
length, and the call returns nothing, the error or that length, for which
there is room. -/
structure ReadFits (c : ReadCall) (s : TimerState) : Prop where
  fits : ∀ b ∈ buffers s.t0 c.now.time, b.1.length + 1 ≤ b.2
  stored : (procfileRead c s).2.procfsBufLen = (wholeText s.t0 c.now.time).length
  returned : (procfileRead c s).1.returned = 0 ∨ (procfileRead c s).1.returned = -eFault ∨
    (procfileRead c s).1.returned = (wholeText s.t0 c.now.time).length ∧
      (wholeText s.t0 c.now.time).length ≤ c.count

/-- The seconds from `t0` to `t1`, rounded down, and the nanoseconds beyond
them have together at most 18 digits, if those seconds are negative. -/
def RoomForSign (t0 t1 : Timespec) : Prop :=
  let d := t1.total - t0.total
  d / 1000000000 > -1000000000 ∨
    (d / 1000000000 > -10000000000 ∧ d % 1000000000 < 100000000) ∨
    d % 1000000000 < 10000000

instance (t0 t1 : Timespec) : Decidable (RoomForSign t0 t1) :=
  inferInstanceAs (Decidable (_ ∨ _ ∧ _ ∨ _))

theorem deliver_fits (c : ReadCall) {currentT : String} (s : TimerState)
    (hlen : currentT.length ≤ 127) :
    (deliver c currentT s).2.procfsBufLen = currentT.length ∧
      ((deliver c currentT s).1.returned = 0 ∨ (deliver c currentT s).1.returned = -eFault ∨
        (deliver c currentT s).1.returned = currentT.length ∧ currentT.length ≤ c.count) := by
  have hsize : toSize currentT.length = currentT.length := by
    unfold toSize
    omega
  simp only [deliver, toChar_of_le hlen, hsize]
  by_cases hskip : c.ppos > 0 ∨ c.count < currentT.length
  · rw [if_pos hskip]
    exact ⟨rfl, Or.inl rfl⟩
  · rw [if_neg hskip]
    rw [not_or] at hskip
    cases c.copyFails with
    | true => exact ⟨rfl, Or.inr (Or.inl rfl)⟩
    | false => exact ⟨rfl, Or.inr (Or.inr ⟨rfl, by omega⟩)⟩

theorem procfileRead_fits {c : ReadCall} {s : TimerState} {t0 : ClockValue} (ht0 : s.t0 = t0.time) :
    (procfileRead c s).2.procfsBufLen = (wholeText s.t0 c.now.time).length ∧
      ((procfileRead c s).1.returned = 0 ∨ (procfileRead c s).1.returned = -eFault ∨
        (procfileRead c s).1.returned = (wholeText s.t0 c.now.time).length ∧
          (wholeText s.t0 c.now.time).length ≤ c.count) := by
  obtain ⟨s', hs'⟩ := procfileRead_eq c s
  rw [hs', ht0]
  exact deliver_fits c s' (wholeText_length t0 c.now)

/-- A clock value fits: ten digits, the point and nine digits. -/
theorem print_fits {t : ClockValue} (hsec : t.time.sec < 10 ^ 10) :
    t.time.print.length + 1 ≤ 21 := by
  have hten := length_toString_le_of_nonneg (k := 10) (by decide) t.sec_nonneg hsec
  have hnine := length_toString_le_of_nonneg (k := 9) (by decide) t.normalised.1 t.normalised.2
  rw [length_print]
  omega

/-- A difference fits if and only if there is room for its sign. -/
theorem difference_fits_iff {t0 t1 : ClockValue} (h0 : t0.time.sec < 10 ^ 10)
    (h1 : t1.time.sec < 10 ^ 10) :
    (difference t0.time t1.time).print.length + 1 ≤ 21 ↔ RoomForSign t0.time t1.time := by
  have hlo0 := t0.sec_nonneg
  have hlo1 := t1.sec_nonneg
  have hnorm := (difference_spec t0.normalised t1.normalised).1
  obtain ⟨hsec, hnsec⟩ := difference_eq t0.normalised t1.normalised
  have hbounds : -(10 ^ 11) < (difference t0.time t1.time).sec ∧
      (difference t0.time t1.time).sec < 10 ^ 10 := by
    unfold difference
    split <;> simp only <;> omega
  unfold RoomForSign
  simp only
  rw [← hsec, ← hnsec, length_print]
  generalize difference t0.time t1.time = diff at *
  obtain ⟨hn0, hn9⟩ := hnorm
  have hnine := length_toString_le_of_nonneg (k := 9) (by decide) hn0 hn9
  have height := length_toString_le_iff_of_nonneg (k := 8) (by decide) hn0
  have hseven := length_toString_le_iff_of_nonneg (k := 7) (by decide) hn0
  rcases Int.lt_or_le diff.sec 0 with hneg | hpos
  · have hs9 := length_toString_le_iff_of_neg (k := 9) (by decide) hneg
    have hs10 := length_toString_le_iff_of_neg (k := 10) (by decide) hneg
    have hs11 := length_toString_le_iff_of_neg (k := 11) (by decide) hneg
    omega
  · have hten := length_toString_le_of_nonneg (k := 10) (by decide) hpos hbounds.2
    omega

theorem buffers_fit_iff {t0 t1 : ClockValue} (h0 : t0.time.sec < 10 ^ 10)
    (h1 : t1.time.sec < 10 ^ 10) :
    (∀ b ∈ buffers t0.time t1.time, b.1.length + 1 ≤ b.2)
      ↔ t0.time.nsec = 0 ∨ RoomForSign t0.time t1.time := by
  have hnsec := t0.normalised.1
  have hclock := print_fits h1
  unfold buffers
  split
  next hvalid =>
    have hwhole := text_length t0 t1
    rw [← difference_fits_iff h0 h1]
    simp only [List.forall_mem_cons, length_elapsedLine]
    constructor
    · rintro ⟨-, hdiff, -⟩
      exact Or.inr hdiff
    · rintro (hzero | hdiff)
      · omega
      · exact ⟨hclock, hdiff, by omega, by omega, by simp⟩
  next hvalid =>
    have hline := currentLine_length t1
    simp only [List.forall_mem_cons]
    constructor
    · intro _
      exact Or.inl (by omega)
    · intro _
      exact ⟨hclock, by omega, by simp⟩

/-- **What the buffers hold**: a read stays within its buffers, and returns
nothing, the error or the length of the whole text, if and only if it prints
no difference, or one whose sign there is room for. -/
theorem readFits_iff {c : ReadCall} {s : TimerState} {t0 : ClockValue} (ht0 : s.t0 = t0.time)
    (h0 : t0.time.sec < 10 ^ 10) (h1 : c.now.time.sec < 10 ^ 10) :
    ReadFits c s ↔ t0.time.nsec = 0 ∨ RoomForSign t0.time c.now.time := by
  obtain ⟨hstored, hreturned⟩ := procfileRead_fits (c := c) ht0
  rw [← buffers_fit_iff h0 h1]
  constructor
  · intro h
    rw [← ht0]
    exact h.fits
  · intro h
    rw [← ht0] at h
    exact ⟨h, hstored, hreturned⟩

/-- The clock is set back from the first day of 2023 to the Epoch, and the
second text has room. -/
theorem readFits_setBack :
    ReadFits ⟨⟨⟨0, 5⟩, by decide, by decide, by decide⟩, 200, 0, false⟩
      ⟨⟨1672531200, 1⟩, ⟨1672531200, 1⟩, ⟨0, 0⟩, 0⟩ := by
  have ht0 : (⟨⟨1672531200, 1⟩, ⟨1672531200, 1⟩, ⟨0, 0⟩, 0⟩ : TimerState).t0
      = (⟨⟨1672531200, 1⟩, by decide, by decide, by decide⟩ : ClockValue).time := rfl
  exact (readFits_iff ht0 (by decide) (by decide)).mpr (Or.inr (by decide))

/-- Set back by 1700000000.4 s, the elapsed time is printed as
`-1700000001.600000000`, and that is one byte too long. -/
theorem sign_overrun :
    ¬ ∀ (c : ReadCall) (s : TimerState) (t0 : ClockValue), s.t0 = t0.time →
      t0.time.sec < 10 ^ 10 → c.now.time.sec < 10 ^ 10 → ReadFits c s := by
  intro h
  have hfits := (h ⟨⟨⟨0, 500000000⟩, by decide, by decide, by decide⟩, 200, 0, false⟩
    ⟨⟨1700000000, 900000000⟩, ⟨1700000000, 900000000⟩, ⟨0, 0⟩, 0⟩
    ⟨⟨1700000000, 900000000⟩, by decide, by decide, by decide⟩ rfl (by decide) (by decide)).fits
  exact absurd hfits (by decide)

end KernelElevator.Timer
