/-
KernelElevator.Timer.DeviceTheorems — what the users of `/proc/timer` get,
whoever else uses it.

  §1 What anybody writes makes no difference to what anybody reads
     (`reads_alone`).
  §2 From its opening on, and until its position is set again, an open file
     gets one whole text and then the end of the file (`one_text`).
  §3 `procfile_write` prints what it was given only if nothing longer was
     written before, and reads on behind `msg` from the first write of
     `BUF_LEN` bytes on, however short the later ones are (`write_prints_iff`).
  §4 `t0` is one time for all users. The elapsed times that they all get are
     the time that has passed between the texts, but for what follows a text
     that came on an exact second (`elapsed_adds_up`).
-/
import KernelElevator.Timer.Device
import KernelElevator.Timer.MyTimerTheorems
import KernelElevator.Timer.PrintTheorems
import KernelElevator.Machine.Simulation
import KernelElevator.Machine.Overlay

namespace KernelElevator.Timer

open Transition

/-- The module after the given operations. -/
def Device.after (os : List Op) : Device := device.run device.init os

/-! ## §1 Reading -/

def Op.isWrite : Op → Bool
  | .writes _ _ _ => true
  | _ => false

theorem deliver_congr (c : ReadCall) (currentT : String) {s s' : TimerState} (h0 : s.t0 = s'.t0)
    (h1 : s.t1 = s'.t1) :
    (deliver c currentT s).1 = (deliver c currentT s').1 ∧
      (deliver c currentT s).2.t0 = (deliver c currentT s').2.t0 := by
  have hresult : (deliver c currentT s).1 = (deliver c currentT s').1 := by
    simp only [deliver]
    split
    · rfl
    · split <;> rfl
  exact ⟨hresult, by rw [deliver_t0, deliver_t0, hresult, h0, h1]⟩

/-- What a call of `procfile_read` gives, and leaves in `t0`, depends on the
statics through `t0` only. -/
theorem procfileRead_congr (c : ReadCall) {s s' : TimerState} (h : s.t0 = s'.t0) :
    (procfileRead c s).1 = (procfileRead c s').1 ∧
      (procfileRead c s).2.t0 = (procfileRead c s').2.t0 := by
  by_cases hvalid : 0 < s.t0.nsec
  · rw [procfileRead_elapsed hvalid, procfileRead_elapsed (h ▸ hvalid), h]
    exact deliver_congr _ _ rfl rfl
  · rw [procfileRead_first hvalid, procfileRead_first (h ▸ hvalid)]
    exact deliver_congr _ _ h rfl

/-- Equal in what a read depends on. -/
structure SameReads (d d' : Device) : Prop where
  t0 : d.timer.t0 = d'.timer.t0
  pos : d.pos = d'.pos

/-- A write leaves alone what a read depends on. -/
theorem sameReads_write (d : Device) (t : Nat) (ubuf : List UInt8) (count : Nat) :
    SameReads (d.step (.writes t ubuf count)) d := by
  constructor <;> simp only [Device.step, procfileWrite]

theorem SameReads.step {d d' : Device} (h : SameReads d d') (o : Op) :
    d.readResult o = d'.readResult o ∧ SameReads (d.step o) (d'.step o) := by
  cases o with
  | opens t => exact ⟨rfl, h.t0, by simp only [Device.step, h.pos]⟩
  | seeks t pos => exact ⟨rfl, h.t0, by simp only [Device.step, h.pos]⟩
  | writes t ubuf count =>
    have hd := sameReads_write d t ubuf count
    have hd' := sameReads_write d' t ubuf count
    exact ⟨rfl, (hd.t0.trans h.t0).trans hd'.t0.symm, (hd.pos.trans h.pos).trans hd'.pos.symm⟩
  | reads t now count copyFails =>
    have hcall : d.readCall t now count copyFails = d'.readCall t now count copyFails := by
      simp only [Device.readCall, h.pos]
    obtain ⟨hresult, ht0⟩ := procfileRead_congr (d'.readCall t now count copyFails) h.t0
    refine ⟨?_, ?_, ?_⟩
    · simp only [Device.readResult, hcall, hresult]
    · simp only [Device.step, hcall, ht0]
    · simp only [Device.step, hcall, hresult, h.pos]

/-- **Writing does not show**: in every sequence of operations the reads get
what they get in the same sequence without the writes. -/
theorem reads_alone (os : List Op) :
    (device.outputs Device.readResult device.init os).reduceOption
      = (device.outputs Device.readResult device.init
          (os.filter fun o => !o.isWrite)).reduceOption := by
  refine device.outputs_filter (R := SameReads) (fun d d' o h ho => ?_)
    (fun d d' o h _ => h.step o) os device.init device.init ⟨rfl, rfl⟩
  cases o with
  | writes t ubuf count =>
    have hd := sameReads_write d t ubuf count
    exact ⟨rfl, hd.t0.trans h.t0, hd.pos.trans h.pos⟩
  | opens t => cases ho
  | seeks t pos => cases ho
  | reads t now count copyFails => cases ho

/-! ## §2 One opening -/

/-- The call that a read of the open file `t` is, and what it gives. -/
def Device.readOf (t : Nat) (d : Device) : Op → Option (ReadCall × ReadResult)
  | .reads u now count copyFails =>
    let c := d.readCall u now count copyFails
    if u = t then some (c, (procfileRead c d.timer).1) else none
  | _ => none

/-- All of them, one after the other. -/
def resultsOf (t : Nat) (d : Device) (os : List Op) : List (ReadCall × ReadResult) :=
  (device.outputs (Device.readOf t) d os).reduceOption

/-- The operation sets the position of the open file `t`. -/
def Op.Moves (t : Nat) : Op → Prop
  | .opens u => u = t
  | .seeks u _ => u = t
  | _ => False

instance (t : Nat) : (o : Op) → Decidable (o.Moves t)
  | .opens u => inferInstanceAs (Decidable (u = t))
  | .seeks u _ => inferInstanceAs (Decidable (u = t))
  | .reads _ _ _ _ => inferInstanceAs (Decidable False)
  | .writes _ _ _ => inferInstanceAs (Decidable False)

/-- A whole text, and after it the end of the file. Only reads with no room
for the longest text and those that fail come before. -/
inductive OneText : List (ReadCall × ReadResult) → Prop
  | nothing : OneText []
  | waits {c : ReadCall} {r : ReadResult} {rs : List (ReadCall × ReadResult)}
      (h : c.count < 127 ∨ c.copyFails = true) (hnone : r.text = none) (hs : OneText rs) :
      OneText ((c, r) :: rs)
  | gets {c : ReadCall} {r : ReadResult} {rs : List (ReadCall × ReadResult)} {t0 : ClockValue}
      (h : r.text = some (wholeText t0.time c.now.time))
      (hlen : r.returned = (wholeText t0.time c.now.time).length)
      (hs : ∀ x ∈ rs, x.2.returned = 0 ∧ x.2.text = none) : OneText ((c, r) :: rs)

/-- `t0` is a time that the clock can show. -/
def Device.Clocked (d : Device) : Prop := ∃ t0 : ClockValue, d.timer.t0 = t0.time

theorem Device.Clocked.step {d : Device} (h : d.Clocked) (o : Op) : (d.step o).Clocked := by
  cases o with
  | opens t => exact h
  | seeks t pos => exact h
  | writes t ubuf count => rwa [Device.Clocked, (sameReads_write d t ubuf count).t0]
  | reads t now count copyFails =>
    simp only [Device.Clocked, Device.step, procfileRead_t0]
    split
    · exact ⟨now, rfl⟩
    · exact h

theorem clocked_after (os : List Op) : (Device.after os).Clocked :=
  device.run_inv (fun _ o h => h.step o) os device.init
    ⟨⟨⟨0, 0⟩, by decide, by decide, by decide⟩, rfl⟩

/-- Behind the start of the file there is nothing. -/
theorem procfileRead_end {c : ReadCall} (s : TimerState) (h : 0 < c.ppos) :
    (procfileRead c s).1 = ⟨0, none, c.ppos⟩ := by
  obtain ⟨s', hs'⟩ := procfileRead_eq c s
  simp only [hs', deliver, if_pos (Or.inl h : c.ppos > 0 ∨ _)]

/-- A call that takes the text moves the position to its end. -/
theorem deliver_taken {c : ReadCall} {currentT : String} (s : TimerState)
    (hlen : currentT.length ≤ 127) (h : c.Takes currentT) :
    (deliver c currentT s).1 = ⟨currentT.length, some currentT, currentT.length⟩ := by
  have htext := deliver_text c s hlen
  obtain ⟨hpos, hroom, hcopy⟩ := h
  have hsize : toSize currentT.length = currentT.length := by
    unfold toSize
    omega
  have hgo : ¬ (c.ppos > 0 ∨ c.count < currentT.length) := by omega
  rw [if_pos ⟨hpos, hroom, hcopy⟩] at htext
  simp only [deliver, toChar_of_le hlen, hsize, if_neg hgo, hcopy, Bool.false_eq_true,
    if_false] at htext ⊢
  rw [htext]

/-- Any other call leaves it where it is. -/
theorem deliver_refused {c : ReadCall} {currentT : String} (s : TimerState)
    (hlen : currentT.length ≤ 127) (h : ¬ c.Takes currentT) :
    (deliver c currentT s).1.text = none ∧ (deliver c currentT s).1.ppos = c.ppos := by
  have htext := deliver_text c s hlen
  rw [if_neg h] at htext
  refine ⟨htext, ?_⟩
  simp only [deliver] at htext ⊢
  split at htext
  next hskip => rw [if_pos hskip]
  next hskip =>
    split at htext
    next hcopy => rw [if_neg hskip, if_pos hcopy]
    next => cases htext

/-- At the start of the file a call gets the whole text, or it leaves the
position there. -/
theorem procfileRead_start {c : ReadCall} {s : TimerState} {t0 : ClockValue} (ht0 : s.t0 = t0.time)
    (h : c.ppos = 0) :
    let text := wholeText t0.time c.now.time
    (procfileRead c s).1 = ⟨text.length, some text, text.length⟩ ∨
      (c.count < 127 ∨ c.copyFails = true) ∧ (procfileRead c s).1.text = none ∧
        (procfileRead c s).1.ppos = 0 := by
  intro text
  have hlen : text.length ≤ 127 := wholeText_length t0 c.now
  obtain ⟨s', hs'⟩ := procfileRead_eq c s
  have hdeliver : procfileRead c s = deliver c text s' := by rw [hs', ht0]
  rw [hdeliver]
  by_cases htakes : c.Takes text
  · exact .inl (deliver_taken s' hlen htakes)
  · obtain ⟨hnone, hppos⟩ := deliver_refused s' hlen htakes
    refine .inr ⟨?_, hnone, hppos.trans h⟩
    by_contra hno
    rw [not_or, Bool.not_eq_true] at hno
    exact htakes ⟨h.le, by omega, hno.2⟩

theorem wholeText_pos (t0 t1 : Timespec) : 0 < (wholeText t0 t1).length := by
  have hline := length_currentLine t1
  unfold wholeText
  split
  · rw [String.length_append]
    omega
  · omega

/-- What an open file is given is decided by its position and by `t0`. -/
theorem readOf_eq_some {t : Nat} {d : Device} {o : Op} {c : ReadCall} {r : ReadResult}
    (h : d.readOf t o = some (c, r)) :
    c.ppos = d.pos t ∧ r = (procfileRead c d.timer).1 ∧ (d.step o).pos t = r.ppos := by
  cases o with
  | opens u => cases h
  | seeks u pos => cases h
  | writes u ubuf count => cases h
  | reads u now count copyFails =>
    simp only [Device.readOf] at h
    split at h
    next hu =>
      subst hu
      cases h
      exact ⟨rfl, rfl, Function.update_self ..⟩
    next => cases h

/-- Another open file's operations leave the position alone. -/
theorem pos_of_readOf_none {t : Nat} {d : Device} {o : Op} (h : d.readOf t o = none)
    (hmoves : ¬ o.Moves t) : (d.step o).pos t = d.pos t := by
  cases o with
  | opens u => exact Function.update_of_ne (fun ht => hmoves ht.symm) ..
  | seeks u pos => exact Function.update_of_ne (fun ht => hmoves ht.symm) ..
  | writes u ubuf count => rfl
  | reads u now count copyFails =>
    simp only [Device.readOf] at h
    split at h
    next => cases h
    next hu => exact Function.update_of_ne (fun ht => hu ht.symm) ..

/-- After a text there is nothing any more. -/
theorem nothing_behind {t : Nat} (os : List Op) (d : Device) (hpos : 0 < d.pos t)
    (hmoves : ∀ o ∈ os, ¬ o.Moves t) :
    ∀ x ∈ resultsOf t d os, x.2.returned = 0 ∧ x.2.text = none := by
  induction os generalizing d with
  | nil => simp [resultsOf, Machine.outputs]
  | cons o os ih =>
    rw [List.forall_mem_cons] at hmoves
    unfold resultsOf Machine.outputs
    cases hread : d.readOf t o with
    | none =>
      rw [List.reduceOption_cons_of_none]
      exact ih _ (by rwa [device, pos_of_readOf_none hread hmoves.1]) hmoves.2
    | some x =>
      obtain ⟨c, r⟩ := x
      obtain ⟨hppos, hresult, hstep⟩ := readOf_eq_some hread
      rw [procfileRead_end _ (by rwa [hppos])] at hresult
      rw [List.reduceOption_cons_of_some, List.forall_mem_cons, hresult]
      refine ⟨⟨rfl, rfl⟩, ih _ ?_ hmoves.2⟩
      rw [device, hstep, hresult, hppos]
      exact hpos

theorem oneText_of_start {t : Nat} (os : List Op) (d : Device) (hclock : d.Clocked)
    (hpos : d.pos t = 0) (hmoves : ∀ o ∈ os, ¬ o.Moves t) : OneText (resultsOf t d os) := by
  induction os generalizing d with
  | nil => exact .nothing
  | cons o os ih =>
    rw [List.forall_mem_cons] at hmoves
    have hclock' := hclock.step o
    unfold resultsOf Machine.outputs
    cases hread : d.readOf t o with
    | none =>
      rw [List.reduceOption_cons_of_none]
      exact ih _ hclock' (by rwa [device, pos_of_readOf_none hread hmoves.1]) hmoves.2
    | some x =>
      obtain ⟨c, r⟩ := x
      obtain ⟨hppos, hresult, hstep⟩ := readOf_eq_some hread
      obtain ⟨t0, ht0⟩ := hclock
      rw [List.reduceOption_cons_of_some]
      rcases procfileRead_start ht0 (hppos.trans hpos) with htext | ⟨hroom, hnone, hstart⟩
      · obtain rfl : r = _ := hresult.trans htext
        refine .gets rfl rfl (nothing_behind os _ ?_ hmoves.2)
        rw [device, hstep]
        exact Int.natCast_pos.mpr (wholeText_pos _ _)
      · rw [← hresult] at hnone hstart
        exact .waits hroom hnone (ih _ hclock' (hstep.trans hstart) hmoves.2)

/-- **One answer**: whatever the others do, what an open file gets until its
position is set again is one whole text. -/
theorem one_text (pre post : List Op) (t : Nat) (h : ∀ o ∈ post, ¬ o.Moves t) :
    OneText (resultsOf t (Device.after (pre ++ [.opens t])) post) := by
  refine oneText_of_start post _ (clocked_after _) ?_ h
  rw [Device.after, Machine.run_concat]
  exact Function.update_self ..

/-- A process reads to the end of the file while another one opens it and
reads too: one text each. -/
theorem one_text_each :
    let now : ClockValue := ⟨⟨7, 5⟩, by decide, by decide, by decide⟩
    let post : List Op :=
      [.reads 0 now 10 false, .opens 1, .reads 1 now 200 false, .reads 0 now 200 false,
        .reads 0 now 200 false]
    OneText (resultsOf 0 (Device.after ([] ++ [.opens 0])) post) ∧
      (resultsOf 0 (Device.after ([] ++ [.opens 0])) post).map (fun x => x.2.text)
        = [none, some "current time: 7.5\nelapsed time: 0.0\n", none] :=
  ⟨one_text _ _ _ (by decide), by decide +kernel⟩

/-! ## §3 Writing -/

/-- What a write stores in `msg`. -/
def Op.stored : Op → Option (List UInt8)
  | .writes _ ubuf count => some (ubuf.take (writeLen count))
  | _ => none

/-- What was written, the first text first. -/
def written (os : List Op) : List (List UInt8) := os.filterMap Op.stored

/-- If it is a write, its bytes can be read and are text. -/
def Op.IsText : Op → Prop
  | .writes _ ubuf count =>
    writeLen count ≤ ubuf.length ∧ 0 ∉ ubuf.take (writeLen count)
  | _ => True

instance : (o : Op) → Decidable o.IsText
  | .opens _ => inferInstanceAs (Decidable True)
  | .seeks _ _ => inferInstanceAs (Decidable True)
  | .reads _ _ _ _ => inferInstanceAs (Decidable True)
  | .writes _ _ _ => inferInstanceAs (Decidable (_ ∧ _))

theorem copyFromUser_of_le {ubuf : List UInt8} {n : Nat} (h : n ≤ ubuf.length) :
    copyFromUser ubuf n = ubuf.take n := by
  rw [copyFromUser, Nat.sub_eq_zero_of_le h, List.replicate_zero, List.append_nil]

theorem written_concat (os : List Op) (t : Nat) (ubuf : List UInt8) (count : Nat) :
    written (os ++ [.writes t ubuf count]) = written os ++ [ubuf.take (writeLen count)] := by
  simp [written, Op.stored]

theorem written_concat_of_none {os : List Op} {o : Op} (h : o.stored = none) :
    written (os ++ [o]) = written os := by
  rw [written, List.filterMap_append, List.filterMap_cons_none h, List.filterMap_nil,
    List.append_nil, written]

theorem length_stored {t count : Nat} {ubuf : List UInt8} (h : (Op.writes t ubuf count).IsText) :
    (ubuf.take (writeLen count)).length = writeLen count := by
  rw [List.length_take, Nat.min_eq_left h.1]

theorem mem_written {os : List Op} (h : ∀ o ∈ os, o.IsText) {w : List UInt8}
    (hw : w ∈ written os) : w.length ≤ bufLen ∧ 0 ∉ w := by
  obtain ⟨o, ho, hstored⟩ := List.mem_filterMap.mp hw
  have htext := h o ho
  cases o with
  | opens t => cases hstored
  | seeks t pos => cases hstored
  | reads t now count copyFails => cases hstored
  | writes t ubuf count =>
    cases hstored
    rw [List.length_take]
    exact ⟨(Nat.min_le_left ..).trans (writeLen_le count), htext.2⟩

/-- `msg` holds what is left of the texts written, with zeros behind. -/
theorem msg_after (os : List Op) (h : ∀ o ∈ os, o.IsText) :
    (Device.after os).msg.bytes
      = overlay (written os) ++ List.replicate (bufLen - (overlay (written os)).length) 0 := by
  induction os using List.reverseRecOn with
  | nil => rfl
  | append_singleton os o ih =>
    rw [List.forall_mem_append, List.forall_mem_singleton] at h
    have hbefore := ih h.1
    rw [Device.after, Machine.run_concat]
    cases o with
    | opens t => rwa [written_concat_of_none rfl]
    | seeks t pos => rwa [written_concat_of_none rfl]
    | reads t now count copyFails => rwa [written_concat_of_none rfl]
    | writes t ubuf count =>
      have hlen := length_stored h.2
      have hstore : (device.step (Device.after os) (.writes t ubuf count)).msg.bytes
          = copyFromUser ubuf (writeLen count)
            ++ (Device.after os).msg.bytes.drop (writeLen count) := rfl
      have hpad := overlay_padded (written os) (ubuf.take (writeLen count)) bufLen 0
      rw [hlen] at hpad
      rw [written_concat, ← hpad, ← hbefore, ← copyFromUser_of_le h.2.1]
      exact hstore

/-- `%s` prints what is left, unless that fills the array. -/
theorem printed_after (os : List Op) (h : ∀ o ∈ os, o.IsText) :
    (Device.after os).msg.printed
      = if (overlay (written os)).length < bufLen then some (overlay (written os)) else none := by
  have hzero : 0 ∉ overlay (written os) := by
    intro hmem
    obtain ⟨w, hw, hx⟩ := exists_mem_of_mem_overlay hmem
    exact (mem_written h hw).2 hx
  rw [Msg.printed, msg_after os h]
  by_cases hlt : (overlay (written os)).length < bufLen
  · have hpad : (0 : UInt8) ∈ List.replicate (bufLen - (overlay (written os)).length) 0 :=
      List.mem_replicate.mpr ⟨by omega, rfl⟩
    rw [if_pos (List.mem_append_right _ hpad), if_pos hlt, List.takeWhile_append_of_pos,
      List.takeWhile_replicate, if_neg (by decide), List.append_nil]
    intro x hx
    exact decide_eq_true fun hx0 => hzero (hx0 ▸ hx)
  · rw [Nat.sub_eq_zero_of_le (by omega), List.replicate_zero, List.append_nil, if_neg hzero,
      if_neg hlt]

/-- Nothing ends it if and only if some text filled the array. -/
theorem printed_eq_none_iff {os : List Op} (h : ∀ o ∈ os, o.IsText) :
    (Device.after os).msg.printed = none ↔ ∃ w ∈ written os, w.length = bufLen := by
  have hlt : (overlay (written os)).length < bufLen ↔ ∀ w ∈ written os, w.length < bufLen :=
    length_overlay_lt_iff (by decide)
  rw [printed_after os h]
  by_cases hroom : (overlay (written os)).length < bufLen
  · rw [if_pos hroom]
    refine ⟨fun hnone => (by cases hnone), fun hfull => ?_⟩
    obtain ⟨w, hw, hlen⟩ := hfull
    exact absurd hlen (hlt.mp hroom w hw).ne
  · rw [if_neg hroom]
    rw [hlt, not_forall] at hroom
    obtain ⟨w, hw⟩ := hroom
    rw [Classical.not_imp, not_lt] at hw
    exact ⟨fun _ => ⟨w, hw.1, (mem_written h hw.1).1.antisymm hw.2⟩, fun _ => rfl⟩

/-- The last text is what is printed if and only if it is all that is left,
and there is room behind it. -/
theorem printed_eq_last_iff {os : List Op} (h : ∀ o ∈ os, o.IsText) {ws : List (List UInt8)}
    {w : List UInt8} (hw : written os = ws ++ [w]) :
    (Device.after os).msg.printed = some w ↔
      w.length < bufLen ∧ ∀ v ∈ ws, v.length ≤ w.length := by
  rw [printed_after os h, hw, ← overlay_eq_last_iff]
  constructor
  · intro hsome
    split at hsome
    next hroom =>
      have heq := Option.some.inj hsome
      rw [heq] at hroom
      exact ⟨hroom, heq⟩
    next => cases hsome
  · rintro ⟨hroom, heq⟩
    rw [heq, if_pos hroom]

/-- **What a write prints**: of a device that is given texts only, it reads on
behind `msg` if and only if some text so far filled it, and prints the text it
was given if and only if that is shorter than `msg` and no earlier one was
longer. -/
theorem write_prints_iff (os : List Op) (t : Nat) (ubuf : List UInt8) (count : Nat)
    (h : ∀ o ∈ os ++ [.writes t ubuf count], o.IsText) :
    let printed := (procfileWrite ubuf count (Device.after os)).2.1
    (printed = none ↔ ∃ w ∈ written (os ++ [.writes t ubuf count]), w.length = bufLen) ∧
      (printed = some (ubuf.take count) ↔
        count < bufLen ∧ ∀ w ∈ written os, w.length ≤ count) := by
  intro printed
  have hprinted : printed = (Device.after (os ++ [.writes t ubuf count])).msg.printed := by
    rw [Device.after, Machine.run_concat]
    rfl
  have hlen := length_stored (h (.writes t ubuf count) (by simp))
  have hlast := printed_eq_last_iff h (written_concat os t ubuf count)
  rw [hprinted]
  refine ⟨printed_eq_none_iff h, ?_⟩
  by_cases hcount : count ≤ bufLen
  · have hwriteLen : writeLen count = count := by
      rw [writeLen_eq, Nat.min_eq_left hcount]
    rwa [hlen, hwriteLen] at hlast
  · -- the array is full, so what it was given is not what it prints
    have hnone := (printed_eq_none_iff h).mpr ⟨ubuf.take (writeLen count),
      by simp [written_concat], by rw [hlen, writeLen_eq]; omega⟩
    rw [hnone]
    exact ⟨fun hsome => (by cases hsome), fun hshort => (by omega)⟩

/-- One byte is printed with the second byte of the text before it. -/
theorem write_prints_older :
    let os : List Op := [.writes 0 [104, 105] 2]
    let printed := (procfileWrite [99] 1 (Device.after os)).2.1
    (printed = some [99] ↔ 1 < bufLen ∧ ∀ w ∈ written os, w.length ≤ 1) ∧
      printed = some [99, 105] :=
  ⟨(write_prints_iff _ 0 _ _ (by decide)).2, by decide +kernel⟩

/-! ## §4 The elapsed times -/

/-- The elapsed time that a text shows: the two numbers of its line, before
and behind the point, as seconds and nanoseconds. -/
def elapsedPair (text : String) : Option Timespec :=
  (lineAfter "elapsed time: " text).map fun number =>
    ⟨intValue (number.takeWhile (· ≠ '.')), intValue (number.dropWhile (· ≠ '.')).tail⟩

/-- The text that an operation gets. -/
def Device.textOf (d : Device) (o : Op) : Option String :=
  (d.readResult o).bind fun r => r.text

/-- The elapsed time that it shows, in nanoseconds. -/
def Device.elapsed (d : Device) (o : Op) : Int :=
  ((d.textOf o).bind elapsedPair).elim 0 Timespec.total

/-- The clock at an operation that gets a text. -/
def Device.clockOf (d : Device) : Op → Option ClockValue
  | .reads t now count copyFails =>
    if (d.textOf (.reads t now count copyFails)).isSome then some now else none
  | _ => none

/-- The clocks of all texts, whoever gets them. -/
def clocks (d : Device) (os : List Op) : List ClockValue :=
  (device.outputs Device.clockOf d os).reduceOption

/-- From one text to the next, where the first one came on an exact second. -/
def gaps : List ClockValue → Int
  | t0 :: t1 :: ts =>
    (if t0.time.nsec = 0 then t1.time.total - t0.time.total else 0) + gaps (t1 :: ts)
  | _ => 0

theorem elapsedPair_print (t1 diff : Timespec) :
    elapsedPair (currentLine t1 ++ elapsedLine diff) = some diff := by
  have hpoint : ∀ c ∈ (toString diff.sec).toList, decide (c ≠ '.') = true := fun c hc =>
    decide_eq_true fun heq => not_mem_toString rfl (by decide) diff.sec (heq ▸ hc)
  have hdot : ".".toList = ['.'] := rfl
  have htake : diff.print.toList.takeWhile (· ≠ '.') = (toString diff.sec).toList := by
    rw [Timespec.print, String.toList_append, String.toList_append, hdot, List.append_assoc,
      List.takeWhile_append_of_pos hpoint]
    simp
  have hdrop : diff.print.toList.dropWhile (· ≠ '.') = '.' :: (toString diff.nsec).toList := by
    rw [Timespec.print, String.toList_append, String.toList_append, hdot, List.append_assoc,
      List.dropWhile_append_of_pos hpoint]
    simp
  rw [elapsedPair, lineAfter_elapsed, Option.map_some, htake, hdrop, List.tail_cons,
    intValue_toString, intValue_toString]

/-- What a text shows, and nothing if it came after an exact second. -/
theorem elapsedPair_wholeText (t0 t1 : ClockValue) :
    (elapsedPair (wholeText t0.time t1.time)).elim 0 Timespec.total
      = if t0.time.nsec = 0 then 0 else t1.time.total - t0.time.total := by
  have hnsec := t0.normalised.1
  unfold wholeText
  by_cases hzero : t0.time.nsec = 0
  · rw [if_neg (by omega), if_pos hzero, elapsedPair, lineAfter_elapsed_none]
    rfl
  · rw [if_pos (by omega), if_neg hzero, elapsedPair_print, Option.elim_some,
      (difference_spec t0.normalised t1.normalised).2]

/-- `t0` is the clock of the text that came last. -/
theorem t0_step (d : Device) (o : Op) :
    (d.step o).timer.t0 = ((d.clockOf o).map ClockValue.time).getD d.timer.t0 := by
  cases o with
  | opens t => rfl
  | seeks t pos => rfl
  | writes t ubuf count => exact (sameReads_write d t ubuf count).t0
  | reads t now count copyFails =>
    have hnow : (d.readCall t now count copyFails).now = now := rfl
    cases htext : (procfileRead (d.readCall t now count copyFails) d.timer).1.text <;>
      simp [Device.step, procfileRead_t0, Device.clockOf, Device.textOf, Device.readResult, htext,
        hnow]

/-- What an operation adds to the elapsed times. -/
theorem elapsed_eq {d : Device} {r : ClockValue} (h : d.timer.t0 = r.time) (o : Op) :
    d.elapsed o = (d.clockOf o).elim 0 fun now =>
      if r.time.nsec = 0 then 0 else now.time.total - r.time.total := by
  cases o with
  | reads t now count copyFails =>
    cases htext : (procfileRead (d.readCall t now count copyFails) d.timer).1.text with
    | none => simp [Device.elapsed, Device.clockOf, Device.textOf, Device.readResult, htext]
    | some text =>
      have hpair := elapsedPair_wholeText r now
      have hnow : (d.readCall t now count copyFails).now = now := rfl
      have hwhole := text_eq_wholeText h htext
      rw [hnow] at hwhole
      rw [← hwhole] at hpair
      simpa [Device.elapsed, Device.clockOf, Device.textOf, Device.readResult, htext] using hpair
  | _ => simp [Device.elapsed, Device.clockOf, Device.textOf, Device.readResult]

/-- From a state in which the last text came at `r`. -/
theorem elapsed_run (os : List Op) {d : Device} {r : ClockValue} (h : d.timer.t0 = r.time) :
    device.total Device.elapsed d os + gaps (r :: clocks d os)
      = ((r :: clocks d os).getLast (List.cons_ne_nil _ _)).time.total - r.time.total := by
  induction os generalizing d r with
  | nil => simp [Machine.total, clocks, Machine.outputs, gaps]
  | cons o os ih =>
    have hstep := elapsed_eq h o
    have ht0 := t0_step d o
    rw [Machine.total, hstep]
    cases hclock : d.clockOf o with
    | none =>
      have hclocks : clocks d (o :: os) = clocks (device.step d o) os := by
        rw [clocks, Machine.outputs, hclock, List.reduceOption_cons_of_none, clocks]
      rw [hclock] at ht0
      have hrest := ih (d := device.step d o) (ht0.trans h)
      simp only [hclocks, Option.elim_none]
      omega
    | some now =>
      have hclocks : clocks d (o :: os) = now :: clocks (device.step d o) os := by
        rw [clocks, Machine.outputs, hclock, List.reduceOption_cons_of_some, clocks]
      rw [hclock] at ht0
      have hrest := ih (d := device.step d o) (r := now) ht0
      simp only [hclocks, Option.elim_some, gaps, List.getLast_cons_cons]
      split <;> omega

/-- After a text `t0` is the clock of the last one. -/
theorem t0_after (os : List Op) {r : ClockValue}
    (h : (clocks device.init os).getLast? = some r) : (Device.after os).timer.t0 = r.time := by
  induction os using List.reverseRecOn with
  | nil => cases h
  | append_singleton os o ih =>
    rw [clocks, Machine.outputs_append, List.reduceOption_append] at h
    rw [Device.after, Machine.run_concat]
    refine (t0_step (Device.after os) o).trans ?_
    have hlast : device.outputs Device.clockOf (device.run device.init os) [o]
        = [(Device.after os).clockOf o] := rfl
    rw [hlast] at h
    cases hclock : (Device.after os).clockOf o with
    | none =>
      rw [hclock, List.reduceOption_cons_of_none, List.reduceOption_nil, List.append_nil] at h
      exact ih h
    | some now =>
      rw [hclock, List.reduceOption_cons_of_some, List.reduceOption_nil,
        List.getLast?_concat] at h
      rw [← Option.some.inj h]
      rfl

/-- **The elapsed times add up**: if the last text before a part of a run came
at `r`, the elapsed times that the texts in that part show, whoever gets
them, are together the time from `r` to the last of them, but for the gaps
behind texts on an exact second. -/
theorem elapsed_adds_up (pre post : List Op) {r : ClockValue}
    (h : (clocks device.init pre).getLast? = some r) :
    let texts := r :: clocks (Device.after pre) post
    device.total Device.elapsed (Device.after pre) post + gaps texts
      = (texts.getLast (List.cons_ne_nil _ _)).time.total - r.time.total :=
  elapsed_run post (t0_after pre h)

/-- Three files are read at 5.1 s, 9 ns after 6.1 s, and 18 ns after 7.1 s. Each
elapsed time prints as `1.9`, which is one second and nine nanoseconds. -/
theorem elapsed_adds_up_unpadded :
    let t0 : ClockValue := ⟨⟨5, 100000000⟩, by decide, by decide, by decide⟩
    let t1 : ClockValue := ⟨⟨6, 100000009⟩, by decide, by decide, by decide⟩
    let t2 : ClockValue := ⟨⟨7, 100000018⟩, by decide, by decide, by decide⟩
    let d := Device.after [.opens 0, .opens 1, .opens 2, .reads 0 t0 200 false]
    let post : List Op := [.reads 1 t1 200 false, .reads 2 t2 200 false]
    (device.outputs Device.textOf d post).map (fun o => o.bind elapsedPair)
        = [some ⟨1, 9⟩, some ⟨1, 9⟩] ∧
      device.total Device.elapsed d post = 2000000018 := by
  intro t0 t1 t2 d post
  have hclocks : clocks d post = [t1, t2] := by decide +kernel
  have hsum : device.total Device.elapsed d post + gaps (t0 :: clocks d post)
      = ((t0 :: clocks d post).getLast (List.cons_ne_nil _ _)).time.total - t0.time.total :=
    elapsed_adds_up _ post (by decide +kernel)
  refine ⟨by decide +kernel, ?_⟩
  generalize device.total Device.elapsed d post = total at hsum ⊢
  simp only [hclocks] at hsum
  simpa [gaps, t0, t1, t2, Timespec.total] using hsum

end KernelElevator.Timer
