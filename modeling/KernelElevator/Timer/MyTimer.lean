/-
KernelElevator.Timer.MyTimer — the reader of `/proc/timer`
(`timer/my_timer.c`).

`procfile_read` prints the clock, and the time since the last call that
printed it. It keeps that time in the static `t0` and takes it for valid
when its nanoseconds are positive.

The clock is `current_kernel_time`: seconds since the Epoch, which the kernel
keeps in a non-negative `long`, and nanoseconds below one second. So no
difference of two clock values leaves a `long`, and `Int` does for both.
`procfs_buf_len` is a `char`, and what is stored in it is wrapped to one.
-/
import Mathlib.Algebra.Ring.Int.Defs

namespace KernelElevator.Timer

/-- `struct timespec`. -/
structure Timespec where
  sec : Int
  nsec : Int
  deriving DecidableEq, Repr

/-- A difference or a clock value with its nanoseconds below one second. -/
def Timespec.Normalised (t : Timespec) : Prop := 0 ≤ t.nsec ∧ t.nsec < 1000000000

instance (t : Timespec) : Decidable t.Normalised := inferInstanceAs (Decidable (_ ∧ _))

/-- A value that `current_kernel_time` can return. -/
structure ClockValue where
  time : Timespec
  normalised : time.Normalised
  sec_nonneg : 0 ≤ time.sec
  sec_lt : time.sec < 2 ^ 63
  deriving DecidableEq

/-- The module's static variables. -/
structure TimerState where
  t0 : Timespec
  t1 : Timespec
  diff : Timespec
  procfsBufLen : Int
  deriving DecidableEq, Repr

/-- The statics of a freshly loaded module. -/
def TimerState.bss : TimerState := ⟨⟨0, 0⟩, ⟨0, 0⟩, ⟨0, 0⟩, 0⟩

/-- One call of `procfile_read`: the clock at the call, the arguments `count`
and `*ppos`, and whether `copy_to_user` fails. -/
structure ReadCall where
  now : ClockValue
  count : Nat
  ppos : Int
  copyFails : Bool

/-- The value returned, the text in the caller's buffer if there is one, and
`*ppos` as the call leaves it. -/
structure ReadResult where
  returned : Int
  text : Option String
  ppos : Int
  deriving DecidableEq, Repr

/-- `EFAULT`. -/
def eFault : Int := 14

/-- `"%ld.%ld"`. -/
def Timespec.print (t : Timespec) : String := toString t.sec ++ "." ++ toString t.nsec

/-- The line that both branches begin with. -/
def currentLine (t : Timespec) : String := "current time: " ++ t.print ++ "\n"

/-- The line that only the first branch adds. -/
def elapsedLine (diff : Timespec) : String := "elapsed time: " ++ diff.print ++ "\n"

/-- Lines 36–46: the difference, with a borrow. -/
def difference (t0 t1 : Timespec) : Timespec :=
  if t1.nsec < t0.nsec then ⟨t1.sec - t0.sec - 1, 1000000000 + t1.nsec - t0.nsec⟩
  else ⟨t1.sec - t0.sec, t1.nsec - t0.nsec⟩

/-- A number as it is after being stored in a `char`. -/
def toChar (n : Int) : Int := n.bmod 256

/-- A `char` where a `size_t` is wanted. -/
def toSize (n : Int) : Nat := (n % 2 ^ 64).toNat

/-- The end of both branches (lines 56–62 and 76–82) and of the function:
the text goes out if it is wanted and can be copied, and only then `t0` is
set. -/
def deliver (c : ReadCall) (currentT : String) (s : TimerState) : ReadResult × TimerState :=
  let s := { s with procfsBufLen := toChar currentT.length }
  if c.ppos > 0 ∨ c.count < toSize s.procfsBufLen then (⟨0, none, c.ppos⟩, s)
  else if c.copyFails then (⟨-eFault, none, c.ppos⟩, s)
  else
    let copied := String.ofList (currentT.toList.take (toSize s.procfsBufLen))
    (⟨s.procfsBufLen, some copied, s.procfsBufLen⟩, { s with t0 := s.t1 })

/-- `procfile_read`. -/
def procfileRead (c : ReadCall) (s : TimerState) : ReadResult × TimerState :=
  let t1 := c.now.time
  if s.t0.nsec > 0 then
    let diff := difference s.t0 t1
    deliver c (currentLine t1 ++ elapsedLine diff) { s with t1 := t1, diff := diff }
  else deliver c (currentLine t1) { s with t1 := t1 }

end KernelElevator.Timer
