/-
KernelElevator.Timer.Device — `/proc/timer` as its users have it: the file is
opened, read and written by any number of processes, one call after the other
(`timer/my_timer.c`).

Each open file has a position, which `procfile_read` is given as `*ppos` and
sets, and which its user can set too. `procfile_write` stores at most
`BUF_LEN` bytes in the static `msg` and prints it with `%s`, up to the first
NUL, wherever that is. `copy_from_user` stores zeros for what it could not
read.
-/
import KernelElevator.Timer.MyTimer
import KernelElevator.Machine.Run

namespace KernelElevator.Timer

/-- `BUF_LEN`. -/
def bufLen : Nat := 100

/-- The array `msg`. -/
structure Msg where
  bytes : List UInt8
  length_eq : bytes.length = bufLen
  deriving DecidableEq

/-- `copy_from_user` for `n` bytes of a buffer of which `ubuf` can be read. -/
def copyFromUser (ubuf : List UInt8) (n : Nat) : List UInt8 :=
  ubuf.take n ++ List.replicate (n - ubuf.length) 0

theorem length_copyFromUser (ubuf : List UInt8) (n : Nat) :
    (copyFromUser ubuf n).length = n := by
  simp only [copyFromUser, List.length_append, List.length_take, List.length_replicate]
  omega

/-- The first bytes are overwritten. -/
def Msg.store (m : Msg) (ubuf : List UInt8) (n : Nat) (h : n ≤ bufLen) : Msg where
  bytes := copyFromUser ubuf n ++ m.bytes.drop n
  length_eq := by
    rw [List.length_append, List.length_drop, length_copyFromUser, m.length_eq]
    omega

/-- What `%s` prints: the bytes up to the first NUL. Without one it reads on
behind the array. -/
def Msg.printed (m : Msg) : Option (List UInt8) :=
  if 0 ∈ m.bytes then some (m.bytes.takeWhile (· ≠ 0)) else none

/-- The statics, and the positions of the open files. -/
structure Device where
  timer : TimerState
  msg : Msg
  pos : Nat → Int

/-- What the open file `t` is used for. -/
inductive Op where
  | opens (t : Nat)
  | seeks (t : Nat) (pos : Nat)
  | reads (t : Nat) (now : ClockValue) (count : Nat) (copyFails : Bool)
  | writes (t : Nat) (ubuf : List UInt8) (count : Nat)

/-- Lines 98–101. -/
def writeLen (count : Nat) : Nat := if count > bufLen then bufLen else count

theorem writeLen_eq (count : Nat) : writeLen count = min count bufLen := by
  unfold writeLen
  split <;> omega

theorem writeLen_le (count : Nat) : writeLen count ≤ bufLen := by
  rw [writeLen_eq]
  exact Nat.min_le_right ..

/-- `procfile_write`: its result, what it prints, and the statics. -/
def procfileWrite (ubuf : List UInt8) (count : Nat) (d : Device) :
    Int × Option (List UInt8) × Device :=
  let procfsBufLen := toChar (writeLen count)
  let msg := d.msg.store ubuf (writeLen count) (writeLen_le count)
  (procfsBufLen, msg.printed, { d with timer := { d.timer with procfsBufLen }, msg })

/-- The call of `procfile_read` that a read of the open file `t` is. -/
def Device.readCall (d : Device) (t : Nat) (now : ClockValue) (count : Nat) (copyFails : Bool) :
    ReadCall := ⟨now, count, d.pos t, copyFails⟩

def Device.step (d : Device) : Op → Device
  | .opens t => { d with pos := Function.update d.pos t 0 }
  | .seeks t pos => { d with pos := Function.update d.pos t pos }
  | .reads t now count copyFails =>
    let r := procfileRead (d.readCall t now count copyFails) d.timer
    { d with timer := r.2, pos := Function.update d.pos t r.1.ppos }
  | .writes _ ubuf count => (procfileWrite ubuf count d).2.2

/-- What a read gets. -/
def Device.readResult (d : Device) : Op → Option ReadResult
  | .reads t now count copyFails =>
    some (procfileRead (d.readCall t now count copyFails) d.timer).1
  | _ => none

/-- The freshly loaded module. -/
def device : Transition.Machine Device Op where
  init := ⟨.bss, ⟨List.replicate bufLen 0, by simp⟩, fun _ => 0⟩
  step := Device.step

end KernelElevator.Timer
