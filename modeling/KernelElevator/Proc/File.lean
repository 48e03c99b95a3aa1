/-
KernelElevator.Proc.File — the file operations of `/proc/elevator`
(lines 425–536).

Both statics they work with are shared by everybody who has the file open:
`message`, the text of the latest report, and `read_p`, which every read
flips. An operation that follows a null or dangling pointer is `none`.
-/
import KernelElevator.Proc.Report

namespace KernelElevator.Proc

variable (B : Building)

/-- The static pointer `message`, with what it points to. -/
inductive Message where
  | null
  | freed
  | text (s : String)
  deriving DecidableEq, Repr

/-- The statics `read_p` and `message`. -/
structure ProcFile where
  readP : Bool
  message : Message
  deriving DecidableEq, Repr

def enomem : Int := 12

/-- `elevator_proc_open`, with what `kmalloc` has for `temp` and for
`message`. Only the second is tested. -/
def elevatorProcOpen (temp message : Kmalloc) (g : Globals) : Option (Int × ProcFile) :=
  match message with
  | .null => some (-enomem, ⟨true, .null⟩)
  | .node =>
    match temp with
    | .null => none
    | .node => some (0, ⟨true, .text ((report B g).text B)⟩)

/-- The value a read returns, and what it has copied to the user's buffer. -/
structure ReadResult where
  returned : Int
  copied : String
  deriving DecidableEq, Repr

/-- `elevator_proc_read`. Neither the size of the buffer nor the offset is
looked at, nor what `copy_to_user` returns. -/
def elevatorProcRead (_size : Nat) (f : ProcFile) : Option (ReadResult × ProcFile) :=
  match f.message with
  | .null | .freed => none
  | .text message =>
    let len := message.length
    let f := { f with readP := !f.readP }
    if f.readP then some (⟨0, ""⟩, f) else some (⟨len, message⟩, f)

/-- `elevator_proc_release`; `kfree` takes a null pointer. -/
def elevatorProcRelease (f : ProcFile) : Option (Int × ProcFile) :=
  match f.message with
  | .null => some (0, f)
  | .freed => none
  | .text _ => some (0, { f with message := .freed })

/-- A read needs a text, which it gives out if it finds `read_p` set. -/
theorem elevatorProcRead_eq_some {size : Nat} {f f' : ProcFile} {r : ReadResult} :
    elevatorProcRead size f = some (r, f') ↔ ∃ m, f.message = .text m ∧
      r = (if f.readP then ⟨m.length, m⟩ else ⟨0, ""⟩) ∧ f' = { f with readP := !f.readP } := by
  obtain ⟨readP, message⟩ := f
  cases message with
  | null => simp [elevatorProcRead]
  | freed => simp [elevatorProcRead]
  | text m => cases readP <;> simp [elevatorProcRead, eq_comm]

/-- After a release there is no text. -/
theorem elevatorProcRelease_message {f f' : ProcFile} {result : Int}
    (h : elevatorProcRelease f = some (result, f')) (m : String) : f'.message ≠ .text m := by
  obtain ⟨readP, message⟩ := f
  cases message with
  | freed => cases h
  | null =>
    cases h
    exact Message.noConfusion
  | text s =>
    cases h
    exact Message.noConfusion

theorem length_foldl_append (temps : List String) (s : String) :
    s.length ≤ (temps.foldl (· ++ ·) s).length := by
  induction temps generalizing s with
  | nil => exact Nat.le_refl _
  | cons t temps ih =>
    refine Nat.le_trans ?_ (ih (s ++ t))
    rw [String.length_append]
    omega

variable {B}

/-- No report is the empty text. -/
theorem text_ne_empty (r : Report) : r.text B ≠ "" := by
  intro h
  have hlen := length_foldl_append (r.temps B) "Elevator state: "
  rw [← Report.text, h] at hlen
  exact absurd hlen (by decide)

end KernelElevator.Proc
