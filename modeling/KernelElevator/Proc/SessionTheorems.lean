/-
KernelElevator.Proc.SessionTheorems — one reader of `/proc/elevator`, with
buffers of any size.

Left alone, every other read of a session gives out the whole report and the
reads in between give nothing, whatever the size of the buffer: so the report
arrives, and the buffer holds it, if and only if the buffers of those reads
are large enough (`session_reads_iff`).
-/
import KernelElevator.Proc.File
import KernelElevator.Module.System

namespace KernelElevator.Proc

variable (B : Building)

/-- What reads with buffers of the given sizes give, one after the other. -/
def readAll (f : ProcFile) : List Nat → Option (List ReadResult)
  | [] => some []
  | size :: sizes =>
    (elevatorProcRead size f).bind fun (r, f) => (readAll f sizes).map fun rs => r :: rs

/-- What the reads of a session give that opens the file in the state `g`. -/
def session (g : Globals) (sizes : List Nat) : Option (List ReadResult) :=
  (elevatorProcOpen B .node .node g).bind fun (_, f) => readAll f sizes

/-- No read goes beyond its buffer, and what has come up to the first read
that returns 0 is the report. -/
structure ReadsWhole (m : String) (sizes : List Nat) (rs : List ReadResult) : Prop where
  within : ∀ x ∈ sizes.zip rs, x.2.returned ≤ x.1 ∧ x.2.copied.length ≤ x.1
  whole : (∃ r ∈ rs, r.returned = 0) →
    String.join ((rs.takeWhile fun r => r.returned ≠ 0).map ReadResult.copied) = m

/-- The buffers of the first read, the third, and so on have room for `len`
bytes. -/
def RoomFor (len : Nat) : List Nat → Prop
  | [] => True
  | [size] => len ≤ size
  | size :: _ :: sizes => len ≤ size ∧ RoomFor len sizes

/-- The whole text and nothing, in turn. -/
def inTurn (m : String) : List Nat → List ReadResult
  | [] => []
  | [_] => [⟨m.length, m⟩]
  | _ :: _ :: sizes => ⟨m.length, m⟩ :: ⟨0, ""⟩ :: inTurn m sizes

theorem readAll_eq (m : String) (sizes : List Nat) :
    readAll ⟨true, .text m⟩ sizes = some (inTurn m sizes) := by
  induction sizes using inTurn.induct with
  | case1 => rfl
  | case2 size => rfl
  | case3 a b sizes ih => simp [readAll, elevatorProcRead, inTurn, ih]

/-- The reads stay within their buffers where the whole text does. -/
theorem within_iff (m : String) (sizes : List Nat) :
    (∀ x ∈ sizes.zip (inTurn m sizes), x.2.returned ≤ x.1 ∧ x.2.copied.length ≤ x.1)
      ↔ RoomFor m.length sizes := by
  induction sizes using inTurn.induct with
  | case1 => simp [RoomFor]
  | case2 size => simp [inTurn, RoomFor]
  | case3 a b sizes ih =>
    simp only [inTurn, List.zip_cons_cons, List.forall_mem_cons, ih, RoomFor]
    have hempty : "".length = 0 := rfl
    simp [hempty]

/-- Up to the first read that gives nothing there is one, and it gives the
whole text. -/
theorem inTurn_whole {m : String} (hm : m ≠ "") (sizes : List Nat)
    (h : ∃ r ∈ inTurn m sizes, r.returned = 0) :
    String.join (((inTurn m sizes).takeWhile fun r => r.returned ≠ 0).map ReadResult.copied)
      = m := by
  have hlen : m.length ≠ 0 := by simpa using hm
  match sizes with
  | [] => simp [inTurn] at h
  | [size] => simp [inTurn, hlen] at h
  | a :: b :: sizes => simp [inTurn, hlen]

/-- **What a single session reads**: every read stays within its buffer and
the report arrives whole, if and only if the buffers of the first read, the
third, and so on are as large as the report. -/
theorem session_reads_iff (ls : List Label) (sizes : List Nat) :
    (∃ rs, session B (Sys.after B ls).g sizes = some rs ∧
        ReadsWhole ((report B (Sys.after B ls).g).text B) sizes rs)
      ↔ RoomFor ((report B (Sys.after B ls).g).text B).length sizes := by
  generalize (Sys.after B ls).g = g
  have hsession : session B g sizes = some (inTurn ((report B g).text B) sizes) :=
    readAll_eq _ sizes
  constructor
  · rintro ⟨rs, hrs, hwithin, -⟩
    obtain rfl := Option.some.inj (hsession.symm.trans hrs)
    exact (within_iff _ sizes).mp hwithin
  · intro hroom
    exact ⟨_, hsession, (within_iff _ sizes).mpr hroom, inTurn_whole (text_ne_empty _) sizes⟩

/-- A buffer of one byte. -/
theorem read_overrun :
    ¬ ∀ (ls : List Label) (sizes : List Nat), (∀ size ∈ sizes, 1 ≤ size) →
      ∃ rs, session .source (Sys.after .source ls).g sizes = some rs ∧
        ReadsWhole ((report .source (Sys.after .source ls).g).text .source) sizes rs := by
  intro h
  obtain ⟨rs, hrs, hwithin, -⟩ := h [] [1] (by decide)
  have hread : session .source (Sys.after .source []).g [1] = some (inTurn _ [1]) :=
    readAll_eq _ [1]
  obtain rfl := Option.some.inj (hread.symm.trans hrs)
  have hroom := (within_iff _ [1]).mp hwithin
  have hlen := length_foldl_append ((report .source (Sys.after .source []).g).temps .source)
    "Elevator state: "
  have hword : "Elevator state: ".length = 16 := rfl
  have hone : ((report .source (Sys.after .source []).g).text .source).length ≤ 1 := hroom
  rw [Report.text] at hone
  omega

end KernelElevator.Proc
