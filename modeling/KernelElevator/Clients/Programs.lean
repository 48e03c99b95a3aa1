/-
KernelElevator.Clients.Programs — the two programs that make the calls:
`part3/producer.c` and `part3/consumer.c`.

`producer` asks for a ride with random values, `consumer` starts or stops
the elevator. `rand` is a parameter, a stream of non-negative numbers; the
loop of `producer` that draws a destination has no bound, so it is given the
number of draws it may make, and is `none` where it has not finished by then.
-/
import KernelElevator.Module.System

namespace KernelElevator.Clients

/-- `INT_MAX`, and `RAND_MAX` as well. -/
def intMax : Int := 2147483647

/-- The value an `int` has after an operation with the result `n`: where it
overflows, which C leaves open, it wraps around. -/
def toInt (n : Int) : Int := n.bmod (2 ^ 32)

/-- `rnd`. The value of `rand` is not negative. -/
def rnd (rand : Nat) (min max : Int) : Int :=
  toInt ((rand : Int).tmod (toInt (toInt (max - min) + 1)) + min)

/-- The loop of lines 22–24 from the `i`-th value of `rand` on. -/
def drawDest (rand : Nat → Nat) (start : Int) (i : Nat) : (draws : Nat) → Option Int
  | 0 => none
  | draws + 1 =>
    let dest := rnd (rand i) 1 10
    if dest = start then drawDest rand start (i + 1) draws else some dest

/-- `main` of `producer`: the call it makes, if any, and its exit value. -/
def producer (argc : Nat) (rand : Nat → Nat) (draws : Nat) : Option (Option Call × Int) :=
  if argc ≠ 1 then some (none, -1)
  else
    let type := rnd (rand 0) 0 1
    let start := rnd (rand 1) 1 10
    (drawDest rand start 2 draws).map fun dest => (some (.issueRequest start dest type), 0)

/-- `main` of `consumer`. -/
def consumer : (argv : List String) → Option Call × Int
  | [_, arg] =>
    if arg = "--start" then (some .startElevator, 0)
    else if arg = "--stop" then (some .stopElevator, 0)
    else (none, -1)
  | _ => (none, -1)

/-- A run of one of the programs. -/
inductive Process where
  | producer (argc : Nat) (rand : Nat → Nat) (draws : Nat)
  | consumer (argv : List String)

/-- The call the process makes. -/
def Process.call : Process → Option Call
  | .producer argc rand draws => (Clients.producer argc rand draws).bind Prod.fst
  | .consumer argv => (Clients.consumer argv).1

/-- A call that some process makes. -/
def ClientCall (c : Call) : Prop := ∃ p : Process, p.call = some c

end KernelElevator.Clients
