import CircuitDag.Builder

/-!
# Sample circuits

Ready-made circuits: a Bell pair, the Greenberger-Horne-Zeilinger state, the quantum Fourier
transform, and a run of controlled-X gates that mostly cancel.
-/

set_option autoImplicit false

namespace CircuitDag.Samples

def bellCalls : List Call := [.h 0, .cx 0 1, .measure 0 2, .measure 1 3]

def bell : Except (Failure CircuitError) Circuit := Circuit.ofCalls 2 2 bellCalls

def ghzCalls (n : Nat) : List Call :=
  if n = 0 then []
  else
    .h 0 :: (List.range (n - 1)).map (fun i => .cx i (i + 1)) ++
      (List.range n).map fun i => .measure i (n + i)

/-- A chain of controlled-X gates behind a Hadamard gate, with all qubits measured. -/
def ghz (n : Nat) : Except (Failure CircuitError) Circuit := Circuit.ofCalls n n (ghzCalls n)

/-- The angle π divided by a power of two, by repeated halving. -/
def halvedPi : Nat → Binary64
  | 0 => Binary64.pi
  | k + 1 => halvedPi k / Binary64.two

/-- The Hadamard gate on a qubit and the phases that the later qubits put on it. -/
def qftStage (n i : Nat) : List Call :=
  .h i :: (List.range (n - (i + 1))).map fun k => .cp (.value (halvedPi (k + 1))) (i + 1 + k) i

def reversal (n : Nat) : List Call :=
  (List.range (n / 2)).map fun i => .swap i (n - 1 - i)

def qftCalls (n : Nat) : List Call := (List.range n).flatMap (qftStage n) ++ reversal n

def qft (n : Nat) : Except (Failure CircuitError) Circuit := Circuit.ofCalls n 0 (qftCalls n)

def cancelCnotsCalls : List Call :=
  List.replicate 4 (.cx 0 1) ++ List.replicate 5 (.cx 1 0) ++ List.replicate 3 (.cx 0 1)

def cancelCnots : Except (Failure CircuitError) Circuit := Circuit.ofCalls 2 0 cancelCnotsCalls

end CircuitDag.Samples
