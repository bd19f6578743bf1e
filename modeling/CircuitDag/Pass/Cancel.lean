import CircuitDag.Pass.Basic

/-!
# Cancelling neighbouring operations

Two equal operations cancel when one directly follows the other on all its wires and doing it twice
does nothing. A sweep looks for pairs in topological order and removes them; sweeps are repeated
until one finds nothing.
-/

set_option autoImplicit false

namespace CircuitDag

namespace Circuit

/-- The vertex that follows a vertex on all its wires, if it is the same operation on the same
wires. -/
def cancellingPartner? (c : Circuit) (v : VertexId) (r : Record) : Option VertexId := do
  let first :: rest := r.wires | none
  let next ← (c.neighborOn .outgoing v first).toOption
  if rest.any fun wire => (c.neighborOn .outgoing v wire).toOption ≠ some next then none
  else
    let successor ← c.records.get? next
    if successor.element = r.element ∧ successor.params = r.params ∧
        successor.wires = r.wires then
      some next
    else none

/-- Pairs chosen so far, and the vertices in them. -/
structure PairSearch where
  pairs : List (VertexId × VertexId) := []
  taken : List VertexId := []

/-- Chooses the pair that a vertex begins, unless one of its vertices is in a pair already. -/
def PairSearch.visit (c : Circuit) (accept : Element → Bool) (s : PairSearch)
    (v : VertexId) (r : Record) : PairSearch :=
  if s.taken.contains v || !accept r.element then s
  else match c.cancellingPartner? v r with
    | none => s
    | some w =>
        if s.taken.contains w then s
        else ⟨s.pairs ++ [(v, w)], v :: w :: s.taken⟩

/-- Disjoint pairs of operations that cancel, found in topological order. -/
def cancellablePairs (c : Circuit) (accept : Element → Bool) : List (VertexId × VertexId) :=
  (c.topologicalOperations.foldl (fun (s : PairSearch) (v, r) => s.visit c accept v r) {}).pairs

end Circuit

def maxSweeps : Nat := 100

def removePairs (pairs : List (VertexId × VertexId)) : Edit Unit :=
  pairs.forM fun (v, w) => Circuit.removeBlock [v, w]

/-- At most `fuel` sweeps, up to one that finds nothing; yields the statistics. -/
def sweep (accept : Element → Bool) : Nat → CancellationStats → Edit CancellationStats
  | 0, stats => pure stats
  | fuel + 1, stats => do
      let pairs := (← get).cancellablePairs accept
      let stats := { stats with sweeps := stats.sweeps + 1 }
      if pairs.isEmpty then return stats
      else
        removePairs pairs
        sweep accept fuel { stats with pairs := stats.pairs + .ofNat pairs.length }

/-- What becomes of a sum of machine words that is no machine word. A build of the program follows
one of the rules throughout. -/
inductive OverflowRule where
  /-- The sum is taken modulo the number of machine words. -/
  | wrap
  /-- The call panics. -/
  | panic
deriving DecidableEq, Repr

def addWords (rule : OverflowRule) (a b : UInt64) : Compile UInt64 :=
  if rule = .panic ∧ UInt64.size ≤ a.toNat + b.toNat then throw .panic else return a + b

/-- Adds statistics to those of earlier runs, the pairs first. -/
def recordCancellation (rule : OverflowRule) (stats : CancellationStats) : Compile Unit := do
  match (← get).properties.cancellation? with
  | none => Compile.record fun p => { p with cancellation? := some stats }
  | some total =>
      let pairs ← addWords rule total.pairs stats.pairs
      Compile.record fun p => { p with cancellation? := some { total with pairs } }
      let sweeps ← addWords rule total.sweeps stats.sweeps
      Compile.record fun p => { p with cancellation? := some ⟨pairs, sweeps⟩ }

def cancelPairs (accept : Element → Bool) (rule : OverflowRule := .wrap) : Compile Unit := do
  let stats ← Compile.edit (sweep accept maxSweeps {})
  recordCancellation rule stats

end CircuitDag
