import CircuitDag.Circuit.Edit

/-!
# Compaction and blocks

Compaction renumbers the vertices that have not been removed and drops the records of the others.
A block is a set of operations that is entered at most once and left at most once on each wire; it
can be removed as a whole.
-/

set_option autoImplicit false

namespace CircuitDag

/-- What a compaction did to the numbers of vertices. -/
structure VertexMap where
  /-- The new number of each old vertex; `none` for removed ones. -/
  targets : Array (Option VertexId)
deriving DecidableEq

namespace VertexMap

/-- The new number of a vertex, if it was kept. -/
def get? (m : VertexMap) (v : VertexId) : Option VertexId := m.targets[v]?.join

def size (m : VertexMap) : Nat := m.targets.size

def isEmpty (m : VertexMap) : Bool := m.targets.isEmpty

def pairs (m : VertexMap) : List (VertexId × VertexId) :=
  m.targets.toList.zipIdx.filterMap fun (target?, v) => target?.map fun w => (v, w)

def numKept (m : VertexMap) : Nat := m.targets.toList.countP Option.isSome

def number (kept : List Bool) : List (Option VertexId) :=
  (kept.foldl (fun (next, out) keep =>
    if keep then (next + 1, out ++ [some next]) else (next, out ++ [none])) (0, [])).2

def ofRecords (rs : Records) : VertexMap :=
  ⟨(number (rs.rows.toList.map fun r => !r.removed)).toArray⟩

end VertexMap

def Record.renumber (r : Record) (target? : VertexId → Option VertexId) : Record :=
  let move (port? : Option Port) : Option Port := do
    let port ← port?
    return ⟨← target? port.vertex, port.index⟩
  { r with inPorts := r.inPorts.map move, outPorts := r.outPorts.map move }

/-- The records of the vertices that have not been removed, with new numbers. -/
def Records.renumber (rs : Records) (target? : VertexId → Option VertexId) : Records :=
  ⟨(rs.rows.filter fun r => !r.removed).map (·.renumber target?)⟩

namespace Circuit

def renumber (c : Circuit) (m : VertexMap) : Circuit :=
  let moved (v : VertexId) : VertexId := (m.get? v).getD v
  { c with
    records := c.records.renumber m.get?
    graph := c.graph.renumber m.numKept m.get?
    params := c.params.renumber m.get?
    inputs := c.inputs.map moved
    outputs := c.outputs.map moved
    numRemoved := 0 }

/-- Drops the records of removed vertices and yields the new numbers of the others. -/
def compact : Edit VertexMap := do
  let c ← get
  let m := VertexMap.ofRecords c.records
  set (c.renumber m)
  return m

/-! ## Blocks -/

/-- The vertices of a block; with a map, the vertices that they have become. -/
def blockVertices (c : Circuit) (map? : Option VertexMap) (vs : List VertexId) :
    Except CircuitError (List VertexId) :=
  vs.mapM fun v => do
    let w ← match map? with
      | none => pure v
      | some m =>
          match m.get? v with
          | some w => pure w
          | none => .error (.invalidVertex v .lostInCompaction)
    discard <| c.checkRemovable w
    return w

/-- The ports outside a block next to it: where wires enter it and where they leave it. -/
structure BlockBoundary where
  entries : List (WireId × Port) := []
  exits : List (WireId × Port) := []

/-- Adds the port of a neighbour to one side of a boundary, unless the neighbour is in the block. -/
def addBoundaryPort (block : List VertexId) (wire : WireId) (port? : Option Port)
    (side : List (WireId × Port)) : Except CircuitError (List (WireId × Port)) :=
  match port? with
  | none => .ok side
  | some port =>
      if port.vertex ∈ block then .ok side
      else if (side.lookup wire).isSome then .error (.validation (.notContiguous wire))
      else .ok ((wire, port) :: side)

def blockBoundary (c : Circuit) (block : List VertexId) : Except CircuitError BlockBoundary :=
  (c.records.select block).foldlM
    (fun boundary (_, r) =>
      r.wires.zipIdx.foldlM
        (fun (boundary : BlockBoundary) (wire, i) => do
          let entries ← addBoundaryPort block wire (r.port? .incoming i) boundary.entries
          let exits ← addBoundaryPort block wire (r.port? .outgoing i) boundary.exits
          return { entries, exits })
        boundary)
    {}

def hasNeighborOutside (c : Circuit) (block : List VertexId) (side : Side) (v : VertexId) :
    Bool :=
  match c.records.get? v with
  | none => false
  | some r => (r.neighbors side).any fun w => !block.contains w

def checkBlock (c : Circuit) (block : List VertexId) (first last : VertexId) :
    Except CircuitError BlockBoundary := do
  if ¬ block.Nodup then .error (.invalidVertex first .repeatedInBlock)
  let boundary ← c.blockBoundary block
  if !c.hasNeighborOutside block .incoming first then
    .error (.validation (.blockBoundary first "first" "incoming"))
  if !c.hasNeighborOutside block .outgoing last then
    .error (.validation (.blockBoundary last "last" "outgoing"))
  return boundary

/-- The wires that pass through a block with the ports on both sides, by increasing wire. -/
def BlockBoundary.passages (b : BlockBoundary) : List (WireId × Port × Port) :=
  (sortedSet (· < ·) (b.entries.map (·.1))).filterMap fun wire => do
    return (wire, ← b.entries.lookup wire, ← b.exits.lookup wire)

def cutBlock (c : Circuit) (block : List VertexId) (boundary : BlockBoundary) : Circuit :=
  let c := { c with graph := block.foldl Graph.clearVertex c.graph }
  let c := boundary.passages.foldl
    (fun c (wire, source, target) => c.connect source target wire) c
  block.foldl retire c

/-- Removes a block of operations, given in an order in which the first one has a neighbour before
the block and the last one a neighbour after it. With a vertex map, the numbers are those from
before the compaction. -/
def removeBlock (vs : List VertexId) (map? : Option VertexMap := none) : Edit Unit := do
  let c ← get
  let block ← liftResult (c.blockVertices map? vs)
  match block.head?, block.getLast? with
  | some first, some last =>
      let boundary ← liftResult (c.checkBlock block first last)
      set (c.cutBlock block boundary)
  | _, _ => pure ()

end Circuit

end CircuitDag
