import CircuitDag.Records

/-!
# The table of symbolic parameters

A circuit knows where each symbolic parameter occurs. Parameters are numbered in the order in which
they are first met, and a number is never given to another parameter; one that occurs nowhere any
more keeps its place. A second index leads from a vertex to its parameters, so that they can be
taken off the vertex without a search.
-/

set_option autoImplicit false

namespace CircuitDag

/-- A parameter position of a vertex. -/
structure ParamSlot where
  vertex : VertexId
  position : Nat
deriving DecidableEq, Repr

/-- Slots are ordered by vertex, then by position. -/
def ParamSlot.less (a b : ParamSlot) : Bool :=
  a.vertex < b.vertex || (a.vertex = b.vertex && a.position < b.position)

/-- The slot after its vertex has got a new number, if it has one. -/
def ParamSlot.renumber? (slot : ParamSlot) (target? : VertexId → Option VertexId) :
    Option ParamSlot :=
  (target? slot.vertex).map fun v => ⟨v, slot.position⟩

/-- A parameter with the slots at which it occurs, in increasing order. -/
structure ParamEntry where
  param : Param
  slots : List ParamSlot
deriving DecidableEq

/-- A slot with the number of the parameter that occurs there. -/
structure ParamUse where
  slot : ParamSlot
  id : Nat
deriving DecidableEq

/-- The symbolic parameters of a circuit; the number of a parameter is its index. -/
structure ParamTable where
  entries : List ParamEntry := []
  /-- The reverse index: the slots of each vertex with their parameters, the oldest first. -/
  uses : List ParamUse := []
deriving DecidableEq

namespace ParamTable

def empty : ParamTable := {}

instance : Inhabited ParamTable := ⟨empty⟩

/-- The number of a parameter, if it was ever registered. -/
def id? (t : ParamTable) (p : Param) : Option Nat := t.entries.findIdx? (·.param = p)

/-- The slots of a parameter, if it was ever registered. -/
def slots? (t : ParamTable) (p : Param) : Option (List ParamSlot) :=
  (t.entries.find? (·.param = p)).map ParamEntry.slots

/-- Whether a parameter is registered at a slot. -/
def holds (t : ParamTable) (slot : ParamSlot) (p : Param) : Bool :=
  match t.slots? p with
  | some slots => slots.contains slot
  | none => false

/-- Whether a slot is among those of a numbered parameter. -/
def occupied (t : ParamTable) (slot : ParamSlot) (id : Nat) : Bool :=
  match t.entries[id]? with
  | some e => e.slots.contains slot
  | none => false

/-- The number of a parameter; one that was never met gets the next number. -/
def intern (t : ParamTable) (p : Param) : Nat × ParamTable :=
  match t.id? p with
  | some id => (id, t)
  | none => (t.entries.length, { t with entries := t.entries ++ [⟨p, []⟩] })

/-- Puts a numbered parameter at a slot, in both indexes. -/
def occupy (t : ParamTable) (slot : ParamSlot) (id : Nat) : ParamTable :=
  if t.occupied slot id then t
  else
    { entries := t.entries.modify id fun e =>
        { e with slots := insertSorted ParamSlot.less slot e.slots }
      uses := t.uses ++ [⟨slot, id⟩] }

/-- Registers a parameter at a slot. Parameters without symbols are not kept; the answer tells
whether this one is. -/
def register (t : ParamTable) (slot : ParamSlot) (p : Param) : Bool × ParamTable :=
  if p.isSymbolic then
    let interned := t.intern p
    (true, interned.2.occupy slot interned.1)
  else (false, t)

/-- Takes a slot from a numbered parameter. -/
def dropSlot (entries : List ParamEntry) (use : ParamUse) : List ParamEntry :=
  entries.modify use.id fun e => { e with slots := e.slots.filter (· ≠ use.slot) }

/-- Takes a parameter off a slot, in both indexes. The answer tells whether it was there. -/
def unregister (t : ParamTable) (slot : ParamSlot) (p : Param) : Bool × ParamTable :=
  match t.id? p with
  | none => (false, t)
  | some id =>
      if t.occupied slot id then
        (true,
          { entries := dropSlot t.entries ⟨slot, id⟩
            uses := t.uses.filter (· ≠ ⟨slot, id⟩) })
      else (false, t)

/-- Takes all parameters off a vertex, as the reverse index lists them. -/
def purge (t : ParamTable) (v : VertexId) : ParamTable :=
  { entries := (t.uses.filter (·.slot.vertex = v)).foldl dropSlot t.entries
    uses := t.uses.filter (·.slot.vertex ≠ v) }

/-- The parameters that occur somewhere, with their numbers. -/
def occurring (t : ParamTable) : List (Nat × ParamEntry) :=
  (t.entries.zipIdx.filter fun (e, _) => !e.slots.isEmpty).map fun (e, id) => (id, e)

def numParameters (t : ParamTable) : Nat := t.occurring.length

/-- The parameters of a vertex with their positions, as the reverse index lists them. -/
def onVertex (t : ParamTable) (v : VertexId) : List (Nat × Param) :=
  (t.uses.filter (·.slot.vertex = v)).filterMap fun use =>
    t.entries[use.id]?.map fun e => (use.slot.position, e.param)

/-- The parameters of a vertex, each at its position. -/
def registerAll (t : ParamTable) (v : VertexId) (params : List Param) : ParamTable :=
  params.zipIdx.foldl (fun t (p, position) => (t.register ⟨v, position⟩ p).2) t

def ofRecords (rs : Records) : ParamTable :=
  rs.live.foldl (fun t (v, r) => t.registerAll v r.params) empty

/-- The table after vertices have got new numbers; slots of vertices without one are dropped. -/
def renumber (t : ParamTable) (target? : VertexId → Option VertexId) : ParamTable :=
  { entries := t.entries.map fun e =>
      { e with slots := sortedSet ParamSlot.less (e.slots.filterMap (·.renumber? target?)) }
    uses := t.uses.filterMap fun use =>
      (use.slot.renumber? target?).map fun slot => { use with slot } }

def checkSlot (rs : Records) (p : Param) (slot : ParamSlot) : Except IntegrityError Unit :=
  if !rs.isLive slot.vertex then
    .error { violation := .paramOnMissingVertex p, vertex? := slot.vertex }
  else if rs.param? slot.vertex slot.position = some p then .ok ()
  else
    .error
      { violation := .paramMismatch s!"parameter at position {slot.position}" (some p)
          (rs.param? slot.vertex slot.position)
        vertex? := slot.vertex }

def numSlots (t : ParamTable) : Nat := (t.entries.flatMap ParamEntry.slots).length

def checkUse (t : ParamTable) (use : ParamUse) : Except IntegrityError Unit :=
  if t.occupied use.slot use.id then .ok ()
  else
    .error
      { violation := .staleParamUse (t.entries[use.id]?.map ParamEntry.param) use.slot.position
        vertex? := use.slot.vertex }

/-- Checks that the reverse index has as many slots as the parameters have, and no others. -/
def checkUses (t : ParamTable) : Except IntegrityError Unit := do
  if t.numSlots ≠ t.uses.length then
    .error { violation := .paramUseCount t.numSlots t.uses.length }
  t.uses.forM t.checkUse

def checkIndexed (t : ParamTable) (slot : ParamSlot) (p : Param) : Except IntegrityError Unit :=
  if !p.isSymbolic || t.holds slot p then .ok ()
  else .error { violation := .paramNotIndexed p slot.position, vertex? := slot.vertex }

/-- Checks the table against the records: every slot holds its parameter, the reverse index agrees,
and every symbolic parameter of a live vertex has its slot. -/
def check (t : ParamTable) (rs : Records) : Except IntegrityError Unit := do
  t.entries.forM fun e => e.slots.forM (checkSlot rs e.param)
  t.checkUses
  rs.live.forM fun (v, r) =>
    r.params.zipIdx.forM fun (p, position) => t.checkIndexed ⟨v, position⟩ p

end ParamTable

end CircuitDag
