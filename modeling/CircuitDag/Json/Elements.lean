import CircuitDag.Element
import CircuitDag.Json.Fields
import CircuitDag.Port

/-!
# Elements and ports in JSON

Elements and their kinds are stored by their tags, ports and edges as records.
-/

set_option autoImplicit false

namespace CircuitDag

namespace Element

def toJson (e : Element) : Json := .ofString e.tag

def ofJson? (value : Json) : Option Element := value.toTag?.bind ofTag?

end Element

namespace ElementKind

def toJson (kind : ElementKind) : Json := .ofString kind.tag

def ofJson? (value : Json) : Option ElementKind := value.toTag?.bind ofTag?

end ElementKind

namespace Port

def toJson (port : Port) : Json :=
  .ofMembers [("vertex", .ofNat port.vertex), ("index", .ofNat port.index)]

def ofJson? (value : Json) : Option Port := do
  let [some vertex, some index] ← value.fields? ["vertex", "index"] | none
  return ⟨← vertex.toNat?, ← index.toNat?⟩

end Port

namespace WireEdge

def toJson (edge : WireEdge) : Json := .ofMembers [("wire", .ofNat edge.wire)]

def ofJson? (value : Json) : Option WireEdge := do
  let [some wire] ← value.fields? ["wire"] | none
  return ⟨← wire.toNat?⟩

end WireEdge

end CircuitDag
