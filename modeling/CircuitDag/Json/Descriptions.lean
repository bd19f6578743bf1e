import CircuitDag.Description.Basic
import CircuitDag.Json.Layout
import CircuitDag.Json.Params

/-!
# Descriptions in JSON

The JSON form of circuit descriptions, and of the parameters and operations in them. A number
stands for itself and a string for the symbol of that name; every other parameter is stored as an
expression.
-/

set_option autoImplicit false

namespace CircuitDag

namespace ParamDescription

def toJson : ParamDescription → Json
  | number v => .ofBinary64 v
  | symbol name => .ofString name
  | expression p => p.toJson

def ofJson? (value : Json) (depth : Nat := 0) : Option ParamDescription :=
  match value with
  | .number _ => value.toBinary64?.map number
  | .string text? => text?.map symbol
  | value => (Param.ofJson? value depth).map expression

end ParamDescription

def Json.ofNats (ns : List Nat) : Json := .array (ns.map .ofNat)

def Json.nonemptyField {α : Type} (name : String) (toJson : α → Json) (items : List α) :
    List (String × Json) :=
  if items.isEmpty then [] else [(name, .array (items.map toJson))]

namespace OperationDescription

def toJson (d : OperationDescription) : Json :=
  .ofMembers <| [("gate", .ofString d.gate), ("wires", .ofNats d.qubits)] ++
    Json.nonemptyField "clbits" .ofNat d.clbits ++
    Json.nonemptyField "params" ParamDescription.toJson d.params

def ofJson? (value : Json) (depth : Nat := 0) : Option OperationDescription := do
  let [some gate, qubits?, clbits?, params?] ←
    value.fields? ["gate", "wires", "clbits", "params"] | none
  return {
    gate := ← gate.toString?
    qubits := ← Json.withDefault [] (Json.toList? Json.toNat?) qubits?
    clbits := ← Json.withDefault [] (Json.toList? Json.toNat?) clbits?
    params := ← Json.withDefault [] (Json.toList? (ParamDescription.ofJson? · (depth + 2)))
      params? }

end OperationDescription

namespace CircuitDescription

def toJson (d : CircuitDescription) : Json :=
  .ofMembers
    [("num_qubits", .ofNat d.numQubits), ("num_clbits", .ofNat d.numClbits),
      ("global_phase", .ofBinary64 d.globalPhase),
      ("ops", .array (d.operations.map OperationDescription.toJson))]

def ofJson? (value : Json) : Option CircuitDescription := do
  let [some numQubits, numClbits?, globalPhase?, operations?] ←
    value.fields? ["num_qubits", "num_clbits", "global_phase", "ops"] | none
  return {
    numQubits := ← numQubits.toNat?
    numClbits := ← Json.withDefault 0 Json.toNat? numClbits?
    globalPhase := ← Json.withDefault Binary64.zero Json.toBinary64? globalPhase?
    operations := ← Json.withDefault []
      (Json.toList? (OperationDescription.ofJson? · 2)) operations? }

def jsonText (d : CircuitDescription) : String := d.toJson.text .indented

def ofJsonText? (text : String) : Option CircuitDescription :=
  (Json.ofText? text).bind ofJson?

end CircuitDescription

end CircuitDag
