import CircuitDag.Json.Descriptions
import CircuitDag.Yaml.DescriptionText
import CircuitDag.Yaml.Descriptions

/-!
# Descriptions as text

Reading and writing descriptions in either format.
-/

set_option autoImplicit false

namespace CircuitDag.CircuitDescription

def parse (format : Format) (text : String) : Except DescriptionError CircuitDescription :=
  let description? := match format with
    | .json => ofJsonText? text
    | .yaml => ofYamlText? text
  match description? with
  | some description => .ok description
  | none => .error (.malformed format)

/-- The text of a description. JSON can hold every description, YAML not. -/
def render (format : Format) (d : CircuitDescription) : Except DescriptionError String :=
  let text? := match format with
    | .json => some d.jsonText
    | .yaml => d.yamlText?
  match text? with
  | some text => .ok text
  | none => .error (.malformed format)

end CircuitDag.CircuitDescription
