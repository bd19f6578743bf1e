import CircuitDag.Description.Text
import CircuitDag.Proofs.Circuit.Meaning
import CircuitDag.Proofs.Circuit.Reachable
import CircuitDag.Proofs.Description.JsonText
import CircuitDag.Proofs.Description.YamlText

/-!
# Descriptions of circuits as text

What becomes of a reachable circuit that is described, written and read again.
-/

set_option autoImplicit false

namespace CircuitDag

variable {c : Circuit} {d : CircuitDescription}

/-- Only π as a whole parameter is read back as something else. -/
theorem ParamDescription.readBack_eq_iff {p : ParamDescription} :
    p.readBack = p ↔ p ≠ expression .pi := by
  constructor
  · rintro same rfl
    cases same
  · intro other
    match p with
    | expression .pi => exact absurd rfl other
    | number _ | symbol _ | expression (.value _) | expression (.symbol _) | expression (.neg _)
    | expression (.add ..) | expression (.sub ..) | expression (.mul ..) | expression (.div ..) =>
        rfl

theorem map_eq_self_iff {α : Type} {f : α → α} {l : List α} : l.map f = l ↔ ∀ a ∈ l, f a = a := by
  induction l with
  | nil => simp
  | cons a l ih => simp [ih]

theorem CircuitDescription.readBack_eq_iff :
    d.readBack = d ↔ ∀ p ∈ d.params, p ≠ .expression .pi := by
  have operation : ∀ op : OperationDescription, op.readBack = op ↔
      ∀ p ∈ op.params, p ≠ .expression .pi := by
    intro op
    simp only [← ParamDescription.readBack_eq_iff, ← map_eq_self_iff]
    exact ⟨fun same => congrArg OperationDescription.params same, fun same => by
      rw [OperationDescription.readBack, same]⟩
  have all : d.readBack = d ↔ d.operations.map OperationDescription.readBack = d.operations :=
    ⟨fun same => congrArg CircuitDescription.operations same, fun same => by
      rw [CircuitDescription.readBack, same]⟩
  rw [all, map_eq_self_iff, params, List.forall_mem_flatMap]
  exact forall₂_congr fun op _ => operation op

theorem CircuitDescription.shallow_iff : d.Shallow ↔ ∀ p ∈ d.params, p.Shallow := by
  rw [params, List.forall_mem_flatMap]
  rfl

/-- All parameters are written without tags and read back as they are if none is an expression. -/
theorem CircuitDescription.untagged_and_readBack_eq_iff :
    (d.isUntagged = true ∧ d.readBack = d) ↔ ∀ p ∈ d.params, ∀ q, p ≠ .expression q := by
  have untagged : d.isUntagged = true ↔ ∀ p ∈ d.params, p.isUntagged = true := by
    rw [params, List.forall_mem_flatMap, isUntagged, List.all_eq_true]
    simp only [OperationDescription.isUntagged, List.all_eq_true]
  rw [untagged, readBack_eq_iff, ← forall₂_and]
  refine forall₂_congr fun p _ => ?_
  constructor
  · rintro ⟨plain, other⟩ q rfl
    cases q with
    | pi => exact other rfl
    | _ => cases plain
  · intro none
    cases p with
    | number v | symbol name => exact ⟨rfl, none .pi⟩
    | expression q => exact absurd rfl (none q)

/-- The wires of a circuit fit a machine word if their numbers do. -/
theorem Circuit.LaidOut.wordSized (laid : c.LaidOut) (qubits : c.numQubits < UInt64.size)
    (clbits : c.numClbits < UInt64.size) : (CircuitDescription.ofCircuit c).WordSized := by
  obtain ⟨line, layout⟩ := laid
  have described : ∀ op ∈ (CircuitDescription.ofCircuit c).operations, ∃ r, c.Wired r ∧
      op = OperationDescription.ofRecord c.numQubits r := by
    intro op member
    obtain ⟨⟨v, r⟩, entry, rfl⟩ := List.mem_map.mp member
    exact ⟨r, layout.wired v r (layout.mem_topologicalOperations.mp entry).1, rfl⟩
  refine ⟨qubits, clbits, ?_, ?_⟩
  · intro op member w inside
    obtain ⟨r, wired, rfl⟩ := described op member
    exact Nat.lt_trans (wired.quantum w inside) qubits
  · intro op member b inside
    obtain ⟨r, wired, rfl⟩ := described op member
    obtain ⟨w, classical, rfl⟩ := List.mem_map.mp inside
    obtain ⟨above, below⟩ := wired.classical w classical
    exact Nat.lt_trans (Nat.sub_lt_left_of_lt_add above below) clbits

/-- A reachable circuit is always written in JSON. It is read back, every π that is a parameter as a
whole as a symbol, unless an expression is nested too deeply. Nothing is lost exactly if there are
no such parameters. -/
theorem json_text_of_circuit (reachable : c.Reachable) (qubits : c.numQubits < UInt64.size)
    (clbits : c.numClbits < UInt64.size)
    (numbers : ∀ x ∈ (CircuitDescription.ofCircuit c).numbers, x.SurvivesJson) :
    ∃ text, (CircuitDescription.ofCircuit c).render .json = .ok text ∧
      CircuitDescription.parse .json text =
        (if (CircuitDescription.ofCircuit c).Shallow
          then .ok (CircuitDescription.ofCircuit c).readBack else .error (.malformed .json)) ∧
      (CircuitDescription.parse .json text = .ok (CircuitDescription.ofCircuit c) ↔
        ∀ p ∈ (CircuitDescription.ofCircuit c).params, p ≠ .expression .pi ∧ p.Shallow) := by
  have read := CircuitDescription.ofJsonText?_jsonText
    (reachable.laidOut.wordSized qubits clbits) numbers
  generalize CircuitDescription.ofCircuit c = d at read
  have parsed : CircuitDescription.parse .json d.jsonText =
      (if d.Shallow then .ok d.readBack else .error (.malformed .json)) := by
    rw [CircuitDescription.parse]
    simp only [read]
    by_cases shallow : d.Shallow <;> simp only [shallow, ↓reduceIte]
  refine ⟨d.jsonText, rfl, parsed, ?_⟩
  rw [parsed, forall₂_and, ← CircuitDescription.readBack_eq_iff, ← CircuitDescription.shallow_iff]
  by_cases shallow : d.Shallow
  · simp [shallow]
  · simp [shallow]

/-- A reachable circuit is written in YAML exactly if each of its negations is the one of π. Its
text is read, every π that is a parameter as a whole as a symbol, unless there is another
expression. Nothing is lost exactly if there are no expressions. -/
theorem yaml_text_of_circuit (reachable : c.Reachable) (qubits : c.numQubits < UInt64.size)
    (clbits : c.numClbits < UInt64.size)
    (numbers : ∀ x ∈ (CircuitDescription.ofCircuit c).numbers, x.SurvivesYaml) :
    ((∃ text, (CircuitDescription.ofCircuit c).render .yaml = .ok text) ↔
      ∀ p ∈ (CircuitDescription.ofCircuit c).params, p.toParam.negatesOnlyPi = true) ∧
    ∀ text, (CircuitDescription.ofCircuit c).render .yaml = .ok text →
      CircuitDescription.parse .yaml text =
        (if (CircuitDescription.ofCircuit c).isUntagged
          then .ok (CircuitDescription.ofCircuit c).readBack else .error (.malformed .yaml)) ∧
      (CircuitDescription.parse .yaml text = .ok (CircuitDescription.ofCircuit c) ↔
        ∀ p ∈ (CircuitDescription.ofCircuit c).params, ∀ q, p ≠ .expression q) := by
  have sized := reachable.laidOut.wordSized qubits clbits
  generalize CircuitDescription.ofCircuit c = d at numbers sized
  have rendered : ∀ text, d.render .yaml = .ok text ↔ d.yamlText? = some text := by
    intro text
    rw [CircuitDescription.render]
    cases d.yamlText? <;> simp
  refine ⟨?_, fun text written => ?_⟩
  · rw [← CircuitDescription.isSome_yamlText?_iff, Option.isSome_iff_exists]
    exact exists_congr rendered
  · have read := CircuitDescription.ofYamlText?_yamlText ((rendered text).mp written) sized numbers
    have parsed : CircuitDescription.parse .yaml text =
        (if d.isUntagged then .ok d.readBack else .error (.malformed .yaml)) := by
      rw [CircuitDescription.parse]
      simp only [read]
      cases d.isUntagged <;> rfl
    refine ⟨parsed, ?_⟩
    rw [parsed, ← CircuitDescription.untagged_and_readBack_eq_iff]
    cases d.isUntagged <;> simp

/-- The circuit with one gate of any kind on one qubit, with the given parameters. -/
def Circuit.withParams (ps : List Param) : Circuit :=
  Change.after (blank 1 0) (.addOperation { element := .custom, params? := some ps } [0] [])

theorem Circuit.reachable_withParams (ps : List Param) : (withParams ps).Reachable :=
  (Reachable.blank 1 0 Binary64.zero).change _

/-- Expressions are read back. -/
theorem json_text_of_expressions :
    let c := Circuit.withParams
      [.symbol "t", .neg .pi, .div (.add .pi (.value ⟨0x3ff8000000000000⟩)) (.symbol "a b")]
    ∃ text, (CircuitDescription.ofCircuit c).render .json = .ok text ∧
      CircuitDescription.parse .json text = .ok (CircuitDescription.ofCircuit c) := by
  intro c
  have qubits : c.numQubits < UInt64.size := by decide +kernel
  have clbits : c.numClbits < UInt64.size := by decide +kernel
  have numbers : ∀ x ∈ (CircuitDescription.ofCircuit c).numbers,
      (Json.ofBinary64 x).toBinary64? = some x := by decide +kernel
  obtain ⟨text, rendered, -, same⟩ :=
    json_text_of_circuit (Circuit.reachable_withParams _) qubits clbits numbers
  refine ⟨text, rendered, same.mpr ?_⟩
  decide +kernel

/-- A parameter π is read back as the symbol of that name. -/
theorem json_text_of_pi :
    let c := Circuit.withParams [.pi]
    c.Reachable ∧ (∀ x ∈ (CircuitDescription.ofCircuit c).numbers, x.isFinite = true) ∧
      ∃ text, (CircuitDescription.ofCircuit c).render .json = .ok text ∧
        CircuitDescription.parse .json text ≠ .ok (CircuitDescription.ofCircuit c) := by
  intro c
  refine ⟨Circuit.reachable_withParams _, by decide +kernel, _, rfl, ?_⟩
  decide +kernel

/-- Numbers and symbols are read back. -/
theorem yaml_text_of_numbers_and_symbols :
    let c := Circuit.withParams [.symbol "t", .value ⟨0x3ff8000000000000⟩, .symbol "- 1:\n #"]
    ∃ text, (CircuitDescription.ofCircuit c).render .yaml = .ok text ∧
      CircuitDescription.parse .yaml text = .ok (CircuitDescription.ofCircuit c) := by
  intro c
  have qubits : c.numQubits < UInt64.size := by decide +kernel
  have clbits : c.numClbits < UInt64.size := by decide +kernel
  have numbers : ∀ x ∈ (CircuitDescription.ofCircuit c).numbers,
      Yaml.ScalarValue.float? (Yaml.decimalFormat.write x) = some x := by decide +kernel
  have params : (CircuitDescription.ofCircuit c).params =
      [.symbol "t", .number ⟨0x3ff8000000000000⟩, .symbol "- 1:\n #"] := by decide +kernel
  obtain ⟨renders, reads⟩ :=
    yaml_text_of_circuit (Circuit.reachable_withParams _) qubits clbits numbers
  obtain ⟨text, rendered⟩ := renders.mpr (by rw [params]; decide)
  refine ⟨text, rendered, (reads text rendered).2.mpr ?_⟩
  rw [params]
  simp

/-- The negation of π is written, and then refused. -/
theorem yaml_text_of_negated_pi :
    let c := Circuit.withParams [.neg .pi]
    c.Reachable ∧ (∀ x ∈ (CircuitDescription.ofCircuit c).numbers, x.isFinite = true) ∧
      ∃ text, (CircuitDescription.ofCircuit c).render .yaml = .ok text ∧
        CircuitDescription.parse .yaml text ≠ .ok (CircuitDescription.ofCircuit c) := by
  intro c
  refine ⟨Circuit.reachable_withParams _, by decide +kernel,
    "num_qubits: 1\nnum_clbits: 0\nglobal_phase: 0.0\nops:\n- gate: custom\n  wires:\n  - 0\n" ++
      "  params:\n  - !Neg Pi\n", ?_, ?_⟩
  · decide +kernel
  · decide +kernel

end CircuitDag
