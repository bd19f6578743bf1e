import CircuitDag.Proofs.Description.Parts
import CircuitDag.Proofs.Outcomes
import CircuitDag.Proofs.Yaml.Readings
import CircuitDag.Yaml.Descriptions

/-!
# Reading descriptions from YAML

Expressions are written with tags. Tags cannot stand on one another, and where parameters are read
no tag is known: an expression that has no text is a negation of something else than π, and every
expression that has one is refused when it is read. Only π as a whole is written without a tag, as
a string, and is read as a symbol.
-/

set_option autoImplicit false

namespace CircuitDag

open Yaml

/-! ## What can be written and read -/

/-- Whether every negation in an expression is the one of π. -/
def Param.negatesOnlyPi : Param → Bool
  | value _ | symbol _ | pi => true
  | neg p => p = pi
  | add a b | sub a b | mul a b | div a b => a.negatesOnlyPi && b.negatesOnlyPi

/-- Whether a parameter is written without a tag. -/
def ParamDescription.isUntagged : ParamDescription → Bool
  | number _ | symbol _ | expression .pi => true
  | expression _ => false

namespace Yaml.Block

theorem sound_ofNat (n : Nat) (underKey : Bool) : (ofNat n).Sound underKey := by
  rw [ofNat, Sound]
  exact ⟨soundTag_none, plainAllowed_toString_nat n⟩

theorem sound_ofNumber {tag? : Option String} (tagged : SoundTag tag?) (x : Binary64)
    (underKey : Bool) : (ofNumber tag? x).Sound underKey := by
  rw [ofNumber, Sound]
  exact ⟨tagged, plainAllowed_write x⟩

/-- Two operands that are written behind a tag. -/
theorem pair_eq_some {first? second? : Option Block} {tag : String} {b : Block}
    (written : (do return sequence (some tag) [← first?, ← second?]) = some b) :
    ∃ first second, first? = some first ∧ second? = some second ∧
      b = sequence (some tag) [first, second] := by
  obtain ⟨first, left, rest⟩ := Option.bind_eq_some_iff.mp written
  obtain ⟨second, right, whole⟩ := Option.bind_eq_some_iff.mp rest
  exact ⟨first, second, left, right, (Option.some.inj whole).symm⟩

theorem sound_pair {tag : String} {first second : Block} {underKey : Bool}
    (named : Lexer.IsTagName tag.toList) (left : first.Sound false) (right : second.Sound false) :
    (sequence (some tag) [first, second]).Sound underKey := by
  rw [Sound, soundItems_iff]
  exact ⟨soundTag_some named, List.forall_mem_cons.mpr ⟨left, List.forall_mem_singleton.mpr right⟩⟩

end Yaml.Block

/-! ## Parameters -/

namespace Param

theorem isSome_toBlock? (p : Param) : p.toBlock?.isSome = p.negatesOnlyPi := by
  induction p with
  | value | symbol | pi => rfl
  | neg p => cases p <;> rfl
  | add a b iha ihb | sub a b iha ihb | mul a b iha ihb | div a b iha ihb =>
      rw [toBlock?, negatesOnlyPi, ← iha, ← ihb]
      cases a.toBlock? <;> cases b.toBlock? <;> rfl

theorem sound_of_toBlock? {p : Param} {b : Block} {underKey : Bool}
    (written : p.toBlock? = some b) :
    b.Sound underKey := by
  induction p generalizing b underKey with
  | value v =>
      cases written
      exact Block.sound_ofNumber (Block.soundTag_some (by decide)) v underKey
  | symbol name =>
      cases written
      exact Block.soundTag_some (by decide)
  | pi =>
      cases written
      exact Block.soundTag_none
  | neg p =>
      cases p with
      | pi =>
          cases written
          exact Block.soundTag_some (by decide)
      | _ => cases written
  | add a b iha ihb | sub a b iha ihb | mul a b iha ihb | div a b iha ihb =>
      obtain ⟨first, second, left, right, rfl⟩ := Block.pair_eq_some written
      exact Block.sound_pair (by decide) (iha left) (ihb right)

/-- Every expression but π itself has a tag in front. -/
theorem tag_of_toBlock? {p : Param} {b : Block} (written : p.toBlock? = some b) (other : p ≠ pi) :
    ∃ tag, b.tag? = some tag := by
  cases p with
  | value v | symbol name =>
      cases written
      exact ⟨_, rfl⟩
  | pi => exact absurd rfl other
  | neg p =>
      cases p with
      | pi =>
          cases written
          exact ⟨_, rfl⟩
      | _ => cases written
  | add a b | sub a b | mul a b | div a b =>
      obtain ⟨first, second, -, -, rfl⟩ := Block.pair_eq_some written
      exact ⟨_, rfl⟩

end Param

namespace ParamDescription

theorem isSome_toBlock? (p : ParamDescription) :
    p.toBlock?.isSome = p.toParam.negatesOnlyPi := by
  cases p with
  | number v | symbol name => rfl
  | expression p => exact p.isSome_toBlock?

theorem sound_of_toBlock? {p : ParamDescription} {b : Block} {underKey : Bool}
    (written : p.toBlock? = some b) : b.Sound underKey := by
  cases p with
  | number v =>
      cases written
      exact Block.sound_ofNumber Block.soundTag_none v underKey
  | symbol name =>
      cases written
      exact Block.soundTag_none
  | expression p => exact Param.sound_of_toBlock? written

/-- A parameter without a tag is read as it was written, but for π. -/
theorem read_node {p : ParamDescription} {b : Block} (depth : Nat) (written : p.toBlock? = some b)
    (numbers : ∀ x ∈ p.numbers, x.SurvivesYaml) :
    read depth b.node = Reading.lift (if p.isUntagged then some p.readBack else none) := by
  cases p with
  | number v =>
      cases written
      rw [read, Value.ofNode_ofNumber (numbers v List.mem_cons_self), pure_bind]
      rfl
  | symbol name =>
      cases written
      rw [read, Value.ofNode_string, pure_bind]
      rfl
  | expression p =>
      by_cases whole : p = .pi
      · subst whole
        cases written
        rw [read, Value.ofNode_string, pure_bind]
        rfl
      · have refused : (expression p).isUntagged = false := by
          cases p with
          | pi => exact absurd rfl whole
          | _ => rfl
        obtain ⟨tag, tagged⟩ := Param.tag_of_toBlock? written whole
        rw [read, Value.ofNode_tagged tagged, Reading.failure_bind, refused]
        rfl

end ParamDescription

/-! ## Lists -/

namespace Yaml.Reading

variable {α β : Type}

/-- Whatever is known about every element that is written holds of a list of them. -/
theorem mapM_written {write? : α → Option Block} {read : Node Nat → Reading β} {f? : α → Option β}
    {items : List α} {blocks : List Block} (written : items.mapM write? = some blocks)
    (each : ∀ a ∈ items, ∀ b, write? a = some b → read b.node = lift (f? a)) :
    (blocks.mapM fun b => read b.node) = lift (items.mapM f?) := by
  have pairs := mapM_eq_some_iff.mp written
  clear written
  induction pairs with
  | nil => rfl
  | @cons a b items blocks first rest ih =>
      rw [List.forall_mem_cons] at each
      rw [List.mapM_cons, List.mapM_cons, each.1 b first, ih each.2, lift_cons]

theorem list_ofNat {ns : List Nat} (small : ∀ n ∈ ns, n < UInt64.size) :
    list nat (Block.sequence none (ns.map .ofNat)).node = pure ns := by
  rw [list_sequence, List.mapM_map]
  exact (mapM_eq_pure (f := id) fun n member => nat_ofNat (small n member)).trans
    (by rw [List.map_id])

end Yaml.Reading

theorem Yaml.Block.sound_of_written {α : Type} {write? : α → Option Block} {items : List α}
    {blocks : List Block} (written : items.mapM write? = some blocks)
    (each : ∀ a ∈ items, ∀ b, write? a = some b → b.Sound false) : SoundItems blocks := by
  have pairs := mapM_eq_some_iff.mp written
  clear written
  induction pairs with
  | nil => exact trivial
  | @cons a b items blocks first rest ih =>
      rw [List.forall_mem_cons] at each
      rw [SoundItems]
      exact ⟨each.1 b first, ih each.2⟩

/-! ## Operations -/

theorem isKeyName_of_mem {name : String} (member : name ∈ ["gate", "wires", "clbits", "params",
    "num_qubits", "num_clbits", "global_phase", "ops"]) : Lexer.IsKeyName name.toList := by
  have all : ∀ name ∈ ["gate", "wires", "clbits", "params", "num_qubits", "num_clbits",
      "global_phase", "ops"], Lexer.IsKeyName (String.toList name) := by decide
  exact all name member

namespace OperationDescription

variable {op : OperationDescription} {b : Block}

/-- The fields of an operation whose parameters are written. -/
def yamlFields (op : OperationDescription) (params : List Block) : List (String × Block) :=
  [("gate", .string none op.gate), ("wires", .sequence none (op.qubits.map .ofNat))] ++
    Block.nonemptyField "clbits" (op.clbits.map .ofNat) ++ Block.nonemptyField "params" params

theorem exists_params (written : op.toBlock? = some b) :
    ∃ params, op.params.mapM ParamDescription.toBlock? = some params ∧
      b = .mapping (op.yamlFields params) := by
  obtain ⟨params, each, whole⟩ := Option.bind_eq_some_iff.mp written
  exact ⟨params, each, (Option.some.inj whole).symm⟩

theorem isSome_toBlock?_iff :
    op.toBlock?.isSome = true ↔ ∀ p ∈ op.params, p.toParam.negatesOnlyPi = true := by
  rw [toBlock?]
  simp only [← ParamDescription.isSome_toBlock?, ← isSome_mapM_iff]
  cases op.params.mapM ParamDescription.toBlock? <;> rfl

theorem sound_of_toBlock? (written : op.toBlock? = some b) : b.Sound false := by
  obtain ⟨params, each, rfl⟩ := exists_params written
  have numbers : ∀ ns : List Nat, (Block.sequence none (ns.map .ofNat)).Sound true := by
    intro ns
    rw [Block.Sound, Block.soundItems_iff]
    exact ⟨Block.soundTag_none, List.forall_mem_map.mpr fun n _ => Block.sound_ofNat n false⟩
  have items : (Block.sequence none params).Sound true := by
    rw [Block.Sound]
    exact ⟨Block.soundTag_none, Block.sound_of_written each fun p _ b written =>
      ParamDescription.sound_of_toBlock? written⟩
  have optional : ∀ {name : String} {items : List Block}, Lexer.IsKeyName name.toList →
      (Block.sequence none items).Sound true →
      Block.SoundFields (Block.nonemptyField name items) := by
    intro name items named sound
    rw [Block.nonemptyField]
    split
    · exact trivial
    · exact ⟨named, sound, trivial⟩
  rw [Block.Sound, yamlFields]
  refine ⟨rfl, by simp, Block.soundFields_append.mpr ⟨Block.soundFields_append.mpr ⟨?_,
    optional (isKeyName_of_mem (by decide)) (numbers _)⟩,
      optional (isKeyName_of_mem (by decide)) items⟩⟩
  exact ⟨isKeyName_of_mem (by decide), Block.soundTag_none, isKeyName_of_mem (by decide),
    numbers _, trivial⟩

theorem fields_yamlFields (op : OperationDescription) (params : List Block) :
    Reading.fields ["gate", "wires", "clbits", "params"]
        (Block.mapping (op.yamlFields params)).node =
      pure [some (Block.string none op.gate).node,
        some (Block.sequence none (op.qubits.map .ofNat)).node,
        if op.clbits.isEmpty then none
        else some (Block.sequence none (op.clbits.map .ofNat)).node,
        if params.isEmpty then none else some (Block.sequence none params).node] := by
  rw [Reading.fields_mapping]
  cases clbits : op.clbits.isEmpty <;> cases params : params.isEmpty <;>
    simp [yamlFields, Block.nonemptyField, Reading.field?, clbits, params]

/-- Whether all parameters are written without tags. -/
def isUntagged (op : OperationDescription) : Bool := op.params.all ParamDescription.isUntagged

theorem read_node (depth : Nat) (written : op.toBlock? = some b)
    (qubits : ∀ w ∈ op.qubits, w < UInt64.size) (clbits : ∀ w ∈ op.clbits, w < UInt64.size)
    (numbers : ∀ p ∈ op.params, ∀ x ∈ p.numbers, x.SurvivesYaml) :
    read depth b.node = Reading.lift (if op.isUntagged then some op.readBack else none) := by
  obtain ⟨params, each, rfl⟩ := exists_params written
  have quantum : Reading.withDefault [] (Reading.list Reading.nat)
      (some (Block.sequence none (op.qubits.map .ofNat)).node) = pure op.qubits :=
    Reading.list_ofNat qubits
  have classical : Reading.withDefault [] (Reading.list Reading.nat)
      (if op.clbits.isEmpty then none
        else some (Block.sequence none (op.clbits.map .ofNat)).node) = pure op.clbits := by
    split
    · next empty => rw [List.isEmpty_iff.mp empty]; rfl
    · exact Reading.list_ofNat clbits
  have items : Reading.withDefault [] (Reading.list (ParamDescription.read (depth + 2)))
      (if params.isEmpty then none else some (Block.sequence none params).node) =
      Reading.lift (if op.isUntagged then some (op.params.map ParamDescription.readBack)
        else none) := by
    have all := Reading.mapM_written each fun p member b written =>
      ParamDescription.read_node (depth + 2) written (numbers p member)
    rw [mapM_eq_ite fun p _ => rfl] at all
    simp only [isUntagged, List.all_eq_true]
    split
    · next empty =>
        rw [List.isEmpty_iff.mp empty] at all
        exact all
    · rw [← all]
      exact Reading.list_sequence _ none params
  rw [read, fields_yamlFields, pure_bind]
  simp only [Reading.text_string, quantum, classical, items, pure_bind]
  cases op.isUntagged <;> rfl

end OperationDescription

/-! ## Descriptions -/

namespace CircuitDescription

variable {d : CircuitDescription} {text : String}

/-- The fields of a description whose operations are written. -/
def yamlFields (d : CircuitDescription) (operations : List Block) : List (String × Block) :=
  [("num_qubits", .ofNat d.numQubits), ("num_clbits", .ofNat d.numClbits),
    ("global_phase", .ofNumber none d.globalPhase), ("ops", .sequence none operations)]

theorem exists_operations (written : d.yamlText? = some text) :
    ∃ operations, d.operations.mapM OperationDescription.toBlock? = some operations ∧
      text = Block.documentText (d.yamlFields operations) := by
  obtain ⟨operations, each, whole⟩ := Option.bind_eq_some_iff.mp written
  exact ⟨operations, each, (Option.some.inj whole).symm⟩

/-- A description has a text if all of its parameters have one. -/
theorem isSome_yamlText?_iff :
    d.yamlText?.isSome = true ↔ ∀ p ∈ d.params, p.toParam.negatesOnlyPi = true := by
  have each : (d.operations.mapM OperationDescription.toBlock?).isSome = true ↔
      ∀ p ∈ d.params, p.toParam.negatesOnlyPi = true := by
    rw [params, List.forall_mem_flatMap]
    simp only [isSome_mapM_iff, OperationDescription.isSome_toBlock?_iff]
  rw [← each, yamlText?]
  cases d.operations.mapM OperationDescription.toBlock? <;> rfl

theorem sound_yamlFields {operations : List Block}
    (written : d.operations.mapM OperationDescription.toBlock? = some operations) :
    Block.SoundFields (d.yamlFields operations) := by
  have items : (Block.sequence none operations).Sound true := by
    rw [Block.Sound]
    exact ⟨Block.soundTag_none, Block.sound_of_written written fun op _ b written =>
      OperationDescription.sound_of_toBlock? written⟩
  exact ⟨isKeyName_of_mem (by decide), Block.sound_ofNat _ true,
    isKeyName_of_mem (by decide), Block.sound_ofNat _ true,
    isKeyName_of_mem (by decide), Block.sound_ofNumber Block.soundTag_none _ true,
    isKeyName_of_mem (by decide), items, trivial⟩

theorem fields_yamlFields (d : CircuitDescription) (operations : List Block) :
    Reading.fields ["num_qubits", "num_clbits", "global_phase", "ops"]
        (Block.mapping (d.yamlFields operations)).node =
      pure [some (Block.ofNat d.numQubits).node, some (Block.ofNat d.numClbits).node,
        some (Block.ofNumber none d.globalPhase).node,
        some (Block.sequence none operations).node] := by
  rw [Reading.fields_mapping]
  simp [yamlFields, Reading.field?]

/-- Whether all parameters are written without tags. -/
def isUntagged (d : CircuitDescription) : Bool := d.operations.all OperationDescription.isUntagged

theorem read_node {operations : List Block}
    (written : d.operations.mapM OperationDescription.toBlock? = some operations)
    (sized : d.WordSized) (numbers : ∀ x ∈ d.numbers, x.SurvivesYaml) :
    read (Block.mapping (d.yamlFields operations)).node =
      Reading.lift (if d.isUntagged then some d.readBack else none) := by
  rw [CircuitDescription.numbers, List.forall_mem_cons] at numbers
  obtain ⟨phase, numbers⟩ := numbers
  have items : Reading.list (OperationDescription.read 2) (Block.sequence none operations).node =
      Reading.lift (if d.isUntagged then some (d.operations.map OperationDescription.readBack)
        else none) := by
    have all := Reading.mapM_written written fun op member b written =>
      OperationDescription.read_node 2 written (sized.qubits op member) (sized.clbits op member)
        fun p inside x given => numbers x (List.mem_flatMap.mpr
          ⟨p, List.mem_flatMap.mpr ⟨op, member, inside⟩, given⟩)
    rw [mapM_eq_ite fun op _ => rfl] at all
    simp only [isUntagged, List.all_eq_true]
    rw [Reading.list_sequence, all]
  rw [read, fields_yamlFields, pure_bind]
  simp only [Reading.withDefault, Reading.nat_ofNat sized.numQubits,
    Reading.nat_ofNat sized.numClbits, Reading.float_ofNumber phase, items, pure_bind]
  cases d.isUntagged <;> rfl

/-- A description is read back from its text with π as a symbol, unless an expression has a tag. -/
theorem ofYamlText?_yamlText (written : d.yamlText? = some text) (sized : d.WordSized)
    (numbers : ∀ x ∈ d.numbers, x.SurvivesYaml) :
    ofYamlText? text = if d.isUntagged then some d.readBack else none := by
  obtain ⟨operations, each, rfl⟩ := exists_operations written
  have nonempty : d.yamlFields operations ≠ [] := List.cons_ne_nil _ _
  rw [ofYamlText?, Reading.run?, Block.ofText?_documentText nonempty (sound_yamlFields each)]
  simp only [Option.bind_eq_bind, Option.bind_some, read_node each sized numbers]
  cases d.isUntagged <;> rfl

end CircuitDescription

end CircuitDag
