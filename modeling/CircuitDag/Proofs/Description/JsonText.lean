import CircuitDag.Json.Descriptions
import CircuitDag.Proofs.Description.Parts
import CircuitDag.Proofs.Json.Texts
import CircuitDag.Proofs.Outcomes

/-!
# Reading descriptions from JSON

A description is read back from its JSON text, but for one thing: a parameter that is π as a whole
is written as a string, like a symbol, and strings are read as symbols. Expressions that are nested
too deeply are written and refused when they are read.
-/

set_option autoImplicit false

namespace CircuitDag

/-! ## Depths -/

/-- Parameters stand in four arrays and objects. -/
def ParamDescription.Shallow (p : ParamDescription) : Prop := 4 + p.toJson.depth ≤ Json.maxDepth

instance (p : ParamDescription) : Decidable p.Shallow := inferInstanceAs (Decidable (_ ≤ _))

namespace Json

variable {α β : Type}

/-! ## Proper values -/

theorem proper_ofNat (n : Nat) : (ofNat n).Proper := by
  intro token member
  rw [List.mem_singleton.mp member]
  exact DecimalText.proper_ofNat n

theorem proper_ofString (s : String) : (ofString s).Proper := by
  intro token member
  rw [List.mem_singleton.mp member]
  rfl

theorem proper_ofBinary64 (x : Binary64) : (ofBinary64 x).Proper := by
  intro token member
  rw [ofBinary64] at member
  split at member
  · rw [List.mem_singleton.mp member]
    exact decimalFormat.proper_layout x
  · rw [List.mem_singleton.mp member]
    trivial

theorem proper_itemTokens {items : List Json} (all : ∀ item ∈ items, item.Proper) :
    ∀ token ∈ itemTokens items, token.Proper := by
  induction items with
  | nil => exact List.forall_mem_nil _
  | cons item items ih =>
      rw [List.forall_mem_cons] at all
      rw [itemTokens, List.forall_mem_append]
      refine ⟨all.1, ?_⟩
      split
      · exact List.forall_mem_nil _
      · exact List.forall_mem_cons.mpr ⟨trivial, ih all.2⟩

theorem proper_array {items : List Json} (all : ∀ item ∈ items, item.Proper) :
    (array items).Proper := by
  rw [Proper, tokens, List.forall_mem_append, List.forall_mem_cons, List.forall_mem_singleton]
  exact ⟨⟨trivial, proper_itemTokens all⟩, trivial⟩

theorem proper_memberTokens {members : List (JsonText × Json)}
    (keys : ∀ member ∈ members, member.1.isSome = true)
    (values : ∀ member ∈ members, member.2.Proper) :
    ∀ token ∈ memberTokens members, token.Proper := by
  induction members with
  | nil => exact List.forall_mem_nil _
  | cons member members ih =>
      rw [List.forall_mem_cons] at keys values
      rw [memberTokens, List.forall_mem_append, List.forall_mem_cons, List.forall_mem_cons]
      refine ⟨⟨keys.1, trivial, values.1⟩, ?_⟩
      split
      · exact List.forall_mem_nil _
      · exact List.forall_mem_cons.mpr ⟨trivial, ih keys.2 values.2⟩

theorem proper_ofMembers {members : List (String × Json)}
    (all : ∀ member ∈ members, member.2.Proper) : (ofMembers members).Proper := by
  rw [ofMembers, Proper, tokens, List.forall_mem_append, List.forall_mem_cons,
    List.forall_mem_singleton]
  refine ⟨⟨trivial, proper_memberTokens ?_ ?_⟩, trivial⟩
  · exact List.forall_mem_map.mpr fun member _ => rfl
  · exact List.forall_mem_map.mpr all

/-! ## Reading fields and lists -/

theorem toNat?_ofNat {n : Nat} (small : n < UInt64.size) : (ofNat n).toNat? = some n := by
  simp [Significand.limit, ofNat, toNat?, digitsValue_toDigits, isWholeNumeral, small]

theorem namedMembers?_map (members : List (String × Json)) :
    namedMembers? (members.map fun member => (some member.1, member.2)) = some members := by
  induction members with
  | nil => rfl
  | cons member members ih =>
      rw [namedMembers?] at ih ⊢
      rw [List.map_cons, List.mapM_cons, ih]
      rfl

theorem fields?_ofMembers (names : List String) (members : List (String × Json)) :
    (ofMembers members).fields? names = names.mapM (field? members) := by
  change (namedMembers? (members.map fun member => (some member.1, member.2))).bind _ = _
  rw [namedMembers?_map]
  rfl

theorem mapM_map_eq_ite (toJson : α → Json) (read? : Json → Option β) {f : α → β} {ok : α → Prop}
    [DecidablePred ok] {items : List α}
    (each : ∀ a ∈ items, read? (toJson a) = if ok a then some (f a) else none) :
    (items.map toJson).mapM read? = if ∀ a ∈ items, ok a then some (items.map f) else none := by
  rw [List.mapM_map]
  exact mapM_eq_ite each

theorem mapM_map_eq_some (toJson : α → Json) (read? : Json → Option α) {items : List α}
    (each : ∀ a ∈ items, read? (toJson a) = some a) :
    (items.map toJson).mapM read? = some items := by
  have read : ∀ a ∈ items, read? (toJson a) = if True then some (id a) else none :=
    fun a member => each a member
  rw [mapM_map_eq_ite toJson read? read, if_pos fun _ _ => trivial, List.map_id]

end Json

/-! ## Parameters -/

/-- A number that is read as it was written. -/
def Binary64.SurvivesJson (x : Binary64) : Prop := (Json.ofBinary64 x).toBinary64? = some x

theorem Binary64.SurvivesJson.ofBinary64_eq {x : Binary64} (survives : x.SurvivesJson) :
    Json.ofBinary64 x = .number (Json.decimalFormat.layout x) := by
  rw [SurvivesJson, Json.ofBinary64] at survives
  rw [Json.ofBinary64]
  split
  · rfl
  · next infinite =>
      rw [if_neg infinite] at survives
      cases survives

theorem Param.proper_toJson (p : Param) : p.toJson.Proper := by
  have tagged : ∀ {tag : String} {content : Json}, content.Proper → (tagged tag content).Proper :=
    fun proper => Json.proper_ofMembers (List.forall_mem_singleton.mpr proper)
  have pair : ∀ {a b : Json}, a.Proper → b.Proper → (Json.array [a, b]).Proper :=
    fun first second => Json.proper_array
      (List.forall_mem_cons.mpr ⟨first, List.forall_mem_singleton.mpr second⟩)
  induction p with
  | value v => exact tagged (Json.proper_ofBinary64 v)
  | symbol name => exact tagged (Json.proper_ofString name)
  | pi => exact Json.proper_ofString "Pi"
  | neg p ih => exact tagged ih
  | add a b iha ihb | sub a b iha ihb | mul a b iha ihb | div a b iha ihb =>
      exact tagged (pair iha ihb)

/-- An expression whose numbers are read back is read back itself. -/
theorem Param.ofNested?_toJson {p : Param} (numbers : ∀ x ∈ p.numbers, x.SurvivesJson) :
    ofNested? p.toJson = some p := by
  induction p with
  | value v =>
      have survives : (Json.ofBinary64 v).toBinary64? = some v := numbers v List.mem_cons_self
      change (Json.ofBinary64 v).toBinary64?.map value = _
      rw [survives]
      rfl
  | symbol name => rfl
  | pi => rfl
  | neg p ih =>
      change (ofNested? p.toJson).map neg = _
      rw [ih numbers]
      rfl
  | add a b iha ihb | sub a b iha ihb | mul a b iha ihb | div a b iha ihb =>
      rw [Param.numbers, List.forall_mem_append] at numbers
      have read : ofPair? [a.toJson, b.toJson] = some (a, b) := by
        rw [ofPair?, iha numbers.1, ihb numbers.2]
        rfl
      change (ofPair? [a.toJson, b.toJson]).map _ = _
      rw [read]
      rfl

namespace ParamDescription

theorem proper_toJson (p : ParamDescription) : p.toJson.Proper := by
  cases p with
  | number v => exact Json.proper_ofBinary64 v
  | symbol name => exact Json.proper_ofString name
  | expression p => exact p.proper_toJson

theorem ofJson?_toJson {p : ParamDescription} (numbers : ∀ x ∈ p.numbers, x.SurvivesJson) :
    ofJson? p.toJson 4 = if p.Shallow then some p.readBack else none := by
  have flat : ∀ {p : ParamDescription}, p.toJson.depth = 0 → p.Shallow := by
    intro p none
    rw [Shallow, none]
    decide
  cases p with
  | number v =>
      have survives : v.SurvivesJson := numbers v List.mem_cons_self
      have shape : (number v).toJson = _ := survives.ofBinary64_eq
      rw [if_pos (flat (by rw [shape]; rfl)), shape]
      rw [Binary64.SurvivesJson, ← toJson, shape] at survives
      change (Json.toBinary64? _).map number = _
      rw [survives]
      rfl
  | symbol name => rw [if_pos (flat rfl)]; rfl
  | expression p =>
      have nested : (Param.ofJson? p.toJson 4).map expression =
          if (expression p).Shallow then some (expression p) else none := by
        rw [Param.ofJson?, Json.atDepth?]
        by_cases shallow : (expression p).Shallow
        · have within : 4 + p.toJson.depth ≤ Json.maxDepth := shallow
          have read : Param.ofNested? p.toJson = some p := Param.ofNested?_toJson numbers
          rw [if_pos within, if_pos shallow, Option.bind_some, read]
          rfl
        · have beyond : ¬ 4 + p.toJson.depth ≤ Json.maxDepth := shallow
          rw [if_neg beyond, if_neg shallow]
          rfl
      cases p with
      | pi => rw [if_pos (flat rfl)]; rfl
      | _ => exact nested

end ParamDescription

/-! ## Operations -/

namespace OperationDescription

variable {op : OperationDescription}

theorem proper_toJson (op : OperationDescription) : op.toJson.Proper := by
  have field : ∀ {α : Type} (name : String) (toJson : α → Json) (items : List α),
      (∀ a, (toJson a).Proper) → ∀ member ∈ Json.nonemptyField name toJson items,
        member.2.Proper := by
    intro α name toJson items proper member given
    rw [Json.nonemptyField] at given
    split at given
    · cases given
    · rw [List.mem_singleton.mp given]
      exact Json.proper_array (List.forall_mem_map.mpr fun a _ => proper a)
  refine Json.proper_ofMembers (List.forall_mem_append.mpr ⟨List.forall_mem_append.mpr
    ⟨List.forall_mem_cons.mpr ⟨Json.proper_ofString op.gate, List.forall_mem_singleton.mpr ?_⟩,
      field _ _ _ Json.proper_ofNat⟩, field _ _ _ ParamDescription.proper_toJson⟩)
  exact Json.proper_array (List.forall_mem_map.mpr fun n _ => Json.proper_ofNat n)

/-- The fields of a described operation; lists without items other than wires are left out. -/
theorem fields?_toJson (op : OperationDescription) :
    op.toJson.fields? ["gate", "wires", "clbits", "params"] =
      some [some (.ofString op.gate), some (.ofNats op.qubits),
        if op.clbits.isEmpty then none else some (.ofNats op.clbits),
        if op.params.isEmpty then none
        else some (.array (op.params.map ParamDescription.toJson))] := by
  rw [toJson, Json.fields?_ofMembers]
  cases clbits : op.clbits.isEmpty <;> cases params : op.params.isEmpty <;>
    simp [Json.nonemptyField, Json.field?, clbits, params, Json.ofNats]

theorem toList?_ofNats {ns : List Nat} (small : ∀ n ∈ ns, n < UInt64.size) :
    (Json.ofNats ns).toList? Json.toNat? = some ns :=
  Json.mapM_map_eq_some Json.ofNat Json.toNat? fun n member => Json.toNat?_ofNat (small n member)

def Shallow (op : OperationDescription) : Prop := ∀ p ∈ op.params, p.Shallow

instance (op : OperationDescription) : Decidable op.Shallow :=
  inferInstanceAs (Decidable (∀ p ∈ op.params, p.Shallow))

theorem ofJson?_toJson (qubits : ∀ w ∈ op.qubits, w < UInt64.size)
    (clbits : ∀ w ∈ op.clbits, w < UInt64.size)
    (numbers : ∀ p ∈ op.params, ∀ x ∈ p.numbers, x.SurvivesJson) :
    ofJson? op.toJson 2 = if op.Shallow then some op.readBack else none := by
  have classical : Json.withDefault [] (Json.toList? Json.toNat?)
      (if op.clbits.isEmpty then none else some (.ofNats op.clbits)) = some op.clbits := by
    split
    · next empty => rw [List.isEmpty_iff.mp empty]; rfl
    · exact toList?_ofNats clbits
  have quantum : Json.withDefault [] (Json.toList? Json.toNat?) (some (.ofNats op.qubits)) =
      some op.qubits := toList?_ofNats qubits
  have read : Json.withDefault [] (Json.toList? (ParamDescription.ofJson? · (2 + 2)))
      (if op.params.isEmpty then none
        else some (.array (op.params.map ParamDescription.toJson))) =
      if op.Shallow then some (op.params.map ParamDescription.readBack) else none := by
    have all := Json.mapM_map_eq_ite ParamDescription.toJson (ParamDescription.ofJson? · 4)
      fun p member => ParamDescription.ofJson?_toJson (numbers p member)
    split
    · next empty =>
        have none := List.isEmpty_iff.mp empty
        have shallow : op.Shallow := by rw [Shallow, none]; exact nofun
        rw [if_pos shallow, none]
        rfl
    · exact all
  rw [ofJson?, fields?_toJson]
  simp only [Option.bind_eq_bind, Option.bind_some, quantum, classical, read]
  by_cases shallow : op.Shallow
  · rw [if_pos shallow, if_pos shallow]
    rfl
  · rw [if_neg shallow, if_neg shallow]
    rfl

end OperationDescription

/-! ## Descriptions -/

namespace CircuitDescription

variable {d : CircuitDescription}

theorem proper_toJson (d : CircuitDescription) : d.toJson.Proper := by
  refine Json.proper_ofMembers (List.forall_mem_cons.mpr ⟨Json.proper_ofNat d.numQubits,
    List.forall_mem_cons.mpr ⟨Json.proper_ofNat d.numClbits, List.forall_mem_cons.mpr
      ⟨Json.proper_ofBinary64 d.globalPhase, List.forall_mem_singleton.mpr ?_⟩⟩⟩)
  exact Json.proper_array (List.forall_mem_map.mpr fun op _ => op.proper_toJson)

theorem fields?_toJson (d : CircuitDescription) :
    d.toJson.fields? ["num_qubits", "num_clbits", "global_phase", "ops"] =
      some [some (.ofNat d.numQubits), some (.ofNat d.numClbits),
        some (.ofBinary64 d.globalPhase),
        some (.array (d.operations.map OperationDescription.toJson))] := by
  rw [toJson, Json.fields?_ofMembers]
  simp [Json.field?]

def Shallow (d : CircuitDescription) : Prop := ∀ op ∈ d.operations, op.Shallow

instance (d : CircuitDescription) : Decidable d.Shallow :=
  inferInstanceAs (Decidable (∀ op ∈ d.operations, op.Shallow))

theorem ofJson?_toJson (sized : d.WordSized) (numbers : ∀ x ∈ d.numbers, x.SurvivesJson) :
    ofJson? d.toJson = if d.Shallow then some d.readBack else none := by
  rw [CircuitDescription.numbers, List.forall_mem_cons] at numbers
  obtain ⟨phase, numbers⟩ := numbers
  have operations : (d.operations.map OperationDescription.toJson).mapM
      (OperationDescription.ofJson? · 2) =
      if d.Shallow then some (d.operations.map OperationDescription.readBack) else none :=
    Json.mapM_map_eq_ite OperationDescription.toJson (OperationDescription.ofJson? · 2)
      fun op member => OperationDescription.ofJson?_toJson (sized.qubits op member)
        (sized.clbits op member) fun p inside x given => numbers x (List.mem_flatMap.mpr
          ⟨p, List.mem_flatMap.mpr ⟨op, member, inside⟩, given⟩)
  have phaseRead : (Json.ofBinary64 d.globalPhase).toBinary64? = some d.globalPhase := phase
  rw [ofJson?, fields?_toJson]
  simp only [Option.bind_eq_bind, Option.bind_some, Json.toNat?_ofNat sized.numQubits,
    Json.withDefault, Json.toNat?_ofNat sized.numClbits, phaseRead, Json.toList?, operations]
  by_cases shallow : d.Shallow
  · rw [if_pos shallow, if_pos shallow]
    rfl
  · rw [if_neg shallow, if_neg shallow]
    rfl

/-- A description is read back from its text with π as a symbol, unless it is nested too deeply. -/
theorem ofJsonText?_jsonText (sized : d.WordSized) (numbers : ∀ x ∈ d.numbers, x.SurvivesJson) :
    ofJsonText? d.jsonText = if d.Shallow then some d.readBack else none := by
  rw [ofJsonText?, jsonText, Json.ofText?_text JsonLayout.sound_indented d.proper_toJson,
    Option.bind_some, ofJson?_toJson sized numbers]

end CircuitDescription

end CircuitDag
