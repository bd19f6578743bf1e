import CircuitDag.Circuit.Edit
import CircuitDag.Proofs.Outcomes
import Mathlib.Data.List.Nodup

/-!
# What an operation has to satisfy

The checks that are made before an operation is put on wires accept exactly the operations that fit:
no anchors, the right numbers of operands and parameters, and distinct wires of the right kind.
-/

set_option autoImplicit false

namespace CircuitDag.Circuit

variable {c : Circuit} {op : Operation} {qubits clbits : List WireId} {element : Element}
  {start stop : WireId}

theorem checkWires_eq_ok_iff {seen wires out : List WireId} :
    checkWires element start stop seen wires = .ok out ↔
      (∀ w ∈ wires, start ≤ w ∧ w < stop) ∧ wires.Nodup ∧ (∀ w ∈ wires, w ∉ seen) ∧
        out = wires.reverse ++ seen := by
  induction wires generalizing seen with
  | nil => simp [checkWires, eq_comm]
  | cons w wires ih =>
      simp only [checkWires, List.forall_mem_cons, List.nodup_cons]
      split
      · next outside =>
          refine iff_of_false (fun failed => by cases failed) ?_
          intro given
          obtain ⟨⟨⟨above, below⟩, -⟩, -⟩ := given
          rcases outside with outside | outside
          · exact absurd outside (Nat.not_lt.mpr above)
          · exact absurd below (Nat.not_lt.mpr outside)
      · next inside =>
          split
          · next repeated =>
              refine iff_of_false (fun failed => by cases failed) ?_
              intro given
              obtain ⟨-, -, ⟨fresh, -⟩, -⟩ := given
              exact absurd repeated fresh
          · next fresh =>
              rw [ih]
              simp only [not_or, Nat.not_lt, Nat.not_le] at inside
              simp only [inside, fresh, List.mem_cons, not_or, not_false_eq_true, and_self,
                true_and, List.reverse_cons, List.append_assoc, List.cons_append, List.nil_append]
              constructor
              · intro given
                obtain ⟨range, unique, apart, rfl⟩ := given
                exact ⟨range, ⟨fun member => (apart w member).1 rfl, unique⟩,
                  fun x member => (apart x member).2, rfl⟩
              · intro given
                obtain ⟨range, ⟨absent, unique⟩, apart, rfl⟩ := given
                refine ⟨range, unique, fun x member => ⟨?_, apart x member⟩, rfl⟩
                intro same
                obtain rfl := same
                exact absent member


theorem checkArity_eq_ok_iff {what : String} {expected? : Option Nat} {got : Nat} :
    checkArity element what expected? got = .ok () ↔ ∀ n, expected? = some n → n = got := by
  unfold checkArity
  cases expected? with
  | none => simp
  | some n =>
      by_cases same : n = got
      · simp [same]
      · simp [same]

/-- What an operation has to satisfy to be put on wires. -/
structure Accepts (c : Circuit) (op : Operation) (qubits clbits : List WireId) : Prop where
  operation : op.element.isAnchor = false
  nonempty : qubits ++ clbits ≠ []
  numQubits : ∀ n, op.element.numQubits = some n → n = qubits.length
  numClbits : ∀ n, op.element.numClbits = some n → n = clbits.length
  numParams : ∀ n, op.element.numParams = some n → n = op.params.length
  nodup : (qubits ++ clbits).Nodup
  quantum : ∀ w ∈ qubits, w < c.numQubits
  classical : ∀ w ∈ clbits, c.numQubits ≤ w ∧ w < c.numWires

/-- Validation decides what is accepted. -/
theorem validate_eq_ok_iff :
    c.validate op qubits clbits = .ok () ↔ c.Accepts op qubits clbits := by
  simp only [validate]
  constructor
  · intro valid
    obtain ⟨operation, valid⟩ := unless_eq_ok_iff.mp valid
    obtain ⟨nonempty, valid⟩ := unless_eq_ok_iff.mp valid
    obtain ⟨⟨⟩, numQubits, valid⟩ := bind_eq_ok_iff.mp valid
    obtain ⟨⟨⟩, numClbits, valid⟩ := bind_eq_ok_iff.mp valid
    obtain ⟨⟨⟩, numParams, valid⟩ := bind_eq_ok_iff.mp valid
    obtain ⟨seen, first, valid⟩ := bind_eq_ok_iff.mp valid
    obtain ⟨all, second, -⟩ := bind_eq_ok_iff.mp valid
    obtain ⟨quantum, uniqueQuantum, -, rfl⟩ := checkWires_eq_ok_iff.mp first
    obtain ⟨classical, uniqueClassical, apart, -⟩ := checkWires_eq_ok_iff.mp second
    refine ⟨by simpa using operation, by simpa using nonempty,
      checkArity_eq_ok_iff.mp numQubits, checkArity_eq_ok_iff.mp numClbits,
      checkArity_eq_ok_iff.mp numParams, ?_, fun w member => (quantum w member).2, classical⟩
    refine uniqueQuantum.append uniqueClassical fun w left right => apart w right ?_
    simpa using left
  · intro accepts
    have split := List.nodup_append.mp accepts.nodup
    have apart : ∀ w ∈ clbits, w ∉ qubits.reverse ++ [] := by
      intro w right left
      exact split.2.2 w (by simpa using left) w right rfl
    refine unless_eq_ok_iff.mpr ⟨by simp [accepts.operation], ?_⟩
    refine unless_eq_ok_iff.mpr ⟨by simpa using accepts.nonempty, ?_⟩
    refine bind_eq_ok_iff.mpr ⟨(), checkArity_eq_ok_iff.mpr accepts.numQubits, ?_⟩
    refine bind_eq_ok_iff.mpr ⟨(), checkArity_eq_ok_iff.mpr accepts.numClbits, ?_⟩
    refine bind_eq_ok_iff.mpr ⟨(), checkArity_eq_ok_iff.mpr accepts.numParams, ?_⟩
    refine bind_eq_ok_iff.mpr ⟨_, checkWires_eq_ok_iff.mpr
      ⟨fun w member => ⟨Nat.zero_le w, accepts.quantum w member⟩, split.1, by simp, rfl⟩, ?_⟩
    exact bind_eq_ok_iff.mpr ⟨_, checkWires_eq_ok_iff.mpr
      ⟨accepts.classical, split.2.1, apart, rfl⟩, rfl⟩

end CircuitDag.Circuit
