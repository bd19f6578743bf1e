import CircuitDag.Proofs.Records.Strung
import Mathlib.Data.List.Perm.Subperm

/-!
# Walking along a wire

Looking up the neighbour of a vertex on a wire reads the port of that vertex on the wire. A walk
from the first vertex of a wire goes through its line.
-/

set_option autoImplicit false

namespace CircuitDag.Records

variable {rs : Records} {side : Side} {u v : VertexId} {w : WireId} {l : List VertexId}

theorem idxOf?_eq_some_iff {wires : List WireId} {index : Nat} :
    wires.idxOf? w = some index ↔ w ∈ wires ∧ wires.idxOf w = index := by
  induction wires generalizing index with
  | nil => simp
  | cons x wires ih =>
      rw [List.idxOf?_cons, List.idxOf_cons, List.mem_cons]
      by_cases same : x = w
      · simp [same]
      · simp only [beq_iff_eq, same, Ne.symm same, ↓reduceIte, Option.map_eq_some_iff, ih,
          false_or, cond_eq_ite]
        constructor
        · intro given
          obtain ⟨j, ⟨member, rfl⟩, rfl⟩ := given
          exact ⟨member, rfl⟩
        · intro given
          obtain ⟨member, rfl⟩ := given
          exact ⟨_, ⟨member, rfl⟩, rfl⟩

theorem wireIndex_eq_ok_iff {index : Nat} :
    rs.wireIndex v w = .ok index ↔
      ∃ r, rs.get? v = some r ∧ w ∈ r.wires ∧ r.wires.idxOf w = index := by
  unfold wireIndex
  cases found : rs.get? v with
  | none => simp
  | some r =>
      simp only [Option.bind_some, Option.some.injEq, exists_eq_left', ← idxOf?_eq_some_iff]
      cases r.wires.idxOf? w <;> simp

theorem wireIndex_of_carries (carries : rs.Carries v w) :
    rs.wireIndex v w = .ok (rs.portOn w v).index := by
  obtain ⟨r, live, member⟩ := carries
  rw [portOn_eq live.1]
  exact wireIndex_eq_ok_iff.mpr ⟨r, live.1, member, rfl⟩

theorem neighbor_of_carries (carries : rs.Carries v w) (side : Side) :
    rs.neighbor side v w =
      match rs.facing side (rs.portOn w v) with
      | some port => .ok port
      | none => .error (.invalidVertex v (noNeighbor side)) := by
  rw [neighbor, wireIndex_of_carries carries]
  rfl

theorem next?_of_facing {port : Port} (carries : rs.Carries v w)
    (facing : rs.facing .outgoing (rs.portOn w v) = some port) :
    rs.next? w v = some port.vertex := by
  rw [next?, neighbor_of_carries carries, facing]

theorem next?_eq_none (carries : rs.Carries v w)
    (facing : rs.facing .outgoing (rs.portOn w v) = none) : rs.next? w v = none := by
  rw [next?, neighbor_of_carries carries, facing]

/-- From a vertex on a line the walk follows the rest of the line. -/
theorem Strung.walk {front back : List VertexId} (strung : rs.Strung w (front ++ v :: back))
    (fuel : Nat) : rs.walk w fuel v = (v :: back).take fuel := by
  induction fuel generalizing front v back with
  | zero => rfl
  | succ fuel ih =>
      have carries := strung.carried v (by simp)
      rw [Records.walk, List.take_succ_cons]
      cases back with
      | nil =>
          have free := strung.last v (by simp)
          simp [next?_eq_none carries free]
      | cons x back =>
          have linked := strung.outgoing v x ⟨front, back, rfl⟩
          have next : rs.Strung w ((front ++ [v]) ++ x :: back) := by simpa using strung
          simp only [next?_of_facing carries linked, portOn_vertex, ih next]

theorem Strung.wireVertices_eq (strung : rs.Strung w l) (first : l.head? = some v) :
    rs.wireVertices w v = l := by
  obtain ⟨back, rfl⟩ := List.head?_eq_some_iff.mp first
  have carries := strung.carried v List.mem_cons_self
  have bound : (v :: back).length ≤ rs.size := by
    have included : v :: back ⊆ List.range rs.size := by
      intro u member
      obtain ⟨r, live, -⟩ := strung.carried u member
      exact List.mem_range.mpr live.lt_size
    simpa using (List.subperm_of_subset strung.nodup included).length_le
  rw [Records.wireVertices, wireIndex_of_carries carries]
  have whole : rs.Strung w ([] ++ v :: back) := strung
  simp only
  rw [whole.walk (rs.size + 1)]
  exact List.take_of_length_le (Nat.le_succ_of_le bound)

/-! ## Walks over any records -/

theorem head?_walk (fuel : Nat) (v : VertexId) :
    (rs.walk w fuel v).head? = if fuel = 0 then none else some v := by
  cases fuel <;> rfl

theorem next?_of_adjacent_walk {fuel : Nat} {a b : VertexId}
    (adjacent : Adjacent (rs.walk w fuel v) a b) : rs.next? w a = some b := by
  induction fuel generalizing v with
  | zero => exact absurd adjacent (not_adjacent_nil a b)
  | succ fuel ih =>
      rw [walk] at adjacent
      cases next : rs.next? w v with
      | none =>
          rw [next] at adjacent
          exact absurd adjacent (not_adjacent_singleton v a b)
      | some u =>
          rw [next] at adjacent
          rcases adjacent_cons.mp adjacent with ⟨rfl, first⟩ | rest
          · rw [head?_walk] at first
            split at first
            · cases first
            · rw [next, Option.some.inj first]
          · exact ih rest

/-- A walk that is cut off does not depend on the fuel behind the cut. -/
theorem take_walk {fuel n : Nat} (enough : n ≤ fuel) (v : VertexId) :
    (rs.walk w fuel v).take n = rs.walk w n v := by
  induction n generalizing fuel v with
  | zero => exact List.take_zero
  | succ n ih =>
      obtain ⟨fuel, rfl⟩ := Nat.exists_eq_succ_of_ne_zero (Nat.ne_zero_of_lt enough)
      rw [walk, walk, List.take_succ_cons]
      cases rs.next? w v with
      | none => rw [List.take_nil]
      | some u => rw [ih (Nat.le_of_succ_le_succ enough)]

end CircuitDag.Records
