import CircuitDag.Proofs.Circuit.Insertion

/-!
# Lines with one vertex more

An operation is put into one segment of each of its wires. What stands next to what afterwards is
told by these segments, with no regard to the steps in which they were split.
-/

set_option autoImplicit false

namespace CircuitDag

/-- The end of a segment whose port on a side leads along it. A segment is given by its source, its
target and its wire. -/
def segmentEnd : Side → VertexId × VertexId × WireId → VertexId
  | .incoming, (_, b, _) => b
  | .outgoing, (a, _, _) => a

/-- Lines into which a vertex has been put, each time into a segment of another wire. -/
structure Spliced (line line' : WireId → List VertexId) (v : VertexId)
    (gaps : List (VertexId × VertexId × WireId)) : Prop where
  nodup : (gaps.map (·.2.2)).Nodup
  inside : ∀ a b w, (a, b, w) ∈ gaps → ∃ front back,
    line w = front ++ a :: b :: back ∧ line' w = front ++ a :: v :: b :: back
  others : ∀ w, w ∉ gaps.map (·.2.2) → line' w = line w

section Lines

open Circuit (Beside tip?)

variable {line line' : WireId → List VertexId} {u v x y : VertexId} {w : WireId}
  {gaps : List (VertexId × VertexId × WireId)} {gap : VertexId × VertexId × WireId} {side : Side}

theorem Spliced.gap_unique (spliced : Spliced line line' v gaps)
    {gap' : VertexId × VertexId × WireId} (first : gap ∈ gaps) (second : gap' ∈ gaps)
    (same : gap.2.2 = gap'.2.2) : gap = gap' :=
  List.inj_on_of_nodup_map spliced.nodup first second same

/-- The vertex goes between neighbours. -/
theorem Spliced.adjacent (spliced : Spliced line line' v gaps) (inside : (x, y, w) ∈ gaps) :
    Adjacent (line w) x y := by
  obtain ⟨front, back, shape, -⟩ := spliced.inside x y w inside
  exact ⟨front, back, shape⟩

/-- Neighbours are those from before, without the two ends of a gap, and the vertex with each of
these ends. -/
theorem Spliced.adjacent_iff (spliced : Spliced line line' v gaps)
    (unique : ∀ w, (line w).Nodup) :
    Adjacent (line' w) x y ↔ (x = v ∧ ∃ a, (a, y, w) ∈ gaps) ∨ (y = v ∧ ∃ b, (x, b, w) ∈ gaps) ∨
      (Adjacent (line w) x y ∧ (x, y, w) ∉ gaps) := by
  by_cases member : w ∈ gaps.map (·.2.2)
  · obtain ⟨⟨a, b, w⟩, inside, rfl⟩ := List.mem_map.mp member
    obtain ⟨front, back, shape, shape'⟩ := spliced.inside a b w inside
    have only : ∀ a' b', (a', b', w) ∈ gaps ↔ a' = a ∧ b' = b := by
      intro a' b'
      constructor
      · intro inside'
        simpa using spliced.gap_unique inside' inside rfl
      · intro same
        obtain ⟨rfl, rfl⟩ := same
        exact inside
    rw [shape', Circuit.adjacent_insert (shape ▸ unique w), ← shape]
    simp only [only, exists_eq_left, exists_eq_right]
    exact or_congr_right (or_congr_left and_comm)
  · have outside : ∀ a b, (a, b, w) ∉ gaps := fun a b inside =>
      member (List.mem_map.mpr ⟨(a, b, w), inside, rfl⟩)
    rw [spliced.others w member]
    simp [outside]

theorem Spliced.beside (spliced : Spliced line line' v gaps) (member : gap ∈ gaps) (side : Side) :
    Beside (line' gap.2.2) side (segmentEnd side gap) v ∧
      Beside (line' gap.2.2) side v (segmentEnd side.opposite gap) := by
  obtain ⟨a, b, w⟩ := gap
  obtain ⟨front, back, -, shape⟩ := spliced.inside a b w member
  have left : Adjacent (line' w) a v := ⟨front, b :: back, shape⟩
  have right : Adjacent (line' w) v b := ⟨front ++ [a], back, by simp [shape]⟩
  cases side with
  | incoming => exact ⟨right, left⟩
  | outgoing => exact ⟨left, right⟩

/-- A vertex keeps its neighbour on a side if it does not face a gap there. -/
theorem Spliced.beside_of_apart (spliced : Spliced line line' v gaps)
    (unique : ∀ w, (line w).Nodup) (beside : Beside (line w) side u x)
    (apart : ∀ gap ∈ gaps, gap.2.2 = w → segmentEnd side gap ≠ u) : Beside (line' w) side u x := by
  cases side with
  | incoming | outgoing =>
      refine (spliced.adjacent_iff unique).mpr (.inr (.inr ⟨beside, fun inside => ?_⟩))
      exact apart _ inside rfl rfl

theorem Spliced.tip?_eq (spliced : Spliced line line' v gaps) (side : Side) (w : WireId) :
    tip? (line' w) side = tip? (line w) side := by
  by_cases member : w ∈ gaps.map (·.2.2)
  · obtain ⟨⟨a, b, w⟩, inside, rfl⟩ := List.mem_map.mp member
    obtain ⟨front, back, shape, shape'⟩ := spliced.inside a b w inside
    exact Inserted.tip?_eq ⟨front, a, back, shape, shape'⟩ side
  · rw [spliced.others w member]

end Lines

namespace Circuit

theorem exists_map_snd_eq {α β : Type} {l : List β} {fits : α → β → Prop}
    (each : ∀ y ∈ l, ∃ x, fits x y) :
    ∃ pairs : List (α × β), pairs.map Prod.snd = l ∧ ∀ x y, (x, y) ∈ pairs → fits x y := by
  induction l with
  | nil => exact ⟨[], rfl, by simp⟩
  | cons y l ih =>
      rw [List.forall_mem_cons] at each
      obtain ⟨⟨x, first⟩, rest⟩ := each
      obtain ⟨pairs, rfl, fit⟩ := ih rest
      refine ⟨(x, y) :: pairs, rfl, fun x' y' member => ?_⟩
      rcases List.mem_cons.mp member with equal | member
      · obtain ⟨rfl, rfl⟩ := Prod.mk.inj equal
        exact first
      · exact fit x' y' member

theorem eq_of_mem_zip {w : WireId} {vs : List VertexId} {wires : List WireId} (unique : wires.Nodup)
    {x y : VertexId} (first : (x, w) ∈ vs.zip wires) (second : (y, w) ∈ vs.zip wires) : x = y := by
  obtain ⟨i, foundX⟩ := List.getElem?_of_mem first
  obtain ⟨j, foundY⟩ := List.getElem?_of_mem second
  obtain ⟨atX, wireX⟩ := List.getElem?_zip_eq_some.mp foundX
  obtain ⟨atY, wireY⟩ := List.getElem?_zip_eq_some.mp foundY
  have bound := (List.getElem?_eq_some_iff.mp wireX).1
  obtain rfl := (List.getElem?_inj bound unique).mp (wireX.trans wireY.symm)
  exact Option.some.inj (atX.symm.trans atY)

theorem wires_of_gaps {gaps : List (VertexId × VertexId × WireId)} {vs : List VertexId}
    {wires : List WireId} (targets : gaps.map Prod.snd = vs.zip wires)
    (length : vs.length = wires.length) : gaps.map (·.2.2) = wires := by
  have second : (gaps.map Prod.snd).map Prod.snd = gaps.map (·.2.2) := List.map_map
  rw [← second, targets, List.map_snd_zip length.ge]

/-- An inserted operation is put into the segments that end in the given vertices. -/
theorem Layout.spliced {c c' : Circuit} {line line' : WireId → List VertexId} {op : Operation}
    {qubits clbits : List WireId} {before : List VertexId} {points : List InsertionPoint}
    (layout : c.Layout line) (accepts : c.Accepts op qubits clbits)
    (same : before.length = (qubits ++ clbits).length)
    (found : (before.zip (qubits ++ clbits)).mapM (fun (v, w) => c.insertionPoint v w) = .ok points)
    (grown : c.Grown line op qubits clbits (points.map (·.successor)) c' line') :
    ∃ gaps, gaps.map Prod.snd = before.zip (qubits ++ clbits) ∧
      Spliced line line' c.records.size gaps := by
  have each : ∀ entry ∈ before.zip (qubits ++ clbits), ∃ a, ∃ front back,
      line entry.2 = front ++ a :: entry.1 :: back ∧
        line' entry.2 = front ++ a :: c.records.size :: entry.1 :: back := by
    rintro ⟨b, w⟩ given
    obtain ⟨p, entry, inserted⟩ := grown.inserted w (List.of_mem_zip given).2
    obtain ⟨b', a, chosen, -, -, rfl⟩ := (insertionPoints_spec layout same found).2 w p entry
    obtain rfl := eq_of_mem_zip accepts.nodup given chosen
    obtain ⟨front, a, back, both⟩ := inserted
    exact ⟨a, front, back, both⟩
  obtain ⟨gaps, shape, inside⟩ := exists_map_snd_eq each
  have wires := wires_of_gaps shape same
  exact ⟨gaps, shape, wires ▸ accepts.nodup, fun a b w => inside a (b, w), wires ▸ grown.others⟩

end Circuit

end CircuitDag
