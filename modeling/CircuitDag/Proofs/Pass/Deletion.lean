import CircuitDag.Proofs.Circuit.Measures
import CircuitDag.Proofs.Pass.NormalForm

/-!
# What a cancellation deletes

A reduction only deletes: every pair that it removes takes two operations with one label out of the
circuit, and all other vertices stay on their wires with their records. Over a whole run the labels
that are gone are those of the pairs, each twice, so every element loses an even number of
operations, and one that is not accepted loses none.
-/

set_option autoImplicit false

namespace CircuitDag

open Circuit

variable {accept : Element → Bool} {c c' d e : Circuit} {line : WireId → List VertexId}
  {block : List VertexId} {v u : VertexId} {r s : Record} {m n : Nat}
  {pairs : List (VertexId × VertexId)}

/-! ## Deleting a block -/

theorem Circuit.Without.of_live (without : c.Without line block c') (live : c'.records.Live v s) :
    v ∉ block ∧ ∃ r, c.records.Live v r ∧ s.bare = r.bare := by
  have outside : v ∉ block := by
    obtain ⟨w, member⟩ := List.exists_mem_of_ne_nil _ (without.layout.wired v s live).nonempty
    have stands := without.layout.covered v w ⟨s, live, member⟩
    simpa using (List.mem_filter.mp stands).2
  have same := without.bare v outside
  rw [Records.bare?, Records.bare?, live.1] at same
  obtain ⟨r, found, agree⟩ := Option.map_eq_some_iff.mp same.symm
  exact ⟨outside, r, ⟨found, (Record.removed_of_bare agree).trans live.2⟩, agree.symm⟩

theorem Circuit.Without.labels_perm (without : c.Without line block c') (layout : c.Layout line)
    (unique : block.Nodup) (onLines : ∀ v ∈ block, ∃ w, v ∈ line w) :
    c.labels.Perm (block.filterMap c.label? ++ c'.labels) := by
  -- the listing without the block is one of the circuit that is left, but the block may stand in it
  -- in another order
  have cut := layout.rearranged_cut without.layout fun x fresh => without.label?_congr fresh
  have linear := layout.linearizes
  have inside : (c.topologicalVertices.filter fun v => block.contains v).Perm block := by
    refine (List.perm_ext_iff_of_nodup (linear.nodup.filter _) unique).mpr fun v => ?_
    rw [List.mem_filter, List.contains_iff_mem, linear.mem_iff]
    exact ⟨And.right, fun member => ⟨onLines v member, member⟩⟩
  have split : c.labels.Perm
      ((c.topologicalVertices.filter fun v => block.contains v).filterMap c.label? ++
        (c.topologicalVertices.filter fun v => !block.contains v).filterMap c.label?) := by
    rw [labels_eq_filterMap, ← List.filterMap_append]
    exact (List.filter_append_perm _ _).symm.filterMap c.label?
  exact split.trans ((inside.filterMap c.label?).append cut.perm.symm)

/-! ## Deleting pairs -/

/-- A circuit from which some pairs of operations have been deleted, the two of a pair with the same
accepted element, the same parameters and the same wires, and nothing else. -/
structure Deletes (accept : Element → Bool) (c : Circuit) (n : Nat) (d : Circuit) : Prop where
  wires : ∀ w, (d.wireVertices w).Sublist (c.wireVertices w)
  survives : ∀ v t, d.records.Live v t → ∃ r, c.records.Live v r ∧ t.bare = r.bare
  deleted : ∀ v r, c.records.Live v r → (∃ t, d.records.Live v t ∧ t.bare = r.bare) ∨
    (¬ ∃ t, d.records.Live v t) ∧ r.isAnchor = false ∧ accept r.element = true
  labels : ∃ gone : List Label, gone.length = n ∧ (∀ a ∈ gone, accept a.element = true) ∧
    c.labels.Perm (gone ++ gone ++ d.labels)

theorem Deletes.refl (accept : Element → Bool) (c : Circuit) : Deletes accept c 0 c where
  wires _ := .refl _
  survives _ t live := ⟨t, live, rfl⟩
  deleted _ r live := .inl ⟨r, live, rfl⟩
  labels := ⟨[], rfl, nofun, .refl _⟩

theorem Deletes.trans (first : Deletes accept c m d) (second : Deletes accept d n e) :
    Deletes accept c (m + n) e where
  wires w := (second.wires w).trans (first.wires w)
  survives v t live := by
    obtain ⟨s, live', same⟩ := second.survives v t live
    obtain ⟨r, live'', same'⟩ := first.survives v s live'
    exact ⟨r, live'', same.trans same'⟩
  deleted v r live := by
    rcases first.deleted v r live with ⟨s, live', same⟩ | ⟨dead, operation⟩
    · have agree := Record.element_of_bare same
      rcases second.deleted v s live' with ⟨t, live'', same'⟩ | ⟨dead, operation⟩
      · exact .inl ⟨t, live'', same'.trans same⟩
      · rw [Record.isAnchor, agree] at operation
        exact .inr ⟨dead, operation⟩
    · refine .inr ⟨fun alive => dead ?_, operation⟩
      obtain ⟨t, live'⟩ := alive
      exact (second.survives v t live').imp fun _ => And.left
  labels := by
    obtain ⟨gone, length, accepted, perm⟩ := first.labels
    obtain ⟨gone', length', accepted', perm'⟩ := second.labels
    refine ⟨gone ++ gone', by rw [List.length_append, length, length'],
      List.forall_mem_append.mpr ⟨accepted, accepted'⟩, List.perm_iff_count.mpr fun a => ?_⟩
    have count := perm.count_eq a
    have count' := perm'.count_eq a
    simp only [List.count_append] at count count' ⊢
    omega

theorem Circuit.Twins.deletes (twins : c.Twins line accept v u r s) (layout : c.Layout line)
    (without : c.Without line [v, u] c') : Deletes accept c 1 c' where
  wires w := by
    rw [without.layout.wireVertices_eq, layout.wireVertices_eq]
    exact List.filter_sublist
  survives x t live := (without.of_live live).2
  deleted x t live := by
    by_cases member : x ∈ [v, u]
    · refine .inr ⟨fun alive => ?_, ?_⟩
      · obtain ⟨t', live'⟩ := alive
        exact (without.of_live live').1 member
      · rcases List.mem_pair.mp member with rfl | rfl
        · obtain rfl := live.unique twins.left
          exact ⟨twins.operation, twins.accepted⟩
        · obtain rfl := live.unique twins.right
          exact ⟨twins.operation', twins.element ▸ twins.accepted⟩
    · exact .inl (without.live member live)
  labels := by
    obtain ⟨left, right⟩ := twins.labelled
    obtain ⟨w, member⟩ := List.exists_mem_of_ne_nil _ (layout.wired v r twins.left).nonempty
    have next := twins.adjacent w member
    have onLines : ∀ x ∈ [v, u], ∃ w, x ∈ line w := by
      intro x inside
      rcases List.mem_pair.mp inside with rfl | rfl
      · exact ⟨w, next.mem_left⟩
      · exact ⟨w, next.mem_right⟩
    have perm := without.labels_perm layout (by simpa using twins.ne layout) onLines
    rw [List.filterMap_cons_some left, List.filterMap_cons_some right] at perm
    exact ⟨[r.label], rfl, List.forall_mem_singleton.mpr twins.accepted, perm⟩

theorem Reduces.deletes (reduces : Reduces accept c pairs d) (laid : c.LaidOut) :
    Deletes accept c pairs.length d := by
  induction reduces with
  | refl c => exact .refl accept c
  | step cancellable run _ ih =>
      obtain ⟨line, layout⟩ := laid
      obtain ⟨r, s, twins⟩ := layout.cancellable_iff.mp cancellable
      obtain ⟨c', removed, without⟩ := layout.removePair twins
      cases run.symm.trans removed
      rw [List.length_cons, Nat.add_comm]
      exact (twins.deletes layout without).trans (ih ⟨_, without.layout⟩)

/-! ## Counts -/

theorem Deletes.numOperations (deletes : Deletes accept c n d) (laid : c.LaidOut)
    (laid' : d.LaidOut) : c.numOperations = d.numOperations + 2 * n := by
  obtain ⟨line, layout⟩ := laid
  obtain ⟨line', layout'⟩ := laid'
  obtain ⟨gone, length, -, perm⟩ := deletes.labels
  rw [layout.numOperations_eq_length, layout'.numOperations_eq_length, perm.length_eq]
  simp only [List.length_append]
  omega

/-- Every element loses an even number of operations, and none if it is not accepted. -/
theorem Deletes.timesIn (deletes : Deletes accept c n d) (laid : c.LaidOut) (laid' : d.LaidOut)
    (e : Element) : ∃ k, e.timesIn c.elementCounts = e.timesIn d.elementCounts + 2 * k ∧
      (accept e = false → k = 0) := by
  obtain ⟨line, layout⟩ := laid
  obtain ⟨line', layout'⟩ := laid'
  obtain ⟨gone, -, accepted, perm⟩ := deletes.labels
  refine ⟨(gone.map Label.element).count e, ?_, fun refused => List.count_eq_zero.mpr ?_⟩
  · have count := (perm.map Label.element).count_eq e
    rw [layout.timesIn_elementCounts, layout'.timesIn_elementCounts, count]
    simp only [List.map_append, List.count_append]
    omega
  · intro member
    obtain ⟨a, listed, rfl⟩ := List.mem_map.mp member
    rw [accepted a listed] at refused
    cases refused

/-! ## Passes -/

end CircuitDag
