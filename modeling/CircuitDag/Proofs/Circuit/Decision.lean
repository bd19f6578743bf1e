import CircuitDag.Proofs.Circuit.Checking
import CircuitDag.Proofs.Circuit.Wires
import Mathlib.Data.List.Perm.Subperm

/-!
# What the check decides

The check counts edges, carriers and steps and compares ports locally. If all of its parts succeed,
the circuit is well formed as a whole: an injective listing that is as long as what it is listed in
misses nothing.
-/

set_option autoImplicit false

namespace CircuitDag

section Listings

variable {α β : Type}

theorem perm_of_nodup_of_length {l l' : List α} (unique : l.Nodup) (included : l ⊆ l')
    (length : l'.length ≤ l.length) : l.Perm l' :=
  (List.subperm_of_subset unique included).perm_of_length_le length

theorem countP_positions (n : Nat) {l : List (Option α)} (length : l.length = n) :
    (List.range n).countP (fun i => (l[i]?.join).isSome) = l.countP Option.isSome := by
  subst length
  have entries : (List.range l.length).map (fun i => l[i]?.join) = l := by
    apply List.ext_getElem (by simp)
    intro i bound _
    have bound : i < l.length := by simpa using bound
    simp [bound]
  conv_rhs => rw [← entries]
  rw [List.countP_map]
  rfl

end Listings

namespace Circuit

variable {c : Circuit} {side : Side} {u v : VertexId} {w : WireId} {r : Record}

/-! ## Edges -/

/-- The pairs of neighbours at a vertex, as its incoming ports tell. -/
def linksInto (v : VertexId) (r : Record) : List (VertexId × VertexId × WireId) :=
  r.wires.zipIdx.filterMap fun (w, i) =>
    (r.port? .incoming i).map fun port => (port.vertex, v, w)

/-- The pairs of neighbours on all wires, as the incoming ports of live vertices tell. -/
def links (c : Circuit) : List (VertexId × VertexId × WireId) :=
  c.records.live.flatMap fun (v, r) => linksInto v r

theorem mem_links : (u, v, w) ∈ c.links ↔ c.Precedes u v w := by
  simp only [links, linksInto, List.mem_flatMap, List.mem_filterMap, Prod.exists,
    Records.mem_live, List.mk_mem_zipIdx_iff_getElem?, Option.map_eq_some_iff, Prod.mk.injEq]
  constructor
  · intro given
    obtain ⟨_, r, live, _, i, position, ⟨_, j⟩, led, rfl, rfl, rfl⟩ := given
    exact ⟨r, i, j, live, position, led⟩
  · intro given
    obtain ⟨r, i, j, live, position, led⟩ := given
    exact ⟨v, r, live, w, i, position, ⟨u, j⟩, led, rfl, rfl, rfl⟩

theorem length_linksInto (length : r.inPorts.length = r.wires.length) (v : VertexId) :
    (linksInto v r).length = r.inPorts.countP Option.isSome := by
  rw [linksInto, List.length_filterMap_eq_countP, ← countP_positions _ length,
    List.range_eq_range', ← List.zipIdx_map_snd 0 r.wires, List.countP_map]
  refine List.countP_congr ?_
  intro given _
  obtain ⟨w, i⟩ := given
  simp [Record.port?, Record.ports]

theorem length_links (shaped : c.records.Shaped) : c.links.length = c.numLinks := by
  rw [links, numLinks, List.length_flatMap, List.countP_flatMap]
  congr 1
  refine List.map_congr_left ?_
  intro given member
  obtain ⟨v, r⟩ := given
  exact length_linksInto
    (shaped.length_ports v r (Records.mem_live.mp member).1 .incoming) v

theorem nodup_links (wired : ∀ v r, c.records.Live v r → c.Wired r) : c.links.Nodup := by
  rw [links, List.nodup_flatMap]
  constructor
  · intro given member
    obtain ⟨v, r⟩ := given
    have unique := (wired v r (Records.mem_live.mp member)).nodup
    refine List.Nodup.of_map (fun x => x.2.2) ?_
    have part : ((linksInto v r).map fun x => x.2.2).Sublist (r.wires.zipIdx.map Prod.fst) := by
      refine sublist_map_filterMap ?_ _
      intro position x found
      obtain ⟨port, -, rfl⟩ := Option.map_eq_some_iff.mp found
      rfl
    rw [List.zipIdx_map_fst] at part
    exact unique.sublist part
  · refine (List.pairwise_map.mp c.records.nodup_live).imp ?_
    intro given given' different x left right
    obtain ⟨u, r⟩ := given
    obtain ⟨v, s⟩ := given'
    have own : ∀ {y : VertexId} {t : Record}, x ∈ linksInto y t → x.2.1 = y := by
      intro y t member
      obtain ⟨_, -, led⟩ := List.mem_filterMap.mp member
      obtain ⟨_, -, rfl⟩ := Option.map_eq_some_iff.mp led
      rfl
    exact different ((own left).symm.trans (own right))

/-! ## Carriers and walks -/

def carriers (c : Circuit) (w : WireId) : List VertexId :=
  (c.records.live.filter fun (_, r) => r.wires.contains w).map Prod.fst

theorem mem_carriers : v ∈ c.carriers w ↔ c.records.Carries v w := by
  simp [carriers, Records.mem_live, Records.Carries]

theorem nodup_carriers (c : Circuit) (w : WireId) : (c.carriers w).Nodup :=
  c.records.nodup_live.sublist (List.filter_sublist.map _)

theorem length_carriers (c : Circuit) (w : WireId) : (c.carriers w).length = c.numCarriers w := by
  rw [carriers, List.length_map, numCarriers, List.countP_eq_length_filter]

theorem Precedes.carries (precedes : c.Precedes u v w) : c.records.Carries v w := by
  obtain ⟨r, i, j, live, position, -⟩ := precedes
  exact ⟨r, live, List.mem_of_getElem? position⟩

theorem Precedes.unique (wired : ∀ v r, c.records.Live v r → c.Wired r) {u' : VertexId}
    (first : c.Precedes u v w) (second : c.Precedes u' v w) : u = u' := by
  obtain ⟨r, i, j, live, position, led⟩ := first
  obtain ⟨s, i', j', live', position', led'⟩ := second
  obtain rfl := live.unique live'
  have bound := (List.getElem?_eq_some_iff.mp position).1
  obtain rfl := (List.getElem?_inj bound (wired v r live).nodup).mp
    (position.trans position'.symm)
  exact congrArg Port.vertex (Option.some.inj (led.symm.trans led'))

theorem PortsAgree.precedes (agree : c.PortsAgree)
    (wired : ∀ v r, c.records.Live v r → c.Wired r) (carries : c.records.Carries u w)
    (next : c.records.next? w u = some v) : c.Precedes u v w := by
  have facing : ∃ port, c.records.facing .outgoing (c.records.portOn w u) = some port ∧
      port.vertex = v := by
    rw [Records.next?, Records.neighbor_of_carries carries] at next
    cases led : c.records.facing .outgoing (c.records.portOn w u) with
    | none => simp [led] at next
    | some port => exact ⟨port, rfl, by simpa [led] using next⟩
  obtain ⟨port, led, rfl⟩ := facing
  obtain ⟨r, live, member⟩ := carries
  have position : r.wires[r.wires.idxOf w]? = some w := List.getElem?_idxOf member
  rw [Records.facing_portOn live (wired u r live).nodup position] at led
  obtain ⟨s, live', position', back⟩ :=
    agree.inverse u r _ w .outgoing port live position led
  exact ⟨s, _, _, live', position', back⟩

/-- What is known about the walk along a wire when ports agree. -/
theorem walk_spec (agree : c.PortsAgree) (wired : ∀ v r, c.records.Live v r → c.Wired r)
    (anchored : ∀ side w v, (c.anchors side)[w]? = some v →
      ∃ r, c.records.Live v r ∧ r.element = endElement side ∧ r.wires = [w]) :
    (c.wireVertices w).Nodup ∧ (∀ v ∈ c.wireVertices w, c.records.Carries v w) ∧
      (∀ a b, Adjacent (c.wireVertices w) a b → c.Precedes a b w) ∧
      ∀ v, (c.wireVertices w).head? = some v → c.input? w = some v := by
  unfold wireVertices
  cases start : c.input? w with
  | none => exact ⟨List.nodup_nil, by simp, by simp, by simp⟩
  | some v =>
      obtain ⟨r, live, element, wires⟩ := anchored .incoming w v start
      have carries : c.records.Carries v w := ⟨r, live, by simp [wires]⟩
      obtain ⟨rest, shape⟩ : ∃ rest, c.records.wireVertices w v = v :: rest := by
        rw [Records.wireVertices, Records.wireIndex_of_carries carries]
        exact ⟨_, rfl⟩
      have steps : ∀ a b, Adjacent (c.records.wireVertices w v) a b →
          c.records.next? w a = some b := by
        intro a b adjacent
        rw [Records.wireVertices, Records.wireIndex_of_carries carries] at adjacent
        exact Records.next?_of_adjacent_walk adjacent
      have all : ∀ u ∈ c.records.wireVertices w v, c.records.Carries u w := by
        rw [shape] at steps ⊢
        rw [List.forall_mem_cons]
        refine ⟨carries, holds_after [] (fun a b adjacent carries => ?_) carries⟩
        exact (agree.precedes wired carries (steps a b adjacent)).carries
      have precedes : ∀ a b, Adjacent (c.records.wireVertices w v) a b → c.Precedes a b w :=
        fun a b adjacent =>
          agree.precedes wired (all a adjacent.mem_left) (steps a b adjacent)
      refine ⟨?_, all, precedes, ?_⟩
      · refine nodup_of_left_unique (fun a b => c.Precedes a b w)
          (fun a b x first second => first.unique wired second) precedes ?_
        intro a b head precedes
        obtain rfl : v = b := by simpa [shape] using head
        obtain ⟨s, i, j, live', position, led⟩ := precedes
        obtain rfl := live.unique live'
        rw [(agree.absent_iff v r i w .incoming live position).mpr element] at led
        cases led
      · intro u head
        simpa only [shape, List.head?_cons] using head

/-- When the walk along a wire is as long as the wire has carriers, it meets all of them. -/
theorem mem_walk_iff (unique : (c.wireVertices w).Nodup)
    (all : ∀ v ∈ c.wireVertices w, c.records.Carries v w)
    (length : (c.wireVertices w).length = c.numCarriers w) :
    v ∈ c.wireVertices w ↔ c.records.Carries v w := by
  rw [← mem_carriers]
  refine (perm_of_nodup_of_length unique ?_ ?_).mem_iff
  · exact fun u member => mem_carriers.mpr (all u member)
  · rw [length_carriers, length]

/-! ## The check as a whole -/

theorem check_eq_ok_iff : c.check = .ok () ↔
    ((∀ side, (c.anchors side).size = c.numWires) ∧
      ∀ side w v, (c.anchors side)[w]? = some v →
        ∃ r, c.records.Live v r ∧ r.element = endElement side ∧ r.wires = [w]) ∧
    c.VerticesFine ∧ (c.graph.numEdges = c.numLinks ∧ c.graph.isCyclic = false) ∧
    (∀ w v, c.output? w = some v → (c.wireVertices w).length = c.numCarriers w ∧
      (c.wireVertices w).getLast? = some v) ∧
    c.params.check c.records = .ok () := by
  rw [check, check_seq_iff, check_seq_iff, check_seq_iff, check_seq_iff, checkAnchors_eq_ok_iff,
    checkVertices_eq_ok_iff, checkGraph_eq_ok_iff, checkWalks_eq_ok_iff, checkParams]

theorem VerticesFine.links_perm (fine : c.VerticesFine) (shaped : c.records.Shaped)
    (count : c.graph.numEdges = c.numLinks) : c.links.Perm c.graph.segments := by
  refine perm_of_nodup_of_length (nodup_links fine.wired) ?_ ?_
  · intro given member
    obtain ⟨u, v, w⟩ := given
    exact fine.linked u v w (mem_links.mp member)
  · rw [length_links shaped, ← count, Graph.numEdges, Graph.segments, List.length_map]

/-- Everything that the check looks at is in order in a well-formed circuit. -/
theorem WellFormed.check (wellFormed : c.WellFormed) (shaped : c.records.Shaped)
    (closed : c.graph.Closed) (coherent : c.params.Coherent) : c.check = .ok () := by
  refine check_eq_ok_iff.mpr ⟨⟨wellFormed.anchors.sizes, ?_⟩, ?_, ⟨?_, ?_⟩, ?_, ?_⟩
  · intro side w v anchor
    obtain ⟨r, live, element, member⟩ := (wellFormed.anchors.anchor_iff side w v).mp anchor
    obtain ⟨x, wires⟩ := wellFormed.anchors.alone side v r live element
    obtain rfl : w = x := by simpa [wires] using member
    exact ⟨r, live, element, wires⟩
  · exact ⟨wellFormed.wired, wellFormed.wireless, wellFormed.edgeless, wellFormed.ports,
      fun u v w => (wellFormed.edges.mem_iff u v w).mpr⟩
  · have same : c.links.Perm c.graph.segments := by
      refine (List.perm_ext_iff_of_nodup (nodup_links wellFormed.wired)
        wellFormed.edges.nodup).mpr ?_
      intro given
      obtain ⟨u, v, w⟩ := given
      rw [mem_links, wellFormed.edges.mem_iff]
    rw [← length_links shaped, same.length_eq, Graph.numEdges, Graph.segments, List.length_map]
  · exact (Graph.isCyclic_eq_false_iff closed).mpr wellFormed.edges.acyclic
  · intro w v output
    have bound : w < c.numWires := by
      rw [← wellFormed.anchors.sizes .outgoing]
      exact (Array.getElem?_eq_some_iff.mp output).1
    have same : (c.wireVertices w).Perm (c.carriers w) := by
      refine (List.perm_ext_iff_of_nodup (wellFormed.walks.nodup w) (nodup_carriers c w)).mpr ?_
      intro u
      rw [mem_carriers, wellFormed.walks.mem_iff w bound]
    exact ⟨same.length_eq.trans (length_carriers c w), wellFormed.walks.ends w v output⟩
  · exact coherent.check_iff.mpr wellFormed.params

theorem LaidOut.check_eq_ok (laid : c.LaidOut) : c.check = .ok () := by
  obtain ⟨line, layout⟩ := laid
  exact layout.wellFormed.check layout.shaped layout.toThreaded.closed layout.coherent

/-- An anchor has no neighbour on its side, so a walk that meets it does so at that end. -/
theorem VerticesFine.anchor_of_mem_walk (fine : c.VerticesFine)
    (precedes : ∀ a b, Adjacent (c.wireVertices w) a b → c.Precedes a b w)
    (first : ∀ u, (c.wireVertices w).head? = some u → c.input? w = some u)
    (last : ∀ u, (c.wireVertices w).getLast? = some u → c.output? w = some u)
    (live : c.records.Live v r) (element : r.element = endElement side)
    (onWalk : v ∈ c.wireVertices w) : (c.anchors side)[w]? = some v := by
  have free : ∀ k x, r.wires[k]? = some x → r.port? side k = none :=
    fun k x position => (fine.ports.absent_iff v r k x side live position).mpr element
  cases side with
  | incoming =>
      rcases exists_adjacent_left onWalk with head | ⟨u, adjacent⟩
      · exact first v head
      · obtain ⟨s, i, j, live', position, led⟩ := precedes u v adjacent
        obtain rfl := live.unique live'
        cases led.symm.trans (free i w position)
  | outgoing =>
      rcases exists_adjacent_right onWalk with tail | ⟨u, adjacent⟩
      · exact last v tail
      · obtain ⟨s, i, j, live', position, led⟩ := precedes v u adjacent
        obtain ⟨t, live'', position', back⟩ :=
          fine.ports.inverse u s i w .incoming ⟨v, j⟩ live' position led
        obtain rfl := live.unique live''
        cases back.symm.trans (free j w position')

/-- A circuit on which the check finds nothing is well formed. -/
theorem wellFormed_of_check (shaped : c.records.Shaped) (closed : c.graph.Closed)
    (coherent : c.params.Coherent) (checked : c.check = .ok ()) : c.WellFormed := by
  obtain ⟨⟨sizes, anchored⟩, fine, ⟨count, acyclic⟩, walks, params⟩ := check_eq_ok_iff.mp checked
  have same := fine.links_perm shaped count
  have spec := fun w => walk_spec (w := w) fine.ports fine.wired anchored
  have exists_anchor : ∀ side w, w < c.numWires → ∃ v, (c.anchors side)[w]? = some v := by
    intro side w bound
    exact ⟨_, Array.getElem?_eq_getElem (sizes side ▸ bound)⟩
  have met : ∀ w, w < c.numWires → ∀ v, v ∈ c.wireVertices w ↔ c.records.Carries v w := by
    intro w bound v
    obtain ⟨output, anchor⟩ := exists_anchor .outgoing w bound
    exact mem_walk_iff (spec w).1 (spec w).2.1 (walks w output anchor).1
  have ends : ∀ side v r, c.records.Live v r → r.element = endElement side → ∀ w ∈ r.wires,
      (c.anchors side)[w]? = some v := by
    intro side v r live element w member
    obtain ⟨i, position⟩ := List.mem_iff_getElem?.mp member
    have bound := ((fine.wired v r live).placed i w position).1
    obtain ⟨output, anchor⟩ := exists_anchor .outgoing w bound
    refine fine.anchor_of_mem_walk (spec w).2.2.1 (spec w).2.2.2 (fun u last => ?_) live element
      ((met w bound v).mpr ⟨r, live, member⟩)
    rw [Option.some.inj (last.symm.trans (walks w output anchor).2)]
    exact anchor
  constructor
  · refine ⟨sizes, fun side w v => ⟨fun anchor => ?_, ?_⟩, ?_⟩
    · obtain ⟨r, live, element, wires⟩ := anchored side w v anchor
      exact ⟨r, live, element, by simp [wires]⟩
    · intro given
      obtain ⟨r, live, element, member⟩ := given
      exact ends side v r live element w member
    · intro side v r live element
      obtain ⟨w, member⟩ := List.exists_mem_of_ne_nil _ (fine.wired v r live).nonempty
      obtain ⟨s, live', -, wires⟩ := anchored side w v (ends side v r live element w member)
      exact ⟨w, live.unique live' ▸ wires⟩
  · exact fine.wired
  · exact fine.wireless
  · exact fine.edgeless
  · exact fine.ports
  · refine ⟨same.nodup_iff.mp (nodup_links fine.wired), fun u v w => ?_, ?_⟩
    · rw [← same.mem_iff, mem_links]
    · exact (Graph.isCyclic_eq_false_iff closed).mp acyclic
  · exact ⟨fun w => (spec w).1, met, fun w v output => (walks w v output).2⟩
  · exact coherent.check_iff.mp params

/-! ## Reading in range -/

/-- Whatever the check looks up is there, and each walk is cut off by the number of carriers: no
larger bound makes a difference to the part that the check looks at. -/
structure Readable (c : Circuit) : Prop where
  ports : ∀ v r, c.records.get? v = some r →
    ∀ side i, i < r.wires.length → i < (r.ports side).length
  steps : ∀ w v i, c.records.wireIndex v w = .ok i →
    ∃ r, c.records.get? v = some r ∧ i < r.outPorts.length
  numbers : ∀ use ∈ c.params.uses, use.id < c.params.entries.length
  walks : ∀ w v fuel, c.numCarriers w < fuel →
    (c.records.walk w fuel v).take (c.numCarriers w + 1) =
      (c.records.walk w (c.records.size + 1) v).take (c.numCarriers w + 1)

theorem numCarriers_le (c : Circuit) (w : WireId) : c.numCarriers w ≤ c.records.size := by
  have included : c.carriers w ⊆ List.range c.records.size := by
    intro v member
    obtain ⟨r, live, -⟩ := mem_carriers.mp member
    exact List.mem_range.mpr live.lt_size
  rw [← length_carriers]
  simpa using (List.subperm_of_subset (nodup_carriers c w) included).length_le

theorem readable (shaped : c.records.Shaped) (coherent : c.params.Coherent) : c.Readable where
  ports v r found side i bound := by
    rw [shaped.length_ports v r found side]
    exact bound
  steps w v i found := by
    obtain ⟨r, lookup, member, rfl⟩ := Records.wireIndex_eq_ok_iff.mp found
    refine ⟨r, lookup, ?_⟩
    have length : r.outPorts.length = r.wires.length := shaped.length_ports v r lookup .outgoing
    rw [length]
    exact List.idxOf_lt_length_iff.mpr member
  numbers use member := coherent.id_lt member
  walks w v fuel enough := by
    rw [Records.take_walk enough, Records.take_walk (Nat.succ_le_succ (numCarriers_le c w))]

/-- On any circuit whose records have a port slot for every wire, whose edges join vertices and
whose parameter table was made by its own operations, the check reads nothing that is not there and
succeeds exactly if the circuit is well formed. -/
theorem check_decides_wellFormed (shaped : c.records.Shaped) (closed : c.graph.Closed)
    (built : c.params.Built) : c.Readable ∧ (c.check = .ok () ↔ c.WellFormed) :=
  ⟨readable shaped built.coherent, wellFormed_of_check shaped closed built.coherent,
    fun wellFormed => wellFormed.check shaped closed built.coherent⟩

/-- A qubit whose two anchors are listed the wrong way round. -/
def swappedAnchors : Circuit := { blank 1 0 Binary64.zero with inputs := #[1], outputs := #[0] }

theorem not_wellFormed_swappedAnchors :
    swappedAnchors.check = .error ⟨.missingAnchor .input, some 1, some 0⟩ ∧
      ¬ swappedAnchors.WellFormed := by
  have checked : swappedAnchors.check = .error ⟨.missingAnchor .input, some 1, some 0⟩ := rfl
  obtain ⟨line, layout⟩ := laidOut_blank 1 0 Binary64.zero
  have decides := (check_decides_wellFormed (c := swappedAnchors) layout.shaped
    layout.toThreaded.closed .empty).2
  refine ⟨checked, fun wellFormed => ?_⟩
  cases checked.symm.trans (decides.mpr wellFormed)

end Circuit

end CircuitDag
