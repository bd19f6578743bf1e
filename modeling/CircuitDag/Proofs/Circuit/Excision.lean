import CircuitDag.Proofs.Circuit.Threading

/-!
# Cutting vertices out

A block of operations that every wire passes through at most once is taken out: the ends of each
wire that passed through it are joined, and the records of the block are emptied. The lines that
remain are the old lines without the block.
-/

set_option autoImplicit false

namespace CircuitDag

/-- A wire that passes through a block, with the ports on both sides. -/
abbrev Passage := WireId × Port × Port

namespace Records

variable {rs : Records} {line : WireId → List VertexId} {block : List VertexId} {v : VertexId}
  {w : WireId} {l : List VertexId}

def linkAll (rs : Records) (passages : List Passage) : Records :=
  passages.foldl (fun rs (_, source, target) => rs.link source target) rs

theorem bare?_linkAll (passages : List Passage) (rs : Records) :
    (rs.linkAll passages).bare? = rs.bare? ∧ (rs.linkAll passages).size = rs.size := by
  induction passages generalizing rs with
  | nil => exact ⟨rfl, rfl⟩
  | cons passage passages ih =>
      obtain ⟨bare, size⟩ := ih (rs.link passage.2.1 passage.2.2)
      exact ⟨bare.trans (bare?_link ..), size.trans (size_link ..)⟩

theorem Shaped.linkAll (shaped : rs.Shaped) (passages : List Passage) :
    (rs.linkAll passages).Shaped := by
  induction passages generalizing rs with
  | nil => exact shaped
  | cons passage passages ih => exact ih (shaped.link passage.2.1 passage.2.2)

/-- A wire passes from one port to another over a part of its line that is cut out. -/
def Bridges (rs : Records) (w : WireId) (source target : Port) (l cut : List VertexId) : Prop :=
  ∃ front a middle b back, l = (front ++ [a]) ++ middle ++ b :: back ∧
    cut = (front ++ [a]) ++ b :: back ∧ source = rs.portOn w a ∧ target = rs.portOn w b

/-- Linking the ports of passages takes what is between them off the lines. -/
theorem strung_linkAll (line cut : WireId → List VertexId) (passages : List Passage)
    (shaped : rs.Shaped) (strung : ∀ w, rs.Strung w (line w))
    (distinct : (passages.map Prod.fst).Nodup)
    (bridges : ∀ w source target, (w, source, target) ∈ passages →
      rs.Bridges w source target (line w) (cut w)) :
    ∀ w, (rs.linkAll passages).Strung w
      (if w ∈ passages.map Prod.fst then cut w else line w) := by
  induction passages generalizing rs line with
  | nil =>
      intro w
      rw [if_neg (by simp)]
      exact strung w
  | cons passage passages ih =>
      obtain ⟨x, source, target⟩ := passage
      obtain ⟨absent, unique⟩ := List.nodup_cons.mp distinct
      obtain ⟨front, a, middle, b, back, shape, shape', rfl, rfl⟩ :=
        bridges x source target List.mem_cons_self
      have whole : rs.Strung x ((front ++ [a]) ++ middle ++ b :: back) := shape ▸ strung x
      have sourceCarries : rs.Carries a x := whole.carried a (by simp)
      have targetCarries : rs.Carries b x := whole.carried b (by simp)
      have bypassed := whole.bypass shaped (a := a) (b := b) (by simp) rfl
      have portSame := portOn_congr (bare?_link rs (rs.portOn x a) (rs.portOn x b))
      have next := ih (Function.update line x (cut x)) (shaped.link ..)
        (by
          intro w
          by_cases same : w = x
          · subst same
            rw [Function.update_self, shape']
            exact bypassed
          · rw [Function.update_of_ne same]
            exact (strung w).link_other shaped sourceCarries targetCarries same)
        unique
        (by
          intro w source target member
          have different : w ≠ x := by
            intro same
            obtain rfl := same
            exact absent (List.mem_map.mpr ⟨_, member, rfl⟩)
          rw [Function.update_of_ne different]
          obtain ⟨front, a, middle, b, back, shape, shape', rfl, rfl⟩ :=
            bridges w source target (List.mem_cons_of_mem _ member)
          exact ⟨front, a, middle, b, back, shape, shape', (congrFun₂ portSame w a).symm,
            (congrFun₂ portSame w b).symm⟩)
      intro w
      have result := next w
      by_cases same : w = x
      · subst same
        have outside : w ∉ passages.map Prod.fst := absent
        rw [if_neg outside, Function.update_self] at result
        rw [List.map_cons, if_pos List.mem_cons_self]
        exact result
      · rw [Function.update_of_ne same] at result
        simp only [List.map_cons, List.mem_cons, same, false_or]
        exact result

end Records

namespace Graph

variable {g : Graph} {line : WireId → List VertexId} {block : List VertexId} {w : WireId}

def addAll (g : Graph) (passages : List Passage) : Graph :=
  passages.foldl (fun g (w, source, target) => g.addEdge source.vertex target.vertex w) g

/-- The edge that a passage leaves behind. -/
def bridge (passage : Passage) : VertexId × VertexId × WireId :=
  (passage.2.1.vertex, passage.2.2.vertex, passage.1)

theorem addAll_spec (passages : List Passage) (g : Graph) :
    (g.addAll passages).segments = (passages.map bridge).reverse ++ g.segments ∧
      (g.addAll passages).numVertices = g.numVertices := by
  induction passages generalizing g with
  | nil => exact ⟨rfl, rfl⟩
  | cons passage passages ih =>
      obtain ⟨w, source, target⟩ := passage
      obtain ⟨segments, size⟩ := ih (g.addEdge source.vertex target.vertex w)
      refine ⟨segments.trans ?_, size⟩
      simp [bridge]

theorem Slotted.addAll (slotted : g.Slotted) (passages : List Passage) :
    (g.addAll passages).Slotted := by
  induction passages generalizing g with
  | nil => exact slotted
  | cons passage passages ih => exact ih (slotted.addEdge ..)

/-- The neighbours on a line from which a part has been cut out. -/
theorem adjacent_cut {front middle back : List VertexId} {a b s t : VertexId}
    (outside : ∀ x ∈ front ++ [a], x ∉ block) (inside : ∀ x ∈ middle, x ∈ block)
    (outside' : ∀ x ∈ b :: back, x ∉ block) (nonempty : middle ≠ []) :
    Adjacent ((front ++ [a]) ++ b :: back) s t ↔ (s = a ∧ t = b) ∨
      (Adjacent ((front ++ [a]) ++ middle ++ b :: back) s t ∧ s ∉ block ∧ t ∉ block) := by
  have cross : ∀ {x}, middle.head? = some x → x ∈ block := fun first =>
    inside _ (List.mem_of_head? first)
  have cross' : ∀ {x}, middle.getLast? = some x → x ∈ block := fun last =>
    inside _ (List.mem_of_getLast? last)
  have last : ((front ++ [a]) ++ middle).getLast? = middle.getLast? := by
    rw [List.getLast?_append]
    cases tail : middle.getLast? with
    | none => exact absurd (List.getLast?_eq_none_iff.mp tail) nonempty
    | some x => rfl
  rw [@adjacent_append _ (front ++ [a]) (b :: back), @adjacent_append _ (_ ++ middle) (b :: back),
    @adjacent_append _ (front ++ [a]) middle, last]
  simp only [List.getLast?_append, List.getLast?_singleton, Option.some_or, List.head?_cons,
    Option.some.injEq, @eq_comm _ a s, @eq_comm _ b t]
  constructor
  · intro given
    rcases given with left | ends | right
    · exact .inr ⟨.inl (.inl left), outside s left.mem_left, outside t left.mem_right⟩
    · exact .inl ends
    · exact .inr ⟨.inr (.inr right), outside' s right.mem_left, outside' t right.mem_right⟩
  · intro given
    rcases given with ends | ⟨(left | ⟨-, first⟩ | middle) | ⟨last, -⟩ | right, outS, outT⟩
    · exact .inr (.inl ends)
    · exact .inl left
    · exact absurd (cross first) outT
    · exact absurd (inside s middle.mem_left) outS
    · exact absurd (cross' last) outS
    · exact .inr (.inr right)

end Graph

namespace Circuit

variable {c : Circuit} {line : WireId → List VertexId} {block : List VertexId} {v : VertexId}
  {r : Record} {passages : List Passage}

def excise (c : Circuit) (block : List VertexId) (passages : List Passage) : Circuit :=
  block.foldl retire
    { c with
      records := c.records.linkAll passages
      graph := (block.foldl Graph.clearVertex c.graph).addAll passages }

theorem foldl_connect (passages : List Passage) (c : Circuit) :
    passages.foldl (fun c (w, source, target) => c.connect source target w) c =
      { c with records := c.records.linkAll passages, graph := c.graph.addAll passages } := by
  induction passages generalizing c with
  | nil => rfl
  | cons passage passages ih => exact ih _

theorem cutBlock_eq (c : Circuit) (block : List VertexId) (boundary : BlockBoundary) :
    c.cutBlock block boundary = c.excise block boundary.passages := by
  simp only [cutBlock, foldl_connect]
  rfl

/-- The wires that pass through a block of vertices, each with its two ends. -/
structure Passes (c : Circuit) (line : WireId → List VertexId) (block : List VertexId)
    (passages : List Passage) : Prop where
  distinct : (passages.map Prod.fst).Nodup
  complete : ∀ w, (∃ v ∈ line w, v ∈ block) → w ∈ passages.map Prod.fst
  split : ∀ w source target, (w, source, target) ∈ passages → ∃ front a middle b back,
    line w = (front ++ [a]) ++ middle ++ b :: back ∧ middle ≠ [] ∧
    (∀ x ∈ front ++ [a], x ∉ block) ∧ (∀ x ∈ middle, x ∈ block) ∧ (∀ x ∈ b :: back, x ∉ block) ∧
    source = c.records.portOn w a ∧ target = c.records.portOn w b

theorem Passes.not_adjacent (passes : c.Passes line block passages) (threaded : c.Threaded line)
    {w : WireId} {source target : Port} (member : (w, source, target) ∈ passages) :
    ¬ Adjacent (line w) source.vertex target.vertex := by
  intro adjacent
  obtain ⟨front, a, middle, b, back, shape, nonempty, -, inside, outside, rfl, rfl⟩ :=
    passes.split w source target member
  cases middle with
  | nil => exact nonempty rfl
  | cons m middle =>
      have next : Adjacent (line w) a m := ⟨front, middle ++ b :: back, by simp [shape]⟩
      have same : b = m := adjacent.right_unique next (threaded.strung w).nodup
      exact outside b List.mem_cons_self (same ▸ inside m List.mem_cons_self)

theorem Passes.bridge_mem_iff (passes : c.Passes line block passages) {w : WireId}
    {source target : Port} (member : (w, source, target) ∈ passages) {s t : VertexId} :
    (s, t, w) ∈ passages.map Graph.bridge ↔ s = source.vertex ∧ t = target.vertex := by
  rw [List.mem_map]
  constructor
  · intro given
    obtain ⟨passage, inPassages, same⟩ := given
    have wire : passage.1 = w := congrArg (fun x => x.2.2) same
    obtain rfl := List.inj_on_of_nodup_map passes.distinct inPassages member wire
    simp only [Graph.bridge, Prod.mk.injEq] at same
    exact ⟨same.1.symm, same.2.1.symm⟩
  · intro given
    obtain ⟨rfl, rfl⟩ := given
    exact ⟨_, member, rfl⟩

theorem filter_cut {front middle back : List VertexId}
    (outside : ∀ x ∈ front, x ∉ block) (inside : ∀ x ∈ middle, x ∈ block)
    (outside' : ∀ x ∈ back, x ∉ block) :
    (front ++ middle ++ back).filter (fun v => !block.contains v) = front ++ back := by
  have left : front.filter (fun v => !block.contains v) = front :=
    List.filter_eq_self.mpr fun x member => by simpa using outside x member
  have mid : middle.filter (fun v => !block.contains v) = [] :=
    List.filter_eq_nil_iff.mpr fun x member => by simpa using inside x member
  have right : back.filter (fun v => !block.contains v) = back :=
    List.filter_eq_self.mpr fun x member => by simpa using outside' x member
  rw [List.filter_append, List.filter_append, left, mid, right, List.append_nil]

/-- The line of a wire that does not pass through the block stays. -/
theorem Passes.cutLine_eq (passes : c.Passes line block passages) {w : WireId}
    (absent : w ∉ passages.map Prod.fst) : Graph.cutLine line block w = line w := by
  refine List.filter_eq_self.mpr fun v member => ?_
  have outside : v ∉ block := fun inside => absent (passes.complete w ⟨v, member, inside⟩)
  simpa using outside

theorem Passes.adjacent_cutLine (passes : c.Passes line block passages) {w : WireId}
    {s t : VertexId} : Adjacent (Graph.cutLine line block w) s t ↔
      (s, t, w) ∈ passages.map Graph.bridge ∨ (Adjacent (line w) s t ∧ s ∉ block ∧ t ∉ block) := by
  by_cases passed : w ∈ passages.map Prod.fst
  · obtain ⟨⟨w, source, target⟩, member, rfl⟩ := List.mem_map.mp passed
    obtain ⟨front, a, middle, b, back, shape, nonempty, outside, inside, outside', rfl, rfl⟩ :=
      passes.split w source target member
    have cut : Graph.cutLine line block w = (front ++ [a]) ++ b :: back := by
      rw [Graph.cutLine, shape, filter_cut outside inside outside']
    rw [cut, Graph.adjacent_cut outside inside outside' nonempty, shape,
      passes.bridge_mem_iff member]
    simp only [Records.portOn_vertex]
  · have absent : (s, t, w) ∉ passages.map Graph.bridge := by
      intro edge
      obtain ⟨passage, member, same⟩ := List.mem_map.mp edge
      have wire : passage.1 = w := congrArg (fun x => x.2.2) same
      exact passed (wire ▸ List.mem_map.mpr ⟨passage, member, rfl⟩)
    rw [passes.cutLine_eq passed]
    constructor
    · intro adjacent
      refine .inr ⟨adjacent, fun inside => ?_, fun inside => ?_⟩
      · exact passed (passes.complete w ⟨s, adjacent.mem_left, inside⟩)
      · exact passed (passes.complete w ⟨t, adjacent.mem_right, inside⟩)
    · intro given
      rcases given with inPassages | ⟨adjacent, -⟩
      · exact absurd inPassages absent
      · exact adjacent

/-- The edges that passages leave behind and the edges outside the block follow the cut lines. -/
theorem Passes.traces (passes : c.Passes line block passages) (threaded : c.Threaded line) :
    ((block.foldl Graph.clearVertex c.graph).addAll passages).Traces
      (Graph.cutLine line block) := by
  have segments := (Graph.addAll_spec passages (block.foldl Graph.clearVertex c.graph)).1
  rw [Graph.segments_foldl_clearVertex] at segments
  constructor
  · rw [segments]
    refine List.nodup_append.mpr ⟨?_, threaded.traced.nodup.filter _, ?_⟩
    · refine List.nodup_reverse.mpr (List.Nodup.of_map (fun x => x.2.2) ?_)
      rw [List.map_map]
      exact passes.distinct
    · intro x new y old same
      obtain rfl := same
      obtain ⟨⟨w, source, target⟩, member, rfl⟩ := List.mem_map.mp (List.mem_reverse.mp new)
      exact passes.not_adjacent threaded member
        ((threaded.traced.mem_iff ..).mp (List.mem_filter.mp old).1)
  · intro s t w
    rw [segments, List.mem_append, List.mem_reverse, List.mem_filter, threaded.traced.mem_iff,
      passes.adjacent_cutLine, decide_eq_true_eq]

/-- After linking across a block and replacing the edges at it, ports and edges follow the lines
without the block. -/
theorem Threaded.bridge (threaded : c.Threaded line) (passes : c.Passes line block passages) :
    ({ c with
      records := c.records.linkAll passages
      graph := (block.foldl Graph.clearVertex c.graph).addAll passages } : Circuit).Threaded
      (Graph.cutLine line block) := by
  constructor
  · exact threaded.shaped.linkAll passages
  · intro w
    have strung := Records.strung_linkAll line (Graph.cutLine line block) passages
      threaded.shaped threaded.strung passes.distinct (by
        intro w source target member
        obtain ⟨front, a, middle, b, back, shape, -, outside, inside, outside', rfl, rfl⟩ :=
          passes.split w source target member
        refine ⟨front, a, middle, b, back, shape, ?_, rfl, rfl⟩
        rw [Graph.cutLine, shape, filter_cut outside inside outside']) w
    split at strung
    · exact strung
    · next absent => rwa [passes.cutLine_eq absent]
  · exact passes.traces threaded
  · exact (threaded.slotted.foldl_clearVertex block).addAll passages
  · rw [(Graph.addAll_spec passages _).2, Graph.numVertices_foldl_clearVertex,
      (Records.bare?_linkAll passages _).2]
    exact threaded.numVertices

/-! ## Emptying the records -/

theorem tip?_filter {l : List VertexId} {side : Side} {keep : VertexId → Bool}
    (kept : ∀ x, tip? l side = some x → keep x = true) :
    tip? (l.filter keep) side = tip? l side := by
  cases side with
  | incoming =>
      cases l with
      | nil => rfl
      | cons x l => simp [tip?, List.filter_cons_of_pos (kept x rfl)]
  | outgoing =>
      rcases List.eq_nil_or_concat l with rfl | ⟨l, x, rfl⟩
      · rfl
      · rw [List.concat_eq_append] at kept ⊢
        have last : keep x = true := kept x (by simp [tip?])
        simp [tip?, List.filter_append, last]

theorem cutLine_append (line : WireId → List VertexId) (block block' : List VertexId) :
    Graph.cutLine (Graph.cutLine line block) block' = Graph.cutLine line (block ++ block') := by
  funext w
  simp only [Graph.cutLine, List.filter_filter]
  congr 1
  funext x
  simp [Bool.and_comm]

theorem Seated.retire (seated : c.Seated line) (live : c.records.Live v r)
    (operation : r.isAnchor = false) : (c.retire v).Seated (Graph.cutLine line [v]) := by
  have notAnchor : ∀ side u s, c.records.Live u s → s.element = endElement side → u ≠ v := by
    intro side u s live' element same
    obtain rfl := same
    rw [live.unique live', Record.isAnchor, element] at operation
    cases side <;> cases operation
  constructor
  · intro u s live'
    exact ⟨(seated.wired u s (Records.live_tombstone.mp live').2).nonempty,
      (seated.wired u s (Records.live_tombstone.mp live').2).nodup,
      (seated.wired u s (Records.live_tombstone.mp live').2).placed⟩
  · intro u s found removed
    change (c.records.tombstone v).get? u = some s at found
    rw [Records.get?_tombstone] at found
    split at found
    · obtain ⟨t, -, rfl⟩ := Option.map_eq_some_iff.mp found
      rfl
    · exact seated.retired u s found removed
  · intro u w carries
    obtain ⟨different, carries⟩ := Records.carries_tombstone.mp carries
    exact List.mem_filter.mpr ⟨seated.covered u w carries, by simpa using different⟩
  · exact seated.sizes
  · intro side w
    refine (tip?_filter fun x tip => ?_).trans (seated.tips side w)
    obtain ⟨s, live', element, -⟩ := seated.live_of_tip? tip
    simpa using notAnchor side x s live' element
  · intro side w u anchor
    obtain ⟨s, live', element, wires⟩ := seated.anchored side w u anchor
    exact ⟨s, Records.live_tombstone.mpr ⟨notAnchor side u s live' element, live'⟩, element, wires⟩
  · intro side u s live' element
    exact seated.terminal side u s (Records.live_tombstone.mp live').2 element

theorem Threaded.retire (threaded : c.Threaded line) (absent : ∀ w, v ∉ line w) :
    (c.retire v).Threaded line where
  shaped := threaded.shaped.tombstone v
  strung w := (threaded.strung w).tombstone (absent w)
  traced := threaded.traced
  slotted := threaded.slotted
  numVertices := threaded.numVertices.trans (Records.size_tombstone ..).symm

theorem Tallied.retire (tallied : c.Tallied) (live : c.records.Live v r) :
    (c.retire v).Tallied where
  coherent := tallied.coherent.purge v
  indexed := tallied.indexed.tombstone tallied.coherent v
  numRemoved := by
    change c.numRemoved + 1 = (c.records.tombstone v).numTombstones
    rw [Records.numTombstones_tombstone live, tallied.numRemoved]

def IsOperation (c : Circuit) (v : VertexId) : Prop :=
  ∃ r, c.records.Live v r ∧ r.isAnchor = false

/-- Whether a vertex is an operation that has not been removed. -/
def isOperation (c : Circuit) (v : VertexId) : Bool :=
  match c.records.get? v with
  | some r => !r.isAnchor && !r.removed
  | none => false

theorem isOperation_iff : c.isOperation v = true ↔ c.IsOperation v := by
  unfold isOperation IsOperation Records.Live
  cases c.records.get? v <;> simp [and_comm]

/-- Ports do not matter for being an operation. -/
theorem isOperation_eq (c : Circuit) (v : VertexId) :
    c.isOperation v = (c.records.bare? v).any fun r => !r.isAnchor && !r.removed := by
  rw [isOperation, Records.bare?]
  cases c.records.get? v <;> rfl

theorem IsOperation.of_bare? {c' : Circuit} (same : c'.records.bare? = c.records.bare?)
    (operation : c.IsOperation v) : c'.IsOperation v := by
  obtain ⟨r, live, notAnchor⟩ := operation
  obtain ⟨s, live', agree⟩ := Records.exists_live_of_bare? same live
  exact ⟨s, live', by rw [Record.isAnchor, Record.element_of_bare agree]; exact notAnchor⟩

theorem retireAll {line' : WireId → List VertexId} (threaded : c.Threaded line')
    (seated : c.Seated line) (tallied : c.Tallied) (unique : block.Nodup)
    (operations : ∀ v ∈ block, c.IsOperation v) (absent : ∀ w, ∀ v ∈ block, v ∉ line' w) :
    (block.foldl Circuit.retire c).Threaded line' ∧
      (block.foldl Circuit.retire c).Seated (Graph.cutLine line block) ∧
      (block.foldl Circuit.retire c).Tallied := by
  induction block generalizing c line with
  | nil =>
      refine ⟨threaded, ?_, tallied⟩
      have same : Graph.cutLine line [] = line := by
        funext w
        simp [Graph.cutLine]
      rw [same]
      exact seated
  | cons v block ih =>
      obtain ⟨fresh, rest⟩ := List.nodup_cons.mp unique
      obtain ⟨r, live, notAnchor⟩ := operations v List.mem_cons_self
      rw [← List.singleton_append, ← cutLine_append]
      refine ih (threaded.retire fun w => absent w v List.mem_cons_self)
        (seated.retire live notAnchor) (tallied.retire live) rest ?_
        (fun w u member => absent w u (List.mem_cons_of_mem v member))
      intro u member
      obtain ⟨s, live', notAnchor'⟩ := operations u (List.mem_cons_of_mem v member)
      have different : u ≠ v := fun same => fresh (same ▸ member)
      exact ⟨s, Records.live_tombstone.mpr ⟨different, live'⟩, notAnchor'⟩

theorem Orderly.cutLine (orderly : Orderly line) (block : List VertexId) :
    Orderly (Graph.cutLine line block) := by
  obtain ⟨order, unique, sublist⟩ := orderly
  exact ⟨order, unique, fun w => List.filter_sublist.trans (sublist w)⟩

/-- Cutting out a block of operations leaves a circuit whose lines are the old ones without the
block. -/
theorem Layout.excise (layout : c.Layout line) (unique : block.Nodup)
    (operations : ∀ v ∈ block, c.IsOperation v) (passes : c.Passes line block passages) :
    (c.excise block passages).Layout (Graph.cutLine line block) := by
  obtain ⟨bare, size⟩ := Records.bare?_linkAll passages c.records
  have rewired : c.Rewired { c with
      records := c.records.linkAll passages
      graph := (block.foldl Graph.clearVertex c.graph).addAll passages } := ⟨rfl, bare, size⟩
  obtain ⟨threaded, seated, tallied⟩ := retireAll (layout.toThreaded.bridge passes)
    (layout.toSeated.of_sameSeats rewired.sameSeats) (layout.toTallied.of_rewired rewired) unique
    (fun v member => (operations v member).of_bare? bare)
    (by simp +contextual [Graph.cutLine])
  exact ⟨threaded, seated, tallied, Orderly.cutLine layout.orderly block⟩

end Circuit

end CircuitDag
