import CircuitDag.Proofs.Adjacent
import CircuitDag.Proofs.Records.Access

/-!
# Vertices strung on a wire

A wire is a list of vertices in which each one and the next are linked by their ports. Linking two
ports joins two such lists, and leaves the other wires as they are.
-/

set_option autoImplicit false

namespace CircuitDag.Records

variable {rs rs' : Records} {w : WireId} {u v a b : VertexId} {l front middle back : List VertexId}

/-- A list of vertices on a wire in which neighbours point at each other. Nothing is said about the
incoming port of the first vertex and the outgoing port of the last one. -/
structure Linked (rs : Records) (w : WireId) (l : List VertexId) : Prop where
  nodup : l.Nodup
  carried : ∀ v ∈ l, rs.Carries v w
  outgoing : ∀ u v, Adjacent l u v →
    rs.facing .outgoing (rs.portOn w u) = some (rs.portOn w v)
  incoming : ∀ u v, Adjacent l u v →
    rs.facing .incoming (rs.portOn w v) = some (rs.portOn w u)

/-- A list of vertices that are a whole wire: nothing comes before the first or after the last. -/
structure Strung (rs : Records) (w : WireId) (l : List VertexId) : Prop extends
    Linked rs w l where
  first : ∀ v, l.head? = some v → rs.facing .incoming (rs.portOn w v) = none
  last : ∀ v, l.getLast? = some v → rs.facing .outgoing (rs.portOn w v) = none

theorem linked_nil (rs : Records) (w : WireId) : rs.Linked w [] :=
  ⟨by simp, by simp, by simp, by simp⟩

theorem strung_nil (rs : Records) (w : WireId) : rs.Strung w [] :=
  ⟨linked_nil rs w, by simp, by simp⟩

theorem linked_singleton (carries : rs.Carries v w) : rs.Linked w [v] :=
  ⟨by simp, by simpa using carries, by simp, by simp⟩

theorem Linked.append_left (linked : rs.Linked w (front ++ back)) : rs.Linked w front where
  nodup := (List.nodup_append.mp linked.nodup).1
  carried v member := linked.carried v (List.mem_append_left back member)
  outgoing u v adjacent := linked.outgoing u v (adjacent_append.mpr (.inl adjacent))
  incoming u v adjacent := linked.incoming u v (adjacent_append.mpr (.inl adjacent))

theorem Linked.append_right (linked : rs.Linked w (front ++ back)) : rs.Linked w back where
  nodup := (List.nodup_append.mp linked.nodup).2.1
  carried v member := linked.carried v (List.mem_append_right front member)
  outgoing u v adjacent := linked.outgoing u v (adjacent_append.mpr (.inr (.inr adjacent)))
  incoming u v adjacent := linked.incoming u v (adjacent_append.mpr (.inr (.inr adjacent)))

/-- What is linked, and which ports are free, depends only on the wires and ports of the vertices of
the list. -/
theorem Strung.congr (strung : rs.Strung w l)
    (agree : ∀ v ∈ l, ∀ r, rs.Live v r → ∃ s, rs'.Live v s ∧ s.wires = r.wires ∧
      ∀ side, s.ports side = r.ports side) : rs'.Strung w l := by
  have portSame : ∀ v ∈ l, rs'.portOn w v = rs.portOn w v := by
    intro v member
    obtain ⟨r, live, -⟩ := strung.carried v member
    obtain ⟨s, live', wires, -⟩ := agree v member r live
    rw [portOn_eq live.1, portOn_eq live'.1, wires]
  have facingSame : ∀ side, ∀ v ∈ l,
      rs'.facing side (rs.portOn w v) = rs.facing side (rs.portOn w v) := by
    intro side v member
    obtain ⟨r, live, -⟩ := strung.carried v member
    obtain ⟨s, live', -, ports⟩ := agree v member r live
    simp only [facing, Records.port?, portOn_vertex, live.1, live'.1, Option.bind_some,
      Record.port?, ports]
  constructor
  · constructor
    · exact strung.nodup
    · intro v member
      obtain ⟨r, live, carried⟩ := strung.carried v member
      obtain ⟨s, live', wires, -⟩ := agree v member r live
      exact ⟨s, live', wires ▸ carried⟩
    · intro u v adjacent
      rw [portSame u adjacent.mem_left, portSame v adjacent.mem_right,
        facingSame .outgoing u adjacent.mem_left]
      exact strung.outgoing u v adjacent
    · intro u v adjacent
      rw [portSame u adjacent.mem_left, portSame v adjacent.mem_right,
        facingSame .incoming v adjacent.mem_right]
      exact strung.incoming u v adjacent
  · intro v first
    have member := List.mem_of_head? first
    rw [portSame v member, facingSame .incoming v member]
    exact strung.first v first
  · intro v last
    have member := List.mem_of_getLast? last
    rw [portSame v member, facingSame .outgoing v member]
    exact strung.last v last

theorem Strung.link_other (shaped : rs.Shaped) {w' : WireId} (strung : rs.Strung w l)
    (source : rs.Carries a w') (target : rs.Carries b w') (other : w ≠ w') :
    (rs.link (rs.portOn w' a) (rs.portOn w' b)).Strung w l := by
  have same := bare?_link rs (rs.portOn w' a) (rs.portOn w' b)
  have apart : ∀ v ∈ l, ∀ x, rs.Carries x w' → rs.portOn w v ≠ rs.portOn w' x := by
    intro v member x carries equal
    exact other (portOn_injective (strung.carried v member) carries equal).2
  have outSame : ∀ v ∈ l,
      (rs.link (rs.portOn w' a) (rs.portOn w' b)).facing .outgoing (rs.portOn w v) =
        rs.facing .outgoing (rs.portOn w v) := by
    intro v member
    rw [facing_link_outgoing shaped (hasSlot_portOn source) (hasSlot_portOn target),
      if_neg (apart v member a source)]
  have inSame : ∀ v ∈ l,
      (rs.link (rs.portOn w' a) (rs.portOn w' b)).facing .incoming (rs.portOn w v) =
        rs.facing .incoming (rs.portOn w v) := by
    intro v member
    rw [facing_link_incoming shaped (hasSlot_portOn source) (hasSlot_portOn target),
      if_neg (apart v member b target)]
  constructor
  · constructor
    · exact strung.nodup
    · exact fun v member => (strung.carried v member).of_bare? same
    · intro u v adjacent
      rw [portOn_congr same, outSame u adjacent.mem_left]
      exact strung.outgoing u v adjacent
    · intro u v adjacent
      rw [portOn_congr same, inSame v adjacent.mem_right]
      exact strung.incoming u v adjacent
  · intro v first
    rw [portOn_congr same, inSame v (List.mem_of_head? first)]
    exact strung.first v first
  · intro v last
    rw [portOn_congr same, outSame v (List.mem_of_getLast? last)]
    exact strung.last v last

/-- Linking two ports keeps a list in which neither of them is linked on the side that changes. -/
theorem Linked.link (shaped : rs.Shaped) (linked : rs.Linked w l) (source : rs.Carries a w)
    (target : rs.Carries b w) (free : ∀ v, ¬ Adjacent l a v) (free' : ∀ u, ¬ Adjacent l u b) :
    (rs.link (rs.portOn w a) (rs.portOn w b)).Linked w l := by
  have same := bare?_link rs (rs.portOn w a) (rs.portOn w b)
  constructor
  · exact linked.nodup
  · exact fun v member => (linked.carried v member).of_bare? same
  · intro u v adjacent
    have other : rs.portOn w u ≠ rs.portOn w a := by
      intro equal
      obtain ⟨rfl, -⟩ := portOn_injective (linked.carried u adjacent.mem_left) source equal
      exact free v adjacent
    rw [portOn_congr same, facing_link_outgoing shaped (hasSlot_portOn source)
      (hasSlot_portOn target), if_neg other]
    exact linked.outgoing u v adjacent
  · intro u v adjacent
    have other : rs.portOn w v ≠ rs.portOn w b := by
      intro equal
      obtain ⟨rfl, -⟩ := portOn_injective (linked.carried v adjacent.mem_right) target equal
      exact free' u adjacent
    rw [portOn_congr same, facing_link_incoming shaped (hasSlot_portOn source)
      (hasSlot_portOn target), if_neg other]
    exact linked.incoming u v adjacent

/-- Linking the last vertex of a list to the first vertex of another one joins the lists. -/
theorem Linked.join (shaped : rs.Shaped) (left : rs.Linked w front) (right : rs.Linked w back)
    (apart : ∀ x ∈ front, x ∉ back) (last : front.getLast? = some a)
    (first : back.head? = some b) :
    (rs.link (rs.portOn w a) (rs.portOn w b)).Linked w (front ++ back) := by
  have sourceMember := List.mem_of_getLast? last
  have targetMember := List.mem_of_head? first
  have source := left.carried a sourceMember
  have target := right.carried b targetMember
  have left := left.link shaped source target
    (fun v adjacent => adjacent.getLast?_ne left.nodup last)
    (fun u adjacent => apart b adjacent.mem_right targetMember)
  have right := right.link shaped source target
    (fun v adjacent => apart a sourceMember adjacent.mem_left)
    (fun u adjacent => adjacent.head?_ne right.nodup first)
  have same := bare?_link rs (rs.portOn w a) (rs.portOn w b)
  constructor
  · refine List.nodup_append.mpr ⟨left.nodup, right.nodup, ?_⟩
    intro x inFront y inBack same
    obtain rfl := same
    exact apart x inFront inBack
  · intro v member
    rcases List.mem_append.mp member with inFront | inBack
    · exact left.carried v inFront
    · exact right.carried v inBack
  · intro u v adjacent
    rcases adjacent_append.mp adjacent with adjacent | ⟨isLast, isFirst⟩ | adjacent
    · exact left.outgoing u v adjacent
    · obtain rfl := Option.some.inj (last.symm.trans isLast)
      obtain rfl := Option.some.inj (first.symm.trans isFirst)
      rw [portOn_congr same, facing_link_outgoing shaped (hasSlot_portOn source)
        (hasSlot_portOn target), if_pos rfl]
    · exact right.outgoing u v adjacent
  · intro u v adjacent
    rcases adjacent_append.mp adjacent with adjacent | ⟨isLast, isFirst⟩ | adjacent
    · exact left.incoming u v adjacent
    · obtain rfl := Option.some.inj (last.symm.trans isLast)
      obtain rfl := Option.some.inj (first.symm.trans isFirst)
      rw [portOn_congr same, facing_link_incoming shaped (hasSlot_portOn source)
        (hasSlot_portOn target), if_pos rfl]
    · exact right.incoming u v adjacent

theorem Strung.join (shaped : rs.Shaped) (left : rs.Linked w front) (right : rs.Linked w back)
    (apart : ∀ x ∈ front, x ∉ back) (last : front.getLast? = some a)
    (first : back.head? = some b)
    (start : ∀ v, front.head? = some v → rs.facing .incoming (rs.portOn w v) = none)
    (stop : ∀ v, back.getLast? = some v → rs.facing .outgoing (rs.portOn w v) = none) :
    (rs.link (rs.portOn w a) (rs.portOn w b)).Strung w (front ++ back) := by
  have source := left.carried a (List.mem_of_getLast? last)
  have target := right.carried b (List.mem_of_head? first)
  have same := bare?_link rs (rs.portOn w a) (rs.portOn w b)
  refine ⟨left.join shaped right apart last first, ?_, ?_⟩
  · intro v isFirst
    have inFront : front.head? = some v := by
      cases front with
      | nil => simp at last
      | cons x front => simpa using isFirst
    have other : rs.portOn w v ≠ rs.portOn w b := by
      intro equal
      have member := List.mem_of_head? inFront
      obtain ⟨rfl, -⟩ := portOn_injective (left.carried v member) target equal
      exact apart v member (List.mem_of_head? first)
    rw [portOn_congr same, facing_link_incoming shaped (hasSlot_portOn source)
      (hasSlot_portOn target), if_neg other]
    exact start v inFront
  · intro v isLast
    have inBack : back.getLast? = some v := by
      rw [List.getLast?_append] at isLast
      cases tail : back.getLast? with
      | none =>
          rw [List.getLast?_eq_none_iff.mp tail] at first
          simp at first
      | some x => simpa [tail] using isLast
    have other : rs.portOn w v ≠ rs.portOn w a := by
      intro equal
      have member := List.mem_of_getLast? inBack
      obtain ⟨rfl, -⟩ := portOn_injective (right.carried v member) source equal
      exact apart v (List.mem_of_getLast? last) member
    rw [portOn_congr same, facing_link_outgoing shaped (hasSlot_portOn source)
      (hasSlot_portOn target), if_neg other]
    exact stop v inBack

/-- Linking around a part of a wire takes that part off the wire. -/
theorem Strung.bypass (shaped : rs.Shaped) (strung : rs.Strung w (front ++ middle ++ back))
    (last : front.getLast? = some a) (first : back.head? = some b) :
    (rs.link (rs.portOn w a) (rs.portOn w b)).Strung w (front ++ back) := by
  have distinct := List.nodup_append.mp strung.nodup
  refine Strung.join shaped strung.append_left.append_left strung.append_right ?_ last first ?_ ?_
  · intro x inFront inBack
    exact distinct.2.2 x (List.mem_append_left middle inFront) x inBack rfl
  · intro v isFirst
    apply strung.first v
    cases front with
    | nil => simp at last
    | cons x front => simpa using isFirst
  · intro v isLast
    apply strung.last v
    rw [List.getLast?_append, isLast]
    rfl

/-- A vertex whose ports are linked to two neighbours on a wire stands between them. -/
theorem Strung.insert (shaped : rs.Shaped) (strung : rs.Strung w (front ++ b :: back))
    (carries : rs.Carries v w) (fresh : v ∉ front ++ b :: back)
    (last : front.getLast? = some a) :
    ((rs.link (rs.portOn w a) (rs.portOn w v)).link (rs.portOn w v) (rs.portOn w b)).Strung w
      (front ++ v :: b :: back) := by
  have same := bare?_link rs (rs.portOn w a) (rs.portOn w v)
  have source := strung.append_left.carried a (List.mem_of_getLast? last)
  have freshFront : v ∉ front := fun member => fresh (List.mem_append_left _ member)
  have freshBack : v ∉ b :: back := fun member => fresh (List.mem_append_right _ member)
  have distinct := List.nodup_append.mp strung.nodup
  have left : (rs.link (rs.portOn w a) (rs.portOn w v)).Linked w (front ++ [v]) := by
    refine strung.append_left.join shaped (linked_singleton carries) ?_ last rfl
    intro x inFront equal
    exact freshFront (List.mem_singleton.mp equal ▸ inFront)
  have right : (rs.link (rs.portOn w a) (rs.portOn w v)).Linked w (b :: back) := by
    refine strung.append_right.link shaped source carries ?_ ?_
    · intro y adjacent
      exact distinct.2.2 a (List.mem_of_getLast? last) a adjacent.mem_left rfl
    · intro x adjacent
      exact freshBack adjacent.mem_right
  have joined := Strung.join (shaped.link (rs.portOn w a) (rs.portOn w v)) left right (a := v)
    (b := b) ?_ (by simp) rfl ?_ ?_
  · rw [portOn_congr same] at joined
    simpa only [List.append_assoc, List.cons_append, List.nil_append] using joined
  · intro x inFront inBack
    rcases List.mem_append.mp inFront with inFront | equal
    · exact distinct.2.2 x inFront x inBack rfl
    · exact freshBack (List.mem_singleton.mp equal ▸ inBack)
  · intro x isFirst
    have isFirst : front.head? = some x := by
      cases front with
      | nil => simp at last
      | cons y front => simpa using isFirst
    have member := List.mem_of_head? isFirst
    have other : rs.portOn w x ≠ rs.portOn w v := by
      intro equal
      obtain ⟨rfl, -⟩ := portOn_injective (strung.append_left.carried x member) carries equal
      exact freshFront member
    rw [portOn_congr same, facing_link_incoming shaped (hasSlot_portOn source)
      (hasSlot_portOn carries), if_neg other]
    apply strung.first x
    rw [List.head?_append, isFirst]
    rfl
  · intro x isLast
    have member := List.mem_of_getLast? isLast
    have other : rs.portOn w x ≠ rs.portOn w a := by
      intro equal
      obtain ⟨rfl, -⟩ := portOn_injective (strung.append_right.carried x member) source equal
      exact distinct.2.2 x (List.mem_of_getLast? last) x member rfl
    rw [portOn_congr same, facing_link_outgoing shaped (hasSlot_portOn source)
      (hasSlot_portOn carries), if_neg other]
    apply strung.last x
    rw [List.getLast?_append, isLast]
    rfl

end CircuitDag.Records
