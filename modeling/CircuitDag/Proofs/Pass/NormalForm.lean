import CircuitDag.Proofs.Pass.Reduction
import Mathlib.Algebra.Group.End

/-!
# The normal form of cancellation

The labels are read from the last to the first. Each one is put in front of those read before, or
cancels with an equal one that comes first on all its wires. On labels among which nothing cancels,
doing this twice changes nothing, so that labels act like operations which undo themselves: a pair
that is removed leaves the result as it was. A circuit in which nothing cancels is its own result,
so the choice and the order of removals do not matter.
-/

set_option autoImplicit false

namespace CircuitDag

variable {accept : Element → Bool} {a b : Label} {l : WireId → List Label}

namespace Label

/-- Changes what is on the wires of a label. -/
def onWires (a : Label) (change : List Label → List Label) (l : WireId → List Label) :
    WireId → List Label :=
  fun w => if w ∈ a.wires then change (l w) else l w

/-- A label comes first on all its wires. -/
def First (a : Label) (l : WireId → List Label) : Prop := ∀ w ∈ a.wires, (l w).head? = some a

instance (a : Label) (l : WireId → List Label) : Decidable (a.First l) :=
  inferInstanceAs (Decidable (∀ w ∈ a.wires, (l w).head? = some a))

/-- Puts a label in front, or takes out an equal one that comes first on all its wires. -/
def cancelInto (accept : Element → Bool) (a : Label) (l : WireId → List Label) :
    WireId → List Label :=
  a.onWires (if accept a.element = true ∧ a.First l then List.tail else (a :: ·)) l

theorem cancelInto_of_first (accepted : accept a.element = true) (first : a.First l) :
    a.cancelInto accept l = a.onWires List.tail l := by
  rw [cancelInto, if_pos ⟨accepted, first⟩]

theorem cancelInto_of_not (stuck : ¬ (accept a.element = true ∧ a.First l)) :
    a.cancelInto accept l = a.onWires (a :: ·) l := by
  rw [cancelInto, if_neg stuck]

theorem first_put (a : Label) (l : WireId → List Label) : a.First (a.onWires (a :: ·) l) := by
  intro w here
  simp [onWires, here]

theorem drop_put (a : Label) (l : WireId → List Label) :
    a.onWires List.tail (a.onWires (a :: ·) l) = l := by
  funext w
  by_cases here : w ∈ a.wires <;> simp [onWires, here]

theorem put_drop (first : a.First l) : a.onWires (a :: ·) (a.onWires List.tail l) = l := by
  funext w
  by_cases here : w ∈ a.wires
  · simp only [onWires, if_pos here]
    exact List.cons_head?_tail (first w here)
  · simp [onWires, here]

/-! ## Labels without a common wire -/

section Apart

variable {change change' : List Label → List Label}

theorem onWires_comm (apart : a.wires.Disjoint b.wires) :
    a.onWires change (b.onWires change' l) = b.onWires change' (a.onWires change l) := by
  funext w
  by_cases here : w ∈ a.wires
  · have elsewhere : w ∉ b.wires := fun there => apart here there
    simp [onWires, here, elsewhere]
  · simp [onWires, here]

theorem first_onWires (apart : a.wires.Disjoint b.wires) :
    a.First (b.onWires change l) ↔ a.First l := by
  refine forall₂_congr fun w here => ?_
  rw [onWires, if_neg fun there => apart here there]

theorem cancelInto_comm (apart : a.wires.Disjoint b.wires) :
    a.cancelInto accept (b.cancelInto accept l) = b.cancelInto accept (a.cancelInto accept l) := by
  rw [cancelInto, cancelInto, cancelInto, cancelInto]
  simp only [first_onWires apart, first_onWires (List.disjoint_symm apart)]
  exact onWires_comm apart

/-- What comes first and is not the label that has just been put in front is elsewhere. -/
theorem First.apart (first : a.First (b.onWires (b :: ·) l)) (different : b ≠ a) :
    a.wires.Disjoint b.wires := by
  intro w here there
  have head := first w here
  rw [onWires, if_pos there] at head
  exact different (Option.some.inj head)

end Apart

end Label

/-! ## Labels among which nothing cancels -/

/-- Labels that have been put in front of each other, none of which could cancel. -/
inductive Irreducible (accept : Element → Bool) : (WireId → List Label) → Prop where
  | nil : Irreducible accept fun _ => []
  | put {l : WireId → List Label} (a : Label) (before : Irreducible accept l)
      (stuck : ¬ (accept a.element = true ∧ a.First l)) :
      Irreducible accept (a.onWires (a :: ·) l)

/-- Taking out a label that comes first lets nothing cancel, and lets no equal label come first. -/
theorem Irreducible.drop (irreducible : Irreducible accept l) (first : a.First l) :
    Irreducible accept (a.onWires List.tail l) ∧
      (accept a.element = true → a.First (a.onWires List.tail l) → a.wires = []) := by
  induction irreducible with
  | nil =>
      have nowhere : a.wires = [] := by
        refine List.eq_nil_iff_forall_not_mem.mpr fun w here => ?_
        cases first w here
      have same : a.onWires List.tail (fun _ => []) = fun _ => [] := by
        funext w
        simp [Label.onWires]
      rw [same]
      exact ⟨.nil, fun _ _ => nowhere⟩
  | @put l b before stuck ih =>
      by_cases same : b = a
      · subst same
        rw [Label.drop_put]
        exact ⟨before, fun accepted again => absurd ⟨accepted, again⟩ stuck⟩
      · have apart := first.apart same
        have apart' := List.disjoint_symm apart
        obtain ⟨dropped, alone⟩ := ih ((Label.first_onWires apart).mp first)
        rw [Label.onWires_comm apart, Label.first_onWires apart]
        refine ⟨.put b dropped ?_, alone⟩
        rwa [Label.first_onWires apart']

theorem Irreducible.cancelInto (irreducible : Irreducible accept l) (a : Label) :
    Irreducible accept (a.cancelInto accept l) := by
  by_cases cancels : accept a.element = true ∧ a.First l
  · rw [Label.cancelInto_of_first cancels.1 cancels.2]
    exact (irreducible.drop cancels.2).1
  · rw [Label.cancelInto_of_not cancels]
    exact .put a irreducible cancels

/-- A label that cancels undoes itself. -/
theorem Irreducible.cancelInto_cancelInto (irreducible : Irreducible accept l)
    (accepted : accept a.element = true) :
    a.cancelInto accept (a.cancelInto accept l) = l := by
  by_cases first : a.First l
  · rw [Label.cancelInto_of_first accepted first]
    by_cases again : accept a.element = true ∧ a.First (a.onWires List.tail l)
    · have nowhere := (irreducible.drop first).2 accepted again.2
      rw [Label.cancelInto_of_first accepted again.2]
      funext w
      simp [Label.onWires, nowhere]
    · rw [Label.cancelInto_of_not again, Label.put_drop first]
  · rw [Label.cancelInto_of_not fun cancels => first cancels.2,
      Label.cancelInto_of_first accepted (Label.first_put a l), Label.drop_put]

/-- The labels along the wires among which nothing cancels. -/
def Irreducibles (accept : Element → Bool) : Type :=
  { l : WireId → List Label // Irreducible accept l }

/-- A label as an action on the labels among which nothing cancels. -/
def Label.cancelling (accept : Element → Bool) (a : Label) :
    Function.End (Irreducibles accept) :=
  fun l => ⟨a.cancelInto accept l.1, l.2.cancelInto a⟩

theorem Label.commute_cancelling (apart : a.wires.Disjoint b.wires) :
    Commute (a.cancelling accept) (b.cancelling accept) := by
  funext l
  exact Subtype.ext (cancelInto_comm apart)

theorem Label.cancelling_mul_self (accepted : accept a.element = true) :
    a.cancelling accept * a.cancelling accept = 1 := by
  funext l
  exact Subtype.ext (l.2.cancelInto_cancelInto accepted)

namespace Circuit

variable {c c' d : Circuit} {line : WireId → List VertexId} {order front back : List VertexId}
  {u v x y : VertexId} {w w' : WireId} {r s : Record} {pairs : List (VertexId × VertexId)}
  {block : List VertexId}

/-- What remains on the wires when every label cancels with the next equal one if it can. -/
def normalForm (accept : Element → Bool) (c : Circuit) : WireId → List Label :=
  c.labels.foldr (Label.cancelInto accept) fun _ => []

/-- The action of a vertex; anchors do nothing. -/
def cancelling (accept : Element → Bool) (c : Circuit) (v : VertexId) :
    Function.End (Irreducibles accept) :=
  (c.label? v).elim 1 (Label.cancelling accept)

theorem foldr_eq_prod (l : Irreducibles accept) (order : List VertexId) :
    (order.filterMap c.label?).foldr (Label.cancelInto accept) l.1 =
      ((order.map (c.cancelling accept)).prod l).1 := by
  induction order with
  | nil => rfl
  | cons v order ih =>
      rw [List.map_cons, List.prod_cons]
      cases labelled : c.label? v with
      | none =>
          rw [List.filterMap_cons_none labelled, cancelling, labelled, Option.elim_none, one_mul]
          exact ih
      | some a =>
          rw [List.filterMap_cons_some labelled, List.foldr_cons, ih, cancelling, labelled]
          rfl

theorem normalForm_eq_prod (accept : Element → Bool) (c : Circuit) : c.normalForm accept =
    ((c.topologicalVertices.map (c.cancelling accept)).prod ⟨_, .nil⟩).1 := by
  rw [normalForm, labels_eq_filterMap]
  exact foldr_eq_prod ⟨_, .nil⟩ c.topologicalVertices

theorem Layout.commuteApart_cancelling (layout : c.Layout line) :
    CommuteApart line (c.cancelling accept) := by
  intro u v x y left right apart
  rw [cancelling, cancelling]
  cases labelled : c.label? u with
  | none => exact Commute.one_left _
  | some a =>
      cases labelled' : c.label? v with
      | none => exact Commute.one_right _
      | some b =>
          refine Label.commute_cancelling fun w here there => ?_
          exact apart w ((layout.mem_wires_iff left labelled).mp here)
            ((layout.mem_wires_iff right labelled').mp there)

/-! ## Removing a pair -/

theorem Twins.labelled (twins : c.Twins line accept v u r s) :
    c.label? v = some r.label ∧ c.label? u = some r.label := by
  have same : s.label = r.label := by
    simp only [Record.label, Operation.label, Label.mk.injEq]
    exact ⟨twins.element, twins.params, twins.wires⟩
  constructor
  · exact (label?_eq_some_iff twins.left.1).mpr ⟨twins.operation, rfl⟩
  · exact (label?_eq_some_iff twins.right.1).mpr ⟨twins.operation', same⟩

theorem Layout.normalForm_cut (layout : c.Layout line) (twins : c.Twins line accept v u r s)
    (without : c.Without line [v, u] c') : c'.normalForm accept = c.normalForm accept := by
  have listing := layout.linearizes
  obtain ⟨left, right⟩ := twins.labelled
  obtain ⟨w, member⟩ := List.exists_mem_of_ne_nil _ (layout.wired v r twins.left).nonempty
  have onLine : v ∈ line w := (twins.adjacent w member).mem_left
  have inLine : ∀ w, v ∈ line w → Adjacent (line w) v u := fun w inside =>
    twins.adjacent w ((layout.mem_wires_iff onLine left).mpr inside)
  have same : c.cancelling accept u = c.cancelling accept v := by
    rw [cancelling, cancelling, left, right]
  have square : c.cancelling accept v * c.cancelling accept v = 1 := by
    rw [cancelling, left]
    exact Label.cancelling_mul_self twins.accepted
  have kept : ∀ y ∈ c.topologicalVertices.filter fun y => !([v, u] : List VertexId).contains y,
      c'.cancelling accept y = c.cancelling accept y := by
    intro y inside
    have fresh : y ∉ [v, u] := by simpa using (List.mem_filter.mp inside).2
    rw [cancelling, cancelling, without.label?_congr fresh]
  rw [normalForm_eq_prod, normalForm_eq_prod,
    without.layout.commuteApart_cancelling.prod_eq without.layout.linearizes
      (listing.cut [v, u]), List.map_congr_left kept,
    layout.commuteApart_cancelling.prod_cut listing onLine inLine same square]

theorem LaidOut.normalForm_of_reduces (laid : c.LaidOut) (reduces : Reduces accept c pairs d) :
    d.normalForm accept = c.normalForm accept := by
  induction reduces with
  | refl => rfl
  | step cancellable run _ ih =>
      obtain ⟨line, layout⟩ := laid
      obtain ⟨r, s, twins⟩ := layout.cancellable_iff.mp cancellable
      obtain ⟨c', removed, without⟩ := layout.removePair twins
      cases run.symm.trans removed
      rw [ih ⟨_, without.layout⟩, layout.normalForm_cut twins without]

/-! ## Circuits in which nothing cancels -/

/-- What follows a vertex on a line and has no label is the end of the line. -/
theorem Layout.last_of_unlabelled (layout : c.Layout line) (adjacent : Adjacent (line w) v u)
    (unlabelled : c.label? u = none) : (line w).getLast? = some u := by
  obtain ⟨s, live, member⟩ := layout.carries adjacent.mem_right
  obtain ⟨side, element⟩ := exists_endElement ((label?_eq_none_iff live.1).mp unlabelled)
  have tip := (layout.tip_iff live member).mpr element
  cases side with
  | incoming => exact absurd tip (adjacent.head?_ne (layout.strung w).nodup)
  | outgoing => exact tip

/-- The labels along the lines, of some vertices only. -/
def labelsOf (c : Circuit) (line : WireId → List VertexId) (vs : List VertexId) :
    WireId → List Label :=
  fun w => (vs.filter (· ∈ line w)).filterMap c.label?

/-- The label that comes first behind a vertex on a line is on the next vertex of this line. -/
theorem Layout.exists_next_label (layout : c.Layout line) (linear : Linearizes line order)
    (shape : order = front ++ v :: back) (onLine : v ∈ line w) {a : Label}
    (head : (c.labelsOf line back w).head? = some a) :
    ∃ u, Adjacent (line w) v u ∧ c.label? u = some a := by
  have split : line w = front.filter (· ∈ line w) ++ v :: back.filter (· ∈ line w) := by
    conv_lhs => rw [← filter_mem_of_sublist linear.nodup (linear.sublist w), shape]
    simp [onLine]
  rw [labelsOf] at head
  cases behind : back.filter (· ∈ line w) with
  | nil => simp [behind] at head
  | cons u rest =>
      rw [behind] at head split
      have adjacent : Adjacent (line w) v u := ⟨_, rest, split⟩
      refine ⟨u, adjacent, ?_⟩
      cases found : c.label? u with
      | some b => simpa [found] using head
      | none =>
          -- An output comes next, and nothing behind it.
          have last := layout.last_of_unlabelled adjacent found
          have unique := (layout.strung w).nodup
          cases rest with
          | nil => simp [found] at head
          | cons x rest =>
              have more : Adjacent (line w) u x :=
                ⟨front.filter (· ∈ line w) ++ [v], rest, by rw [List.append_assoc]; exact split⟩
              exact absurd last (more.getLast?_ne unique)

/-- An operation whose label comes first behind it cancels with the vertex that has this label. -/
theorem Layout.exists_cancellable (layout : c.Layout line) (linear : Linearizes line order)
    (shape : order = front ++ v :: back) {a : Label} (labelled : c.label? v = some a)
    (accepted : accept a.element = true) (first : a.First (c.labelsOf line back)) :
    ∃ u, c.Cancellable accept v u := by
  have inOrder : v ∈ order := by simp [shape]
  obtain ⟨x, onLine⟩ := (linear.mem_iff v).mp inOrder
  obtain ⟨r, live, -⟩ := layout.carries onLine
  obtain ⟨operation, rfl⟩ := (label?_eq_some_iff live.1).mp labelled
  have next : ∀ w ∈ r.wires, ∃ u, Adjacent (line w) v u ∧ c.label? u = some r.label :=
    fun w member => layout.exists_next_label linear shape
      (layout.covered v w ⟨r, live, member⟩) (first w member)
  obtain ⟨w, member⟩ := List.exists_mem_of_ne_nil _ (layout.wired v r live).nonempty
  obtain ⟨u, adjacent, label⟩ := next w member
  obtain ⟨s, right, -⟩ := layout.carries adjacent.mem_right
  obtain ⟨-, agrees⟩ := (label?_eq_some_iff right.1).mp label
  refine ⟨u, layout.cancellable_iff.mpr ⟨r, s, live, right, operation, accepted,
    congrArg Label.element agrees, congrArg Label.params agrees, congrArg Label.wires agrees,
    fun w' member' => ?_⟩⟩
  -- The next vertices on two wires have the same label, so each is on both wires.
  obtain ⟨u', adjacent', label'⟩ := next w' member'
  have same : u = u' := linear.eq_of_adjacent adjacent adjacent'
    ((layout.mem_wires_iff adjacent.mem_right label).mp member')
    ((layout.mem_wires_iff adjacent'.mem_right label').mp member)
  exact same ▸ adjacent'

theorem Layout.foldr_eq_labelsOf (layout : c.Layout line) (linear : Linearizes line order)
    (settled : c.Settled accept) (shape : order = front ++ back) :
    (back.filterMap c.label?).foldr (Label.cancelInto accept) (fun _ => []) =
      c.labelsOf line back := by
  induction back generalizing front with
  | nil => rfl
  | cons v back ih =>
      have rest : (back.filterMap c.label?).foldr (Label.cancelInto accept) (fun _ => []) =
          c.labelsOf line back := by
        refine @ih (front ++ [v]) ?_
        simp [shape]
      have inOrder : v ∈ order := by simp [shape]
      obtain ⟨x, onLine⟩ := (linear.mem_iff v).mp inOrder
      cases labelled : c.label? v with
      | none =>
          rw [List.filterMap_cons_none labelled, rest]
          funext w
          by_cases here : v ∈ line w <;> simp [labelsOf, here, labelled]
      | some a =>
          have stuck : ¬ (accept a.element = true ∧ a.First (c.labelsOf line back)) := by
            intro cancels
            obtain ⟨u, cancellable⟩ :=
              layout.exists_cancellable linear shape labelled cancels.1 cancels.2
            exact settled v u cancellable
          rw [List.filterMap_cons_some labelled, List.foldr_cons, rest,
            Label.cancelInto_of_not stuck]
          funext w
          have member := layout.mem_wires_iff (w := w) onLine labelled
          by_cases here : v ∈ line w
          · simp [labelsOf, Label.onWires, here, member, labelled]
          · simp [labelsOf, Label.onWires, here, member]

/-- A circuit in which nothing cancels is its own normal form. -/
theorem Layout.normalForm_of_settled (layout : c.Layout line) (settled : c.Settled accept) :
    c.normalForm accept = c.wireLabels := by
  have linear := layout.linearizes
  have all := layout.foldr_eq_labelsOf linear settled
    (List.nil_append c.topologicalVertices).symm
  rw [normalForm, labels_eq_filterMap, all]
  funext w
  rw [labelsOf, filter_mem_of_sublist linear.nodup (linear.sublist w), wireLabels,
    layout.wireVertices_eq]

/-- All reductions that leave nothing to cancel leave the same labels along the wires. -/
theorem LaidOut.wireLabels_of_reduces (laid : c.LaidOut) (reduces : Reduces accept c pairs d)
    (settled : d.Settled accept) : d.wireLabels = c.normalForm accept := by
  obtain ⟨line, layout⟩ := laid.reduced reduces
  rw [← layout.normalForm_of_settled settled, laid.normalForm_of_reduces reduces]

end Circuit

/-! ## Confluence -/

section Confluence

open Circuit

variable {c : Circuit}

theorem Cancels.wireLabels {pass : Pass} (cancels : Cancels pass accept) {s s' : Compilation}
    (laid : s.circuit.LaidOut) (run : pass.run.run s = .ok () s')
    (settled : s'.circuit.Settled accept) :
    s'.circuit.wireLabels = s.circuit.normalForm accept := by
  obtain ⟨s'', pairs, run', reduces⟩ := cancels.reduces laid
  cases run.symm.trans run'
  exact laid.wireLabels_of_reduces reduces settled

/-- Both passes in a row reduce the circuit with respect to all elements that undo themselves. -/
theorem cancelCX_then_cancelInvolutions {s : Compilation} (laid : s.circuit.LaidOut) :
    ∃ s' pairs, (do Pass.cancelCX.run; Pass.cancelInvolutions.run : Compile Unit).run s =
        .ok () s' ∧
      Reduces Element.isInvolution s.circuit pairs s'.circuit := by
  obtain ⟨s₁, pairs₁, first, reduces₁⟩ := Cancels.cx.reduces laid
  obtain ⟨s₂, pairs₂, second, reduces₂⟩ := Cancels.involutions.reduces (laid.reduced reduces₁)
  refine ⟨s₂, _, ?_, (reduces₁.mono Cancels.cx.isInvolution).trans reduces₂⟩
  rw [EStateM.run_bind, first]
  exact second

/-- Pairs that cancel can be removed one after the other in any order. This comes to an end, and
where nothing cancels any more the labels along the wires are those of the normal form. So they are
the same after all passes that get there. -/
theorem cancellation_has_normalForm (reachable : c.Reachable) :
    (∀ accept, (∃ pairs d, Reduces accept c pairs d ∧ d.Settled accept) ∧
      ∀ pairs d, Reduces accept c pairs d →
        2 * pairs.length ≤ c.numVertices ∧
        (∀ v u, d.Cancellable accept v u → ∃ d', (removeBlock [v, u]).run d = .ok () d') ∧
        (d.Settled accept → ∀ w, d.wireLabels w = c.normalForm accept w)) ∧
    (∀ pass accept, Cancels pass accept → ∀ properties, ∃ s',
      pass.run.run ⟨c, properties⟩ = .ok () s' ∧ (s'.circuit.Settled accept →
        ∀ w, s'.circuit.wireLabels w = c.normalForm accept w)) ∧
    ∀ properties properties', ∃ once both,
      Pass.cancelInvolutions.run.run ⟨c, properties⟩ = .ok () once ∧
      (do Pass.cancelCX.run; Pass.cancelInvolutions.run : Compile Unit).run ⟨c, properties'⟩ =
        .ok () both ∧
      (once.circuit.Settled Element.isInvolution → both.circuit.Settled Element.isInvolution →
        ∀ w, both.circuit.wireLabels w = once.circuit.wireLabels w) := by
  have laid := reachable.laidOut
  refine ⟨fun accept => ⟨?_, fun pairs d reduces => ⟨?_, fun v u cancellable => ?_, ?_⟩⟩, ?_, ?_⟩
  · obtain ⟨k, settles⟩ := laid.exists_settlesAfter accept
    obtain ⟨pairs, reduces⟩ := laid.reduces_iterate accept k
    exact ⟨pairs, _, reduces, settles.settled⟩
  · exact laid.length_le_of_reduces reduces
  · obtain ⟨line, layout⟩ := laid.reduced reduces
    obtain ⟨r, s, twins⟩ := layout.cancellable_iff.mp cancellable
    obtain ⟨d', removed, -⟩ := layout.removePair twins
    exact ⟨d', removed⟩
  · exact fun settled w => congrFun (laid.wireLabels_of_reduces reduces settled) w
  · intro pass accept cancels properties
    obtain ⟨s', -, run, -⟩ := cancels.reduces (s := ⟨c, properties⟩) laid
    exact ⟨s', run, fun settled w => congrFun (cancels.wireLabels laid run settled) w⟩
  · intro properties properties'
    obtain ⟨once, pairs, run, reduces⟩ := Cancels.involutions.reduces (s := ⟨c, properties⟩) laid
    obtain ⟨both, pairs', run', reduces'⟩ :=
      cancelCX_then_cancelInvolutions (s := ⟨c, properties'⟩) laid
    refine ⟨once, both, run, run', fun settled settled' w => ?_⟩
    rw [laid.wireLabels_of_reduces reduces settled, laid.wireLabels_of_reduces reduces' settled']

def tripleCX : Circuit := Change.after doubleCX (.addOperation { element := .cx } [0, 1] [])

theorem one_cx_remains_of_tripleCX : tripleCX.Reachable ∧
    ∀ pairs d, Reduces (· = .cx) tripleCX pairs d → d.Settled (· = .cx) →
      d.wireLabels 0 = [⟨.cx, [], [0, 1]⟩] := by
  have reachable : tripleCX.Reachable := reachable_doubleCX.change _
  refine ⟨reachable, fun pairs d reduces settled => ?_⟩
  obtain ⟨-, all⟩ := (cancellation_has_normalForm reachable).1 (· = .cx)
  obtain ⟨-, -, labels⟩ := all pairs d reduces
  rw [labels settled]
  decide +kernel

end Confluence

end CircuitDag
