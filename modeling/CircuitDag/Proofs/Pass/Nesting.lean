import CircuitDag.Proofs.Pass.FixedPoint
import Mathlib.Data.List.Chain

/-!
# Nested pairs

Two gates in turn on one wire, and then the same gates backwards, hold a single pair that cancels.
Without it the same is true of what is left. So the number of sweeps that find something has no
bound, and a pass with a bound can leave pairs behind.
-/

set_option autoImplicit false

namespace CircuitDag

open Circuit

variable {c c' : Circuit} {line : WireId → List VertexId} {accept : Element → Bool}
  {u v : VertexId} {r : Record} {es front back : List Element} {e : Element}

/-! ## Repetitions in a list -/

/-- Where a list repeats an entry at only one place, every repetition is at that place. -/
theorem eq_of_repeats {α : Type} {left right front back : List α} {x y : α}
    (before : (left ++ [x]).IsChain (· ≠ ·)) (after : (x :: right).IsChain (· ≠ ·))
    (same : front ++ y :: y :: back = left ++ x :: x :: right) :
    front = left ∧ y = x ∧ back = right := by
  rcases List.append_eq_append_iff.mp same with ⟨middle, rfl, shape⟩ | ⟨middle, rfl, shape⟩
  · cases middle with
    | nil => simpa using shape
    | cons z middle =>
        -- The two entries would be repeated on the left already.
        exfalso
        obtain ⟨tail, early⟩ : ∃ tail, z :: middle ++ [x] = y :: y :: tail := by
          cases middle with
          | nil =>
              simp only [List.nil_append, List.cons_append, List.cons.injEq] at shape
              obtain ⟨rfl, rfl, -⟩ := shape
              exact ⟨[], rfl⟩
          | cons z' middle =>
              simp only [List.cons_append, List.cons.injEq] at shape
              obtain ⟨rfl, rfl, -⟩ := shape
              exact ⟨middle ++ [x], rfl⟩
        rw [List.append_assoc, early] at before
        exact (List.isChain_append_cons_cons.mp before).2.1 rfl
  · cases middle with
    | nil => simpa [eq_comm] using shape
    | cons z middle =>
        simp only [List.cons_append, List.cons.injEq] at shape
        rw [shape.2] at after
        exact absurd rfl (List.isChain_append_cons_cons.mp after).2.1

/-! ## Words -/

def Records.operation? (rs : Records) (v : VertexId) : Option Operation :=
  (rs.get? v).map Record.operation

theorem Records.operation?_eq {rs rs' : Records} (same : rs'.bare? v = rs.bare? v) :
    rs'.operation? v = rs.operation? v := by
  have through : ∀ rs : Records, rs.operation? v = (rs.bare? v).map Record.operation := by
    intro rs
    rw [Records.operation?, Records.bare?, Option.map_map]
    rfl
  rw [through, through, same]

def plain (e : Element) : Option Operation := some { element := e }

theorem plain_injective : Function.Injective plain := by
  intro e e' same
  exact congrArg Operation.element (Option.some.inj same)

theorem isChain_map_plain (chain : es.IsChain (· ≠ ·)) : (es.map plain).IsChain (· ≠ ·) :=
  (List.isChain_map plain).mpr (chain.imp fun _ _ => plain_injective.ne)

/-- A circuit with a single wire, on which some elements stand one after the other, the anchors
included. -/
structure Circuit.Spells (c : Circuit) (line : WireId → List VertexId) (es : List Element) :
    Prop where
  layout : c.Layout line
  numQubits : c.numQubits = 1
  numClbits : c.numClbits = 0
  word : (line 0).map c.records.operation? = es.map plain

theorem Circuit.Spells.wires_eq (spells : c.Spells line es) (live : c.records.Live v r) :
    r.wires = [0] := by
  have wired := spells.layout.wired v r live
  have only : ∀ w ∈ r.wires, w = 0 := by
    intro w member
    obtain ⟨i, position⟩ := List.getElem?_of_mem member
    have bound := (wired.placed i w position).1
    rw [numWires, spells.numQubits, spells.numClbits] at bound
    exact Nat.lt_one_iff.mp bound
  cases wires : r.wires with
  | nil => exact absurd wires wired.nonempty
  | cons w rest =>
      have unique := wired.nodup
      rw [wires, List.forall_mem_cons] at only
      rw [wires, List.nodup_cons] at unique
      obtain ⟨rfl, others⟩ := only
      cases rest with
      | nil => rfl
      | cons x rest =>
          obtain rfl := others x List.mem_cons_self
          exact absurd List.mem_cons_self unique.1

/-- What cancels is repeated in the word. -/
theorem Circuit.Spells.cancellable_iff (spells : c.Spells line es) :
    c.Cancellable accept v u ↔ ∃ e, e.isAnchor = false ∧ accept e = true ∧
      Adjacent (line 0) v u ∧ c.records.operation? v = plain e ∧
      c.records.operation? u = plain e := by
  have known : ∀ {x r}, c.records.Live x r → ∃ e, r.operation = { element := e } := by
    intro x r live
    have member : x ∈ line 0 := spells.layout.covered x 0
      ⟨r, live, by rw [spells.wires_eq live]; exact List.mem_cons_self⟩
    have inWord : c.records.operation? x ∈ es.map plain :=
      spells.word ▸ List.mem_map_of_mem member
    obtain ⟨e, -, same⟩ := List.mem_map.mp inWord
    rw [Records.operation?, live.1] at same
    exact ⟨e, (Option.some.inj same).symm⟩
  rw [spells.layout.cancellable_iff]
  constructor
  · intro given
    obtain ⟨r, s, twins⟩ := given
    obtain ⟨e, left⟩ := known twins.left
    obtain ⟨e', right⟩ := known twins.right
    have same : e' = e := by
      have element := twins.element
      rwa [Record.element, Record.element, left, right] at element
    subst same
    refine ⟨e', ?_, ?_, ?_, ?_, ?_⟩
    · have operation := twins.operation
      rwa [Record.isAnchor, Record.element, left] at operation
    · have accepted := twins.accepted
      rwa [Record.element, left] at accepted
    · refine twins.adjacent 0 ?_
      rw [spells.wires_eq twins.left]
      exact List.mem_cons_self
    · rw [Records.operation?, twins.left.1, Option.map_some, left, plain]
    · rw [Records.operation?, twins.right.1, Option.map_some, right, plain]
  · intro given
    obtain ⟨e, operation, accepted, adjacent, left, right⟩ := given
    obtain ⟨r, live, -⟩ := spells.layout.carries adjacent.mem_left
    obtain ⟨s, live', -⟩ := spells.layout.carries adjacent.mem_right
    rw [Records.operation?, live.1, Option.map_some, plain, Option.some.injEq] at left
    rw [Records.operation?, live'.1, Option.map_some, plain, Option.some.injEq] at right
    refine ⟨r, s, live, live', ?_, ?_, ?_, ?_, ?_, ?_⟩
    · rwa [Record.isAnchor, Record.element, left]
    · rwa [Record.element, left]
    · rw [Record.element, Record.element, left, right]
    · rw [Record.params, Record.params, left, right]
    · rw [spells.wires_eq live, spells.wires_eq live']
    · rw [spells.wires_eq live]
      intro w member
      obtain rfl := List.mem_singleton.mp member
      exact adjacent

theorem Circuit.Spells.settled (spells : c.Spells line es) (chain : es.IsChain (· ≠ ·))
    (accept : Element → Bool) : c.Settled accept := by
  intro v u cancellable
  obtain ⟨e, -, -, ⟨front, back, shape⟩, left, right⟩ := spells.cancellable_iff.mp cancellable
  have word := spells.word
  rw [shape, List.map_append, List.map_cons, List.map_cons, left, right] at word
  have distinct := isChain_map_plain chain
  rw [← word] at distinct
  exact (List.isChain_append_cons_cons.mp distinct).2.1 rfl

/-! ## One repetition -/

theorem pairs_eq_singleton {pairs : List (VertexId × VertexId)} (some : pairs ≠ [])
    (all : ∀ pair ∈ pairs, pair = (v, u)) (unique : (pairVertices pairs).Nodup) :
    pairs = [(v, u)] := by
  cases pairs with
  | nil => exact absurd rfl some
  | cons pair rest =>
      rw [List.forall_mem_cons] at all
      obtain ⟨rfl, others⟩ := all
      cases rest with
      | nil => rfl
      | cons pair rest =>
          obtain rfl := others pair List.mem_cons_self
          simp [pairVertices] at unique

/-- The vertices of a repetition in the word. -/
theorem Circuit.Spells.exists_repeat (spells : c.Spells line (front ++ e :: e :: back)) :
    ∃ left a b right, line 0 = left ++ a :: b :: right ∧
      left.map c.records.operation? = front.map plain ∧ c.records.operation? a = plain e ∧
      c.records.operation? b = plain e ∧ right.map c.records.operation? = back.map plain := by
  have word := spells.word
  rw [List.map_append, List.map_cons, List.map_cons, List.map_eq_append_iff] at word
  obtain ⟨left, rest, shape, leftWord, word⟩ := word
  rw [List.map_eq_cons_iff] at word
  obtain ⟨a, rest, rfl, isLeft, word⟩ := word
  rw [List.map_eq_cons_iff] at word
  obtain ⟨b, right, rfl, isRight, rightWord⟩ := word
  exact ⟨left, a, b, right, shape, leftWord, isLeft, isRight, rightWord⟩

/-- Only the vertices of the only repetition cancel. -/
theorem Circuit.Spells.eq_of_cancellable (spells : c.Spells line (front ++ e :: e :: back))
    (before : (front ++ [e]).IsChain (· ≠ ·)) (after : (e :: back).IsChain (· ≠ ·))
    {left right : List VertexId} {a b : VertexId} (shape : line 0 = left ++ a :: b :: right)
    (leftWord : left.map c.records.operation? = front.map plain)
    (cancellable : c.Cancellable accept v u) : (v, u) = (a, b) := by
  obtain ⟨e', -, -, ⟨left', right', shape'⟩, isLeft', isRight'⟩ :=
    spells.cancellable_iff.mp cancellable
  have word := spells.word
  rw [shape', List.map_append, List.map_cons, List.map_cons, isLeft', isRight', List.map_append,
    List.map_cons, List.map_cons] at word
  obtain ⟨sameFront, -, -⟩ := eq_of_repeats (by simpa using isChain_map_plain before)
    (by simpa using isChain_map_plain after) word
  have length : left'.length = left.length := by
    simpa using congrArg List.length (sameFront.trans leftWord.symm)
  have rest := (List.append_inj (shape'.symm.trans shape) length).2
  simp only [List.cons.injEq] at rest
  rw [rest.1, rest.2.1]

theorem cutLine_pair {left right : List VertexId} {a b : VertexId} {w : WireId}
    (shape : line w = left ++ a :: b :: right) (distinct : (line w).Nodup) :
    Graph.cutLine line [a, b] w = left ++ right ∧ ∀ x ∈ left ++ right, x ∉ [a, b] := by
  rw [shape] at distinct
  have apart : (left ++ a :: [] ++ b :: right).Nodup := by simpa using distinct
  obtain ⟨absent, absent'⟩ := notMem_of_nodup_pair apart
  rw [List.append_nil] at absent absent'
  have outside : ∀ x ∈ left ++ right, x ∉ [a, b] := by
    intro x member inside
    simp only [List.mem_cons, List.not_mem_nil, or_false] at inside
    rcases inside with rfl | rfl
    · exact absent member
    · exact absent' member
  have kept : (left ++ right).filter (fun x => !([a, b] : List VertexId).contains x) =
      left ++ right := List.filter_eq_self.mpr fun x member => by simpa using outside x member
  refine ⟨?_, outside⟩
  rw [List.filter_append] at kept
  rw [Graph.cutLine, shape, List.filter_append, ← kept]
  simp

theorem Circuit.Spells.sweepOnce (spells : c.Spells line (front ++ e :: e :: back))
    (before : (front ++ [e]).IsChain (· ≠ ·)) (after : (e :: back).IsChain (· ≠ ·))
    (operation : e.isAnchor = false) (accepted : accept e = true) :
    ¬ c.Settled accept ∧ ∃ line', (sweepOnce accept c).Spells line' (front ++ back) := by
  obtain ⟨left, a, b, right, shape, leftWord, isLeft, isRight, rightWord⟩ := spells.exists_repeat
  have cancels : c.Cancellable accept a b :=
    spells.cancellable_iff.mpr ⟨e, operation, accepted, ⟨left, right, shape⟩, isLeft, isRight⟩
  obtain ⟨sound, unique, empty⟩ := spells.layout.cancellablePairs_spec accept
  have unsettled : ¬ c.Settled accept := fun settled => settled a b cancels
  have found : c.cancellablePairs accept = [(a, b)] :=
    pairs_eq_singleton (fun none => unsettled (empty.mp none))
      (fun (v, u) member =>
        spells.eq_of_cancellable before after shape leftWord (sound v u member)) unique
  have without := (spells.layout.swept accept).2
  rw [found] at without
  obtain ⟨cut, outside⟩ := cutLine_pair shape (spells.layout.strung 0).nodup
  refine ⟨unsettled, _, without.layout, without.numQubits.trans spells.numQubits,
    without.numClbits.trans spells.numClbits, ?_⟩
  change (Graph.cutLine line [a, b] 0).map _ = _
  rw [cut, List.map_append (f := plain), ← leftWord, ← rightWord, ← List.map_append]
  exact List.map_congr_left fun x member =>
    Records.operation?_eq (without.bare x (outside x member))

/-! ## Appending to a word -/

def ofElements (es : List Element) : Circuit :=
  es.foldl (fun c e => (addOperation { element := e } [0] []).after c) (blank 1 0 Binary64.zero)

theorem reachable_ofElements (es : List Element) : (ofElements es).Reachable := by
  have kept : ∀ c : Circuit, c.Reachable →
      (es.foldl (fun c e => (addOperation { element := e } [0] []).after c) c).Reachable := by
    induction es with
    | nil => exact fun c reachable => reachable
    | cons e es ih =>
        exact fun c reachable => ih _ (reachable.change (.addOperation { element := e } [0] []))
  exact kept _ (Reachable.blank 1 0 Binary64.zero)

structure SingleQubit (e : Element) : Prop where
  operation : e.isAnchor = false
  numQubits : e.numQubits = some 1
  numClbits : e.numClbits = some 0
  numParams : e.numParams = some 0

theorem SingleQubit.accepts (single : SingleQubit e) (some : 0 < c.numQubits) :
    c.Accepts { element := e } [0] [] where
  operation := single.operation
  nonempty := by simp
  numQubits := by simp [single.numQubits]
  numClbits := by simp [single.numClbits]
  numParams := by simp [single.numParams, Operation.params]
  nodup := by simp
  quantum := by simpa using some
  classical := by simp

theorem Circuit.Spells.addOperation (spells : c.Spells line (es ++ [.output]))
    (single : SingleQubit e) :
    ∃ line', ((Circuit.addOperation { element := e } [0] []).after c).Spells line'
      (es ++ [e] ++ [.output]) := by
  have some : 0 < c.numQubits := spells.numQubits ▸ Nat.one_pos
  have accepts := single.accepts some
  obtain ⟨line', grown⟩ := spells.layout.addOperation accepts
  obtain ⟨front, o, -, shape, shape'⟩ := spells.layout.appended accepts grown (w := 0) (by simp)
  have old : ∀ x ∈ line 0,
      ((Circuit.addOperation { element := e } [0] []).after c).records.operation? x =
        c.records.operation? x := by
    intro x member
    rw [Records.operation?_eq (congrFun grown.bare x), Records.operation?,
      Records.get?_push_of_lt _ (spells.layout.lt_size member), Records.operation?]
  have new : ((Circuit.addOperation { element := e } [0] []).after c).records.operation?
      c.records.size = plain e := by
    rw [Records.operation?_eq (congrFun grown.bare _), Records.operation?, Records.get?_push_size]
    rfl
  refine ⟨line', grown.layout, grown.numQubits.trans spells.numQubits,
    grown.numClbits.trans spells.numClbits, ?_⟩
  have word := spells.word
  rw [← List.map_congr_left old, shape, List.map_append, List.map_append (f := plain)] at word
  obtain ⟨before, tip⟩ := List.append_inj' word rfl
  rw [shape', List.map_append, List.map_cons, new, before, tip]
  simp

theorem exists_spells_ofElements (es : List Element) (single : ∀ e ∈ es, SingleQubit e) :
    ∃ line, (ofElements es).Spells line (.input :: es ++ [.output]) := by
  have grow : ∀ (front : List Element) (c : Circuit) (line : WireId → List VertexId),
      c.Spells line (front ++ [.output]) → ∃ line',
        (es.foldl (fun c e => (Circuit.addOperation { element := e } [0] []).after c) c).Spells
          line' (front ++ es ++ [.output]) := by
    induction es with
    | nil =>
        intro front c line spells
        exact ⟨line, by simpa using spells⟩
    | cons e es ih =>
        intro front c line spells
        rw [List.forall_mem_cons] at single
        obtain ⟨line', spells'⟩ := spells.addOperation single.1
        obtain ⟨line'', spells''⟩ := ih single.2 (front ++ [e]) _ line' spells'
        exact ⟨line'', by simpa using spells''⟩
  obtain ⟨line, layout⟩ := laidOut_blank 1 0 Binary64.zero
  refine grow [.input] _ line ⟨layout, rfl, rfl, ?_⟩
  rw [← layout.wireVertices_eq]
  rfl

/-! ## Nested pairs -/

def alternating (n : Nat) : List Element :=
  (List.range n).map fun i => if i % 2 = 0 then .h else .x

/-- Gates in turn and then the same gates backwards, so that the pairs are nested. -/
def nested (n : Nat) : Circuit := ofElements (alternating n ++ (alternating n).reverse)

theorem alternating_succ (n : Nat) :
    alternating (n + 1) = alternating n ++ [if n % 2 = 0 then .h else .x] := by
  simp [alternating, List.range_succ]

theorem mem_alternating {n : Nat} (member : e ∈ alternating n) : e = .h ∨ e = .x := by
  obtain ⟨i, -, rfl⟩ := List.mem_map.mp member
  split
  · exact .inl rfl
  · exact .inr rfl

theorem isChain_alternating (n : Nat) (anchored : e.isAnchor = true) :
    (e :: alternating n).IsChain (· ≠ ·) := by
  have apart : ∀ e' ∈ alternating n, e ≠ e' := by
    intro e' member same
    obtain rfl := same
    rcases mem_alternating member with rfl | rfl <;> cases anchored
  refine List.isChain_cons.mpr ⟨fun e' first => apart e' (List.mem_of_head? first), ?_⟩
  rw [alternating, List.isChain_map, List.isChain_iff_getElem]
  intro i bound
  simp only [List.getElem_range]
  split <;> split <;> first | omega | simp

theorem settlesAfter_of_spells {n : Nat} (h : accept .h = true) (x : accept .x = true)
    (spells : c.Spells line (.input :: (alternating n ++ (alternating n).reverse) ++ [.output])) :
    SettlesAfter c accept n := by
  induction n generalizing c line with
  | zero =>
      exact ⟨spells.settled (by decide) accept, fun j impossible => absurd impossible j.not_lt_zero⟩
  | succ n ih =>
      obtain ⟨e, next, accepted, operation⟩ : ∃ e, alternating (n + 1) = alternating n ++ [e] ∧
          accept e = true ∧ e.isAnchor = false := by
        refine ⟨_, alternating_succ n, ?_⟩
        split
        · exact ⟨h, rfl⟩
        · exact ⟨x, rfl⟩
      have shape : Element.input :: (alternating (n + 1) ++ (alternating (n + 1)).reverse) ++
          [.output] = (.input :: alternating n) ++ e :: e ::
            ((alternating n).reverse ++ [.output]) := by
        simp [next]
      have before : (Element.input :: alternating n ++ [e]).IsChain (· ≠ ·) := by
        rw [List.cons_append, ← next]
        exact isChain_alternating (n + 1) rfl
      have after : (e :: ((alternating n).reverse ++ [Element.output])).IsChain (· ≠ ·) := by
        have backwards := List.isChain_reverse.mpr
          ((isChain_alternating (n + 1) (e := .output) rfl).imp fun _ _ => Ne.symm)
        rw [next] at backwards
        simpa using backwards
      rw [shape] at spells
      obtain ⟨unsettled, line', swept⟩ := spells.sweepOnce before after operation accepted
      exact (settlesAfter_succ_iff unsettled).mpr (ih (by simpa using swept))

/-- Exactly as many sweeps find something as pairs are nested. -/
theorem settlesAfter_nested (n : Nat) : SettlesAfter (nested n) Element.isInvolution n := by
  have single : ∀ e ∈ alternating n ++ (alternating n).reverse, SingleQubit e := by
    intro e member
    rw [List.mem_append, List.mem_reverse, or_self] at member
    rcases mem_alternating member with rfl | rfl <;> exact ⟨rfl, rfl, rfl, rfl⟩
  obtain ⟨line, spells⟩ := exists_spells_ofElements _ single
  exact settlesAfter_of_spells rfl rfl spells

/-- Sweeps that begin where a pair cancels remove something. -/
theorem Circuit.LaidOut.numRemoved_lt (laid : c.LaidOut) (unsettled : ¬ c.Settled accept)
    (k : Nat) : c.numRemoved < ((sweepOnce accept)^[k + 1] c).numRemoved := by
  have grows : ∀ {c : Circuit}, c.LaidOut → ∀ k,
      c.numRemoved ≤ ((sweepOnce accept)^[k] c).numRemoved := by
    intro c laid k
    induction k generalizing c with
    | zero => exact Nat.le_refl _
    | succ k ih =>
        have first := (laid.numRemoved_sweepOnce accept).1
        exact (first ▸ Nat.le_add_right ..).trans (ih (laid.swept accept))
  have first := (laid.numRemoved_sweepOnce accept).1
  have some : 0 < (c.cancellablePairs accept).length := by
    rw [List.length_pos_iff]
    exact fun none => unsettled ((laid.settled_iff accept).mpr none)
  have rest := grows (laid.swept accept) k
  rw [Function.iterate_succ_apply]
  omega

/-- When more sweeps find something than a run has, a pair that cancels is left, and another run
removes something. -/
theorem unsettled_after_pass {pass : Pass} (cancels : Cancels pass accept) {s : Compilation}
    (laid : s.circuit.LaidOut) {k : Nat} (settles : SettlesAfter s.circuit accept k)
    (deep : maxSweeps < k) :
    ∃ s', pass.run.run s = .ok () s' ∧ (∃ v u, s'.circuit.Cancellable accept v u) ∧
      ∃ s'', pass.run.run s' = .ok () s'' ∧ s'.circuit.numRemoved < s''.circuit.numRemoved := by
  obtain ⟨pairs, run, -⟩ := settles.pass_run cancels laid
  have unsettled := settles.unsettled maxSweeps deep
  have laid' := laid.iterate_sweepOnce accept maxSweeps
  rw [Nat.min_eq_right deep.le] at run
  generalize (sweepOnce accept)^[maxSweeps] s.circuit = c' at run unsettled laid'
  refine ⟨_, run, ?_, ?_⟩
  · simpa [Circuit.Settled] using unsettled
  · obtain ⟨j, settles'⟩ := laid'.exists_settlesAfter accept
    cases j with
    | zero => exact absurd settles'.settled unsettled
    | succ j =>
        obtain ⟨pairs', run', -⟩ := settles'.pass_run (s := { s with
          circuit := c'
          properties := s.properties.addCancellation (.ofCounts pairs (min (k + 1) maxSweeps)) })
          cancels laid'
        have some : min (j + 1) maxSweeps = min j 99 + 1 := Nat.succ_min_succ j 99
        refine ⟨_, run', ?_⟩
        rw [some]
        exact laid'.numRemoved_lt unsettled _

theorem unsettled_nested {n : Nat} (deep : maxSweeps < n) :
    (nested n).Reachable ∧
      ∃ s', Pass.cancelInvolutions.run.run { circuit := nested n } = .ok () s' ∧
        (∃ v u, s'.circuit.Cancellable Element.isInvolution v u) ∧
        ∃ s'', Pass.cancelInvolutions.run.run s' = .ok () s'' ∧
          s'.circuit.numRemoved < s''.circuit.numRemoved := by
  have reachable : (nested n).Reachable := reachable_ofElements _
  exact ⟨reachable, unsettled_after_pass (s := { circuit := nested n }) .involutions
    reachable.laidOut (settlesAfter_nested n) deep⟩

/-- A hundred and one nested pairs are not settled by a run. -/
theorem unsettled_after_cancelInvolutions_nested :
    (nested 101).Reachable ∧
      ∃ s', Pass.cancelInvolutions.run.run { circuit := nested 101 } = .ok () s' ∧
        (∃ v u, s'.circuit.Cancellable Element.isInvolution v u) ∧
        ∃ s'', Pass.cancelInvolutions.run.run s' = .ok () s'' ∧
          s'.circuit.numRemoved < s''.circuit.numRemoved :=
  unsettled_nested (Nat.lt_succ_self 100)

end CircuitDag
