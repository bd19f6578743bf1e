import CircuitDag.Proofs.Pass.NormalForm
import Mathlib.Data.List.Flatten

/-!
# Pairs of one search

A vertex begins a chosen pair exactly if it cancels with its successor and does not end a chosen
pair itself. From this everything else follows: of each run of equal operations the pairs are chosen
from the front, no pair that cancels is missed, and the chosen pairs can be removed in any order.
-/

set_option autoImplicit false

namespace CircuitDag.Circuit

variable {c : Circuit} {line : WireId → List VertexId} {accept : Element → Bool}
  {u v x y : VertexId} {r : Record} {done run : List VertexId} {search : PairSearch}
  {pairs removed : List (VertexId × VertexId)}

/-! ## Partners -/

/-- The operation with which a vertex cancels, as it is looked up. -/
def partner? (c : Circuit) (accept : Element → Bool) (v : VertexId) : Option VertexId := do
  let r ← c.records.get? v
  if r.removed = false ∧ r.isAnchor = false ∧ accept r.element = true then
    c.cancellingPartner? v r
  else none

theorem Layout.partner?_eq_some_iff (layout : c.Layout line) :
    c.partner? accept v = some u ↔ c.Cancellable accept v u := by
  constructor
  · intro found
    obtain ⟨r, present, found⟩ := Option.bind_eq_some_iff.mp found
    obtain ⟨⟨kept, operation, accepted⟩, found⟩ := Option.ite_none_right_eq_some.mp found
    exact (layout.cancellingPartner?_eq_some_iff ⟨present, kept⟩ operation accepted).mp found
  · intro cancellable
    obtain ⟨r, s, live, operation, accepted, -⟩ := id cancellable
    refine Option.bind_eq_some_iff.mpr ⟨r, live.1, ?_⟩
    refine Option.ite_none_right_eq_some.mpr ⟨⟨live.2, operation, accepted⟩, ?_⟩
    exact (layout.cancellingPartner?_eq_some_iff live operation accepted).mpr cancellable

theorem Layout.partner_unique (layout : c.Layout line) (first : c.Cancellable accept v x)
    (second : c.Cancellable accept v y) : x = y :=
  Option.some.inj ((layout.partner?_eq_some_iff.mpr first).symm.trans
    (layout.partner?_eq_some_iff.mpr second))

theorem Layout.leader_unique (layout : c.Layout line) (first : c.Cancellable accept x v)
    (second : c.Cancellable accept y v) : x = y := by
  obtain ⟨r, s, twins⟩ := layout.cancellable_iff.mp first
  obtain ⟨r', s', twins'⟩ := layout.cancellable_iff.mp second
  obtain rfl := twins.right.unique twins'.right
  obtain ⟨w, member⟩ := List.exists_mem_of_ne_nil _ (layout.wired x r twins.left).nonempty
  have member' : w ∈ r'.wires := twins'.wires ▸ twins.wires.symm ▸ member
  exact (twins.adjacent w member).left_unique (twins'.adjacent w member') (layout.strung w).nodup

theorem Layout.before_of_cancellable (layout : c.Layout line)
    (cancellable : c.Cancellable accept v u) : Before c.topologicalVertices v u := by
  obtain ⟨r, s, twins⟩ := layout.cancellable_iff.mp cancellable
  obtain ⟨w, member⟩ := List.exists_mem_of_ne_nil _ (layout.wired v r twins.left).nonempty
  exact (twins.adjacent w member).before.trans (layout.linearizes.sublist w)

theorem mem_pairVertices : x ∈ pairVertices pairs ↔ ∃ v u, (v, u) ∈ pairs ∧ (x = v ∨ x = u) := by
  simp [pairVertices]

theorem nodup_of_pairVertices (unique : (pairVertices pairs).Nodup) : pairs.Nodup := by
  refine (List.nodup_flatMap.mp unique).2.imp fun {a b} apart same => ?_
  exact apart List.mem_cons_self (same ▸ List.mem_cons_self)

/-! ## The choice of a search -/

/-- Among the vertices that have been visited, those begin a pair that cancel with their successor
and do not end a pair. -/
def PairSearch.Greedy (c : Circuit) (accept : Element → Bool) (done : List VertexId)
    (search : PairSearch) : Prop :=
  ∀ v u, (v, u) ∈ search.pairs ↔
    v ∈ done ∧ c.Cancellable accept v u ∧ ∀ x, (x, v) ∉ search.pairs

/-- A vertex that begins no pair when its turn comes is passed over. -/
theorem PairSearch.Greedy.skip (greedy : search.Greedy c accept done)
    (held : (∃ x, (x, v) ∈ search.pairs) ∨ ∀ u, ¬ c.Cancellable accept v u)
    (fresh : v ∉ done) : search.Greedy c accept (done ++ [v]) := by
  intro a b
  rw [greedy a b, List.mem_append, List.mem_singleton]
  constructor
  · exact fun ⟨old, rest⟩ => ⟨.inl old, rest⟩
  · rintro ⟨old | rfl, cancellable, free⟩
    · exact ⟨old, cancellable, free⟩
    · rcases held with ⟨x, taken⟩ | alone
      · exact absurd taken (free x)
      · exact absurd cancellable (alone b)

/-- A vertex that ends no pair begins one with its partner. -/
theorem PairSearch.Greedy.take (greedy : search.Greedy c accept done) (layout : c.Layout line)
    (cancellable : c.Cancellable accept v u) (later : ∀ u, c.Cancellable accept v u → u ∉ done)
    (apart : ∀ x, (x, v) ∉ search.pairs) {search' : PairSearch}
    (grown : search'.pairs = search.pairs ++ [(v, u)]) :
    search'.Greedy c accept (done ++ [v]) := by
  intro a b
  simp only [grown, List.mem_append, List.mem_singleton, Prod.mk.injEq]
  constructor
  · rintro (old | ⟨rfl, rfl⟩)
    · obtain ⟨visited, pair, unled⟩ := (greedy a b).mp old
      refine ⟨.inl visited, pair, fun x taken => ?_⟩
      cases taken with
      | inl old => exact unled x old
      | inr new =>
          obtain ⟨-, rfl⟩ := new
          exact later a cancellable visited
    · refine ⟨.inr rfl, cancellable, fun x taken => ?_⟩
      cases taken with
      | inl old => exact apart x old
      | inr new =>
          obtain ⟨r, s, twins⟩ := layout.cancellable_iff.mp cancellable
          exact twins.ne layout new.2
  · rintro ⟨old | rfl, pair, unled⟩
    · exact .inl ((greedy a b).mpr ⟨old, pair, fun x taken => unled x (.inl taken)⟩)
    · exact .inr ⟨rfl, layout.partner_unique pair cancellable⟩

theorem PairSearch.Greedy.visit (greedy : search.Greedy c accept done) (layout : c.Layout line)
    (sound : search.Sound c accept) (live : c.records.Live v r) (operation : r.isAnchor = false)
    (fresh : v ∉ done) (later : ∀ u, c.Cancellable accept v u → u ∉ done) :
    (search.visit c accept v r).Greedy c accept (done ++ [v]) := by
  have begins : ∀ a b, (a, b) ∈ search.pairs → a ∈ done := fun a b member =>
    ((greedy a b).mp member).1
  unfold PairSearch.visit
  split
  · next skipped =>
      refine greedy.skip ?_ fresh
      rw [Bool.or_eq_true, List.contains_iff_mem, Bool.not_eq_true'] at skipped
      cases skipped with
      | inl taken =>
          obtain ⟨a, b, member, same⟩ := mem_pairVertices.mp ((sound.taken v).mp taken)
          rcases same with rfl | rfl
          · exact absurd (begins v b member) fresh
          · exact .inl ⟨a, member⟩
      | inr refused =>
          refine .inr fun u cancellable => ?_
          obtain ⟨r', -, live', -, accepted, -⟩ := cancellable
          rw [← live.unique live', refused] at accepted
          cases accepted
  · next chosen =>
      rw [Bool.or_eq_true, not_or, List.contains_iff_mem, Bool.not_eq_true', Bool.not_eq_false]
        at chosen
      obtain ⟨free, accepted⟩ := chosen
      have partner : ∀ u, c.cancellingPartner? v r = some u ↔ c.Cancellable accept v u := fun u =>
        layout.cancellingPartner?_eq_some_iff live operation accepted
      cases found : c.cancellingPartner? v r with
      | none =>
          refine greedy.skip (.inr fun u cancellable => ?_) fresh
          cases found.symm.trans ((partner u).mpr cancellable)
      | some u =>
          have cancellable := (partner u).mp found
          -- the successor cannot be in a pair: it is visited later, and no other vertex leads it
          have untaken : u ∉ search.taken := by
            intro taken
            obtain ⟨a, b, member, same⟩ := mem_pairVertices.mp ((sound.taken u).mp taken)
            rcases same with rfl | rfl
            · exact later u cancellable (begins u b member)
            · obtain rfl := layout.leader_unique (sound.cancellable a u member) cancellable
              exact fresh (begins a u member)
          have apart : ∀ x, (x, v) ∉ search.pairs := fun x member =>
            free ((sound.taken v).mpr (mem_pairVertices.mpr ⟨x, v, member, .inr rfl⟩))
          simp only [List.contains_iff_mem, untaken, ↓reduceIte]
          exact greedy.take layout cancellable later apart rfl

/-- A search along a listing in which every vertex comes before its partner. -/
theorem PairSearch.Greedy.foldl (layout : c.Layout line) {ops : List (VertexId × Record)}
    (operations : ∀ v r, (v, r) ∈ ops → c.records.Live v r ∧ r.isAnchor = false)
    (unique : (done ++ ops.map Prod.fst).Nodup)
    (ordered : ∀ v u, c.Cancellable accept v u → ¬ Before (done ++ ops.map Prod.fst) u v)
    (sound : search.Sound c accept) (greedy : search.Greedy c accept done) :
    (ops.foldl (fun (s : PairSearch) (v, r) => s.visit c accept v r) search).Greedy c accept
      (done ++ ops.map Prod.fst) := by
  induction ops generalizing done search with
  | nil => simpa using greedy
  | cons op ops ih =>
      obtain ⟨v, r⟩ := op
      obtain ⟨live, operation⟩ := operations v r List.mem_cons_self
      have split : done ++ ((v, r) :: ops).map Prod.fst = (done ++ [v]) ++ ops.map Prod.fst := by
        simp
      have fresh : v ∉ done := fun old =>
        (List.nodup_append.mp unique).2.2 v old v List.mem_cons_self rfl
      have later : ∀ u, c.Cancellable accept v u → u ∉ done := by
        intro u cancellable old
        obtain ⟨front, back, rfl⟩ := List.append_of_mem old
        exact ordered v u cancellable
          (before_iff.mpr ⟨front, back ++ v :: ops.map Prod.fst, by simp, by simp⟩)
      rw [split] at unique ordered ⊢
      exact ih (fun v r member => operations v r (List.mem_cons_of_mem _ member)) unique ordered
        (sound.visit layout live operation).1 (greedy.visit layout sound live operation fresh later)

theorem Layout.mem_cancellablePairs_iff (layout : c.Layout line) :
    (v, u) ∈ c.cancellablePairs accept ↔
      c.Cancellable accept v u ∧ ∀ x, (x, v) ∉ c.cancellablePairs accept := by
  have listed : (c.topologicalOperations.map Prod.fst).Sublist c.topologicalVertices :=
    (List.filter_sublist.map Prod.fst).trans (c.records.map_fst_select_sublist _)
  have unique := layout.linearizes.nodup.sublist listed
  have ordered : ∀ v u, c.Cancellable accept v u →
      ¬ Before (c.topologicalOperations.map Prod.fst) u v := fun v u cancellable before =>
    (layout.before_of_cancellable cancellable).asymm layout.linearizes.nodup (before.trans listed)
  have start : ({} : PairSearch).Sound c accept :=
    ⟨by simp, by simp [pairVertices], by simp [pairVertices]⟩
  have greedy : (c.topologicalOperations.foldl
      (fun (s : PairSearch) (v, r) => s.visit c accept v r) {}).Greedy c accept
        ([] ++ c.topologicalOperations.map Prod.fst) :=
    PairSearch.Greedy.foldl layout (fun v r => layout.mem_topologicalOperations.mp) unique ordered
      start (by simp [PairSearch.Greedy])
  refine (greedy v u).trans ?_
  constructor
  · exact And.right
  · intro given
    obtain ⟨r, s, live, operation, -⟩ := id given.1
    exact ⟨List.mem_map.mpr ⟨(v, r), layout.mem_topologicalOperations.mpr ⟨live, operation⟩, rfl⟩,
      given⟩

/-! ## Runs of equal operations -/

/-- A run of operations each of which cancels with the next one, and that cannot be continued on
either side. -/
structure MaximalRun (c : Circuit) (accept : Element → Bool) (run : List VertexId) : Prop where
  linked : ∀ v u, Adjacent run v u → c.Cancellable accept v u
  begins : ∀ v, run.head? = some v → ∀ x, ¬ c.Cancellable accept x v
  ends : ∀ v, run.getLast? = some v → ∀ x, ¬ c.Cancellable accept v x

/-- The elements of a list in pairs, from the front. -/
def inPairs : List VertexId → List (VertexId × VertexId)
  | v :: u :: rest => (v, u) :: inPairs rest
  | _ => []

theorem length_inPairs : ∀ run : List VertexId, (inPairs run).length = run.length / 2
  | [] => rfl
  | [_] => by simp [inPairs]
  | _ :: _ :: rest => by
      rw [inPairs, List.length_cons, length_inPairs rest, List.length_cons, List.length_cons]
      omega

theorem mem_of_mem_inPairs : ∀ {run : List VertexId}, (v, u) ∈ inPairs run → v ∈ run ∧ u ∈ run
  | a :: b :: rest, member => by
      rw [inPairs, List.mem_cons] at member
      cases member with
      | inl same =>
          obtain ⟨rfl, rfl⟩ := Prod.mk.inj same
          simp
      | inr later =>
          obtain ⟨left, right⟩ := mem_of_mem_inPairs later
          simp [left, right]

theorem nodup_inPairs : ∀ {run : List VertexId}, run.Nodup → (inPairs run).Nodup
  | [], _ => List.nodup_nil
  | [_], _ => List.nodup_nil
  | v :: u :: rest, unique => by
      rw [inPairs, List.nodup_cons]
      rw [List.nodup_cons, List.nodup_cons] at unique
      refine ⟨fun member => unique.1 ?_, nodup_inPairs unique.2.2⟩
      exact List.mem_cons_of_mem u (mem_of_mem_inPairs member).1

/-- The pairs that begin in a run are its elements in pairs, from the front. -/
theorem Layout.mem_inPairs_iff (layout : c.Layout line) : ∀ {run : List VertexId},
    (∀ v u, Adjacent run v u → c.Cancellable accept v u) →
    (∀ v, run.head? = some v → ∀ x, (x, v) ∉ c.cancellablePairs accept) →
    (∀ v, run.getLast? = some v → ∀ x, ¬ c.Cancellable accept v x) →
    ((v, u) ∈ inPairs run ↔ (v, u) ∈ c.cancellablePairs accept ∧ v ∈ run)
  | [], _, _, _ => by simp [inPairs]
  | [a], _, _, ends => by
      refine ⟨nofun, fun ⟨chosen, member⟩ => ?_⟩
      obtain rfl := List.mem_singleton.mp member
      exact absurd (layout.mem_cancellablePairs_iff.mp chosen).1 (ends v rfl u)
  | a :: b :: rest, linked, begins, ends => by
      have first := linked a b (adjacent_cons.mpr (.inl ⟨rfl, rfl⟩))
      have chosen : (a, b) ∈ c.cancellablePairs accept :=
        layout.mem_cancellablePairs_iff.mpr ⟨first, begins a rfl⟩
      have unled : ∀ x, (b, x) ∉ c.cancellablePairs accept := fun x second =>
        (layout.mem_cancellablePairs_iff.mp second).2 a chosen
      have further : ((v, u) ∈ inPairs rest ↔ (v, u) ∈ c.cancellablePairs accept ∧ v ∈ rest) := by
        refine layout.mem_inPairs_iff (fun v u adjacent => linked v u ?_) ?_ ?_
        · exact adjacent_cons.mpr (.inr (adjacent_cons.mpr (.inr adjacent)))
        · intro v head x taken
          have next := linked b v (adjacent_cons.mpr (.inr (adjacent_cons.mpr (.inl ⟨rfl, head⟩))))
          obtain rfl := layout.leader_unique (layout.mem_cancellablePairs_iff.mp taken).1 next
          exact unled v taken
        · intro v last
          refine ends v ?_
          cases rest with
          | nil => cases last
          | cons d rest => rwa [List.getLast?_cons_cons, List.getLast?_cons_cons]
      rw [inPairs, List.mem_cons, further, List.mem_cons, List.mem_cons]
      constructor
      · rintro (same | ⟨taken, member⟩)
        · obtain ⟨rfl, rfl⟩ := Prod.mk.inj same
          exact ⟨chosen, .inl rfl⟩
        · exact ⟨taken, .inr (.inr member)⟩
      · rintro ⟨taken, rfl | rfl | member⟩
        · exact .inl (congrArg _ (layout.partner_unique
            (layout.mem_cancellablePairs_iff.mp taken).1 first))
        · exact absurd taken (unled u)
        · exact .inr ⟨taken, member⟩

/-- A run comes in the order of the listing, so no vertex is in it twice. -/
theorem MaximalRun.nodup (maximal : c.MaximalRun accept run) (layout : c.Layout line) :
    run.Nodup := by
  match run with
  | [] => exact List.nodup_nil
  | [v] => exact List.nodup_singleton v
  | v :: u :: rest =>
      have steps : ∀ a b, Adjacent (v :: u :: rest) a b → Before c.topologicalVertices a b :=
        fun a b adjacent => layout.before_of_cancellable (maximal.linked a b adjacent)
      refine layout.linearizes.nodup.sublist
        (sublist_of_before layout.linearizes.nodup (fun x head => ?_) steps)
      obtain rfl := Option.some.inj head
      exact (steps v u (adjacent_cons.mpr (.inl ⟨rfl, rfl⟩))).mem.1

/-- The pairs with a member in a run are in it with both members, and they are half as many as the
operations of the run. -/
theorem MaximalRun.halved (maximal : c.MaximalRun accept run) (layout : c.Layout line) :
    (∀ v u, (v, u) ∈ c.cancellablePairs accept → (v ∈ run ↔ u ∈ run)) ∧
      (c.cancellablePairs accept).countP (fun pair => pair.1 ∈ run) = run.length / 2 := by
  have chosen : ∀ v u, (v, u) ∈ inPairs run ↔ (v, u) ∈ c.cancellablePairs accept ∧ v ∈ run := by
    refine fun v u => layout.mem_inPairs_iff maximal.linked (fun a head x taken => ?_) maximal.ends
    exact maximal.begins a head x (layout.mem_cancellablePairs_iff.mp taken).1
  refine ⟨fun v u taken => ⟨fun member => ?_, fun member => ?_⟩, ?_⟩
  · exact (mem_of_mem_inPairs ((chosen v u).mpr ⟨taken, member⟩)).2
  · have cancellable := (layout.mem_cancellablePairs_iff.mp taken).1
    rcases exists_adjacent_left member with head | ⟨x, adjacent⟩
    · exact absurd cancellable (maximal.begins u head v)
    · obtain rfl := layout.leader_unique (maximal.linked x u adjacent) cancellable
      exact adjacent.mem_left
  · have unique := nodup_of_pairVertices (layout.cancellablePairs_spec accept).2.1
    rw [List.countP_eq_length_filter, ← length_inPairs]
    refine List.Perm.length_eq ((List.perm_ext_iff_of_nodup (unique.filter _)
      (nodup_inPairs (maximal.nodup layout))).mpr fun (v, u) => ?_)
    rw [chosen, List.mem_filter, decide_eq_true_iff]

/-! ## Removing some of the pairs -/

theorem nodup_pairVertices_of_subset (unique : (pairVertices pairs).Nodup)
    (distinct : removed.Nodup) (subset : removed ⊆ pairs) : (pairVertices removed).Nodup := by
  obtain ⟨part, perm, included⟩ := List.subperm_of_subset distinct subset
  exact (perm.flatMap_right _).nodup_iff.mp (unique.sublist (included.flatMap _))

/-- A pair that stays has no vertex in common with the pairs that are removed. -/
theorem not_mem_pairVertices_of_subset (unique : (pairVertices pairs).Nodup)
    (distinct : removed.Nodup) (subset : removed ⊆ pairs) (member : (v, u) ∈ pairs)
    (stays : (v, u) ∉ removed) : v ∉ pairVertices removed ∧ u ∉ pairVertices removed := by
  have together : (pairVertices ((v, u) :: removed)).Nodup :=
    nodup_pairVertices_of_subset unique (distinct.cons stays)
      (List.cons_subset.mpr ⟨member, subset⟩)
  have split : pairVertices ((v, u) :: removed) = [v, u] ++ pairVertices removed := rfl
  rw [split] at together
  obtain ⟨-, -, apart⟩ := List.nodup_append.mp together
  exact ⟨fun inside => apart v (by simp) v inside rfl, fun inside => apart u (by simp) u inside rfl⟩

/-- Some of the chosen pairs are removed in some order. The others still cancel, and each of them
can be removed. -/
theorem Layout.removeSome (layout : c.Layout line) (distinct : removed.Nodup)
    (subset : removed ⊆ c.cancellablePairs accept) :
    ∃ d, (CircuitDag.removePairs removed).run c = .ok () d ∧
      ∀ v u, (v, u) ∈ c.cancellablePairs accept → (v, u) ∉ removed →
        d.Cancellable accept v u ∧ ∃ e, (removeBlock [v, u]).run d = .ok () e := by
  obtain ⟨cancellable, unique, -⟩ := layout.cancellablePairs_spec accept
  obtain ⟨d, run, without⟩ := layout.removePairs
    (fun v u member => cancellable v u (subset member))
    (nodup_pairVertices_of_subset unique distinct subset)
  refine ⟨d, run, fun v u member stays => ?_⟩
  obtain ⟨left, right⟩ := not_mem_pairVertices_of_subset unique distinct subset member stays
  have still := (cancellable v u member).without layout without left right
  obtain ⟨r, s, twins⟩ := without.layout.cancellable_iff.mp still
  obtain ⟨e, removal, -⟩ := without.layout.removePair twins
  exact ⟨still, e, removal⟩

/-! ## The pairs of one search -/

/-- The pairs of one search are disjoint and cancel, every pair that cancels has a member in one of
them, and of every longest run of equal operations they take half, rounded down. Whichever of them
are removed first, the others can still be removed. -/
theorem cancellablePairs_independent (reachable : c.Reachable) (accept : Element → Bool) :
    let pairs := c.cancellablePairs accept
    (pairVertices pairs).Nodup ∧
    (∀ v u, (v, u) ∈ pairs → c.Cancellable accept v u) ∧
    (∀ v u, c.Cancellable accept v u → v ∈ pairVertices pairs) ∧
    (∀ run, c.MaximalRun accept run →
      (∀ v u, (v, u) ∈ pairs → (v ∈ run ↔ u ∈ run)) ∧
      pairs.countP (fun pair => pair.1 ∈ run) = run.length / 2) ∧
    ∀ removed : List (VertexId × VertexId), removed.Nodup → removed ⊆ pairs →
      ∃ d, (CircuitDag.removePairs removed).run c = .ok () d ∧
        ∀ v u, (v, u) ∈ pairs → (v, u) ∉ removed →
          d.Cancellable accept v u ∧ ∃ e, (removeBlock [v, u]).run d = .ok () e := by
  obtain ⟨line, layout⟩ := reachable.laidOut
  obtain ⟨cancellable, unique, -⟩ := layout.cancellablePairs_spec accept
  refine ⟨unique, cancellable, fun v u given => ?_, fun run maximal => maximal.halved layout,
    fun removed distinct subset => layout.removeSome distinct subset⟩
  by_cases led : ∃ x, (x, v) ∈ c.cancellablePairs accept
  · obtain ⟨x, member⟩ := led
    exact mem_pairVertices.mpr ⟨x, v, member, .inr rfl⟩
  · have chosen := layout.mem_cancellablePairs_iff.mpr ⟨given, fun x member => led ⟨x, member⟩⟩
    exact mem_pairVertices.mpr ⟨v, u, chosen, .inl rfl⟩

/-- Three equal operations in a row are a longest run, and one pair of them is chosen. -/
theorem one_pair_of_tripleCX :
    tripleCX.Reachable ∧ tripleCX.MaximalRun (· = .cx) [4, 5, 6] ∧
    (tripleCX.cancellablePairs (· = .cx)).countP (fun pair => pair.1 ∈ [4, 5, 6]) = 1 ∧
    [(4, 5)] ⊆ tripleCX.cancellablePairs (· = .cx) ∧
    ∃ d, (CircuitDag.removePairs [(4, 5)]).run tripleCX = .ok () d := by
  have reachable : tripleCX.Reachable := reachable_doubleCX.change _
  obtain ⟨-, -, -, runs, removals⟩ := cancellablePairs_independent reachable (· = .cx)
  have chosen : tripleCX.cancellablePairs (· = .cx) = [(4, 5)] := by decide +kernel
  have run : tripleCX.MaximalRun (· = .cx) [4, 5, 6] := by
    obtain ⟨line, layout⟩ := reachable.laidOut
    have partners : ∀ v < tripleCX.records.size, tripleCX.partner? (· = .cx) v =
        if v = 4 then some 5 else if v = 5 then some 6 else none := by decide +kernel
    have cancellable : ∀ v u, tripleCX.Cancellable (· = .cx) v u ↔
        v = 4 ∧ u = 5 ∨ v = 5 ∧ u = 6 := by
      intro v u
      rcases Nat.lt_or_ge v tripleCX.records.size with inside | outside
      · rw [← layout.partner?_eq_some_iff, partners v inside]
        grind
      · have size : tripleCX.records.size = 7 := by decide +kernel
        refine ⟨fun ⟨r, s, live, _⟩ => absurd live.lt_size outside.not_gt, fun given => ?_⟩
        rw [size] at outside
        grind
    refine ⟨fun v u adjacent => ?_, fun v head x => ?_, fun v last x => ?_⟩
    · rw [cancellable]
      simpa [adjacent_cons, not_adjacent_nil, eq_comm] using adjacent
    · obtain rfl := Option.some.inj head
      simp [cancellable]
    · obtain rfl := Option.some.inj last
      simp [cancellable]
  refine ⟨reachable, run, (runs _ run).2, chosen ▸ List.Subset.refl _, ?_⟩
  obtain ⟨d, removal, -⟩ := removals [(4, 5)] (by simp) (by simp [chosen])
  exact ⟨d, removal⟩

end CircuitDag.Circuit
