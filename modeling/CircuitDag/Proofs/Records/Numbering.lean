import CircuitDag.Circuit.Block
import CircuitDag.Proofs.Records.Extent

/-!
# Numbering the kept records

A compaction gives the live vertices the numbers from zero on, in order. `Moves` says what the
records look like afterwards: each of them is the record of one live vertex, with the numbers of its
neighbours replaced.
-/

set_option autoImplicit false

namespace CircuitDag

section Numbers

variable {α : Type} {p : α → Bool}

theorem getElem?_filter_iff {l : List α} {k : Nat} {x : α} :
    (l.filter p)[k]? = some x ↔
      ∃ i, l[i]? = some x ∧ p x = true ∧ (l.take i).countP p = k := by
  induction l generalizing k with
  | nil => simp
  | cons y l ih =>
      cases kept : p y with
      | false =>
          rw [List.filter_cons_of_neg (by simp [kept]), ih]
          constructor
          · intro given
            obtain ⟨i, position, holds, count⟩ := given
            exact ⟨i + 1, position, holds, by simpa [List.countP_cons, kept] using count⟩
          · intro given
            obtain ⟨i, position, holds, count⟩ := given
            cases i with
            | zero =>
                obtain rfl : y = x := by simpa using position
                cases kept.symm.trans holds
            | succ i => exact ⟨i, position, holds, by simpa [List.countP_cons, kept] using count⟩
      | true =>
          rw [List.filter_cons_of_pos kept]
          cases k with
          | zero =>
              constructor
              · intro first
                obtain rfl : y = x := by simpa using first
                exact ⟨0, rfl, kept, rfl⟩
              · intro given
                obtain ⟨i, position, holds, count⟩ := given
                cases i with
                | zero => simpa using position
                | succ i => simp [kept] at count
          | succ k =>
              rw [List.getElem?_cons_succ, ih]
              constructor
              · intro given
                obtain ⟨i, position, holds, count⟩ := given
                exact ⟨i + 1, position, holds, by simpa [List.countP_cons, kept] using count⟩
              · intro given
                obtain ⟨i, position, holds, count⟩ := given
                cases i with
                | zero => simp at count
                | succ i =>
                    exact ⟨i, position, holds, by simpa [List.countP_cons, kept] using count⟩

theorem countP_take_lt {l : List α} {i j : Nat} {x : α} (position : l[i]? = some x)
    (kept : p x = true) (less : i < j) : (l.take i).countP p < (l.take j).countP p := by
  have next : (l.take (i + 1)).countP p = (l.take i).countP p + 1 := by
    rw [List.take_add_one, position, List.countP_append]
    simp [kept]
  have later : (l.take (i + 1)).countP p ≤ (l.take j).countP p :=
    (List.take_prefix_take_left less).sublist.countP_le
  omega

theorem position_of_count {l : List α} {i j : Nat} {x y : α} (left : l[i]? = some x)
    (right : l[j]? = some y) (leftKept : p x = true) (rightKept : p y = true)
    (same : (l.take i).countP p = (l.take j).countP p) : i = j := by
  rcases Nat.lt_trichotomy i j with less | equal | greater
  · exact absurd same (Nat.ne_of_lt (countP_take_lt left leftKept less))
  · exact equal
  · exact absurd same.symm (Nat.ne_of_lt (countP_take_lt right rightKept greater))

theorem foldl_number (kept : List Bool) (next : Nat) (out : List (Option VertexId)) :
    ∃ numbered : List (Option VertexId), (kept.foldl (fun (next, out) keep =>
        if keep then (next + 1, out ++ [some next]) else (next, out ++ [none])) (next, out)).2 =
          out ++ numbered ∧
      (∀ i : Nat, numbered[i]? = kept[i]?.map fun keep : Bool =>
        if keep then some (next + (kept.take i).countP id) else none) ∧
      numbered.countP Option.isSome = kept.countP id := by
  induction kept generalizing next out with
  | nil => exact ⟨[], by simp, by simp, rfl⟩
  | cons keep kept ih =>
      cases keep with
      | true =>
          obtain ⟨numbered, result, entries, count⟩ := ih (next + 1) (out ++ [some next])
          refine ⟨some next :: numbered, ?_, ?_, by simp [count]⟩
          · rw [List.foldl_cons]
            simpa using result
          · intro i
            cases i with
            | zero => simp
            | succ i => simp [entries i, Nat.add_assoc, Nat.add_comm 1]
      | false =>
          obtain ⟨numbered, result, entries, count⟩ := ih next (out ++ [none])
          refine ⟨none :: numbered, ?_, ?_, by simp [count]⟩
          · rw [List.foldl_cons]
            simpa using result
          · intro i
            cases i with
            | zero => simp
            | succ i => simp [entries i]

/-- Each kept element gets the number of kept elements before it. -/
theorem getElem?_number (kept : List Bool) (i : Nat) :
    (VertexMap.number kept)[i]? = kept[i]?.map fun keep =>
      if keep then some ((kept.take i).countP id) else none := by
  obtain ⟨numbered, result, entries, -⟩ := foldl_number kept 0 []
  rw [VertexMap.number, result, List.nil_append, entries]
  simp only [Nat.zero_add]

end Numbers

theorem Record.ports_renumber (r : Record) (target? : VertexId → Option VertexId) (side : Side) :
    (r.renumber target?).ports side = (r.ports side).map fun port? =>
      port?.bind fun port => (target? port.vertex).map fun v => ⟨v, port.index⟩ := by
  have move : ∀ port? : Option Port, (do
      let port ← port?
      return ⟨← target? port.vertex, port.index⟩ : Option Port) =
        port?.bind fun port => (target? port.vertex).map fun v => ⟨v, port.index⟩ := by
    rintro (_ | port)
    · rfl
    · cases renamed : target? port.vertex <;> simp [renamed]
  cases side with
  | incoming => exact List.map_congr_left fun port? _ => move port?
  | outgoing => exact List.map_congr_left fun port? _ => move port?

theorem Record.port?_renumber (r : Record) (target? : VertexId → Option VertexId) (side : Side)
    (i : Nat) : (r.renumber target?).port? side i =
      (r.port? side i).bind fun port => (target? port.vertex).map fun v => ⟨v, port.index⟩ := by
  rw [Record.port?, Record.port?, ports_renumber, List.getElem?_map]
  rcases (r.ports side)[i]? with _ | _ | port <;> rfl

theorem Record.length_ports_renumber (r : Record) (target? : VertexId → Option VertexId)
    (side : Side) : ((r.renumber target?).ports side).length = (r.ports side).length := by
  rw [ports_renumber, List.length_map]

namespace Records

variable {rs rs' : Records} {target? : VertexId → Option VertexId} {u v k : VertexId} {r s : Record}
  {w : WireId} {l : List VertexId} {side : Side}

/-- The records after the live vertices have got new numbers and the others none. -/
structure Moves (rs rs' : Records) (target? : VertexId → Option VertexId) : Prop where
  old : ∀ v k, target? v = some k → ∃ r, rs.Live v r ∧ rs'.Live k (r.renumber target?)
  total : ∀ v r, rs.Live v r → ∃ k, target? v = some k
  new : ∀ k s, rs'.get? k = some s → ∃ v r, target? v = some k ∧ rs.Live v r ∧
    s = r.renumber target?
  injective : ∀ u v k, target? u = some k → target? v = some k → u = v

/-- A live vertex gets the number of live vertices before it. -/
theorem get?_ofRecords : (VertexMap.ofRecords rs).get? v = some k ↔
    ∃ r, rs.Live v r ∧ (rs.rows.toList.take v).countP (fun r => !r.removed) = k := by
  simp only [VertexMap.get?, VertexMap.ofRecords, List.getElem?_toArray, getElem?_number,
    List.getElem?_map, Array.getElem?_toList, ← List.map_take, List.countP_map, Live, get?]
  cases rs.rows[v]? with
  | none => simp
  | some r =>
      cases removed : r.removed with
      | true => simp [removed]
      | false =>
          simp only [Option.map_some, removed, Bool.not_false, ↓reduceIte, Option.join_some,
            Option.some.injEq, exists_eq_left', and_assoc, Function.comp_def, id_eq,
            true_and]

theorem moves_renumber (rs : Records) :
    rs.Moves (rs.renumber (VertexMap.ofRecords rs).get?) (VertexMap.ofRecords rs).get? := by
  have lookup : ∀ k s, (rs.renumber (VertexMap.ofRecords rs).get?).get? k = some s ↔
      ∃ r, (rs.rows.toList.filter fun r => !r.removed)[k]? = some r ∧
        s = r.renumber (VertexMap.ofRecords rs).get? := by
    intro k s
    rw [get?, Records.renumber, Array.getElem?_map, ← Array.getElem?_toList,
      Array.toList_filter, Option.map_eq_some_iff]
    exact exists_congr fun r => and_congr_right fun _ => eq_comm
  constructor
  · intro v k found
    obtain ⟨r, live, count⟩ := get?_ofRecords.mp found
    have position : rs.rows.toList[v]? = some r := (Array.getElem?_toList ..).trans live.1
    refine ⟨r, live, (lookup k _).mpr ⟨r, ?_, rfl⟩, live.2⟩
    exact getElem?_filter_iff.mpr ⟨v, position, by simp [live.2], count⟩
  · intro v r live
    exact ⟨_, get?_ofRecords.mpr ⟨r, live, rfl⟩⟩
  · intro k s found
    obtain ⟨r, position, rfl⟩ := (lookup k s).mp found
    obtain ⟨v, position, kept, count⟩ := getElem?_filter_iff.mp position
    have live : rs.Live v r := ⟨(Array.getElem?_toList ..).symm.trans position, by simpa using kept⟩
    exact ⟨v, r, get?_ofRecords.mpr ⟨r, live, count⟩, live, rfl⟩
  · intro u v k left right
    obtain ⟨r, live, count⟩ := get?_ofRecords.mp left
    obtain ⟨s, live', count'⟩ := get?_ofRecords.mp right
    exact position_of_count ((Array.getElem?_toList ..).trans live.1)
      ((Array.getElem?_toList ..).trans live'.1) (by simp [live.2]) (by simp [live'.2])
      (count.trans count'.symm)

theorem size_renumber_eq_countP (rs : Records) (target? : VertexId → Option VertexId) :
    (rs.renumber target?).size = rs.rows.toList.countP fun r => !r.removed := by
  simp only [Records.renumber, size, Array.size_map]
  rw [← Array.length_toList, Array.toList_filter, List.countP_eq_length_filter]

theorem numKept_ofRecords (rs : Records) (target? : VertexId → Option VertexId) :
    (VertexMap.ofRecords rs).numKept = (rs.renumber target?).size := by
  obtain ⟨numbered, result, -, count⟩ :=
    foldl_number (rs.rows.toList.map fun r => !r.removed) 0 []
  rw [size_renumber_eq_countP]
  simp only [VertexMap.numKept, VertexMap.ofRecords, VertexMap.number, result, List.nil_append,
    count, List.countP_map, Function.comp_def, id_eq]

/-- The numbers rise with the vertices. -/
theorem lt_of_ofRecords {j : VertexId} (left : (VertexMap.ofRecords rs).get? u = some j)
    (right : (VertexMap.ofRecords rs).get? v = some k) (less : u < v) : j < k := by
  obtain ⟨r, live, rfl⟩ := get?_ofRecords.mp left
  obtain ⟨-, -, rfl⟩ := get?_ofRecords.mp right
  exact countP_take_lt ((Array.getElem?_toList ..).trans live.1) (by simp [live.2]) less

/-- Without tombstones every vertex keeps its number. -/
theorem get?_ofRecords_of_kept (kept : ∀ v r, rs.get? v = some r → r.removed = false)
    (v : VertexId) : (VertexMap.ofRecords rs).get? v = if v < rs.size then some v else none := by
  by_cases bound : v < rs.size
  · have found : rs.get? v = some rs.rows[v] := Array.getElem?_eq_getElem bound
    have all : (rs.rows.toList.take v).countP (fun r => !r.removed) = v := by
      rw [List.countP_eq_length.mpr, List.length_take, Array.length_toList]
      · exact Nat.min_eq_left (Nat.le_of_lt bound)
      · intro r member
        obtain ⟨i, position⟩ := List.getElem?_of_mem (List.mem_of_mem_take member)
        simp [kept i r ((Array.getElem?_toList ..).symm.trans position)]
    rw [if_pos bound]
    exact get?_ofRecords.mpr ⟨_, ⟨found, kept v _ found⟩, all⟩
  · rw [if_neg bound, Option.eq_none_iff_forall_not_mem]
    intro k given
    obtain ⟨r, live, -⟩ := get?_ofRecords.mp given
    exact bound live.lt_size

theorem size_renumber (rs : Records) (target? : VertexId → Option VertexId) :
    (rs.renumber target?).size = rs.size - rs.numTombstones := by
  have flags : (List.range rs.size).map rs.isRemoved = rs.rows.toList.map Record.removed := by
    refine List.ext_getElem (by simp [size]) fun v left right => ?_
    have bound : v < rs.rows.size := by simpa using right
    have found : rs.get? v = some rs.rows[v] := Array.getElem?_eq_getElem bound
    simp [isRemoved, found]
  have removed : rs.numTombstones = rs.rows.toList.countP Record.removed := by
    have counted := congrArg (List.countP id) flags
    rwa [List.countP_map, List.countP_map] at counted
  have total : rs.size = rs.numTombstones + (rs.renumber target?).size := by
    rw [removed, size_renumber_eq_countP, size, ← Array.length_toList]
    simpa only [decide_not, Bool.decide_eq_true] using
      List.length_eq_countP_add_countP Record.removed
  omega

/-- The new numbers are those below the number of records that are left. -/
theorem Moves.exists_iff (moves : rs.Moves rs' target?) :
    (∃ v, target? v = some k) ↔ k < rs'.size := by
  constructor
  · intro given
    obtain ⟨v, renumbered⟩ := given
    obtain ⟨r, -, live⟩ := moves.old v k renumbered
    exact live.lt_size
  · intro bound
    obtain ⟨v, -, renumbered, -⟩ := moves.new k _ (Array.getElem?_eq_getElem bound)
    exact ⟨v, renumbered⟩

/-! ## What a move does to wires -/

theorem Moves.live (moves : rs.Moves rs' target?) (found : rs'.get? k = some s) : rs'.Live k s := by
  obtain ⟨v, r, renumbered, live, rfl⟩ := moves.new k s found
  exact ⟨found, live.2⟩

theorem Moves.portOn_eq (moves : rs.Moves rs' target?) (renumbered : target? v = some k)
    (w : WireId) : rs'.portOn w k = ⟨k, (rs.portOn w v).index⟩ := by
  obtain ⟨r, live, live'⟩ := moves.old v k renumbered
  rw [Records.portOn_eq live'.1, Records.portOn_eq live.1]
  rfl

theorem Moves.facing_eq (moves : rs.Moves rs' target?) (renumbered : target? v = some k)
    (side : Side) (w : WireId) : rs'.facing side (rs'.portOn w k) =
      (rs.facing side (rs.portOn w v)).bind fun port =>
        (target? port.vertex).map fun u => ⟨u, port.index⟩ := by
  obtain ⟨r, live, live'⟩ := moves.old v k renumbered
  rw [moves.portOn_eq renumbered]
  simp only [facing, Records.port?, live'.1, portOn_vertex, live.1, Option.bind_some]
  exact Record.port?_renumber r target? side _

theorem Moves.shaped (moves : rs.Moves rs' target?) (shaped : rs.Shaped) : rs'.Shaped := by
  constructor
  intro k s found side
  obtain ⟨v, r, -, live, rfl⟩ := moves.new k s found
  rw [Record.length_ports_renumber]
  exact shaped.length_ports v r live.1 side

theorem Moves.carries (moves : rs.Moves rs' target?) (renumbered : target? v = some k) :
    rs'.Carries k w ↔ rs.Carries v w := by
  obtain ⟨r, live, live'⟩ := moves.old v k renumbered
  constructor
  · intro given
    obtain ⟨s, found, member⟩ := given
    obtain rfl := found.unique live'
    exact ⟨r, live, member⟩
  · intro given
    obtain ⟨s, found, member⟩ := given
    obtain rfl := found.unique live
    exact ⟨_, live', member⟩

theorem Moves.strung (moves : rs.Moves rs' target?) (strung : rs.Strung w l)
    {moved : VertexId → VertexId} (agrees : ∀ v ∈ l, target? v = some (moved v)) :
    rs'.Strung w (l.map moved) := by
  have linked : ∀ {side : Side} {u v : VertexId}, u ∈ l → v ∈ l →
      rs.facing side (rs.portOn w u) = some (rs.portOn w v) →
      rs'.facing side (rs'.portOn w (moved u)) = some (rs'.portOn w (moved v)) := by
    intro side u v inU inV facing
    rw [moves.facing_eq (agrees u inU), facing, moves.portOn_eq (agrees v inV)]
    simp only [Option.bind_some, portOn_vertex, agrees v inV, Option.map_some]
  have free : ∀ {side : Side} {v : VertexId}, v ∈ l → rs.facing side (rs.portOn w v) = none →
      rs'.facing side (rs'.portOn w (moved v)) = none := by
    intro side v member facing
    rw [moves.facing_eq (agrees v member), facing]
    rfl
  constructor
  · constructor
    · refine strung.nodup.map_on fun u inU v inV same => ?_
      exact moves.injective u v (moved v) (same ▸ agrees u inU) (agrees v inV)
    · intro k member
      obtain ⟨v, inside, rfl⟩ := List.mem_map.mp member
      exact (moves.carries (agrees v inside)).mpr (strung.carried v inside)
    · intro x y adjacent
      obtain ⟨u, v, before, rfl, rfl⟩ := adjacent_map.mp adjacent
      exact linked before.mem_left before.mem_right (strung.outgoing u v before)
    · intro x y adjacent
      obtain ⟨u, v, before, rfl, rfl⟩ := adjacent_map.mp adjacent
      exact linked before.mem_right before.mem_left (strung.incoming u v before)
  · intro k first
    rw [List.head?_map, Option.map_eq_some_iff] at first
    obtain ⟨v, first, rfl⟩ := first
    exact free (List.mem_of_head? first) (strung.first v first)
  · intro k last
    rw [List.getLast?_map, Option.map_eq_some_iff] at last
    obtain ⟨v, last, rfl⟩ := last
    exact free (List.mem_of_getLast? last) (strung.last v last)

theorem Moves.numTombstones (moves : rs.Moves rs' target?) : rs'.numTombstones = 0 := by
  rw [Records.numTombstones, List.countP_eq_zero]
  intro k member removed
  obtain ⟨s, found, gone⟩ := isRemoved_iff.mp removed
  cases (moves.live found).2.symm.trans gone

end Records

end CircuitDag
