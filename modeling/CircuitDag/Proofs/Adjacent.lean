import Mathlib.Data.List.Basic
import Mathlib.Data.List.Induction
import Mathlib.Data.List.Nodup

/-!
# Neighbours in a list

When one element directly follows another one in a list, and what joining, filtering and mapping
lists does to this. Wires are lists of vertices, so these are the facts about neighbours on a wire.
-/

set_option autoImplicit false

namespace CircuitDag

variable {α β γ : Type}

/-- `b` directly follows `a` somewhere in the list. -/
def Adjacent (l : List α) (a b : α) : Prop := ∃ front back, l = front ++ a :: b :: back

@[simp]
theorem not_adjacent_nil (a b : α) : ¬ Adjacent [] a b := by
  intro given
  obtain ⟨front, back, shape⟩ := given
  simp at shape

theorem adjacent_cons {x a b : α} {l : List α} :
    Adjacent (x :: l) a b ↔ (x = a ∧ l.head? = some b) ∨ Adjacent l a b := by
  constructor
  · intro given
    obtain ⟨front, back, shape⟩ := given
    cases front with
    | nil =>
        simp only [List.nil_append, List.cons.injEq] at shape
        obtain ⟨rfl, rfl⟩ := shape
        exact .inl ⟨rfl, rfl⟩
    | cons y front =>
        simp only [List.cons_append, List.cons.injEq] at shape
        exact .inr ⟨front, back, shape.2⟩
  · intro given
    rcases given with ⟨rfl, first⟩ | ⟨front, back, rfl⟩
    · obtain ⟨back, rfl⟩ := List.head?_eq_some_iff.mp first
      exact ⟨[], back, rfl⟩
    · exact ⟨x :: front, back, rfl⟩

theorem adjacent_append {xs ys : List α} {a b : α} :
    Adjacent (xs ++ ys) a b ↔
      Adjacent xs a b ∨ (xs.getLast? = some a ∧ ys.head? = some b) ∨ Adjacent ys a b := by
  induction xs with
  | nil => simp
  | cons x xs ih =>
      rw [List.cons_append, adjacent_cons, ih, adjacent_cons]
      cases xs with
      | nil => simp [eq_comm]
      | cons y xs =>
          simp only [List.cons_append, List.head?_cons, List.getLast?_cons_cons]
          tauto

@[simp]
theorem not_adjacent_singleton (x a b : α) : ¬ Adjacent [x] a b := by
  simp [adjacent_cons]

@[simp]
theorem adjacent_pair {x y a b : α} : Adjacent [x, y] a b ↔ x = a ∧ y = b := by
  simp [adjacent_cons]

theorem Adjacent.mem_left {l : List α} {a b : α} (adjacent : Adjacent l a b) : a ∈ l := by
  obtain ⟨front, back, rfl⟩ := adjacent
  simp

theorem Adjacent.mem_right {l : List α} {a b : α} (adjacent : Adjacent l a b) : b ∈ l := by
  obtain ⟨front, back, rfl⟩ := adjacent
  simp

theorem Adjacent.head?_ne {l : List α} {a b : α} (adjacent : Adjacent l a b) (unique : l.Nodup) :
    l.head? ≠ some b := by
  obtain ⟨front, back, rfl⟩ := adjacent
  cases front with
  | nil =>
      intro first
      simp only [List.nil_append, List.head?_cons, Option.some.injEq] at first
      simp [first] at unique
  | cons x front =>
      intro first
      simp only [List.cons_append, List.head?_cons, Option.some.injEq] at first
      simp [first] at unique

theorem Adjacent.getLast?_ne {l : List α} {a b : α} (adjacent : Adjacent l a b)
    (unique : l.Nodup) : l.getLast? ≠ some a := by
  obtain ⟨front, back, rfl⟩ := adjacent
  intro last
  rw [List.getLast?_append_cons, List.getLast?_cons_cons] at last
  have member : a ∈ b :: back := List.mem_of_getLast? last
  have distinct := (List.nodup_cons.mp (List.nodup_append.mp unique).2.1).1
  exact distinct member

theorem Adjacent.ne {l : List α} {a b : α} (adjacent : Adjacent l a b) (unique : l.Nodup) :
    a ≠ b := by
  obtain ⟨front, back, rfl⟩ := adjacent
  intro same
  obtain rfl := same
  have fresh := (List.nodup_cons.mp (List.nodup_append.mp unique).2.1).1
  exact fresh List.mem_cons_self

theorem Adjacent.right_unique {l : List α} {a b c : α} (first : Adjacent l a b)
    (second : Adjacent l a c) (unique : l.Nodup) : b = c := by
  induction l with
  | nil => exact absurd first (not_adjacent_nil a b)
  | cons x l ih =>
      have fresh := (List.nodup_cons.mp unique).1
      rcases adjacent_cons.mp first with ⟨rfl, headFirst⟩ | first
      · rcases adjacent_cons.mp second with ⟨-, headSecond⟩ | second
        · exact Option.some.inj (headFirst.symm.trans headSecond)
        · exact absurd second.mem_left fresh
      · rcases adjacent_cons.mp second with ⟨rfl, -⟩ | second
        · exact absurd first.mem_left fresh
        · exact ih first second (List.nodup_cons.mp unique).2

theorem Adjacent.left_unique {l : List α} {a b c : α} (first : Adjacent l a c)
    (second : Adjacent l b c) (unique : l.Nodup) : a = b := by
  induction l with
  | nil => exact absurd first (not_adjacent_nil a c)
  | cons x l ih =>
      have rest := (List.nodup_cons.mp unique).2
      rcases adjacent_cons.mp first with ⟨rfl, headFirst⟩ | first
      · rcases adjacent_cons.mp second with ⟨rfl, -⟩ | second
        · rfl
        · exact absurd headFirst (second.head?_ne rest)
      · rcases adjacent_cons.mp second with ⟨rfl, headSecond⟩ | second
        · exact absurd headSecond (first.head?_ne rest)
        · exact ih first second rest

theorem exists_adjacent_right {l : List α} {a : α} (member : a ∈ l) :
    l.getLast? = some a ∨ ∃ b, Adjacent l a b := by
  obtain ⟨front, back, rfl⟩ := List.mem_iff_append.mp member
  cases back with
  | nil => exact .inl (by simp)
  | cons b back => exact .inr ⟨b, front, back, rfl⟩

theorem exists_adjacent_left {l : List α} {b : α} (member : b ∈ l) :
    l.head? = some b ∨ ∃ a, Adjacent l a b := by
  obtain ⟨front, back, rfl⟩ := List.mem_iff_append.mp member
  rcases List.eq_nil_or_concat front with rfl | ⟨front, a, rfl⟩
  · exact .inl rfl
  · exact .inr ⟨a, front, back, by simp⟩

theorem Adjacent.filter {l : List α} {a b : α} (adjacent : Adjacent l a b) {keep : α → Bool}
    (left : keep a = true) (right : keep b = true) : Adjacent (l.filter keep) a b := by
  obtain ⟨front, back, rfl⟩ := adjacent
  exact ⟨front.filter keep, back.filter keep, by simp [left, right]⟩

theorem adjacent_map {f : α → β} {l : List α} {x y : β} :
    Adjacent (l.map f) x y ↔ ∃ a b, Adjacent l a b ∧ f a = x ∧ f b = y := by
  induction l with
  | nil => simp
  | cons z l ih =>
      simp only [List.map_cons, adjacent_cons, ih, List.head?_map, Option.map_eq_some_iff]
      constructor
      · intro given
        rcases given with ⟨rfl, b, first, rfl⟩ | ⟨a, b, adjacent, rfl, rfl⟩
        · exact ⟨z, b, .inl ⟨rfl, first⟩, rfl, rfl⟩
        · exact ⟨a, b, .inr adjacent, rfl, rfl⟩
      · intro given
        obtain ⟨a, b, ⟨rfl, first⟩ | adjacent, rfl, rfl⟩ := given
        · exact .inl ⟨rfl, b, first, rfl⟩
        · exact .inr ⟨a, b, adjacent, rfl, rfl⟩

/-- A relation between all neighbours of a list holds between an element and every later one if it
is transitive. -/
theorem rel_of_adjacent (relation : α → α → Prop)
    (trans : ∀ {a b c}, relation a b → relation b c → relation a c) {a b : α}
    (front middle back : List α)
    (steps : ∀ x y, Adjacent (front ++ a :: middle ++ b :: back) x y → relation x y) :
    relation a b := by
  induction middle generalizing front a with
  | nil => exact steps a b ⟨front, back, by simp⟩
  | cons c middle ih =>
      have first : relation a c := steps a c ⟨front, middle ++ b :: back, by simp⟩
      refine trans first (ih (front ++ [a]) ?_)
      intro x y adjacent
      exact steps x y (by simpa using adjacent)

section Passing

variable {l back : List α} {x : α} {later : α → Prop}

/-- What holds of an element and passes on to the next one holds of all elements behind it. -/
theorem holds_after (front : List α)
    (passes : ∀ a b, Adjacent (front ++ x :: back) a b → later a → later b)
    (holds : later x) : ∀ y ∈ back, later y := by
  intro y member
  obtain ⟨middle, rest, rfl⟩ := List.append_of_mem member
  refine rel_of_adjacent (fun a b => later a → later b)
    (fun first second holds => second (first holds)) front middle rest ?_ holds
  intro a b adjacent
  exact passes a b (by simpa using adjacent)

/-- If a property holds from one of two neighbours on, it holds exactly behind the gap. -/
theorem holds_around_gap {front back : List α} {a b : α}
    (passes : ∀ x y, Adjacent (front ++ a :: b :: back) x y → later x → later y)
    (holds : later b) (fails : ¬ later a) :
    (∀ x ∈ front ++ [a], ¬ later x) ∧ ∀ x ∈ b :: back, later x := by
  constructor
  · intro x member early
    rcases List.mem_append.mp member with inFront | equal
    · obtain ⟨first, middle, rfl⟩ := List.append_of_mem inFront
      have behind : a ∈ middle ++ a :: b :: back := by simp
      refine fails (holds_after first ?_ early a behind)
      intro y z adjacent
      exact passes y z (by simpa using adjacent)
    · exact fails (List.mem_singleton.mp equal ▸ early)
  · intro x member
    rcases List.mem_cons.mp member with rfl | member
    · exact holds
    · refine holds_after (front ++ [a]) (x := b) ?_ holds x member
      intro y z adjacent
      exact passes y z (by simpa using adjacent)

theorem exists_split (passes : ∀ a b, Adjacent l a b → later a → later b) :
    ∃ front back, l = front ++ back ∧ (∀ x ∈ front, ¬ later x) ∧ ∀ x ∈ back, later x := by
  induction l with
  | nil => exact ⟨[], [], rfl, by simp, by simp⟩
  | cons x l ih =>
      by_cases holds : later x
      · refine ⟨[], x :: l, rfl, by simp, ?_⟩
        intro y member
        rcases List.mem_cons.mp member with rfl | member
        · exact holds
        · exact holds_after [] passes holds y member
      · obtain ⟨front, back, rfl, before, after⟩ :=
          ih fun a b adjacent => passes a b (adjacent_cons.mpr (.inr adjacent))
        refine ⟨x :: front, back, rfl, ?_, after⟩
        intro y member
        rcases List.mem_cons.mp member with rfl | member
        · exact holds
        · exact before y member

end Passing

/-- A list has no repetition if a relation holds between its neighbours that determines the left
one by the right one, and its first element is not on the right. -/
theorem nodup_of_left_unique (relation : α → α → Prop)
    (determined : ∀ a b c, relation a c → relation b c → a = b) {l : List α}
    (steps : ∀ a b, Adjacent l a b → relation a b)
    (first : ∀ a b, l.head? = some b → ¬ relation a b) : l.Nodup := by
  induction l using List.reverseRecOn with
  | nil => exact List.nodup_nil
  | append_singleton l x ih =>
      cases tail : l.getLast? with
      | none =>
          rw [List.getLast?_eq_none_iff.mp tail]
          exact List.nodup_singleton x
      | some p =>
          have unique := ih (fun a b adjacent => steps a b (adjacent_append.mpr (.inl adjacent)))
            (fun a b head => first a b (by rw [List.head?_append, head]; rfl))
          have last : relation p x := steps p x (adjacent_append.mpr (.inr (.inl ⟨tail, rfl⟩)))
          refine List.nodup_append.mpr ⟨unique, List.nodup_singleton x, ?_⟩
          intro y member z inSingleton same
          obtain rfl := same
          rw [List.mem_singleton] at inSingleton
          subst inSingleton
          rcases exists_adjacent_left member with head | ⟨q, adjacent⟩
          · exact first p y (by rw [List.head?_append, head]; rfl) last
          · have earlier := steps q y (adjacent_append.mpr (.inl adjacent))
            obtain rfl := determined p q y last earlier
            exact adjacent.getLast?_ne unique tail

/-! ## Blocks of a list -/

section Blocks

variable {l : List α} {inside : α → Prop}

/-- The longest part at the front of a list whose elements have a property. -/
theorem exists_front (l : List α) (inside : α → Prop) :
    ∃ front back, l = front ++ back ∧ (∀ x ∈ front, inside x) ∧
      ∀ x, back.head? = some x → ¬ inside x := by
  induction l with
  | nil => exact ⟨[], [], rfl, by simp, by simp⟩
  | cons x l ih =>
      by_cases holds : inside x
      · obtain ⟨front, back, rfl, all, stop⟩ := ih
        exact ⟨x :: front, back, rfl, by simpa [holds] using all, stop⟩
      · exact ⟨[], x :: l, rfl, by simp, by simpa using holds⟩

/-- A list that begins outside a block enters it before its first element in the block. -/
theorem exists_entry (outside : ∀ x, l.head? = some x → ¬ inside x) (member : ∃ x ∈ l, inside x) :
    ∃ front a v back, l = (front ++ [a]) ++ v :: back ∧ (∀ x ∈ front ++ [a], ¬ inside x) ∧
      inside v := by
  obtain ⟨front, rest, rfl, before, stop⟩ := exists_front l fun x => ¬ inside x
  obtain ⟨x, inList, holds⟩ := member
  cases rest with
  | nil =>
      rw [List.append_nil] at inList
      exact absurd holds (before x inList)
  | cons v back =>
      have enters : inside v := not_not.mp (stop v rfl)
      rcases List.eq_nil_or_concat front with rfl | ⟨front, a, rfl⟩
      · exact absurd enters (outside v rfl)
      · rw [List.concat_eq_append] at before ⊢
        exact ⟨front, a, v, back, rfl, before, enters⟩

/-- A block that a list enters only once is a part of the list without gaps. -/
theorem exists_contiguous (inside : α → Prop) (unique : l.Nodup)
    (first : ∀ x, l.head? = some x → ¬ inside x)
    (last : ∀ x, l.getLast? = some x → ¬ inside x) (member : ∃ x ∈ l, inside x)
    (once : ∀ a v a' v', Adjacent l a v → ¬ inside a → inside v → Adjacent l a' v' →
      ¬ inside a' → inside v' → a = a') :
    ∃ front a middle b back, l = (front ++ [a]) ++ middle ++ b :: back ∧ middle ≠ [] ∧
      (∀ x ∈ front ++ [a], ¬ inside x) ∧ (∀ x ∈ middle, inside x) ∧
      ∀ x ∈ b :: back, ¬ inside x := by
  obtain ⟨front, a, v, rest, rfl, before, enters⟩ := exists_entry first member
  obtain ⟨middle, back, shape, all, stop⟩ := exists_front (v :: rest) inside
  have begins : middle ≠ [] := by
    intro same
    obtain rfl := same
    rw [List.nil_append] at shape
    exact stop v (by rw [← shape]; rfl) enters
  cases back with
  | nil =>
      rw [List.append_nil] at shape
      obtain ⟨x, ends⟩ := Option.isSome_iff_exists.mp (List.getLast?_isSome.mpr begins)
      refine absurd (all x (List.mem_of_getLast? ends)) (last x ?_)
      rw [shape, List.getLast?_append, ends]
      rfl
  | cons b back =>
      refine ⟨front, a, middle, b, back, by simp [shape], begins, before, all, ?_⟩
      intro x inBack holds
      obtain ⟨front', a', v', back', shape', before', enters'⟩ :=
        exists_entry stop ⟨x, inBack, holds⟩
      have outside : ¬ inside a := before a (by simp)
      have outside' : ¬ inside a' := before' a' (by simp)
      have same : a = a' := once a v a' v' ⟨front, rest, by simp⟩ outside enters
        ⟨front ++ [a] ++ middle ++ front', back', by simp [shape, shape']⟩ outside' enters'
      have late : a ∈ v :: rest := by simp [shape, shape', same]
      exact (List.nodup_append.mp unique).2.2 a (by simp) a late rfl

end Blocks

/-! ## Parts of a list -/

/-- What a partial map makes of a list is a part of the list, if it shows where it comes from. -/
theorem sublist_map_filterMap {f : α → Option β} {g : β → γ} {h : α → γ}
    (own : ∀ x y, f x = some y → g y = h x) (l : List α) :
    ((l.filterMap f).map g).Sublist (l.map h) := by
  induction l with
  | nil => exact List.Sublist.slnil
  | cons x l ih =>
      rw [List.filterMap_cons, List.map_cons]
      cases found : f x with
      | none => exact ih.cons (h x)
      | some y =>
          rw [List.map_cons, own x y found]
          exact ih.cons_cons (h x)

end CircuitDag
