import Mathlib.Data.Multiset.Bind
import Mathlib.Data.Multiset.Filter
import QueryTree.Proofs.Meaning
import QueryTree.Proofs.Stored

/-! # Rows of joins

A join of two lists of rows has the pairs that meet its condition, and an outer join also keeps the
rows of one side that meet no row of the other. Rows belong to tables, so the tables of a join say
whose rows it is about. Inverting a join only changes the side from which rows are read: comparisons
are about rows of two tables, whichever of them is the primary one.
-/

namespace QueryTree

/-! ## Kinds of joins -/

namespace JoinType

variable {α β : Type} (meets : α → β → Bool) (xs : List α) (ys : List β)

/-- The pairs of rows that meet. -/
def pairs : Multiset (α × β) :=
  ((xs : Multiset α) ×ˢ (ys : Multiset β)).filter fun p => meets p.1 p.2

/-- The rows that meet no row of the other list. -/
def unmatched : Multiset α :=
  xs.filter fun x => !ys.any (meets x)

/-- The rows of a join of the type: the pairs that meet, and each unmatched row of the side that an
outer join keeps, with nothing on the other side. -/
def rows (type : JoinType) : Multiset (Option α × Option β) :=
  (pairs meets xs ys).map (fun p => (some p.1, some p.2))
    + match type with
      | inner => 0
      | leftOuter => (unmatched meets xs ys).map fun x => (some x, none)
      | rightOuter => (unmatched (fun y x => meets x y) ys xs).map fun y => (none, some y)

/-- Seen from the other side, the pairs of matching rows are the same with their parts swapped. -/
theorem pairs_swap :
    pairs (fun y x => meets x y) ys xs = (pairs meets xs ys).map Prod.swap := by
  unfold pairs
  rw [← Multiset.map_swap_product, Multiset.filter_map]
  rfl

/-- Read from the other side, a join of the inverted type has the same rows. -/
theorem rows_inverted (type : JoinType) :
    type.inverted.rows (fun y x => meets x y) ys xs = (type.rows meets xs ys).map Prod.swap := by
  unfold rows
  rw [pairs_swap, Multiset.map_add, Multiset.map_map, Multiset.map_map]
  congr 1
  cases type <;> simp [inverted]

end JoinType

/-! ## Joins -/

variable {Row : Table → Type} {a b : Table}

/-- What comparisons say of a row of one table and a row of another. An equation of two columns says
the same when its operands change places. -/
structure Interpretation (Row : Table → Type) (a b : Table) where
  holds : Comparison → Row a → Row b → Bool
  holds_swapOperands : ∀ c x y, c.equatesColumns = true → holds c.swapOperands x y = holds c x y

/-- The same interpretation, with the tables named the other way round. -/
def Interpretation.flip (i : Interpretation Row a b) : Interpretation Row b a where
  holds c y x := i.holds c x y
  holds_swapOperands c y x h := i.holds_swapOperands c x y h

namespace Join

/-- Two rows meet in a join if no member of its condition is false of them. -/
def meets (j : Join) (i : Interpretation Row j.primary j.foreign.table) (x : Row j.primary)
    (y : Row j.foreign.table) : Bool :=
  j.condition.toList.all fun c => c.meaning (fun d => i.holds d x y) != some false

/-- In a join that holds comparisons alone, two rows meet if all of these hold of them. -/
theorem meets_iff {j : Join} (h : j.condition.Compares)
    (i : Interpretation Row j.primary j.foreign.table) (x : Row j.primary)
    (y : Row j.foreign.table) :
    j.meets i x y = true ↔ ∀ c, .compare c ∈ j.condition.toList → i.holds c x y = true := by
  rw [meets, List.all_eq_true]
  constructor
  · intro hall c hc
    simpa [Condition.meaning_compare] using hall _ hc
  · intro hall c hc
    cases c with
    | compare c => simpa [Condition.meaning_compare] using hall c hc
    | composite op g => cases h _ hc
    | negation c => cases h _ hc

/-- The rows of a join of two lists of rows. -/
def result (j : Join) (i : Interpretation Row j.primary j.foreign.table)
    (primary : List (Row j.primary)) (foreign : List (Row j.foreign.table)) :
    Multiset (Option (Row j.primary) × Option (Row j.foreign.table)) :=
  j.type.rows (j.meets i) primary foreign

/-- A member of a join's condition says the same of two rows when it is read from the other side. -/
theorem meaning_invertMember (i : Interpretation Row a b) (c : Condition) (x : Row a) (y : Row b) :
    (invertMember c).meaning (fun d => i.holds d x y) = c.meaning fun d => i.holds d x y := by
  cases c with
  | compare c =>
    show some (i.holds (if c.equatesColumns then c.swapOperands else c) x y) = some (i.holds c x y)
    by_cases h : c.equatesColumns = true
    · rw [if_pos h, i.holds_swapOperands c x y h]
    · rw [if_neg h]
  | _ => rfl

/-- The inverted join has the same tables, on exchanged sides, so the same rows meet in it. -/
theorem meets_invert (j : Join) (i : Interpretation Row j.primary j.foreign.table) (name : String)
    (y : Row j.foreign.table) (x : Row j.primary) :
    (j.invert name).meets i.flip y x = j.meets i x y := by
  show ((j.condition.map invertMember).toList.all fun c =>
    c.meaning (fun d => i.holds d x y) != some false) = _
  rw [Groups.toList_map, List.all_map]
  unfold meets
  congr 1
  funext c
  rw [Function.comp_apply, meaning_invertMember]

/-- An inverted join has the rows of the join with their sides exchanged, whatever the type, the
operators and the groups are, and whichever tables the operands belong to. -/
theorem result_invert (j : Join) (i : Interpretation Row j.primary j.foreign.table) (name : String)
    (primary : List (Row j.primary)) (foreign : List (Row j.foreign.table)) :
    (j.invert name).result i.flip foreign primary = (j.result i primary foreign).map Prod.swap := by
  have hmeets : (j.invert name).meets i.flip = fun y x => j.meets i x y :=
    funext fun y => funext fun x => j.meets_invert i name y x
  have hrows := JoinType.rows_inverted (j.meets i) primary foreign j.type
  rw [← hmeets] at hrows
  exact hrows

end Join

/-- Rows of orders and states with two numbers, in a column `id` and in any other column. Equations
and `>` compare the numbers, all else holds. -/
def Interpretation.numbers :
    Interpretation (fun _ => Nat × Nat) (.named "orders") (.named "states") where
  holds c x y :=
    let number := fun (o : Operand) =>
      match o with
      | .column ⟨t, name, _⟩ =>
        let row := if t.name = "orders" then x else y
        if name = "id" then row.1 else row.2
      | _ => 0
    match c.operator.comparator with
    | .equals => number c.left == number c.right
    | .greater => number c.right < number c.left
    | _ => true
  holds_swapOperands c x y h := by
    have hop : c.operator.comparator = .equals := by
      simp only [Comparison.equatesColumns, Operator.isEquality, Bool.and_eq_true,
        beq_iff_eq] at h
      exact h.1.1
    simp only [Comparison.swapOperands, hop]
    exact Bool.beq_comm

/-- An outer join on equal `id`s and, in a group of its own, on a greater `size`. -/
def Join.largerOrders : Join where
  name := "larger"
  primary := .named "orders"
  foreign := ⟨.named "states"⟩
  condition := ⟨[
    (none, [.compare ⟨⟨.equals, .plain⟩, .column ⟨.named "orders", "id", none⟩,
      .column ⟨.named "states", "id", none⟩⟩]),
    (some "size", [.compare ⟨⟨.greater, .plain⟩, .column ⟨.named "orders", "size", none⟩,
      .column ⟨.named "states", "size", none⟩⟩])]⟩
  type := .leftOuter
  permanent := false
  comment? := none
  origin? := none

/-- From the side of the states this is a right join, and keeps the order without a matching state.
-/
theorem Join.largerOrders_from_states :
    (largerOrders.invert "smaller").result Interpretation.numbers.flip
        [(1, 3), (2, 9)] [(1, 5), (2, 5)]
      = {(some (1, 3), some (1, 5)), (none, some (2, 5))} := by
  refine (largerOrders.result_invert Interpretation.numbers "smaller" [(1, 5), (2, 5)]
    [(1, 3), (2, 9)]).trans ?_
  decide

end QueryTree
