import Mathlib.Data.List.Forall2
import QueryTree.Condition.Lemmas
import QueryTree.Payload.Decode

/-! # Stored nodes

Ten kinds of nodes have payloads of their own. `StoredKind` names them, so that a statement about
payloads is made once for all of them. `WellFormed` is what building and reading keep: groups are
tidy at every depth, joins compare, and updates pair columns with values. Of a tidy group list the
ascending keys are how it represents a map, which every operation on groups keeps; that no group is
empty is what is asked of a node.
-/

namespace QueryTree

/-- The condition's groups are tidy at every depth. -/
inductive Condition.WellFormed : Condition → Prop where
  | compare (c : Comparison) : WellFormed (.compare c)
  | composite (op : Connective) {g : Groups Condition} :
    g.Tidy → (∀ c ∈ g.toList, WellFormed c) → WellFormed (.composite op g)
  | negation {c : Condition} : WellFormed c → WellFormed (.negation c)

/-- The groups are tidy, and so are those of the conditions in them. -/
structure Groups.WellFormed (g : Groups Condition) : Prop where
  tidy : g.Tidy
  members : ∀ c ∈ g.toList, c.WellFormed

/-- The groups hold comparisons and nothing else. -/
def Groups.Compares (g : Groups Condition) : Prop :=
  ∀ c ∈ g.toList, c.isCompare = true

/-- The join's condition has the shape of a join's condition, in tidy groups. -/
structure Join.WellFormed (j : Join) : Prop where
  condition : j.condition.WellFormed
  compares : j.condition.Compares

/-- The update has a value for each column, and its parts are well-formed. -/
structure Update.WellFormed (u : Update) : Prop where
  paired : u.values.length = u.columns.length
  condition : ∀ g ∈ u.condition?, g.WellFormed
  joins : ∀ j ∈ u.joins, j.WellFormed

/-- What is stored of a join: everything but its origin. -/
def Join.stored (j : Join) : Join := { j with origin? := none }

/-- What is stored of an update: everything but the origins of its joins. -/
def Update.stored (u : Update) : Update := { u with joins := u.joins.map Join.stored }

/-- Every field of `j` is that of `i`, but for the origin, which `j` does not have. -/
structure Join.Restores (i j : Join) : Prop where
  name : j.name = i.name
  primary : j.primary = i.primary
  foreign : j.foreign = i.foreign
  condition : j.condition = i.condition
  type : j.type = i.type
  permanent : j.permanent = i.permanent
  comment : j.comment? = i.comment?
  origin : j.origin? = none

/-- Every field of `v` is that of `u`, but for the origins of the joins. -/
structure Update.Restores (u v : Update) : Prop where
  table : v.table = u.table
  columns : v.columns = u.columns
  values : v.values = u.values
  condition : v.condition? = u.condition?
  joins : List.Forall₂ Join.Restores u.joins v.joins

/-- What is stored of a join agrees with it in all but the origin. -/
theorem Join.restores_stored (j : Join) : j.Restores j.stored :=
  ⟨rfl, rfl, rfl, rfl, rfl, rfl, rfl, rfl⟩

/-- What is stored of an update agrees with it in all but the origins of its joins. -/
theorem Update.restores_stored (u : Update) : u.Restores u.stored := by
  refine ⟨rfl, rfl, rfl, rfl, ?_⟩
  rw [stored, List.forall₂_map_right_iff, List.forall₂_same]
  intro j _
  exact j.restores_stored

/-- The kinds of nodes that have payloads. -/
inductive StoredKind where
  | table
  | tableRef
  | column
  | anyOf
  | comparison
  | composite (op : Connective)
  | condition
  | join
  | update
deriving DecidableEq, Repr

namespace StoredKind

/-- The nodes of a kind. -/
abbrev Node : StoredKind → Type
  | .table => Table
  | .tableRef => TableRef
  | .column => Column
  | .anyOf => AnyOf
  | .comparison => Comparison
  | .composite _ => Groups Condition
  | .condition => Condition
  | .join => Join
  | .update => Update

/-- The payload of a node. -/
def toPayload : (k : StoredKind) → k.Node → Payload
  | .table, t => t.toPayload
  | .tableRef, r => r.toPayload
  | .column, c => c.toPayload
  | .anyOf, a => a.toPayload
  | .comparison, c => c.toPayload
  | .composite op, g => g.toPayload op
  | .condition, c => c.toPayload
  | .join, j => j.toPayload
  | .update, u => u.toPayload

/-- Reads a node of the kind. -/
def ofPayload : (k : StoredKind) → Payload → Except DecodeError k.Node
  | .table => Table.ofPayload
  | .tableRef => TableRef.ofPayload
  | .column => Column.ofPayload
  | .anyOf => AnyOf.ofPayload
  | .comparison => Comparison.ofPayload
  | .composite op => Groups.ofPayload op
  | .condition => Condition.ofPayload
  | .join => Join.ofPayload
  | .update => Update.ofPayload

/-- Well-formedness of the nodes of a kind. Only nodes with groups below them can lack it. -/
def WellFormed : (k : StoredKind) → k.Node → Prop
  | .composite _, g => g.WellFormed
  | .condition, c => c.WellFormed
  | .join, j => j.WellFormed
  | .update, u => u.WellFormed
  | _, _ => True

/-- What is stored of a node. -/
def stored : (k : StoredKind) → k.Node → k.Node
  | .join, j => j.stored
  | .update, u => u.stored
  | _, x => x

/-- The node `y` agrees with `x` in all that is stored. Only joins have more than that. -/
def Restores : (k : StoredKind) → k.Node → k.Node → Prop
  | .join, i, j => i.Restores j
  | .update, u, v => u.Restores v
  | _, x, y => y = x

/-- What is stored of a node agrees with it in all that is stored. -/
theorem restores_stored (k : StoredKind) (x : k.Node) : k.Restores x (k.stored x) := by
  cases k with
  | join => exact Join.restores_stored x
  | update => exact Update.restores_stored x
  | _ => rfl

end StoredKind

end QueryTree
