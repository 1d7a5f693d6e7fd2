import QueryTree.Update

/-!
# Walks

A walk offers the nodes of a tree to a visitor, each before the nodes below it. The visitor lets the
walk go on into the node, skips what is below it, or puts another node in its place. A conjunction
held by a condition is offered twice, as the condition and as the conjunction; a disjunction is
offered only as the condition.
-/

namespace QueryTree

/-- The kinds of nodes that a walk offers. -/
inductive NodeKind where
  | table
  | tableRef
  | column
  | value
  | anyOf
  | condition
  | conjunction
  | join
  | update
deriving DecidableEq, Repr, Inhabited

/-- The nodes of a kind. -/
abbrev NodeKind.Node : NodeKind → Type
  | .table => Table
  | .tableRef => TableRef
  | .column => Column
  | .value => Value
  | .anyOf => AnyOf
  | .condition => Condition
  | .conjunction => Groups Condition
  | .join => Join
  | .update => Update

/-- Equality of the nodes of a kind. -/
instance (k : NodeKind) : BEq k.Node :=
  match k with
  | .table => inferInstanceAs (BEq Table)
  | .tableRef => inferInstanceAs (BEq TableRef)
  | .column => inferInstanceAs (BEq Column)
  | .value => inferInstanceAs (BEq Value)
  | .anyOf => inferInstanceAs (BEq AnyOf)
  | .condition => inferInstanceAs (BEq Condition)
  | .conjunction => inferInstanceAs (BEq (Groups Condition))
  | .join => inferInstanceAs (BEq Join)
  | .update => inferInstanceAs (BEq Update)

/-- What a visitor decides about a node. -/
inductive Answer (α : Type) where
  /-- The node stays, and the walk goes on below it. -/
  | enter
  /-- The node stays, and what is below it is not offered. -/
  | skip
  /-- Another node takes the place, and nothing below it is offered. -/
  | put (x : α)
deriving Inhabited

/-- A visitor decides about each node it is offered. -/
abbrev Visitor (m : Type → Type) := (k : NodeKind) → k.Node → m (Answer k.Node)

namespace Walk

variable {m : Type → Type} [Monad m] (visit : Visitor m)

/-- Offers a node whose walk below is `inside`. -/
def offer (k : NodeKind) (x : k.Node) (inside : m k.Node) : m k.Node := do
  match ← visit k x with
  | .enter => inside
  | .skip => return x
  | .put y => return y

/-- Offers a table. -/
def table (t : Table) : m Table :=
  offer visit .table t (pure t)

/-- Walks below a table reference. -/
def insideTableRef (r : TableRef) : m TableRef := do
  let t ← table visit r.table
  return { r with table := t }

/-- Walks below a column. -/
def insideColumn (c : Column) : m Column := do
  let t ← table visit c.table
  return { c with table := t }

/-- Offers a table reference. -/
def tableRef (r : TableRef) : m TableRef :=
  offer visit .tableRef r (insideTableRef visit r)

/-- Offers a column. -/
def column (c : Column) : m Column :=
  offer visit .column c (insideColumn visit c)

/-- Offers the content of an operand, which is no node itself. -/
def operand : Operand → m Operand
  | .column c => .column <$> column visit c
  | .value v => .value <$> offer visit .value v (pure v)
  | .anyOf a => .anyOf <$> offer visit .anyOf a (pure a)

/-- Walks below a comparison, which is no node itself. -/
def insideComparison (c : Comparison) : m Comparison := do
  let left ← operand visit c.left
  let right ← operand visit c.right
  return { c with left := left, right := right }

mutual

/-- Walks below a condition. -/
def insideCondition : Condition → m Condition
  | .compare c => .compare <$> insideComparison visit c
  | .composite .and ⟨entries⟩ =>
    .composite .and <$> offer visit .conjunction ⟨entries⟩ (Groups.mk <$> insideEntries entries)
  | .composite .or ⟨entries⟩ =>
    (fun es => .composite .or ⟨es⟩) <$> insideEntries entries
  | .negation c => .negation <$> offer visit .condition c (insideCondition c)
termination_by structural c => c

/-- Offers the conditions of all groups. -/
def insideEntries : List (GroupKey × List Condition) → m (List (GroupKey × List Condition))
  | [] => pure []
  | (key, cs) :: rest => do
    let cs ← insideList cs
    let rest ← insideEntries rest
    return (key, cs) :: rest
termination_by structural entries => entries

/-- Offers the conditions in a list. -/
def insideList : List Condition → m (List Condition)
  | [] => pure []
  | c :: cs => do
    let c ← offer visit .condition c (insideCondition c)
    let cs ← insideList cs
    return c :: cs
termination_by structural cs => cs

end

/-- Walks below a conjunction. -/
def insideConjunction (g : Groups Condition) : m (Groups Condition) :=
  Groups.mk <$> insideEntries visit g.entries

/-- Offers a conjunction. -/
def conjunction (g : Groups Condition) : m (Groups Condition) :=
  offer visit .conjunction g (insideConjunction visit g)

/-- Walks below a join. -/
def insideJoin (j : Join) : m Join := do
  let primary ← table visit j.primary
  let foreign ← tableRef visit j.foreign
  let condition ← conjunction visit j.condition
  return { j with primary := primary, foreign := foreign, condition := condition }

/-- Offers a join. -/
def join (j : Join) : m Join :=
  offer visit .join j (insideJoin visit j)

/-- Offers a conjunction, if there is one. -/
def optionalConjunction : Option (Groups Condition) → m (Option (Groups Condition))
  | none => pure none
  | some g => some <$> conjunction visit g

/-- Walks below an update. -/
def insideUpdate (u : Update) : m Update := do
  let table ← table visit u.table
  let columns ← u.columns.mapM (column visit)
  let values ← u.values.mapM (operand visit)
  let condition? ← optionalConjunction visit u.condition?
  let joins ← u.joins.mapM (join visit)
  return ⟨table, columns, values, condition?, joins⟩

/-- Walks below a node. -/
def inside : (k : NodeKind) → k.Node → m k.Node
  | .table, t => pure t
  | .tableRef, r => insideTableRef visit r
  | .column, c => insideColumn visit c
  | .value, v => pure v
  | .anyOf, a => pure a
  | .condition, c => insideCondition visit c
  | .conjunction, g => insideConjunction visit g
  | .join, j => insideJoin visit j
  | .update, u => insideUpdate visit u

end Walk

/-- Walks a tree from its root: the node is offered, then what is below it. -/
def walk {m : Type → Type} [Monad m] (visit : Visitor m) (k : NodeKind) (x : k.Node) : m k.Node :=
  Walk.offer visit k x (Walk.inside visit k x)

end QueryTree
