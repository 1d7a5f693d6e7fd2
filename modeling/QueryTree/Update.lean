import QueryTree.Join

/-!
# Updates

An update assigns values to columns of a table, position by position, under an optional conjunction.
Its joins are only ever read from payloads.
-/

namespace QueryTree

/-- An assignment of values to columns of a table. -/
structure Update where
  table : Table
  columns : List Column
  values : List Operand
  condition? : Option (Groups Condition)
  joins : List Join
deriving Inhabited

namespace Update

/-- An update of a table without assignments. -/
def ofTable (table : Table) : Update := ⟨table, [], [], none, []⟩

/-- One more column with its value. -/
def assign (u : Update) (column : Column) (value : Operand) : Update :=
  { u with columns := u.columns ++ [column], values := u.values ++ [value] }

/-- A condition as a conjunction, in which anything but a conjunction stands alone. -/
def conjunctionOf : Condition → Groups Condition
  | .composite .and g => g
  | c => Groups.ofList [c]

/-- Replaces the condition. -/
def setCondition (u : Update) (condition : Option Condition) : Update :=
  { u with condition? := condition.map conjunctionOf }

/-- Adds a condition to the ones there are, or changes nothing if it is missing. -/
def addCondition (u : Update) (condition : Option Condition) : Update :=
  match condition with
  | none => u
  | some c => { u with condition? := some ((u.condition?.getD .empty).add (some c)) }

/-- Updates are equal when all their parts are. -/
protected def beq (a b : Update) : Bool :=
  a.table == b.table && a.columns == b.columns && a.values == b.values
    && a.condition? == b.condition? && a.joins == b.joins

instance : BEq Update := ⟨Update.beq⟩

instance : Digestible Update where
  tokens u := tokens u.table ++ tokens u.columns ++ tokens u.values ++ tokens u.condition?
    ++ tokens u.joins

/-- The displayed form. -/
def render (u : Update) : String :=
  "UPDATE " ++ u.table.render ++ " SET ("
    ++ String.intercalate "|" (u.columns.map (·.render)) ++ ") = ("
    ++ String.intercalate "|" (u.values.map (·.render)) ++ ")"
    ++ (match u.condition? with
        | some g => " WHERE " ++ g.render .and
        | none => "")
    ++ String.join (u.joins.map (" " ++ ·.render))

end Update

end QueryTree
