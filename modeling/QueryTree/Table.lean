import QueryTree.Digest

/-!
# Tables and columns

A table is a name with an optional alias and an optional data source. A `TableRef` is a table in the
position of a join's foreign side, and a column names a field of a table.
-/

namespace QueryTree

/-- A table as a query sees it. Tables are ordered by name, alias and data source, a missing part
before every other. -/
structure Table where
  name : String
  alias? : Option String
  source? : Option String
deriving DecidableEq, Repr, Inhabited

namespace Table

/-- The table with this name, without alias and data source. -/
def named (name : String) : Table := ⟨name, none, none⟩

/-- The order of tables. Texts compare by code points. -/
def cmp (a b : Table) : Ordering :=
  (compare a.name b.name).then ((compare a.alias? b.alias?).then (compare a.source? b.source?))

/-- What columns of the table are qualified with: the alias if there is one. -/
def referenceName (t : Table) : String :=
  t.alias?.getD t.name

/-- The displayed form: the name, then the alias. -/
def render (t : Table) : String :=
  match t.alias? with
  | some a => t.name ++ " " ++ a
  | none => t.name

instance : Digestible Table :=
  ⟨fun t => tokens t.name ++ tokens t.alias? ++ tokens t.source?⟩

end Table

/-- A table standing as the foreign side of a join. -/
structure TableRef where
  table : Table
deriving DecidableEq, Repr, Inhabited

namespace TableRef

/-- The displayed form is the table's. -/
def render (r : TableRef) : String :=
  r.table.render

instance : Digestible TableRef := ⟨fun r => tokens r.table⟩

end TableRef

/-- A column of a table. -/
structure Column where
  table : Table
  name : String
  alias? : Option String
deriving DecidableEq, Repr, Inhabited

namespace Column

/-- The displayed form: the name behind that of its table, then the alias. -/
def render (c : Column) : String :=
  let qualified := c.table.referenceName ++ "." ++ c.name
  match c.alias? with
  | some a => qualified ++ " AS " ++ a
  | none => qualified

instance : Digestible Column :=
  ⟨fun c => tokens c.table ++ tokens c.name ++ tokens c.alias?⟩

end Column

end QueryTree
