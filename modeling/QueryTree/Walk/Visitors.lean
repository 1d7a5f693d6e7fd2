import QueryTree.TableMapping
import QueryTree.Walk.Basic

/-!
# Visitors

Three walks serve most callers: replacing every node equal to a given one, renaming tables by a
mapping, and collecting the tables of a tree. Each of the first two also counts what it changed.
-/

namespace QueryTree

/-- Puts `new` in place of every node equal to `old` and counts the places. What is put there
is not searched itself. -/
def replacing (target : NodeKind) (old new : target.Node) : Visitor (StateM Nat) :=
  fun k x =>
    if h : target = k then
      if x == h ▸ old then do
        modify (· + 1)
        return .put (h ▸ new)
      else
        return .enter
    else
      return .enter

/-- Replaces nodes by `replacing`: the new tree, and the number of places. -/
def replaceNodes (target : NodeKind) (old new : target.Node) (k : NodeKind)
    (x : k.Node) : k.Node × Nat :=
  (walk (replacing target old new) k x).run 0

/-- Gives a table the physical name of its own name. -/
def TableMapping.rename (mapping : TableMapping) (t : Table) : Table :=
  { t with name := mapping.physicalName t.name }

/-- Renames tables and counts those whose name changes. -/
def renamer (mapping : TableMapping) : Visitor (StateM Nat)
  | .table, t =>
    if mapping.physicalName t.name = t.name then
      return .enter
    else do
      modify (· + 1)
      return .put (mapping.rename t)
  | _, _ => return .enter

/-- Renames all tables of a tree: the new tree, and the number of changed names. -/
def renameTables (mapping : TableMapping) (k : NodeKind) (x : k.Node) : k.Node × Nat :=
  (walk (renamer mapping) k x).run 0

/-- Adds a table to tables in order, unless it is there. -/
def insertTable (t : Table) : List Table → List Table
  | [] => [t]
  | u :: rest =>
    match t.cmp u with
    | .lt => t :: u :: rest
    | .eq => u :: rest
    | .gt => u :: insertTable t rest

/-- Collects the tables it is offered. -/
def collecting : Visitor (StateM (List Table))
  | .table, t => do
    modify (insertTable t)
    return .enter
  | _, _ => return .enter

/-- The different tables that occur in a tree, in order. -/
def tablesIn (k : NodeKind) (x : k.Node) : List Table :=
  ((walk collecting k x).run []).2

end QueryTree
