import QueryTree.Condition.Basic

/-!
# Combining conditions

`Condition.combine` joins two optional conditions under a connective. A missing condition and a
composite without groups are neutral, and a composite of the same connective is merged group by
group instead of being nested. Conditions for one composite may be gathered in several `Batch`es.
-/

namespace QueryTree

namespace Condition

/-- The condition, unless it is missing or a composite without groups. -/
def present? (c : Option Condition) : Option Condition :=
  c.filter (!·.isAbsent)

/-- What a condition contributes to a composite: its own groups if it has the same connective, and
otherwise itself in the default group. -/
def contribution (op : Connective) : Condition → Groups Condition
  | .composite op' g => if op' = op then g else Groups.ofList [.composite op' g]
  | c => Groups.ofList [c]

/-- The two conditions under one connective. If one of them is missing, the other is kept as it
is. -/
def combine (op : Connective) (left right : Option Condition) : Option Condition :=
  match present? left, present? right with
  | none, other => other
  | some left, none => some left
  | some left, some right =>
    some (.composite op ((contribution op left).merge (contribution op right)))

/-- Both conditions hold. -/
def conjoin (left right : Option Condition) : Option Condition :=
  combine .and left right

/-- One of the conditions holds. -/
def disjoin (left right : Option Condition) : Option Condition :=
  combine .or left right

end Condition

/-- Conditions gathered in order for a composite. -/
structure Batch where
  conditions : List Condition
deriving Inhabited

namespace Batch

/-- Nothing gathered. -/
def empty : Batch := ⟨[]⟩

/-- One more condition at the end. -/
def push (b : Batch) (condition : Condition) : Batch :=
  ⟨b.conditions ++ [condition]⟩

/-- What one batch gathered, then what the next one did. -/
def append (b next : Batch) : Batch :=
  ⟨b.conditions ++ next.conditions⟩

/-- Everything pushed one by one. -/
def ofList (conditions : List Condition) : Batch :=
  conditions.foldl push empty

/-- All gathered conditions in the default group. -/
def toGroups (b : Batch) : Groups Condition :=
  Groups.ofList b.conditions

end Batch

end QueryTree
