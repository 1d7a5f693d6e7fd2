import QueryTree.Condition.Basic

/-!
# Joins

A join relates a primary table to a foreign one under a conjunction of comparisons, a shape that
`Join.make` checks. `Join.invert` reads the same join from the other side. Comment, permanence and
origin belong to a join but do not take part in equality.
-/

namespace QueryTree

/-- Which side of a join keeps its unmatched rows. -/
inductive JoinType where
  | inner
  | leftOuter
  | rightOuter
deriving DecidableEq, Repr, Inhabited

namespace JoinType

/-- The integer form. -/
def code : JoinType → Int
  | inner => 0
  | leftOuter => 1
  | rightOuter => 2

/-- The join type with the code, if there is one. -/
def ofCode? (code : Int) : Option JoinType :=
  [inner, leftOuter, rightOuter].find? (·.code == code)

/-- Reads the integer form, or refuses the code. -/
def ofCode (code : Int64) : Except DecodeError JoinType :=
  match ofCode? code.toInt with
  | some type => .ok type
  | none => .error (.invalidJoinType code)

/-- The type of the same join read from the other side. -/
def inverted : JoinType → JoinType
  | inner => inner
  | leftOuter => rightOuter
  | rightOuter => leftOuter

/-- The written form. -/
def render : JoinType → String
  | inner => "INNER_JOIN"
  | leftOuter => "LEFT_OUTER_JOIN"
  | rightOuter => "RIGHT_OUTER_JOIN"

end JoinType

/-- What a caller keeps with a join to remember where it came from. -/
inductive Origin where
  | text (s : String)
  | integer (n : Int64)
  | flag (b : Bool)
deriving DecidableEq, Repr, Inhabited

namespace Origin

/-- The kept text, if it is a text. -/
def text? : Origin → Option String
  | text s => some s
  | _ => none

/-- The kept integer, if it is an integer. -/
def integer? : Origin → Option Int64
  | integer n => some n
  | _ => none

/-- The kept flag, if it is a flag. -/
def flag? : Origin → Option Bool
  | flag b => some b
  | _ => none

/-- The displayed form tells only whether an origin is set. -/
def render (origin : Option Origin) : String :=
  if origin.isSome then "Origin(..)" else "Origin(None)"

end Origin

/-- A join of a foreign table to a primary one. -/
structure Join where
  name : String
  primary : Table
  foreign : TableRef
  condition : Groups Condition
  type : JoinType
  permanent : Bool
  comment? : Option String
  origin? : Option Origin
deriving Inhabited

namespace Join

/-- The members of a join's condition: a comparison stands alone, a conjunction keeps its groups,
and anything else is refused, also as a member. -/
def conditionOf (foreign : TableRef) : Condition → Except JoinError (Groups Condition)
  | .compare c => .ok (Groups.ofList [.compare c])
  | .composite .and g =>
    match g.toList.find? (!·.isCompare) with
    | some child => .error ⟨foreign.render, child.kind⟩
    | none => .ok g
  | c => .error ⟨foreign.render, c.kind⟩

/-- A join without comment and origin, if its condition has the shape of a join's condition. -/
def make (name : String) (primary : Table) (foreign : TableRef) (condition : Condition)
    (type : JoinType) (permanent : Bool) : Except JoinError Join := do
  let members ← conditionOf foreign condition
  return ⟨name, primary, foreign, members, type, permanent, none, none⟩

/-- A join to a table that is not yet a reference. -/
def ofTable (name : String) (primary foreign : Table) (condition : Condition) (type : JoinType)
    (permanent : Bool) : Except JoinError Join :=
  make name primary ⟨foreign⟩ condition type permanent

/-- Joins are equal when name, condition, tables and type are. -/
protected def beq (a b : Join) : Bool :=
  a.name == b.name && a.condition == b.condition && a.foreign == b.foreign && a.type == b.type
    && a.primary == b.primary

instance : BEq Join := ⟨Join.beq⟩

instance : Digestible Join where
  tokens j := tokens j.name ++ tokens j.condition ++ tokens j.foreign ++ [.integer j.type.code]
    ++ tokens j.primary

/-- A member of the condition read from the other side: an equation of columns exchanges its
operands, all else stays. -/
def invertMember : Condition → Condition
  | .compare c => .compare (if c.equatesColumns then c.swapOperands else c)
  | c => c

/-- The same join read from the foreign side, under a new name. -/
def invert (j : Join) (name : String) : Join :=
  { j with
    name := name
    primary := j.foreign.table
    foreign := ⟨j.primary⟩
    condition := j.condition.map invertMember
    type := j.type.inverted }

/-- The displayed form. A permanent join is marked behind its name. -/
def render (j : Join) : String :=
  j.type.render ++ " " ++ j.name ++ (if j.permanent then "!" else "")
    ++ (match j.comment? with
        | some c => " /* " ++ c ++ " */"
        | none => "")
    ++ " FROM " ++ j.primary.render ++ " TO " ++ j.foreign.render ++ " ON "
    ++ j.condition.render .and

end Join

end QueryTree
