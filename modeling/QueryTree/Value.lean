import QueryTree.Decimal.Basic
import QueryTree.Digest

/-!
# Values

A value is a constant in a query, and an `AnyOf` is the fixed list of values that an operand is
matched against. Numbers with a fraction are decimals, so equality is an equivalence and values can
be hashed.
-/

namespace QueryTree

/-- A constant. -/
inductive Value where
  | null
  | boolean (b : Bool)
  | integer (n : Int64)
  | decimal (d : Decimal)
  | text (s : String)
deriving DecidableEq, Repr, Inhabited

namespace Value

/-- Two values are equal when they are of one sort with equal contents; decimals compare as
numbers. -/
protected def beq : Value → Value → Bool
  | null, null => true
  | boolean a, boolean b => a == b
  | integer a, integer b => a == b
  | decimal a, decimal b => a == b
  | text a, text b => a == b
  | _, _ => false

instance : BEq Value := ⟨Value.beq⟩

/-- The value is NULL. -/
def isNull : Value → Bool
  | null => true
  | _ => false

/-- The displayed form. Quotes inside a text stand as they are. -/
def render : Value → String
  | null => "NULL"
  | boolean true => "true"
  | boolean false => "false"
  | integer n => toString n.toInt
  | decimal d => d.render
  | text s => "'" ++ s ++ "'"

instance : Digestible Value where
  tokens
    | null => [.mark 0]
    | boolean b => [.mark 1, .mark b.toNat]
    | integer n => [.mark 2, .integer n.toInt]
    | decimal d => [.mark 3, .integer d.lowest.1, .mark d.lowest.2]
    | text s => [.mark 4, .text s]

end Value

/-- The values that an operand is matched against. -/
structure AnyOf where
  values : List Value
deriving DecidableEq, BEq, Repr, Inhabited

namespace AnyOf

/-- The displayed form tells only how many values there are. -/
def render (a : AnyOf) : String :=
  "ANY[" ++ toString a.values.length ++ " values]"

instance : Digestible AnyOf := ⟨fun a => tokens a.values⟩

end AnyOf

end QueryTree
