import QueryTree.Operator
import QueryTree.Table
import QueryTree.Value

/-!
# Comparisons

An operand is a column, a value, or a list of values to match. A comparison holds an operator
between two operands and is the leaf of every condition.
-/

namespace QueryTree

/-- One side of a comparison, or the value assigned by an update. -/
inductive Operand where
  | column (c : Column)
  | value (v : Value)
  | anyOf (a : AnyOf)
deriving DecidableEq, Repr, Inhabited

namespace Operand

/-- Operands are equal when they are of one sort with equal contents. -/
protected def beq : Operand → Operand → Bool
  | column a, column b => a == b
  | value a, value b => a == b
  | anyOf a, anyOf b => a == b
  | _, _ => false

instance : BEq Operand := ⟨Operand.beq⟩

/-- The column, if the operand is one. -/
def column? : Operand → Option Column
  | column c => some c
  | _ => none

/-- The operand is a column. -/
def isColumn (o : Operand) : Bool :=
  o.column?.isSome

/-- The displayed form is that of the content. -/
def render : Operand → String
  | column c => c.render
  | value v => v.render
  | anyOf a => a.render

instance : Digestible Operand where
  tokens
    | column c => .mark 0 :: tokens c
    | value v => .mark 1 :: tokens v
    | anyOf a => .mark 2 :: tokens a

end Operand

/-- An operator between two operands. -/
structure Comparison where
  operator : Operator
  left : Operand
  right : Operand
deriving DecidableEq, BEq, Repr, Inhabited

namespace Comparison

/-- The operands change places, the operator stays. -/
def swapOperands (c : Comparison) : Comparison :=
  { c with left := c.right, right := c.left }

/-- The comparison equates two columns, under any modifiers. -/
def equatesColumns (c : Comparison) : Bool :=
  c.operator.isEquality && c.left.isColumn && c.right.isColumn

/-- The displayed form: the operator between the operands. -/
def render (c : Comparison) : String :=
  c.left.render ++ " " ++ c.operator.render ++ " " ++ c.right.render

instance : Digestible Comparison :=
  ⟨fun c => .integer c.operator.codeInt :: (tokens c.left ++ tokens c.right)⟩

end Comparison

end QueryTree
