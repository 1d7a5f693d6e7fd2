import QueryTree.Error
import QueryTree.Text.Blank

/-!
# Comparison operators

An operator is one of nine comparators with two optional modifiers. It has a text form, written by
`Operator.render` and read by `Operator.ofText`, and an integer form, written by `Operator.code` and
read by `Operator.ofCode`.
-/

namespace QueryTree

/-- The nine ways to compare two operands. -/
inductive Comparator where
  | equals
  | greater
  | less
  | greaterOrEqual
  | lessOrEqual
  | notEquals
  | oneOf
  | like
  | notLike
deriving DecidableEq, Repr, Inhabited

namespace Comparator

/-- Every comparator, in the order of its codes. -/
def all : List Comparator :=
  [equals, greater, less, greaterOrEqual, lessOrEqual, notEquals, oneOf, like, notLike]

/-- The low byte of an operator's integer form. -/
def code : Comparator → Int
  | equals => 0
  | greater => 1
  | less => 2
  | greaterOrEqual => 3
  | lessOrEqual => 4
  | notEquals => 5
  | oneOf => 6
  | like => 7
  | notLike => 8

/-- The comparator with the code, if there is one. -/
def ofCode? (code : Int) : Option Comparator :=
  all.find? (·.code == code)

/-- The written symbol, in lower case. -/
def symbol : Comparator → String
  | equals => "="
  | greater => ">"
  | less => "<"
  | greaterOrEqual => ">="
  | lessOrEqual => "<="
  | notEquals => "!="
  | oneOf => "in"
  | like => "like"
  | notLike => "not like"

/-- The comparator whose symbol the text is, up to the case of ASCII letters. -/
def ofSymbol? (cs : List Char) : Option Comparator :=
  all.find? (·.symbol.toList == cs.map Char.toLower)

/-- The comparator that holds of the exchanged operands. Matching a value against a list or a
pattern has no converse. -/
def converse? : Comparator → Option Comparator
  | greater => some less
  | less => some greater
  | greaterOrEqual => some lessOrEqual
  | lessOrEqual => some greaterOrEqual
  | equals => some equals
  | notEquals => some notEquals
  | oneOf | like | notLike => none

end Comparator

/-- What qualifies a comparator: letter case may be ignored, and NULL may count as a match. -/
structure Modifiers where
  caseInsensitive : Bool
  orNull : Bool
deriving DecidableEq, Repr, Inhabited

namespace Modifiers

/-- No modifier. -/
def plain : Modifiers := ⟨false, false⟩

/-- The bits above the low byte of an operator's integer form. -/
def code (m : Modifiers) : Int :=
  (if m.caseInsensitive then 256 else 0) + (if m.orNull then 512 else 0)

/-- The marks in front of the symbol. -/
def render (m : Modifiers) : String :=
  (if m.caseInsensitive then "#" else "") ++ (if m.orNull then "^||" else "")

/-- Takes the longest run of marks off the front of a text. -/
def strip : List Char → Modifiers × List Char
  | '#' :: cs =>
    let (m, rest) := strip cs
    ({ m with caseInsensitive := true }, rest)
  | '^' :: '|' :: '|' :: cs =>
    let (m, rest) := strip cs
    ({ m with orNull := true }, rest)
  | cs => (plain, cs)

end Modifiers

/-- A comparator with its modifiers. -/
structure Operator where
  comparator : Comparator
  modifiers : Modifiers
deriving DecidableEq, Repr, Inhabited

namespace Operator

/-- The comparator is equality, whatever the modifiers. -/
def isEquality (op : Operator) : Bool :=
  op.comparator == .equals

/-- The operator that holds of the exchanged operands, with the same modifiers. -/
def converse? (op : Operator) : Option Operator :=
  op.comparator.converse?.map ({ op with comparator := · })

/-- Comparator and modifiers as one number. -/
def codeInt (op : Operator) : Int :=
  op.comparator.code + op.modifiers.code

/-- The integer form. -/
def code (op : Operator) : Int64 :=
  Int64.ofInt op.codeInt

/-- Reads the integer form: a known comparator in the low byte, the two modifier bits above it, and
no other bit set. -/
def ofCode? (n : Int) : Option Operator :=
  if 0 ≤ n ∧ n < 1024 then
    (Comparator.ofCode? (n % 256)).map fun comparator =>
      ⟨comparator, ⟨n / 256 % 2 == 1, n / 512 % 2 == 1⟩⟩
  else
    none

/-- Reads the integer form, or refuses the code. -/
def ofCode (code : Int64) : Except DecodeError Operator :=
  match ofCode? code.toInt with
  | some op => .ok op
  | none => .error (.invalidOperator code)

/-- The text form: the marks of the modifiers, then the symbol. -/
def render (op : Operator) : String :=
  op.modifiers.render ++ op.comparator.symbol

/-- Reads a text without surrounding blanks: any run of marks, then a symbol. -/
def ofChars? (cs : List Char) : Option Operator :=
  let (modifiers, rest) := Modifiers.strip cs
  (Comparator.ofSymbol? rest).map (⟨·, modifiers⟩)

/-- Reads the text form between any blanks, or refuses the text as it was given. -/
def ofText (text : String) : Except OperatorTextError Operator :=
  match ofChars? (Text.trim text.toList) with
  | some op => .ok op
  | none => .error ⟨text⟩

end Operator

end QueryTree
