/-!
# Fixed-point decimals

A decimal is a sign and a size below `2 ^ 96`, divided by a power of ten with at most twenty-eight
places. Two decimals are `==` when they are the same number, whatever their scales and whatever sign
a zero carries; `Decimal.lowest` picks one form for each number. The written form keeps both.
-/

namespace QueryTree

/-- The first size that is out of range, which is `2 ^ 96`. -/
def Decimal.bound : Nat := 0x1000000000000000000000000

/-- The number `size / 10 ^ scale`, or its negative. -/
structure Decimal where
  negative : Bool
  size : Nat
  scale : Nat
  size_lt : size < Decimal.bound
  scale_le : scale ≤ 28
deriving DecidableEq, Repr

namespace Decimal

instance : Inhabited Decimal := ⟨⟨false, 0, 0, by decide, by decide⟩⟩

/-- The decimal with this sign and size, if it is in range. -/
def ofSize? (negative : Bool) (size scale : Nat) : Option Decimal :=
  if h : size < bound ∧ scale ≤ 28 then some ⟨negative, size, scale, h.1, h.2⟩ else none

/-- The decimal `coefficient / 10 ^ scale`, if it is in range. Zero has no sign. -/
def ofParts? (coefficient : Int) (scale : Nat) : Option Decimal :=
  ofSize? (coefficient < 0) coefficient.natAbs scale

/-- The size with its sign. -/
def coefficient (d : Decimal) : Int :=
  if d.negative then -(d.size : Int) else d.size

/-- The power of ten with `n` zeros. -/
def tenTo (n : Nat) : Nat := Nat.pow 10 n

/-- Two decimals are equal when they are the same number. -/
instance : BEq Decimal where
  beq a b := a.coefficient * tenTo b.scale == b.coefficient * tenTo a.scale

/-- Drops the zeros at the end of a coefficient, as far as its scale allows. -/
def dropZeros (coefficient : Int) : Nat → Int × Nat
  | 0 => (coefficient, 0)
  | scale + 1 =>
    if coefficient % 10 = 0 then dropZeros (coefficient / 10) scale
    else (coefficient, scale + 1)

/-- Coefficient and scale of the number in its shortest form, the same for equal decimals. -/
def lowest (d : Decimal) : Int × Nat :=
  dropZeros d.coefficient d.scale

/-- The digits of a natural number, with zeros in front up to the width. -/
def paddedDigits (width n : Nat) : List Char :=
  let digits := Nat.toDigits 10 n
  List.replicate (width - digits.length) '0' ++ digits

/-- The written form: the sign if there is one, then the digits, with as many of them after the
point as the scale says. -/
def chars (d : Decimal) : List Char :=
  let digits := paddedDigits (d.scale + 1) d.size
  let whole := digits.take (digits.length - d.scale)
  let fraction := digits.drop (digits.length - d.scale)
  (if d.negative then ['-'] else [])
    ++ whole ++ (if d.scale = 0 then [] else '.' :: fraction)

/-- The written form as a string. -/
def render (d : Decimal) : String :=
  String.ofList d.chars

end Decimal

end QueryTree
