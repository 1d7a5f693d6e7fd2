import QueryTree.Decimal.Notation
import QueryTree.Decimal.Shortest
import QueryTree.Json.Numeral

/-!
# Decimals from number tokens

A number token becomes a decimal exactly if it is an integer of at most sixty-four bits. Any other
number first becomes a double, whose shortest digits are then read as a decimal. The double is
formed from a 64-bit significand and one power of ten.
-/

namespace QueryTree.Decimal

open Json (Numeral Exponent)

/-- The digits that fit a 64-bit significand, taken from the front, and the digits left over. -/
def significand (acc : Nat) : List Char → Nat × List Char
  | [] => (acc, [])
  | c :: cs =>
    let grown := 10 * acc + (c.toNat - '0'.toNat)
    if grown < 0x10000000000000000 then significand grown cs else (acc, c :: cs)

/-- The double nearest to `10 ^ n`. -/
def powerOfTen (n : Nat) : Float :=
  Float.ofScientific 1 false n

/-- The double divided by `10 ^ n`, in steps that keep each divisor a double. -/
def divided (x : Float) (n : Nat) : Float :=
  if n ≤ 308 then x / powerOfTen n
  else if x == 0 then x
  else divided (x / powerOfTen 308) (n - 308)
termination_by n

/-- The double near `significand * 10 ^ e`, or nothing beyond the range of doubles. -/
def scaled? (significand : Nat) (e : Int) : Option Float :=
  let x := (UInt64.ofNat significand).toFloat
  if e < 0 then some (divided x e.natAbs)
  else if e ≤ 308 then
    let y := x * powerOfTen e.natAbs
    if y.isInf then none else some y
  else if x == 0 then some x else none

/-- An integer brought into the range of signed 32-bit words. -/
def clamp32 (n : Int) : Int :=
  max (-0x80000000) (min n 0x7FFFFFFF)

/-- The size of the number that a token spells, as a double. -/
def magnitude? (n : Numeral) : Option Float :=
  let (kept, overflow) := significand 0 n.whole
  let (kept, dropped) := significand kept n.fraction
  let start := (overflow.length : Int) - (n.fraction.length - dropped.length : Nat)
  match n.exponent with
  | none => scaled? kept start
  | some e =>
    let power := Nat.ofDigitChars 10 e.digits 0
    if power ≤ 0x7FFFFFFF then
      scaled? kept (clamp32 (if e.negative then start - power else start + power))
    else if kept = 0 ∨ e.negative then some 0
    else none

/-- The double that a token spells. -/
def double? (n : Numeral) : Option Float :=
  (magnitude? n).map fun x => if n.negative then -x else x

/-- The decimal that a number token spells. -/
def ofNumeral? (n : Numeral) : Option Decimal :=
  match n.toInt? with
  | some i =>
    if -0x8000000000000000 ≤ i ∧ i < 0x10000000000000000 then ofParts? i 0
    else (double? n).bind fun x => ofChars? (ofDouble x)
  | none => (double? n).bind fun x => ofChars? (ofDouble x)

end QueryTree.Decimal
