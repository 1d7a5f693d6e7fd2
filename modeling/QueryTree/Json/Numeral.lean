/-!
# Number tokens

A number in JSON text is kept as it is spelled: a sign, the digits before and after the point, and
an exponent. What the spelling is worth is decided where a number is wanted.
-/

namespace QueryTree.Json

/-- The exponent part of a number: its sign and its digits. -/
structure Exponent where
  negative : Bool
  digits : List Char
deriving DecidableEq, Repr, Inhabited

/-- A number as it is spelled. Without a fraction the digits after the point are missing. -/
structure Numeral where
  negative : Bool
  whole : List Char
  fraction : List Char
  exponent : Option Exponent
deriving DecidableEq, Repr, Inhabited

namespace Numeral

/-- The spelling of an integer. -/
def ofInt (n : Int) : Numeral :=
  ⟨n < 0, Nat.toDigits 10 n.natAbs, [], none⟩

/-- The integer that is spelled without point, exponent or a sign in front of zero. -/
def toInt? (n : Numeral) : Option Int :=
  let size := Nat.ofDigitChars 10 n.whole 0
  match n.fraction, n.exponent with
  | [], none =>
    if n.negative then
      if size = 0 then none else some (-(size : Int))
    else some size
  | _, _ => none

/-- The spelled integer, if a signed 64-bit word holds it. -/
def toInt64? (n : Numeral) : Option Int64 :=
  match n.toInt? with
  | some i =>
    if -0x8000000000000000 ≤ i ∧ i < 0x8000000000000000 then some (Int64.ofInt i) else none
  | none => none

/-- The text of the number. -/
def chars (n : Numeral) : List Char :=
  (if n.negative then ['-'] else []) ++ n.whole
    ++ (if n.fraction.isEmpty then [] else '.' :: n.fraction)
    ++ (match n.exponent with
        | none => []
        | some e => 'e' :: ((if e.negative then ['-'] else []) ++ e.digits))

end Numeral

end QueryTree.Json
