import QueryTree.Decimal.Basic

/-!
# Decimal notation

`Decimal.ofPlain?` reads a sign and digits around a point, `Decimal.ofScientific?` reads the same
with a power of ten behind it, and `Decimal.ofText?` reads either. Fraction digits that do not fit
are dropped, and the first of them decides the rounding. Only a scientific number that is rounded
away to zero keeps its sign.
-/

namespace QueryTree.Decimal

/-- The value of an ASCII digit. -/
def digit? (c : Char) : Option Nat :=
  if c.isDigit then some (c.toNat - '0'.toNat) else none

/-- A character that may stand among the digits once the first of them is read. -/
def isFiller (c : Char) : Bool :=
  c.isDigit || c == '_'

/-- Adds one in the last place. A coefficient that grows out of range gives up its last digit. -/
def roundUp? (coefficient scale : Nat) : Option (Nat × Nat) :=
  if coefficient + 1 < bound then some (coefficient + 1, scale)
  else match scale with
    | 0 => none
    | scale + 1 => some ((coefficient + 1 + 4) / 10, scale)

/-- Drops the rest of a fraction, whose first digit is `d`. -/
def dropFraction? (coefficient scale d : Nat) (rest : List Char) : Option (Nat × Nat) :=
  if rest.all isFiller then
    if 5 ≤ d then roundUp? coefficient scale else some (coefficient, scale)
  else none

/-- A coefficient is short if it stays below this number without its last digit, so that all of it
fits a 64-bit word. -/
def isShort (coefficient : Nat) : Bool :=
  coefficient / 10 < 1844674407370954906

/-- Reads digits into a coefficient and a scale. `point` tells whether the point is passed, and
`started` whether a digit is read. Underscores are skipped from the first digit on, but one that
follows the twenty-eighth place of a short coefficient counts as a dropped zero. -/
def digits? (coefficient scale : Nat) (point started : Bool) : List Char → Option (Nat × Nat)
  | [] => if started then some (coefficient, scale) else none
  | c :: cs =>
    match digit? c with
    | some d =>
      let grown := 10 * coefficient + d
      if point then
        if grown < bound ∧ scale < 28 then digits? grown (scale + 1) true true cs
        else dropFraction? coefficient scale d cs
      else if grown < bound then digits? grown scale false true cs
      else none
    | none =>
      if c = '.' ∧ !point then digits? coefficient scale true started cs
      else if c = '_' ∧ started then
        if 28 ≤ scale ∧ isShort coefficient then dropFraction? coefficient scale 0 cs
        else digits? coefficient scale point started cs
      else none

/-- A sign in front of an unsigned coefficient. Zero has no sign. -/
def signed (negative : Bool) (coefficient : Nat) : Int :=
  if negative then -(coefficient : Int) else coefficient

/-- Reads an optional sign off the front. -/
def sign : List Char → Bool × List Char
  | '-' :: cs => (true, cs)
  | '+' :: cs => (false, cs)
  | cs => (false, cs)

/-- Reads plain notation. -/
def ofPlain? (cs : List Char) : Option Decimal :=
  let (negative, rest) := sign cs
  match digits? 0 0 false false rest with
  | some (coefficient, scale) => ofParts? (signed negative coefficient) scale
  | none => none

/-- Reads the digits of an exponent, with an optional plus in front. -/
def exponentDigits? (cs : List Char) : Option Nat :=
  let ds := match cs with
    | '+' :: ds => ds
    | ds => ds
  if ds.isEmpty || !ds.all Char.isDigit then none else some (Nat.ofDigitChars 10 ds 0)

/-- The quotient by a power of ten, with a half rounded up. -/
def roundedQuotient (n places : Nat) : Nat :=
  let unit := tenTo places
  (2 * n + unit) / (2 * unit)

/-- The decimal divided by `10 ^ n`. Places beyond the twenty-eighth are rounded off, and the sign
stays even if nothing else does. -/
def shiftRight? (d : Decimal) (n : Nat) : Option Decimal :=
  if 28 < n then none
  else if d.scale + n ≤ 28 then ofParts? d.coefficient (d.scale + n)
  else ofSize? d.negative (roundedQuotient d.size (d.scale + n - 28)) 28

/-- The decimal times `10 ^ n`: the point moves through the places there are, and an integer comes
out if it moves further. -/
def shiftLeft? (d : Decimal) (n : Nat) : Option Decimal :=
  if n ≤ d.scale then ofParts? d.coefficient (d.scale - n)
  else if 28 < n then none
  else ofParts? (d.coefficient * tenTo (n - d.scale)) 0

/-- Reads scientific notation: plain notation, the letter, and a signed power of ten. -/
def ofScientific? (cs : List Char) : Option Decimal :=
  let isLetter := fun c => c == 'e' || c == 'E'
  match ofPlain? (cs.takeWhile (!isLetter ·)), cs.dropWhile (!isLetter ·) with
  | some base, _ :: '-' :: power => (exponentDigits? power).bind base.shiftRight?
  | some base, _ :: power => (exponentDigits? power).bind base.shiftLeft?
  | _, _ => none

/-- Reads a decimal in either notation. -/
def ofChars? (cs : List Char) : Option Decimal :=
  (ofPlain? cs).or (ofScientific? cs)

/-- Reads a decimal from a string in either notation. -/
def ofText? (text : String) : Option Decimal :=
  ofChars? text.toList

end QueryTree.Decimal
