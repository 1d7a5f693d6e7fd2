import QueryTree.Decimal.Basic

/-!
# Shortest digits

A finite binary number `m * 2 ^ q` stands for every real that rounds to it. `shortest` finds the
decimal with the fewest digits in that interval and, of several with as few, the nearest to the
number. `positional` spells a digit string without an exponent.
-/

namespace QueryTree.Decimal

/-- The reals that round to a binary number, in units of `2 ^ unit`. -/
structure Interval where
  low : Nat
  middle : Nat
  high : Nat
  closed : Bool
  unit : Int
deriving DecidableEq, Repr, Inhabited

namespace Interval

/-- The interval of `m * 2 ^ q`. Below a power of two the gap is half as wide, and the ends belong
to an even `m`. -/
def ofBinary (m : Nat) (q : Int) (narrow : Bool) : Interval :=
  ⟨4 * m - (if narrow then 1 else 2), 4 * m, 4 * m + 2, m % 2 == 0, q - 2⟩

/-- The interval's bounds as multiples of a common unit, with the grid step `10 ^ e` as another. -/
def onGrid (i : Interval) (e : Int) : Nat × Nat × Nat × Nat :=
  let up := Nat.pow 2 i.unit.toNat * tenTo (-e).toNat
  let step := Nat.pow 2 (-i.unit).toNat * tenTo e.toNat
  (i.low * up, i.middle * up, i.high * up, step)

/-- The multiple of `10 ^ e` in the interval that is nearest to its middle, upwards on a tie. -/
def nearest? (i : Interval) (e : Int) : Option Nat :=
  let (low, middle, high, step) := i.onGrid e
  let holds := fun k => if i.closed then low ≤ k * step && k * step ≤ high
    else low < k * step && k * step < high
  let below := middle / step
  let above := below + 1
  match holds below, holds above with
  | true, true => some (if 2 * middle < (below + above) * step then below else above)
  | true, false => some below
  | false, true => some above
  | false, false => none

/-- The first hit on the grids `10 ^ (309 - k)` with `k` from `start` on, and the exponent of its
grid. -/
def firstHit (i : Interval) (start : Nat) : Nat → Nat × Int
  | 0 => (0, 0)
  | tries + 1 =>
    let e := 309 - (start : Int)
    match i.nearest? e with
    | some digits => (digits, e)
    | none => i.firstHit (start + 1) tries

/-- The digits and the exponent of the shortest decimal. Grids finer than `10 ^ (-324)` are never
needed for a double. -/
def shortest (i : Interval) : Nat × Int :=
  i.firstHit 0 634

end Interval

/-- The number `n * 10 ^ e` spelled without an exponent. -/
def positional (n : Nat) (e : Int) : List Char :=
  let digits := Nat.toDigits 10 n
  if 0 ≤ e then digits ++ List.replicate e.toNat '0'
  else
    let places := (-e).toNat
    let padded := List.replicate (places + 1 - digits.length) '0' ++ digits
    padded.take (padded.length - places) ++ '.' :: padded.drop (padded.length - places)

/-- The text of a finite double: its sign, then its shortest digits in positional notation. -/
def ofDouble (x : Float) : List Char :=
  let bits := x.toBits.toNat
  let hidden := 0x10000000000000
  let negative := 0x8000000000000000 ≤ bits
  let exponent : Nat := bits / hidden % 2048
  let fraction := bits % hidden
  let size :=
    if exponent = 0 ∧ fraction = 0 then ['0']
    else
      let interval :=
        if exponent = 0 then Interval.ofBinary fraction (-1074) false
        else Interval.ofBinary (hidden + fraction) ((exponent : Int) - 1075)
          (fraction == 0 && 1 < exponent)
      let (digits, e) := interval.shortest
      positional digits e
  (if negative then ['-'] else []) ++ size

end QueryTree.Decimal
