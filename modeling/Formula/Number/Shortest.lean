/-
Formula/Number/Shortest.lean

The shortest decimal digits that read back as a given double.  Around the value
significand · 2^exponent lies the interval of the reals that round to it; its
ends belong to it exactly when the significand is even.  For one, two, … up to
seventeen digits, `digits` looks at the two neighbours of the value on the grid
of decimals with that many digits.  The first grid with a neighbour inside the
interval wins; of two, the nearer one; of two equally near, the even one.

Design.  All comparisons are between natural numbers: the value and the ends of
its interval are counted in units of a quarter of the last binary place.
-/
import Formula.Number.Binary64

namespace Formula.Shortest

open Binary64 (twoTo tenTo)

/-- A positive decimal: 0.d₁d₂…dₙ · 10^point, written with the number d₁d₂…dₙ
and the place of the point. -/
structure Decimal where
  digits : Nat
  point : Int
  deriving DecidableEq, Repr

/-- A positive value with the interval that rounds to it, all three counted in
units of num / den. -/
structure Interval where
  low : Nat
  value : Nat
  high : Nat
  closed : Bool
  num : Nat
  den : Nat

/-- The interval of the reals that round to significand · 2^exponent.  Below a
power of two the next double is half as far away. -/
def Interval.of (significand : Nat) (exponent : Int) : Interval :=
  let unit := exponent - 2
  { low := 4 * significand - (if significand = twoTo 52 ∧ -1074 < exponent then 1 else 2)
    value := 4 * significand
    high := 4 * significand + 2
    closed := significand % 2 = 0
    num := if unit < 0 then 1 else twoTo unit.natAbs
    den := if unit < 0 then twoTo unit.natAbs else 1 }

/-- Does the decimal grid point n · 10^place lie in the interval? -/
def Interval.holds (i : Interval) (n : Nat) (place : Int) : Bool :=
  let (up, down) := if place < 0 then (1, tenTo place.natAbs) else (tenTo place.natAbs, 1)
  let point := n * up * i.den
  let low := i.low * i.num * down
  let high := i.high * i.num * down
  if i.closed then low ≤ point && point ≤ high else low < point && point < high

/-- The value in units of 10^place, rounded down, and twice the remainder
compared with a whole unit. -/
def Interval.split (i : Interval) (place : Int) : Nat × Ordering :=
  let (up, down) := if place < 0 then (1, tenTo place.natAbs) else (tenTo place.natAbs, 1)
  let num := i.value * i.num * down
  let den := up * i.den
  (num / den, compare (2 * (num % den)) den)

/-- The place of the point: the least p with value < 10^p. -/
def Interval.point (i : Interval) : Int :=
  let estimate : Int :=
    ((Nat.log2 (i.value * i.num) : Int) - Nat.log2 i.den) * 30103 / 100000 - 1
  -- the estimate is at most two places short
  search 4 estimate
where
  search : Nat → Int → Int
    | 0, p => p
    | n + 1, p => if (i.split p).1 = 0 then p else search n (p + 1)

/-- The grid point nearest to the value among its neighbours in the interval, if
one is there. -/
def Interval.hit (i : Interval) (place : Int) : Option Nat :=
  let (below, half) := i.split place
  match i.holds below place, i.holds (below + 1) place with
  | true, true =>
    match half with
    | .lt => some below
    | .gt => some (below + 1)
    | .eq => some (below + below % 2)
  | true, false => some below
  | false, true => some (below + 1)
  | false, false => none

/-- The shortest decimal that reads back as significand · 2^exponent. -/
def digits (significand : Nat) (exponent : Int) : Decimal :=
  let i := Interval.of significand exponent
  let point := i.point
  search i point 17 1
where
  search (i : Interval) (point : Int) : Nat → Nat → Decimal
    | 0, n => ⟨(i.split (point - n)).1, point⟩
    | rest + 1, n =>
      match i.hit (point - n) with
      | some d => if d = tenTo n then ⟨1, point + 1⟩ else ⟨d, point⟩
      | none => search i point rest (n + 1)

end Formula.Shortest
