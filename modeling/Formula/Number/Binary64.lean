/-
Formula/Number/Binary64.lean

Doubles as exact numbers.  A finite double is ± significand · 2^exponent with a
53-bit significand and an exponent of at least −1074; `parts?` takes it apart and
`nearest` goes back, from any quotient of natural numbers to the double nearest
to it, ties to the even significand.  Everything that has to be rounded once and
correctly is computed exactly first and handed to `nearest`: division of large
integers, ratios, decimal numerals, and remainders.

Design.  `nearest` never fails: a quotient beyond the largest double becomes an
infinity, and it is for its callers to call that an overflow.
-/
namespace Formula.Binary64

/-- A finite double taken apart: its sign, and its magnitude
significand · 2^exponent. -/
structure Parts where
  negative : Bool
  significand : Nat
  exponent : Int
  deriving DecidableEq, Repr

/-! ### Powers -/

/-- Powers of two. -/
def twoTo (n : Nat) : Nat := Nat.pow 2 n

/-- Powers of ten. -/
def tenTo (n : Nat) : Nat := Nat.pow 10 n

/-! ### Bits -/

/-- One more than the largest significand. -/
def significandLimit : Nat := twoTo 53

/-- The significand and exponent of a finite double; nothing for infinities and
for values that are not numbers. -/
def parts? (x : Float) : Option Parts :=
  let bits : Nat := x.toBits.toNat
  let field : Nat := bits / twoTo 52 % twoTo 11
  let fraction := bits % twoTo 52
  let negative := twoTo 63 ≤ bits
  if field = twoTo 11 - 1 then none
  else if field = 0 then some ⟨negative, fraction, -1074⟩
  else some ⟨negative, twoTo 52 + fraction, (field : Int) - 1075⟩

/-- The double with the given sign and magnitude bits. -/
def ofMagnitude (negative : Bool) (bits : Nat) : Float :=
  Float.ofBits (UInt64.ofNat (if negative then twoTo 63 + bits else bits))

/-- The magnitude bits of an infinity. -/
def infinityBits : Nat := 2047 * twoTo 52

/-- Infinity, with a sign. -/
def infinity (negative : Bool) : Float := ofMagnitude negative infinityBits

/-! ### Rounding -/

/-- The quotient of `num` by `den`, rounded to the nearest natural number, ties
to the even one. -/
def roundQuotient (num den : Nat) : Nat :=
  let q := num / den
  let twice := 2 * (num % den)
  if twice < den then q
  else if den < twice then q + 1
  else q + q % 2

/-- The exponent that gives `num / den` a significand of 53 bits, or −1074 where
that exponent would be smaller. -/
def exponentFor (num den : Nat) : Int :=
  let e := (Nat.log2 num : Int) - Nat.log2 den - 53
  -- the quotient in units of `twoTo e` has 53 or 54 bits
  let scaled := if e < 0 then num * twoTo e.natAbs / den else num / (den * twoTo e.natAbs)
  max (-1074) (if significandLimit ≤ scaled then e + 1 else e)

/-- The double nearest to ± num / den, ties to the even significand; an infinity
when that is out of range. -/
def nearest (negative : Bool) (num den : Nat) : Float :=
  if num = 0 then ofMagnitude negative 0
  else
    let e := exponentFor num den
    let significand :=
      if e < 0 then roundQuotient (num * twoTo e.natAbs) den
      else roundQuotient num (den * twoTo e.natAbs)
    -- a significand that grew to `twoTo 53` carries into the exponent field
    let bits := (e + 1074).toNat * twoTo 52 + significand
    ofMagnitude negative (min bits infinityBits)

/-- The double nearest to an integer. -/
def ofInt (n : Int) : Float := nearest (n < 0) n.natAbs 1

/-- The double nearest to a ratio. -/
def ofRat (q : Rat) : Float := nearest (q.num < 0) q.num.natAbs q.den

/-- The double nearest to ± digits · 10^exponent.  Where the exponent alone
decides, the power is not computed. -/
def ofDecimal (negative : Bool) (digits : Nat) (exponent : Int) : Float :=
  if digits = 0 ∨ exponent < -400 - (Nat.log2 digits : Int) then ofMagnitude negative 0
  else if 400 < exponent then infinity negative
  else if exponent < 0 then nearest negative digits (tenTo exponent.natAbs)
  else nearest negative (digits * tenTo exponent.natAbs) 1

/-! ### Exact values -/

/-- The exact value of a finite double. -/
def toRat? (x : Float) : Option Rat :=
  (parts? x).map fun p =>
    let magnitude : Rat :=
      if p.exponent < 0 then mkRat p.significand (twoTo p.exponent.natAbs)
      else mkRat (p.significand * twoTo p.exponent.natAbs) 1
    if p.negative then -magnitude else magnitude

/-- The integer part of a finite double, toward zero. -/
def truncate? (x : Float) : Option Int :=
  (toRat? x).map fun q => Int.tdiv q.num q.den

/-- The sign bit. -/
def isNegative (x : Float) : Bool := twoTo 63 ≤ x.toBits.toNat

/-! ### Remainder -/

/-- The remainder of the magnitudes of two finite doubles, exact, with the sign
of the first. -/
def truncatedRemainder (p q : Parts) : Float :=
  let e := min p.exponent q.exponent
  let r := (p.significand * twoTo (p.exponent - e).toNat) %
    (q.significand * twoTo (q.exponent - e).toNat)
  if e < 0 then nearest p.negative r (twoTo e.natAbs)
  else nearest p.negative (r * twoTo e.natAbs) 1

/-- The remainder of `x` by a non-zero `y` with the sign of `y`.  A remainder of
zero takes that sign too; a finite number is its own truncated remainder by an
infinity. -/
def flooredRemainder (x y : Float) : Float :=
  match parts? x, parts? y with
  | some p, some q => adjust (truncatedRemainder p q)
  | some _, none => if y.isNaN then y else adjust x
  | none, _ => 0.0 / 0.0
where
  adjust (r : Float) : Float :=
    if r == 0.0 then ofMagnitude (isNegative y) 0
    else if (y < 0.0) != (r < 0.0) then r + y
    else r

end Formula.Binary64
