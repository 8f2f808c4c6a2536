/-
Formula/Scalar/Arithmetic.lean

Arithmetic on operands.  Two operands are first brought to a common kind: an
integer and a ratio give ratios, and a double turns its partner into a double.  A
symbol on the left takes whatever stands on the right by its text and gives the
spelled-out application; a number on the left combines with no symbol.

Dividing integers gives the double nearest to the quotient, dividing ratios is
exact.  A remainder has the sign of the divisor.  A power stays exact where its
exponent is an integer and its result has the kind of its base; otherwise it is
a power of doubles.
-/
import Formula.Scalar.Basic

namespace Formula.Scalar

/-- The spelled-out application of an operation. -/
def spelled (name : String) (operands : List String) : String :=
  "(" ++ " ".intercalate (name :: operands) ++ ")"

/-! ### Bringing two operands together -/

/-- Two operands of a common kind. -/
inductive Pair where
  | integers (a b : Int)
  | ratios (a b : Rat)
  | doubles (a b : Float)
  | symbols (a b : String)

/-- Brings two operands to a common kind.  The left operand decides whether they
are symbols. -/
def pair : Scalar → Scalar → Except Failure Pair
  | symbol a, b => .ok (.symbols a b.text)
  | integer a, integer b => .ok (.integers a b)
  | integer a, ratio b => .ok (.ratios a b)
  | ratio a, integer b => .ok (.ratios a b)
  | ratio a, ratio b => .ok (.ratios a b)
  | double a, b => do return .doubles a (← b.toDouble)
  | a, double b => do return .doubles (← a.toDouble) b
  | _, _ => .error ⟨.type, ""⟩

/-- The failure of a division by zero. -/
def divisionByZero {α : Type} : Except Failure α := .error ⟨.zeroDivision, ""⟩

/-! ### The operations -/

/-- The sum. -/
def add (a b : Scalar) : Except Failure Scalar := do
  match ← pair a b with
  | .integers a b => return integer (a + b)
  | .ratios a b => return ratio (a + b)
  | .doubles a b => return double (a + b)
  | .symbols a b => return symbol (spelled "+" [a, b])

/-- The difference. -/
def sub (a b : Scalar) : Except Failure Scalar := do
  match ← pair a b with
  | .integers a b => return integer (a - b)
  | .ratios a b => return ratio (a - b)
  | .doubles a b => return double (a - b)
  | .symbols a b => return symbol (spelled "-" [a, b])

/-- The product. -/
def mul (a b : Scalar) : Except Failure Scalar := do
  match ← pair a b with
  | .integers a b => return integer (a * b)
  | .ratios a b => return ratio (a * b)
  | .doubles a b => return double (a * b)
  | .symbols a b => return symbol (spelled "*" [a, b])

/-- Division.  The quotient of two integers is the nearest double. -/
def div (a b : Scalar) : Except Failure Scalar := do
  match ← pair a b with
  | .integers a b =>
    if b = 0 then divisionByZero
    else return double (← inRange (Binary64.nearest ((a < 0) != (b < 0)) a.natAbs b.natAbs))
  | .ratios a b => if b.num = 0 then divisionByZero else return ratio (a / b)
  | .doubles a b => if b == 0.0 then divisionByZero else return double (a / b)
  | .symbols a b => return symbol (spelled "/" [a, b])

/-- The remainder with the sign of the divisor. -/
def mod (a b : Scalar) : Except Failure Scalar := do
  match ← pair a b with
  | .integers a b => if b = 0 then divisionByZero else return integer (Int.fmod a b)
  | .ratios a b =>
    if b.num = 0 then divisionByZero
    else return ratio (mkRat (Int.fmod (a.num * b.den) (b.num * a.den)) (a.den * b.den))
  | .doubles a b =>
    if b == 0.0 then divisionByZero else return double (Binary64.flooredRemainder a b)
  | .symbols a b => return symbol (spelled "%" [a, b])

/-- The opposite. -/
def neg : Scalar → Scalar
  | integer n => integer (-n)
  | ratio q => ratio (-q)
  | double x => double (-x)
  | symbol s => symbol (spelled "neg" [s])

/-- A number as it is. -/
def pos : Scalar → Scalar
  | symbol s => symbol (spelled "pos" [s])
  | s => s

/-! ### Powers -/

/-- A power of doubles.  Zero has no negative powers, and a power of finite
numbers overflows where its magnitude is too large, also where a negative base
leaves it without a real value. -/
def powDouble (x y : Float) : Except Failure Float :=
  if x == 0.0 && y < 0.0 && y.isFinite then divisionByZero
  else if x.isFinite && y.isFinite && (Float.pow x.abs y).isInf then .error ⟨.overflow, ""⟩
  else .ok (Float.pow x y)

/-- A power of an integer.  For zero, one and minus one the parity of the exponent
decides, however large it is. -/
def powInt (n : Int) (e : Nat) : Int :=
  if 1 < n.natAbs then Int.pow n e
  else if e = 0 then 1
  else if e % 2 = 0 then n * n
  else n

/-- A power of a ratio with a natural exponent. -/
def powNat (q : Rat) (e : Nat) : Rat :=
  if q.den = 1 then (powInt q.num e : Rat) else Rat.pow q e

/-- An integer power of a ratio. -/
def powRatio (q : Rat) (n : Int) : Except Failure Rat :=
  if 0 ≤ n then .ok (powNat q n.natAbs)
  else if q.num = 0 then divisionByZero
  else .ok (powNat q n.natAbs).inv

/-- The power.  A symbol is no exponent of a number. -/
def pow (a b : Scalar) : Except Failure Scalar :=
  let ofDoubles : Except Failure Scalar := do
    return double (← powDouble (← a.toDouble) (← b.toDouble))
  match a, b with
  | symbol s, e => .ok (symbol (spelled "^" [s, e.text]))
  | integer _, symbol _ => .error ⟨.type, ""⟩
  | ratio _, symbol _ => ofDoubles
  | double _, _ => ofDoubles
  | _, double _ => ofDoubles
  | integer n, integer e => if 0 ≤ e then .ok (integer (powInt n e.natAbs)) else ofDoubles
  | integer n, ratio e =>
    if e.den ≠ 1 then ofDoubles
    else if 0 ≤ e.num then .ok (integer (powInt n e.num.natAbs))
    else (powRatio n e.num).map ratio
  | ratio q, integer e => (powRatio q e).map ratio
  | ratio q, ratio e => if e.den = 1 then (powRatio q e.num).map ratio else ofDoubles

/-- The square root, as a double. -/
def sqrt (a : Scalar) : Except Failure Scalar := do
  let x ← a.toDouble
  if x < 0.0 then .error ⟨.value, ""⟩ else return double x.sqrt

/-- The product of the `n` numbers from `low` on, taken by halves so that both
factors are of like size. -/
def product (low n : Nat) : Nat :=
  if n = 0 then 1
  else if n = 1 then low
  else product low (n / 2) * product (low + n / 2) (n - n / 2)
termination_by n

/-- The largest number with a factorial of a kind: doubles go no further than 170!,
and beyond a signed word of 64 bits no factorial is attempted. -/
def factorialLimit : Kind → Nat
  | .double => 170
  | _ => Binary64.twoTo 63 - 1

/-- The factorial of the integer part, as an operand of the given kind.  Among
symbols it is spelled out, whatever the operand. -/
def factorial (kind : Kind) (a : Scalar) : Except Failure Scalar :=
  match kind with
  | .symbol => .ok (symbol (spelled "fact" [a.text]))
  | _ => do
    let n ← a.truncate
    if n < 0 then .error ⟨.value, ""⟩
    else if factorialLimit kind < n.natAbs then .error ⟨.overflow, ""⟩
    else ofInt kind (product 1 n.natAbs)

/-! ### Order -/

/-- A double compared with a ratio; nothing when it is not a number. -/
def compareDouble (x : Float) (q : Rat) : Option Ordering :=
  match Binary64.toRat? x with
  | some r => some (if r < q then .lt else if q < r then .gt else .eq)
  | none => if x.isNaN then none else some (if x < 0.0 then .lt else .gt)

/-- Is `a` less than `b`?  Numbers of different kinds are compared exactly, and
symbols by their texts. -/
def lt : Scalar → Scalar → Except Failure Bool
  | integer a, integer b => .ok (a < b)
  | integer a, ratio b => .ok ((a : Rat) < b)
  | ratio a, integer b => .ok (a < (b : Rat))
  | ratio a, ratio b => .ok (a < b)
  | double a, double b => .ok (a < b)
  | double a, integer b => .ok (compareDouble a b == some .lt)
  | double a, ratio b => .ok (compareDouble a b == some .lt)
  | integer a, double b => .ok (compareDouble b a == some .gt)
  | ratio a, double b => .ok (compareDouble b a == some .gt)
  | symbol a, symbol b => .ok (a < b)
  | _, _ => .error ⟨.type, ""⟩

/-- Are two operands equal?  A symbol equals no number. -/
def eq : Scalar → Scalar → Bool
  | integer a, integer b => a == b
  | integer a, ratio b => (a : Rat) == b
  | ratio a, integer b => a == (b : Rat)
  | ratio a, ratio b => a == b
  | double a, double b => a == b
  | double a, integer b => compareDouble a b == some .eq
  | double a, ratio b => compareDouble a b == some .eq
  | integer a, double b => compareDouble b a == some .eq
  | ratio a, double b => compareDouble b a == some .eq
  | symbol a, symbol b => a == b
  | _, _ => false

/-- The first of the least operands, where `before` says which of two is less. -/
def extreme (before : Scalar → Scalar → Except Failure Bool) :
    List Scalar → Except Failure Scalar
  | [] => .error ⟨.value, ""⟩
  | a :: rest => rest.foldlM (fun best x => do return if ← before x best then x else best) a

/-- The first of the greatest operands. -/
def maximum : List Scalar → Except Failure Scalar := extreme fun x best => lt best x

/-- The first of the least operands. -/
def minimum : List Scalar → Except Failure Scalar := extreme lt

end Formula.Scalar
