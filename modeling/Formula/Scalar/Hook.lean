/-
Formula/Scalar/Hook.lean

Ready-made conversions from literals to operands and from operands to texts, for
readers that should not use the plain ones.
-/
import Formula.Scalar.Arithmetic

namespace Formula.Scalar

/-! ### From literals to operands -/

/-- How a literal becomes an operand. -/
inductive Conversion where
  /-- As the kind reads it. -/
  | plain
  /-- As the kind reads it, without decimal points. -/
  | whole
  /-- An integer, hexadecimal after `0x`. -/
  | hexadecimal
  /-- Refuses every literal. -/
  | closed
  /-- As the kind reads it, up to three characters. -/
  | short
  /-- Finds no literal. -/
  | missing
  /-- The opposite of what the kind reads. -/
  | negated
  /-- The length of the literal. -/
  | length
  deriving DecidableEq, Repr

/-- The value of a hexadecimal digit. -/
def hexDigit? (c : Char) : Option Nat :=
  if '0' ≤ c ∧ c ≤ '9' then some (c.toNat - '0'.toNat)
  else if 'a' ≤ c ∧ c ≤ 'f' then some (c.toNat - 'a'.toNat + 10)
  else if 'A' ≤ c ∧ c ≤ 'F' then some (c.toNat - 'A'.toNat + 10)
  else none

/-- Reads the hexadecimal digits after `0x`. -/
def readHex (literal : String) (ds : List Char) : Except Failure Scalar :=
  match ds, ds.mapM hexDigit? with
  | _ :: _, some values => .ok (integer (values.foldl (fun n d => 16 * n + d) 0 : Nat))
  | _, _ => .error ⟨.value, "invalid literal for int() with base 16: " ++ Text.quote literal⟩

/-- Converts a literal. -/
def Conversion.apply (kind : Kind) (literal : String) : Conversion → Except Failure Scalar
  | .plain => read kind literal
  | .whole =>
    if literal.toList.contains '.' then .error ⟨.value, "whole numbers only"⟩
    else read kind literal
  | .hexadecimal =>
    match literal.toList with
    | '0' :: 'x' :: ds => readHex literal ds
    | _ => read .integer literal
  | .closed => .error ⟨.type, "no operands today"⟩
  | .short =>
    if 3 < literal.length then .error ⟨.overflow, "too big"⟩ else read kind literal
  | .missing => .error ⟨.key, ""⟩
  | .negated => (read kind literal).map neg
  | .length => ofInt kind literal.length

/-! ### From operands to texts -/

/-- How an operand is written. -/
inductive Format where
  /-- Its plain text. -/
  | plain
  /-- Its text in messages. -/
  | described
  /-- Its numerator. -/
  | numerator
  /-- Between angle brackets. -/
  | angle
  /-- Nothing at all. -/
  | empty
  /-- After a plus sign. -/
  | plus
  /-- After a space. -/
  | space
  /-- After a zero. -/
  | zero
  /-- After a zero, in a format of its own. -/
  | zeroBefore (inner : Format)
  deriving DecidableEq, Repr

/-- Writes an operand. -/
def Format.apply (s : Scalar) : Format → String
  | .plain => s.text
  | .described => s.described
  | .numerator =>
    match s with
    | ratio q => toString q.num
    | s => s.text
  | .angle => "<" ++ s.text ++ ">"
  | .empty => ""
  | .plus => "+" ++ s.text
  | .space => " " ++ s.text
  | .zero => "0" ++ s.text
  | .zeroBefore inner => "0" ++ inner.apply s

end Formula.Scalar
