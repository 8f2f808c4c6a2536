/-
Formula/Pattern/Catalogue.lean

Patterns for literals.  `Pattern.defaults` is what a reader or a printer uses unless it is
told otherwise: scientific notation first, then plain decimals, so that the exponent of a
number is not cut off.

The further patterns are not used by any function here.  They are such as callers pass to a
reader in place of the defaults.
-/
import Formula.Pattern.Basic
import Formula.Text.Digit

namespace Formula.Pattern

/-- A decimal digit of any script. -/
def digit : Pattern := one Text.isDigit

/-- A character from an inclusive range. -/
def between (low high : Char) : Pattern := one fun c => low ≤ c && c ≤ high

/-- A sign, or nothing. -/
def sign : Pattern := opt (one fun c => c == '-' || c == '+')

/-! ### Defaults -/

/-- Decimals with an exponent. -/
def scientific : Pattern :=
  seq (alt (seq (plus digit) (seq (opt (char '.')) (star digit))) (seq (char '.') (plus digit)))
    (seq (one fun c => c == 'e' || c == 'E') (seq sign (plus digit)))

/-- Plain decimals that end with a digit. -/
def decimal : Pattern := seq (star digit) (seq (opt (char '.')) (plus digit))

/-- The patterns in use where none are given. -/
def defaults : List Pattern := [scientific, decimal]

/-! ### Further patterns -/

/-- Hexadecimal numerals after `0x`. -/
def hexadecimal : Pattern :=
  seq (word ['0', 'x']) (plus (one fun c =>
    ('0' ≤ c && c ≤ '9') || ('a' ≤ c && c ≤ 'f') || ('A' ≤ c && c ≤ 'F')))

/-- Digits of any script. -/
def digits : Pattern := plus digit

/-- ASCII digits. -/
def asciiDigits : Pattern := plus (between '0' '9')

/-- Two numerals with a slash between them. -/
def ratio : Pattern := seq digits (seq (char '/') digits)

/-- Digits, perhaps after a minus sign. -/
def negatable : Pattern := seq (opt (char '-')) digits

/-- Digits, or nothing at all. -/
def anyDigits : Pattern := star digit

/-- A text between single quotes. -/
def quotation : Pattern := seq (char '\'') (seq (star (one (· != '\''))) (char '\''))

/-- Capital letters. -/
def capitals : Pattern := plus (between 'A' 'Z')

/-- The numerals `1` and `12`; at the front of a longer text `1` is preferred. -/
def oneOrTwelve : Pattern := alt (char '1') (word ['1', '2'])

/-- Groups of digits with single underscores between them. -/
def grouped : Pattern := seq digits (star (seq (char '_') digits))

/-- Letters from `a` to `f` before a final `h`, in either case. -/
def hexSuffixed : Pattern :=
  seq (plus (one fun c => ('a' ≤ c && c ≤ 'f') || ('A' ≤ c && c ≤ 'F')))
    (one fun c => c == 'h' || c == 'H')

end Formula.Pattern
