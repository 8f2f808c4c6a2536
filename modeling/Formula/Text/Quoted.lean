/-
Formula/Text/Quoted.lean

Quoted text, as it stands in messages: a text between single quotes, or between
double quotes when it holds a single quote and no double one.  Inside, the quote
in use and the backslash are escaped, tab, line feed and carriage return have
their letters, and every other character that is not printable is written as a
hexadecimal code of two, four or eight digits.
-/
import Formula.Text.Printable

namespace Formula.Text

/-- The lowercase hexadecimal digits of `n`, padded with zeros to `width`. -/
def hex (width n : Nat) : String :=
  let digits := Nat.toDigits 16 n
  String.ofList (List.replicate (width - digits.length) '0' ++ digits)

/-- How a character is written between two quotes of the kind `mark`. -/
def escape (mark c : Char) : String :=
  if c = mark ∨ c = '\\' then String.ofList ['\\', c]
  else if c = '\t' then "\\t"
  else if c = '\n' then "\\n"
  else if c = '\r' then "\\r"
  else if isPrintable c then String.singleton c
  else if c.toNat < 0x100 then "\\x" ++ hex 2 c.toNat
  else if c.toNat < 0x10000 then "\\u" ++ hex 4 c.toNat
  else "\\U" ++ hex 8 c.toNat

/-- The quote to use: a double one only where it saves escaping a single one. -/
def quoteMark (s : List Char) : Char :=
  if s.contains '\'' && !s.contains '"' then '"' else '\''

/-- The quoted form of a text. -/
def quote (s : String) : String :=
  let mark := quoteMark s.toList
  String.singleton mark ++ String.join (s.toList.map (escape mark)) ++ String.singleton mark

end Formula.Text
