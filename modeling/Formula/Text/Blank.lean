/-
Formula/Text/Blank.lean

Two classes of empty space.  `isBlank` is the class that separates the tokens of
a formula: twenty-nine characters, the ASCII controls that move the cursor, the
four information separators, and the Unicode spaces.  `isMargin` is the smaller
class that may stand around a numeral: the information separators are not in it.
-/
namespace Formula.Text

/-- Characters that separate tokens: the Unicode spaces together with the ASCII
and Latin-1 controls that count as one. -/
def isBlank (c : Char) : Bool :=
  let n := c.toNat
  (9 ≤ n && n ≤ 13) || (28 ≤ n && n ≤ 32) || n == 0x85 || n == 0xA0 || n == 0x1680 ||
    (0x2000 ≤ n && n ≤ 0x200A) || n == 0x2028 || n == 0x2029 || n == 0x202F ||
    n == 0x205F || n == 0x3000

/-- Characters that may surround a numeral: the blanks, apart from the four
information separators. -/
def isMargin (c : Char) : Bool :=
  isBlank c && !(28 ≤ c.toNat && c.toNat ≤ 31)

/-- Drops the margin on both sides. -/
def trimMargin (s : List Char) : List Char :=
  ((s.dropWhile isMargin).reverse.dropWhile isMargin).reverse

/-- Drops the blanks on both sides. -/
def trimBlank (s : List Char) : List Char :=
  ((s.dropWhile isBlank).reverse.dropWhile isBlank).reverse

end Formula.Text
