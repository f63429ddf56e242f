/-!
# Blank characters

The blanks are the characters of the Unicode property `White_Space`. A text
is trimmed by taking the blanks off both its ends; what is left begins and
ends with a character that is no blank.
-/

namespace Prevision.Text

/-- Whether `c` has the property `White_Space`. -/
def isBlank (c : Char) : Bool :=
  let n := c.toNat
  (0x9 ≤ n && n ≤ 0xd) || n == 0x20 || n == 0x85 || n == 0xa0 || n == 0x1680 ||
    (0x2000 ≤ n && n ≤ 0x200a) || n == 0x2028 || n == 0x2029 || n == 0x202f || n == 0x205f ||
    n == 0x3000

/-- The text without the blanks that it ends with. -/
def trimEnd (cs : List Char) : List Char := (cs.reverse.dropWhile isBlank).reverse

/-- The text without the blanks that it begins and ends with. -/
def trim (cs : List Char) : List Char := trimEnd (cs.dropWhile isBlank)

end Prevision.Text
