/-!
Blank characters and trimming. A character is blank when Unicode gives it the property White_Space;
trimming removes the longest blank stretch at either end and nothing else.
-/

set_option autoImplicit false

namespace Conform.Text

/-- Unicode White_Space. The zero-width space, the Mongolian vowel separator and the byte order mark
do not have that property. -/
def isBlank (c : Char) : Bool :=
  let n := c.toNat
  (9 ≤ n && n ≤ 13) || n == 0x20 || n == 0x85 || n == 0xA0 || n == 0x1680 ||
    (0x2000 ≤ n && n ≤ 0x200A) || n == 0x2028 || n == 0x2029 || n == 0x202F || n == 0x205F ||
    n == 0x3000

def trimStart (cs : List Char) : List Char :=
  cs.dropWhile isBlank

def trimEnd (cs : List Char) : List Char :=
  (cs.reverse.dropWhile isBlank).reverse

def trim (cs : List Char) : List Char :=
  trimEnd (trimStart cs)

end Conform.Text
