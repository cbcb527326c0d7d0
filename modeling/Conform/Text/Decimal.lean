/-!
Unsigned whole numbers in decimal digits, bounded by the 64-bit range. Reading is the inverse of
writing on that range.
-/

set_option autoImplicit false

namespace Conform.Text

/-- The first number that a 64-bit word cannot hold. -/
def wordBound : Nat := 0x10000000000000000

/-- The number written by decimal digits, continuing from the digits already read. -/
def digitsFrom (n : Nat) : List Char → Option Nat
  | [] => some n
  | c :: cs => if c.isDigit then digitsFrom (n * 10 + (c.toNat - '0'.toNat)) cs else none

/-- Reads one or more digits. -/
def digits? (cs : List Char) : Option Nat :=
  if cs.isEmpty then none else digitsFrom 0 cs

/-- Reads digits, leading zeros allowed, after an optional plus sign, below the 64-bit bound. -/
def unsigned? (cs : List Char) : Option Nat := do
  let n ← digits? (match cs with | '+' :: rest => rest | _ => cs)
  if n < wordBound then some n else none

end Conform.Text
