import Conform.Json.Basic
import Conform.Text.Decimal

/-!
Number literals of JSON. A whole number that fits a 64-bit word is kept exactly, any other literal
as its digits and a power of ten. A literal is out of range when its reading as a double is infinite:
a significand of one 64-bit word, rounded to a double, times the double next to a power of ten.
-/

set_option autoImplicit false

namespace Conform.Json

/-- The digits before an exponent mark, and the exponent. -/
def splitExponent (cs : List Char) : List Char × List Char :=
  let isMark : Char → Bool := fun c => c = 'e' || c = 'E'
  (cs.takeWhile (!isMark ·), (cs.dropWhile (!isMark ·)).drop 1)

def exponent? : List Char → Option Int
  | [] => some 0
  | '-' :: cs => (Text.digits? cs).map fun n => -(n : Int)
  | '+' :: cs => (Text.digits? cs).map Int.ofNat
  | cs => (Text.digits? cs).map Int.ofNat

/-! ### The range of a double -/

/-- The first number that rounds to no finite double: half a unit past the greatest one. -/
def finiteBound : Nat := Nat.pow 2 1024 - Nat.pow 2 970

/-- The greatest exponent whose power of ten has a finite double. -/
def maxExponent : Nat := 308

/-- The double next to a number, a tie going to the even neighbour, for numbers in the range. -/
def nearestDouble (n : Nat) : Nat :=
  let unit := Nat.pow 2 (Nat.log2 n - 52)
  let below := n / unit
  let rest := n % unit
  if unit < 2 * rest || (unit = 2 * rest && below % 2 = 1) then (below + 1) * unit
  else below * unit

/-- Appends digits to a significand until the next one would leave a 64-bit word. The second number
counts the digits taken. -/
def appendDigits (significand : Nat) : List Char → Nat × Nat
  | [] => (significand, 0)
  | c :: cs =>
    let longer := significand * 10 + (c.toNat - '0'.toNat)
    if longer < Text.wordBound then
      let (full, taken) := appendDigits longer cs
      (full, taken + 1)
    else (significand, 0)

/-- The significand of a literal and the power of ten it is scaled by. Digits of the whole part that
are not taken raise the exponent, digits of the fraction that are taken lower it. -/
def significand (front fraction : List Char) (exponent : Int) : Nat × Int :=
  let (before, inFront) := appendDigits 0 front
  let (full, inFraction) := appendDigits before fraction
  (full, exponent + (front.length - inFront : Nat) - inFraction)

/-- Whether a significand times a power of ten reads as a finite double. -/
def isFinite (significand : Nat) (exponent : Int) : Bool :=
  significand == 0 || exponent < 0 ||
    (exponent ≤ maxExponent &&
      nearestDouble significand * nearestDouble (Nat.pow 10 exponent.toNat) < finiteBound)

/-! ### Values -/

/-- The value of a number literal. -/
def number? (text : List Char) : Option Json := do
  let (negative, plain) := match text with | '-' :: rest => (true, rest) | _ => (false, text)
  let signed (n : Nat) : Int := if negative then -(n : Int) else n
  let isPlain := plain.all Char.isDigit
  let (mantissa, mark) := splitExponent plain
  let front := mantissa.takeWhile (· ≠ '.')
  let fraction := (mantissa.dropWhile (· ≠ '.')).drop 1
  let digits ← Text.digits? (front ++ fraction)
  let exponent ← exponent? mark
  if isPlain && isWord (signed digits) then return whole (signed digits)
  let (word, scale) := significand front fraction exponent
  if isFinite word scale then return scaled (signed digits) (exponent - fraction.length)
  none

end Conform.Json
