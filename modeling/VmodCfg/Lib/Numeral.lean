import VmodCfg.Lib.Binary64
import VmodCfg.Lib.Decimal

/-!
# Decimal numerals with a fraction and an exponent

The numerals that `strtod` reads in the C locale, without the hexadecimal ones, and what they
denote.
-/

/-- A sign, digits, the digits of a fraction, and an exponent. -/
structure Numeral where
  negative : Bool
  digits : List UInt8
  fraction : List UInt8
  exponent : ℤ
  deriving DecidableEq

namespace Numeral

def ofDigits (l : List UInt8) : Nat := Nat.ofDigitChars 10 (l.map Decimal.toChar) 0

def value (x : Numeral) : ℚ :=
  (if x.negative then -1 else 1) * ofDigits (x.digits ++ x.fraction) *
    10 ^ (x.exponent - x.fraction.length)

/-- An optional sign, and what follows. -/
def scanSign : List UInt8 → Bool × List UInt8
  | 45 :: l => (true, l)
  | 43 :: l => (false, l)
  | l => (false, l)

/-- The digits of a fraction, if a dot is there, and what follows. -/
def scanFraction : List UInt8 → List UInt8 × List UInt8
  | 46 :: l => (l.takeWhile Decimal.isDigit, l.dropWhile Decimal.isDigit)
  | l => ([], l)

/-- An exponent, and what follows; without a digit it is no exponent. -/
def scanExponent : List UInt8 → ℤ × List UInt8
  | [] => (0, [])
  | c :: l =>
    let (negative, l') := scanSign l
    let digits := l'.takeWhile Decimal.isDigit
    if (c = 101 ∨ c = 69) ∧ digits ≠ [] then
      (if negative then -(ofDigits digits : ℤ) else ofDigits digits, l'.dropWhile Decimal.isDigit)
    else (0, c :: l)

/-- The longest numeral that the text starts with, and what follows. -/
def scan (l : List UInt8) : Option (Numeral × List UInt8) :=
  let (negative, l) := scanSign l
  let digits := l.takeWhile Decimal.isDigit
  let (fraction, l) := scanFraction (l.dropWhile Decimal.isDigit)
  if digits = [] ∧ fraction = [] then none
  else
    let (exponent, l) := scanExponent l
    some (⟨negative, digits, fraction, exponent⟩, l)

end Numeral
