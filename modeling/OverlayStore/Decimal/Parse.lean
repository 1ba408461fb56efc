import OverlayStore.Decimal.Binary

/-!
# Reading decimals

The decimal numerals of floats: a sign, digits with at most one point among or around them, and a
power of ten; or a name for an infinity or for what is no number. A decimal is rounded once.
-/

namespace OverlayStore.Decimal

/-- An unsigned decimal numeral: the value is `digits * 10 ^ exponent`. -/
structure Numeral where
  /-- All digits as one natural number. -/
  digits : Nat
  /-- Number of the digits. -/
  length : Nat
  /-- Power of ten of the last digit. -/
  exponent : Int
  deriving DecidableEq, Repr

/-- The value of digits, the leading one first. -/
def digitsValue (digits : List Char) : Nat :=
  digits.foldl (fun value digit => 10 * value + (digit.toNat - '0'.toNat)) 0

/-- A whole number with an optional sign. -/
def signedDigits? (text : List Char) : Option Int :=
  let (negative, digits) :=
    match text with
    | '-' :: rest => (true, rest)
    | '+' :: rest => (false, rest)
    | rest => (false, rest)
  if digits.isEmpty || !digits.all Char.isDigit then none
  else
    let value : Int := digitsValue digits
    some (if negative then -value else value)

/-- The power of ten behind the digits: nothing, or a mark and a whole number. -/
def power? : List Char → Option Int
  | [] => some 0
  | mark :: rest => if mark = 'e' ∨ mark = 'E' then signedDigits? rest else none

/-- Digits, a point and a power of ten; there is a digit before or behind the point. -/
def Numeral.read? (text : List Char) : Option Numeral :=
  let whole := text.takeWhile Char.isDigit
  let behindWhole := text.dropWhile Char.isDigit
  let behindPoint := if behindWhole.head? = some '.' then behindWhole.drop 1 else []
  let fraction := behindPoint.takeWhile Char.isDigit
  let tail :=
    if behindWhole.head? = some '.' then behindPoint.dropWhile Char.isDigit else behindWhole
  let digits := whole ++ fraction
  if digits.isEmpty then none
  else
    (power? tail).map fun power => ⟨digitsValue digits, digits.length, power - fraction.length⟩

/-- The pattern nearest to a decimal; powers of ten far outside every format need no division. -/
def Format.nearestDecimal (f : Format) (n : Numeral) : Nat :=
  if n.digits = 0 ∨ n.length + n.exponent < -400 then 0
  else if 400 < n.exponent then f.infinityBits
  else f.nearest (n.digits * 10 ^ n.exponent.toNat) (10 ^ (-n.exponent).toNat)

/-- The pattern of an unsigned text. -/
def Format.parseUnsigned? (f : Format) (text : List Char) : Option Nat :=
  let word := String.ofList (text.map Char.toLower)
  if word = "inf" ∨ word = "infinity" then some f.infinityBits
  else if word = "nan" then some (f.infinityBits + 2 ^ (f.fractionBits - 1))
  else (Numeral.read? text).map f.nearestDecimal

/-- The pattern of a text with an optional sign. -/
def Format.parse? (f : Format) (text : String) : Option Nat :=
  match text.toList with
  | '-' :: rest => (f.parseUnsigned? rest).map (· + 2 ^ (f.fractionBits + f.exponentBits))
  | '+' :: rest => f.parseUnsigned? rest
  | rest => f.parseUnsigned? rest

end OverlayStore.Decimal
