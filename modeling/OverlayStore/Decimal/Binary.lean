/-!
# Binary floating formats

A finite float is `significand * 2 ^ exponent` with an integral significand. This module reads a
bit pattern as such a product, and rounds a quotient of naturals to the nearest bit pattern.
-/

namespace OverlayStore.Decimal

/-- Powers are those of the core library, whatever else a module imports. -/
scoped instance (priority := high) corePower {α : Type} [NatPow α] : Pow α Nat := instPowNat

/-- The two widths that fix a binary interchange format. -/
structure Format where
  /-- Stored fraction bits, the implied leading one not counted. -/
  fractionBits : Nat
  /-- Bits of the biased exponent. -/
  exponentBits : Nat
  deriving DecidableEq, Repr

/-- The 32-bit format. -/
def Format.single : Format := ⟨23, 8⟩

/-- The 64-bit format. -/
def Format.double : Format := ⟨52, 11⟩

/-- What a bit pattern denotes. -/
inductive Reading where
  /-- Not a number, whatever its payload. -/
  | nan
  /-- An infinity of the given sign. -/
  | infinite (negative : Bool)
  /-- The signed product `significand * 2 ^ exponent`. -/
  | finite (negative : Bool) (significand : Nat) (exponent : Int)
  deriving DecidableEq, Repr

namespace Format

/-- Distance from a biased exponent to the exponent of the last place. -/
def bias (f : Format) : Nat := 2 ^ (f.exponentBits - 1) - 1 + f.fractionBits

/-- Exponent of the last place of the smallest positive float. -/
def leastExponent (f : Format) : Int := 1 - (f.bias : Int)

/-- The bit pattern of positive infinity: all exponent bits set, the fraction clear. -/
def infinityBits (f : Format) : Nat := (2 ^ f.exponentBits - 1) * 2 ^ f.fractionBits

/-- Read a bit pattern: a zero exponent field has no implied leading one, a full one is special. -/
def read (f : Format) (bits : Nat) : Reading :=
  let fraction := bits % 2 ^ f.fractionBits
  let field := bits / 2 ^ f.fractionBits % 2 ^ f.exponentBits
  let negative := bits / 2 ^ (f.fractionBits + f.exponentBits) % 2 == 1
  if field = 2 ^ f.exponentBits - 1 then
    if fraction = 0 then .infinite negative else .nan
  else if field = 0 then
    .finite negative fraction f.leastExponent
  else
    .finite negative (2 ^ f.fractionBits + fraction) ((field : Int) - f.bias)

/-- Round `numerator / denominator` to a natural; a half goes to the even neighbour. -/
def roundHalfEven (numerator denominator : Nat) : Nat :=
  let floor := numerator / denominator
  let twice := 2 * (numerator % denominator)
  if twice < denominator ∨ (twice = denominator ∧ floor % 2 = 0) then floor else floor + 1

/-- Exponent of the last place that keeps a full significand for `numerator / denominator`. -/
def lastPlace (f : Format) (numerator denominator : Nat) : Int :=
  let guess : Int := (numerator.log2 : Int) - denominator.log2
  let exact :=
    if numerator * 2 ^ (-guess).toNat < denominator * 2 ^ guess.toNat then guess - 1 else guess
  max (exact - f.fractionBits) f.leastExponent

/-- The pattern nearest to a nonnegative quotient; past the largest finite float it is infinity. -/
def nearest (f : Format) (numerator denominator : Nat) : Nat :=
  if numerator = 0 then 0
  else
    let place := f.lastPlace numerator denominator
    let significand :=
      roundHalfEven (numerator * 2 ^ (-place).toNat) (denominator * 2 ^ place.toNat)
    let field := (place - f.leastExponent).toNat
    min (field * 2 ^ f.fractionBits + significand) f.infinityBits

end Format

end OverlayStore.Decimal
