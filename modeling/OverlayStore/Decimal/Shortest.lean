import OverlayStore.Decimal.Binary

/-!
# Shortest decimals

The shortest decimal of a float is the multiple of the largest power of ten that still rounds to
the float. A grid is the set of multiples of one power of ten; only the two grid points next to the
float can be the answer, so the search walks the grids from coarse to fine and tests these two.
-/

namespace OverlayStore.Decimal

/-- The decimal `digits * 10 ^ exponent`. -/
structure Digits where
  /-- The digits as one natural number. -/
  digits : Nat
  /-- Power of ten of the last digit. -/
  exponent : Int
  deriving DecidableEq, Repr

/-- The decimals that round to one float: those between two products `side * 2 ^ exponent`. -/
structure Interval where
  /-- Lower end. -/
  low : Nat
  /-- The float itself. -/
  middle : Nat
  /-- Upper end. -/
  high : Nat
  /-- Power of two shared by the three. -/
  exponent : Int
  /-- Whether the ends belong to the interval. -/
  closed : Bool
  deriving DecidableEq, Repr

/-- Half the way to both neighbours, in quarters of the last place; the lower neighbour of a power
of two is at half the distance, and the ends round to an even significand. -/
def Format.interval (f : Format) (significand : Nat) (exponent : Int) : Interval where
  low := 4 * significand -
    (if significand = 2 ^ f.fractionBits ∧ f.leastExponent < exponent then 1 else 2)
  middle := 4 * significand
  high := 4 * significand + 2
  exponent := exponent - 2
  closed := significand % 2 == 0

namespace Interval

/-- A decimal and a side of the interval, both scaled to naturals. -/
def scaled (i : Interval) (decimal : Digits) (side : Nat) : Nat × Nat :=
  (decimal.digits * 10 ^ decimal.exponent.toNat * 2 ^ (-i.exponent).toNat,
    side * 2 ^ i.exponent.toNat * 10 ^ (-decimal.exponent).toNat)

/-- Whether a decimal lies in the interval. -/
def contains (i : Interval) (decimal : Digits) : Bool :=
  let (scaledLow, low) := i.scaled decimal i.low
  let (scaledHigh, high) := i.scaled decimal i.high
  if i.closed then low ≤ scaledLow && scaledHigh ≤ high else low < scaledLow && scaledHigh < high

/-- The grid point of the interval that is nearest to its middle; a tie goes to the larger one. -/
def nearestOnGrid (i : Interval) (exponent : Int) : Option Digits :=
  let (unit, value) := i.scaled ⟨1, exponent⟩ i.middle
  let below : Digits := ⟨value / unit, exponent⟩
  let above : Digits := ⟨value / unit + 1, exponent⟩
  match i.contains below, i.contains above with
  | true, true => if 2 * (value % unit) < unit then some below else some above
  | true, false => some below
  | false, true => some above
  | false, false => none

/-- The first hit among `steps` grids, each ten times finer than the one before. -/
def firstHit (i : Interval) : Nat → Int → Digits
  | 0, exponent => (i.nearestOnGrid exponent).getD ⟨0, 0⟩
  | steps + 1, exponent => (i.nearestOnGrid exponent).getD (i.firstHit steps (exponent - 1))

/-- A power of ten above the interval: `2 ^ 3 < 10` above one, `10 < 2 ^ 4` below. -/
def coarsest (i : Interval) : Int :=
  let top : Int := i.high.log2 + 1 + i.exponent
  if 0 ≤ top then top / 3 + 1 else -((-top) / 4) + 1

/-- The shortest decimal of the interval; on the grid of `10 ^ exponent` the middle itself is a
point when the exponent is negative, so the search has a hit. -/
def shortest (i : Interval) : Digits :=
  i.firstHit (i.coarsest - min i.exponent 0).toNat i.coarsest

end Interval

/-- The fewest digits that read back as the float. -/
def Format.shortest (f : Format) (significand : Nat) (exponent : Int) : Digits :=
  (f.interval significand exponent).shortest

end OverlayStore.Decimal
