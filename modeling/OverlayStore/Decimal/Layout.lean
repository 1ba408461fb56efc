import OverlayStore.Decimal.Shortest

/-!
# Layout of decimals

How the digits of a float are set: which magnitudes are written positionally, and whether an
integral value keeps a point. The two layouts of the library are records at the end.
-/

namespace OverlayStore.Decimal

/-- The decisions that turn digits into text. -/
structure Layout where
  /-- Powers of the leading digit that are written positionally; `none` for all of them. -/
  positional : Option (Int × Int)
  /-- What follows an integral value that is written positionally. -/
  integralTail : String
  deriving DecidableEq, Repr

namespace Layout

/-- Text of a natural with as many zeros behind it. -/
def withZeros (digits zeros : Nat) : String :=
  Nat.repr digits ++ String.ofList (List.replicate zeros '0')

/-- Digits and zeros only, with a point where the value is not integral. -/
def writePositional (l : Layout) (d : Digits) : String :=
  let text := Nat.toDigits 10 d.digits
  let point : Int := text.length + d.exponent
  if 0 ≤ d.exponent then
    withZeros d.digits d.exponent.toNat ++ l.integralTail
  else if 0 < point then
    String.ofList (text.take point.toNat) ++ "." ++ String.ofList (text.drop point.toNat)
  else
    "0." ++ String.ofList (List.replicate (-point).toNat '0') ++ String.ofList text

/-- One digit before the point, the power of the leading digit after the mark. -/
def writeExponent (d : Digits) : String :=
  let text := Nat.toDigits 10 d.digits
  let power : Int := text.length - 1 + d.exponent
  let fraction := if text.length ≤ 1 then "" else "." ++ String.ofList (text.drop 1)
  String.ofList (text.take 1) ++ fraction ++ "e" ++ Int.repr power

/-- Text of a positive decimal. -/
def writeDigits (l : Layout) (d : Digits) : String :=
  let power : Int := (Nat.toDigits 10 d.digits).length - 1 + d.exponent
  match l.positional with
  | none => l.writePositional d
  | some (least, greatest) =>
    if least ≤ power ∧ power ≤ greatest then l.writePositional d else writeExponent d

/-- A minus sign in front of what is negative. -/
def signed (negative : Bool) (text : String) : String :=
  if negative then "-" ++ text else text

/-- Text of a bit pattern: the shortest digits of a float, a name for what is no number. -/
def write (l : Layout) (f : Format) (bits : Nat) : String :=
  match f.read bits with
  | .nan => "NaN"
  | .infinite negative => signed negative "inf"
  | .finite negative significand exponent =>
    signed negative
      (if significand = 0 then "0" ++ l.integralTail
       else l.writeDigits (f.shortest significand exponent))

/-- The layout of messages: positional at every magnitude, no point behind an integral value. -/
def plain : Layout := ⟨none, ""⟩

/-- The layout of structural text: from `1e-4` to below `1e16` positional and with a point. -/
def structural : Layout := ⟨some (-4, 15), ".0"⟩

example : structural.write .double 0x3fb999999999999a = "0.1" := by rfl
example : structural.write .double 0x4341c37937e08000 = "1e16" := by rfl
example : plain.write .double 0x4341c37937e08000 = "10000000000000000" := by rfl

end Layout

end OverlayStore.Decimal
