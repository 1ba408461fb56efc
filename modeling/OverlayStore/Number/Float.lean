import OverlayStore.Decimal.Layout
import OverlayStore.Decimal.Parse

/-!
# Floating numbers

The two float widths as bit patterns. Comparison is defined on the patterns: a pattern that is not
a number equals nothing, and the two zeros are equal. Arithmetic rounds once, in the width at hand.
-/

namespace OverlayStore

open Decimal

/-- A 64-bit float. -/
structure Double where
  /-- The bit pattern. -/
  bits : UInt64
  deriving DecidableEq, Repr

/-- A 32-bit float. -/
structure Single where
  /-- The bit pattern. -/
  bits : UInt32
  deriving DecidableEq, Repr

namespace Double

/-- The pattern without its sign. -/
def magnitude (x : Double) : UInt64 := x.bits &&& 0x7fffffffffffffff

/-- Every pattern above infinity is not a number. -/
def isNaN (x : Double) : Bool := 0x7ff0000000000000 < x.magnitude

/-- Numeric equality: the same pattern or two zeros, and never for what is not a number. -/
def same (x y : Double) : Bool :=
  !x.isNaN && !y.isNaN && (x.bits == y.bits || (x.magnitude == 0 && y.magnitude == 0))

/-- Add a whole number: it is rounded to this width first, then the sum is rounded. -/
def addWhole (x : Double) (n : Int64) : Double := ⟨(Float.ofBits x.bits + n.toFloat).toBits⟩

/-- The nearest float of a whole number. -/
def ofWhole (n : Int64) : Double := ⟨n.toFloat.toBits⟩

/-- The float nearest to a decimal. -/
def ofText? (s : String) : Option Double :=
  (Format.double.parse? s).map fun bits => ⟨UInt64.ofNat bits⟩

/-- Text in messages. -/
def text (x : Double) : String := Layout.plain.write .double x.bits.toNat

/-- Structural text. -/
def structural (x : Double) : String := Layout.structural.write .double x.bits.toNat

/-- A float equals itself exactly if it is a number. -/
theorem same_self (x : Double) : x.same x = !x.isNaN := by
  simp [same]

theorem same_comm (x y : Double) : x.same y = y.same x := by
  simp only [same, BEq.comm (a := x.bits)]
  cases x.isNaN <;> cases y.isNaN <;> simp [Bool.and_comm]

end Double

namespace Single

/-- The pattern without its sign. -/
def magnitude (x : Single) : UInt32 := x.bits &&& 0x7fffffff

/-- Every pattern above infinity is not a number. -/
def isNaN (x : Single) : Bool := 0x7f800000 < x.magnitude

/-- Numeric equality: the same pattern or two zeros, and never for what is not a number. -/
def same (x y : Single) : Bool :=
  !x.isNaN && !y.isNaN && (x.bits == y.bits || (x.magnitude == 0 && y.magnitude == 0))

/-- Add a whole number: it is rounded to this width first, then the sum is rounded. -/
def addWhole (x : Single) (n : Int64) : Single := ⟨(Float32.ofBits x.bits + n.toFloat32).toBits⟩

/-- The same number in 64 bits. -/
def widen (x : Single) : Double := ⟨(Float32.ofBits x.bits).toFloat.toBits⟩

/-- The float nearest to a decimal. -/
def ofText? (s : String) : Option Single :=
  (Format.single.parse? s).map fun bits => ⟨UInt32.ofNat bits⟩

/-- Text in messages. -/
def text (x : Single) : String := Layout.plain.write .single x.bits.toNat

/-- Structural text. -/
def structural (x : Single) : String := Layout.structural.write .single x.bits.toNat

/-- A float equals itself exactly if it is a number. -/
theorem same_self (x : Single) : x.same x = !x.isNaN := by
  simp [same]

theorem same_comm (x y : Single) : x.same y = y.same x := by
  simp only [same, BEq.comm (a := x.bits)]
  cases x.isNaN <;> cases y.isNaN <;> simp [Bool.and_comm]

end Single

end OverlayStore
