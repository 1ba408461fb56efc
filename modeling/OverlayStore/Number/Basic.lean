import OverlayStore.Number.Float
import OverlayStore.Text.Structural

/-!
# Numbers of counters

A counter holds a number of one of four kinds, and adding a whole number keeps the kind. Whole
kinds refuse a sum that they cannot hold; the main statements say exactly when.
-/

namespace OverlayStore

/-- The number as a 32-bit integer, if it lies in the range. -/
def int32Exact (n : Int) : Option Int32 :=
  if -0x80000000 ≤ n ∧ n < 0x80000000 then some (Int32.ofInt n) else none

/-- The number as a 64-bit integer, if it lies in the range. -/
def int64Exact (n : Int) : Option Int64 :=
  if -0x8000000000000000 ≤ n ∧ n < 0x8000000000000000 then some (Int64.ofInt n) else none

/-- A number that can be counted up and down. -/
inductive Number where
  /-- 32-bit whole number. -/
  | int (n : Int32)
  /-- 64-bit whole number. -/
  | long (n : Int64)
  /-- 32-bit float. -/
  | float (x : Single)
  /-- 64-bit float. -/
  | double (x : Double)
  deriving DecidableEq, Repr

namespace Number

/-- Name of the kind. -/
def kind : Number → String
  | .int _ => "int"
  | .long _ => "long"
  | .float _ => "float"
  | .double _ => "double"

/-- Add a whole number and keep the kind: an `int` takes only a delta of its own width, and neither
whole kind wraps around. -/
def add? : Number → Int64 → Option Number
  | .int n, delta =>
    match int32Exact delta.toInt with
    | some _ => (int32Exact (n.toInt + delta.toInt)).map .int
    | none => none
  | .long n, delta => (int64Exact (n.toInt + delta.toInt)).map .long
  | .float x, delta => some (.float (x.addWhole delta))
  | .double x, delta => some (.double (x.addWhole delta))

/-- The whole number, for the whole kinds. -/
def whole? : Number → Option Int64
  | .int n => some n.toInt64
  | .long n => some n
  | .float _ | .double _ => none

/-- The nearest 64-bit float. -/
def toDouble : Number → Double
  | .int n => .ofWhole n.toInt64
  | .long n => .ofWhole n
  | .float x => x.widen
  | .double x => x

/-- Equality within a kind; floats compare as numbers. -/
def same : Number → Number → Bool
  | .int a, .int b => a == b
  | .long a, .long b => a == b
  | .float a, .float b => a.same b
  | .double a, .double b => a.same b
  | _, _ => false

/-- Text in messages. -/
def text : Number → String
  | .int n => Int.repr n.toInt
  | .long n => Int.repr n.toInt
  | .float x => x.text
  | .double x => x.text

/-- Structural text. -/
def structural : Number → String
  | .int n => Text.applied "Int" [Int.repr n.toInt]
  | .long n => Text.applied "Long" [Int.repr n.toInt]
  | .float x => Text.applied "Float" [x.structural]
  | .double x => Text.applied "Double" [x.structural]

/-- A sum keeps the kind. -/
theorem kind_of_add?_eq_some {a b : Number} {delta : Int64} (h : a.add? delta = some b) :
    b.kind = a.kind := by
  cases a with
  | int n =>
    simp only [add?] at h
    split at h
    · obtain ⟨c, -, rfl⟩ := Option.map_eq_some_iff.1 h
      rfl
    · cases h
  | long n =>
    obtain ⟨c, -, rfl⟩ := Option.map_eq_some_iff.1 h
    rfl
  | float x =>
    cases h
    rfl
  | double x =>
    cases h
    rfl

end Number

end OverlayStore
