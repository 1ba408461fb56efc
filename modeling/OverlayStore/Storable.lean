import OverlayStore.Value.Copy
import OverlayStore.Value.Equality

/-!
# Types that a store can hold

A store needs to compare its values, transactions need to copy them, and counters need their
numbers. Dynamic values, numbers and the four machine number types qualify.
-/

namespace OverlayStore

/-- What a store and its transactions ask of the values they hold. -/
class Storable (V : Type) extends Copyable V where
  /-- Whether two values are equal; no answer if the comparison does not end. -/
  same? : Heap → V → V → Option Bool
  /-- The number that a counter sees. -/
  number? : V → Option Number
  /-- The value for a number, if the type can hold its kind. -/
  ofNumber? : Number → Option V
  /-- Name of the kind of a value. -/
  kind : V → String
  /-- Name of the type as a whole. -/
  typeName : String

namespace Storable

instance : Storable Value where
  same? := Value.same?
  number? := Value.number?
  ofNumber? n := some (.ofNumber n)
  kind := Value.kind
  typeName := "value"

instance : Storable Number where
  same? _ a b := some (a.same b)
  number? := some
  ofNumber? := some
  kind := Number.kind
  typeName := "number"

instance : Storable Int32 where
  same? _ a b := some (a == b)
  number? n := some (.int n)
  ofNumber?
    | .int n => some n
    | _ => none
  kind _ := "int"
  typeName := "i32"

instance : Storable Int64 where
  same? _ a b := some (a == b)
  number? n := some (.long n)
  ofNumber?
    | .long n => some n
    | _ => none
  kind _ := "long"
  typeName := "i64"

instance : Storable Single where
  same? _ a b := some (a.same b)
  number? x := some (.float x)
  ofNumber?
    | .float x => some x
    | _ => none
  kind _ := "float"
  typeName := "f32"

instance : Storable Double where
  same? _ a b := some (a.same b)
  number? x := some (.double x)
  ofNumber?
    | .double x => some x
    | _ => none
  kind _ := "double"
  typeName := "f64"

end Storable

end OverlayStore
