import OverlayStore.Text.Structural
import OverlayStore.Number.Basic

/-!
# Errors of a store

The causes for which a store refuses a call, with their texts.
-/

namespace OverlayStore

/-- Why a store refuses a call. -/
inductive StoreError where
  /-- An argument was refused before anything was touched. -/
  | badArgument (message : String)
  /-- A value is not of the kind that the call needs. -/
  | wrongKind (expected found : String)
  /-- A number of the named kind cannot take in the delta. -/
  | overflow (kind : String) (delta : Int64)
  /-- A comparison does not end. -/
  | endless
  deriving DecidableEq, Repr

namespace StoreError

/-- Text for a reader. -/
def message : StoreError → String
  | .badArgument message => "invalid argument: " ++ message
  | .wrongKind expected found => "type mismatch: expected " ++ expected ++ ", found " ++ found
  | .overflow kind delta =>
    "numeric overflow: " ++ kind ++ " value cannot absorb delta " ++ Int.repr delta.toInt
  | .endless => "value reaches itself through a cell"

/-- Structural text. -/
def structural : StoreError → String
  | .badArgument message => Text.record "InvalidArgument" [("message", Text.quoted message)]
  | .wrongKind expected found =>
    Text.record "TypeMismatch"
      [("expected", Text.quoted expected), ("found", Text.quoted found)]
  | .overflow kind delta =>
    Text.record "NumericOverflow"
      [("kind", Text.quoted kind), ("delta", Int.repr delta.toInt)]
  | .endless => "Ungrounded"

/-- An argument is not refused because a comparison does not end. -/
theorem badArgument_ne_endless (message : String) : badArgument message ≠ endless := by
  intro heq
  cases heq

end StoreError

end OverlayStore
