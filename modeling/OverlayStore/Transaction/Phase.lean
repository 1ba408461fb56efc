/-!
# Phases

A transaction is active until it is committed, rolled back, or fails to commit; it never leaves one
of these three phases.
-/

namespace OverlayStore

/-- Where a transaction stands. -/
inductive Phase where
  /-- Open for calls. -/
  | active
  /-- Its edits are in the store. -/
  | committed
  /-- Its edits are discarded. -/
  | rolledBack
  /-- The store refused one of its edits. -/
  | failed
  deriving DecidableEq, Repr

namespace Phase

/-- Every phase but the active one is final. -/
def isFinal (p : Phase) : Bool := p != .active

/-- Text in messages. -/
def text : Phase → String
  | .active => "active"
  | .committed => "committed"
  | .rolledBack => "rolled back"
  | .failed => "failed"

/-- Structural text. -/
def structural : Phase → String
  | .active => "Active"
  | .committed => "Committed"
  | .rolledBack => "RolledBack"
  | .failed => "Failed"

@[simp] theorem isFinal_eq_true_iff {p : Phase} : p.isFinal = true ↔ p ≠ .active := by
  simp [isFinal]

end Phase

end OverlayStore
