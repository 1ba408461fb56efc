import OverlayStore.Store.Basic
import OverlayStore.Store.Order

/-!
# Calls on a store

The calls that a store and the view of a transaction have in common, as data, and what a call
answers when it succeeds.
-/

namespace OverlayStore

/-- A call on a store or on the view of a transaction. -/
inductive StoreCall (V : Type) where
  /-- Set the value of a key. -/
  | put (key : String) (value : V)
  /-- The value of a key. -/
  | get (key : String)
  /-- Replace the value of a key that has one. -/
  | update (key : String) (value : V)
  /-- Remove a key. -/
  | delete (key : String)
  /-- Whether a key has a value. -/
  | contains (key : String)
  /-- Number of entries. -/
  | size
  /-- Whether there are no entries. -/
  | isEmpty
  /-- Remove every key. -/
  | clear
  /-- The keys. -/
  | keys
  /-- The entries. A transaction copies them in the given order; it does not show otherwise. -/
  | entries (order : KeyOrder := [])
  /-- Replace a value that equals the expected one. -/
  | compareAndSwap (key : String) (expected value : V)
  /-- Add to a number. -/
  | increment (key : String) (delta : Int64)
  /-- Subtract from a number. -/
  | decrement (key : String) (delta : Int64)

/-- What a successful call answers. -/
inductive Reply (V : Type) where
  /-- Nothing but that it is done. -/
  | done
  /-- A value, or that there is none. -/
  | value (v : Option V)
  /-- A truth value. -/
  | flag (b : Bool)
  /-- A count. -/
  | count (n : Nat)
  /-- Keys, in order. -/
  | keys (ks : List String)
  /-- Entries, in the order of the keys. -/
  | entries (es : List (String × V))
  /-- A number. -/
  | number (n : Number)

end OverlayStore
