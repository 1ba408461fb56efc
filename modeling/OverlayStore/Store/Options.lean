import OverlayStore.Store.Error

/-!
# Options of a store

Options are usable unless they ask for a number of shards that is not a power of two above one.
-/

namespace OverlayStore

/-- How a store is set up. -/
structure StoreOptions where
  /-- Entries to make room for at the start. -/
  capacity : UInt64 := 0
  /-- Number of shards, or the default number. -/
  shards : Option UInt64 := none
  deriving DecidableEq, Repr

namespace StoreOptions

/-- A number of shards is usable if it is a power of two above one. -/
abbrev IsShardCount (n : UInt64) : Prop := 1 < n.toNat ∧ n.toNat.isPowerOfTwo

/-- Refuse options with an unusable number of shards. -/
def check (o : StoreOptions) : Except StoreError Unit :=
  match o.shards with
  | some shards =>
    if IsShardCount shards then .ok ()
    else
      .error (.badArgument
        ("shard amount must be a power of two greater than 1, got " ++ Nat.repr shards.toNat))
  | none => .ok ()

/-- Structural text. -/
def structural (o : StoreOptions) : String :=
  Text.record "StoreConfig"
    [("initial_capacity", Nat.repr o.capacity.toNat),
      ("shard_amount", Text.optional (o.shards.map fun shards => Nat.repr shards.toNat))]

end StoreOptions

end OverlayStore
