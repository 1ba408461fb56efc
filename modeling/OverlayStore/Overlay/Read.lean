import OverlayStore.Overlay.Apply

/-!
# Reading through an overlay

The visible value of a key is the one that the overlay holds for it, or the one of the store if the
overlay does not touch the key. The store is asked only in the second case, so its refusals show
only there.
-/

namespace OverlayStore.Overlay

/-- A copy of a value, as an answer of a transaction. -/
def handOut [Copyable V] (h : Heap) (value : V) : Except TransactionError (Option V × Heap) :=
  match Copyable.copy h value with
  | .ok (copy, h) => .ok (some copy, h)
  | .error e => .error (.copy e)

/-- A copy of the visible value of a key. -/
def read [Copyable V] (o : Overlay V) (h : Heap) (base : GuardedStore V) (key : String) :
    Except TransactionError (Option V × Heap) :=
  match o.edit? key with
  | some .remove => .ok (none, h)
  | some (.set value) => handOut h value
  | none =>
    match base.get key with
    | .ok (some value) => handOut h value
    | .ok none => .ok (none, h)
    | .error e => .error (.store e)

/-- Whether two values are equal, as an answer of a transaction. -/
def same [Storable V] (h : Heap) (current expected : V) : Except TransactionError Bool :=
  match Storable.same? h current expected with
  | some same => .ok same
  | none => .error (.store .endless)

/-- Whether the visible value of a key equals the expected one. It is compared where it is, so it
need not have a copy. -/
def agrees [Storable V] (o : Overlay V) (h : Heap) (base : GuardedStore V) (key : String)
    (expected : V) : Except TransactionError Bool :=
  match o.edit? key with
  | some .remove => .ok false
  | some (.set value) => same h value expected
  | none =>
    match base.get key with
    | .ok (some value) => same h value expected
    | .ok none => .ok false
    | .error e => .error (.store e)

/-- Whether a key is visible. -/
def shows (o : Overlay V) (base : GuardedStore V) (key : String) : Except TransactionError Bool :=
  match o.edit? key with
  | some .remove => .ok false
  | some (.set _) => .ok true
  | none =>
    match base.contains key with
    | .ok found => .ok found
    | .error e => .error (.store e)

/-- The visible keys in order: those of the store, with each edit applied to them. -/
def keys (o : Overlay V) (base : GuardedStore V) : Except TransactionError (List String) :=
  match base.keys with
  | .ok keys => .ok (EditList.applyToKeys o.toList (Std.ExtTreeSet.ofList keys)).toList
  | .error e => .error (.store e)

/-- The entries of a store that are not touched, in a given order. -/
def untouchedIn (o : Overlay V) (order : KeyOrder) (entries : Table V) : List (String × V) :=
  (order.arrange entries.toList).filter fun (key, _) => !o.touches key

/-- Copies of the visible entries, listed in the order of the keys. The entries of the store that
are not touched are copied first, then the values of the overlay, both in the given order. -/
def entries [Copyable V] (o : Overlay V) (order : KeyOrder) (h : Heap) (base : GuardedStore V) :
    Except TransactionError (List (String × V) × Heap) :=
  match base.entries with
  | .error e => .error (.store e)
  | .ok entries =>
    match Copyable.copyEntries h (o.untouchedIn order entries) with
    | .error e => .error (.copy e)
    | .ok (untouched, h) =>
      match Copyable.copyEntries h (EditList.assignments (o.toListIn order)) with
      | .error e => .error (.copy e)
      | .ok (held, h) => .ok ((Std.ExtTreeMap.ofList (untouched ++ held)).toList, h)

end OverlayStore.Overlay
