import OverlayStore.Store.Guarded
import OverlayStore.Transaction.Error

/-!
# Overlays

The edits of one transaction, laid over a store. Every key has at most one edit: a private copy of
the value it is to have, or its removal. A value that an edit displaces is given up by the overlay,
so it leaves as it is; every other value that leaves is a copy.
-/

namespace OverlayStore

/-- What is to become of a key. -/
inductive Edit (V : Type) where
  /-- It gets this value. -/
  | set (value : V)
  /-- It is removed. -/
  | remove

namespace Edit

/-- The value, if the key gets one. -/
def value? : Edit V → Option V
  | .set value => some value
  | .remove => none

end Edit

/-- The edits of a transaction. -/
structure Overlay (V : Type) where
  /-- Edit of every key that has one. -/
  edits : Table (Edit V)

namespace Overlay

/-- The overlay without edits. -/
def empty : Overlay V := ⟨∅⟩

/-- Number of edits, removals included. -/
def size (o : Overlay V) : Nat := o.edits.size

/-- The edit of a key. -/
def edit? (o : Overlay V) (key : String) : Option (Edit V) := o.edits[key]?

/-- Whether a key has an edit. -/
def touches (o : Overlay V) (key : String) : Bool := o.edits.contains key

/-- The value that the overlay holds for a key. -/
def held? (o : Overlay V) (key : String) : Option V := (o.edit? key).bind Edit.value?

/-- The edits in the order of the keys. -/
def toList (o : Overlay V) : List (String × Edit V) := o.edits.toList

/-- The edits in a given order. -/
def toListIn (o : Overlay V) (order : KeyOrder) : List (String × Edit V) := order.arrange o.toList

/-- Give a key an edit, in place of the one it has. -/
def insert (o : Overlay V) (key : String) (edit : Edit V) : Overlay V :=
  ⟨o.edits.insert key edit⟩

/-- Hold a copy of a value for a key; the value that was held before comes back. -/
def set [Copyable V] (o : Overlay V) (h : Heap) (key : String) (value : V) :
    Except CopyError (Option V × Overlay V × Heap) :=
  match Copyable.copy h value with
  | .ok (copy, h) => .ok (o.held? key, o.insert key (.set copy), h)
  | .error e => .error e

/-- Set a key on a condition, and say whether it held. -/
def setIf [Copyable V] (o : Overlay V) (h : Heap) (key : String) (value : V)
    (condition : Except TransactionError Bool) :
    Except TransactionError (Bool × Overlay V × Heap) :=
  match condition with
  | .ok true =>
    match o.set h key value with
    | .ok (_, o, h) => .ok (true, o, h)
    | .error e => .error (.copy e)
  | .ok false => .ok (false, o, h)
  | .error e => .error e

/-- Remove a key; the value that was held before comes back. -/
def remove (o : Overlay V) (key : String) : Option V × Overlay V :=
  (o.held? key, o.insert key .remove)

/-- The overlay that removes these keys and does nothing else. -/
def removing (keys : List String) : Overlay V :=
  keys.foldl (fun o key => o.insert key .remove) empty

/-- Drop all edits, then remove every key of the store. The edits are gone also if the store does
not list its keys. -/
def removeAll (base : GuardedStore V) : Option StoreError × Overlay V :=
  match base.keys with
  | .ok keys => (none, removing keys)
  | .error e => (some e, empty)

@[simp] theorem size_empty : (empty : Overlay V).size = 0 := Std.ExtTreeMap.size_empty

@[simp] theorem edit?_empty (key : String) : (empty : Overlay V).edit? key = none := by
  simp [empty, edit?]

/-- A key has the edit that it was given last. -/
@[simp] theorem edit?_insert (o : Overlay V) (key k : String) (edit : Edit V) :
    (o.insert key edit).edit? k = if k = key then some edit else o.edit? k := by
  simp [insert, edit?, Std.ExtTreeMap.getElem?_insert, eq_comm (a := k)]

/-- The touched keys are those with an edit. -/
theorem touches_eq_isSome (o : Overlay V) (key : String) :
    o.touches key = (o.edit? key).isSome := by
  simp [touches, edit?]

/-- The list of edits holds the edit of every key. -/
theorem mem_toList_iff {o : Overlay V} {key : String} {edit : Edit V} :
    (key, edit) ∈ o.toList ↔ o.edit? key = some edit := by
  simp [toList, edit?]

/-- The edits in a given order are the edits. -/
theorem toListIn_perm (o : Overlay V) (order : KeyOrder) : (o.toListIn order).Perm o.toList :=
  order.arrange_perm o.toList

/-- Without edits there is nothing to arrange. -/
@[simp] theorem toListIn_empty (order : KeyOrder) : (empty : Overlay V).toListIn order = [] := by
  have hnone : (empty : Overlay V).toList = [] := by simp [toList, empty]
  exact List.perm_nil.mp (hnone ▸ toListIn_perm empty order)

/-- Removing keys one after the other leaves the edits of the other keys. -/
theorem edit?_foldl_remove (keys : List String) (o : Overlay V) (key : String) :
    (keys.foldl (fun o key => o.insert key .remove) o).edit? key =
      if key ∈ keys then some .remove else o.edit? key := by
  induction keys generalizing o with
  | nil => simp
  | cons k rest ih =>
    rw [List.foldl_cons, ih]
    by_cases mem : key ∈ rest
    · simp [mem]
    · by_cases eq : key = k <;> simp [mem, eq]

/-- Removing keys gives those keys a removal and the others nothing. -/
theorem edit?_removing (keys : List String) (key : String) :
    (removing keys : Overlay V).edit? key = if key ∈ keys then some .remove else none := by
  rw [removing, edit?_foldl_remove, edit?_empty]

end Overlay

end OverlayStore
