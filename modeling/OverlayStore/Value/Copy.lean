import OverlayStore.Value.Heap

/-!
# Deep copies

A deep copy rebuilds a value around new cells, so that no later write on either side is seen on the
other. It fails at the first foreign payload in the order of the value, and a failed copy leaves no
heap behind. Data without cells are their own copies.
-/

namespace OverlayStore

/-- Why a value has no copy. -/
inductive CopyError where
  /-- The value reaches a payload of the named type. -/
  | foreign (typeName : String)
  /-- A path through the cells of the value does not end. -/
  | endless
  deriving DecidableEq, Repr

namespace CopyError

/-- Text for a reader. -/
def message : CopyError → String
  | .foreign typeName => "value of type " ++ typeName ++ " cannot be copied"
  | .endless => "value reaches itself through a cell"

/-- Structural text. -/
def structural : CopyError → String
  | .foreign typeName => Text.record "Uncopyable" [("type_name", Text.quoted typeName)]
  | .endless => "Ungrounded"

end CopyError

namespace Value

mutual

/-- Copy a value, given the copying of cells. -/
def copyWith (cells : Cell → Heap → Except CopyError (Cell × Heap)) :
    Value → Heap → Except CopyError (Value × Heap)
  | .plain data, h => .ok (.plain data, h)
  | .list items, h =>
    match copyItems cells items h with
    | .ok (items, h) => .ok (.list items, h)
    | .error e => .error e
  | .map entries, h =>
    match copyEntries cells entries h with
    | .ok (entries, h) => .ok (.map entries, h)
    | .error e => .error e
  | .shared cell, h =>
    match cells cell h with
    | .ok (cell, h) => .ok (.shared cell, h)
    | .error e => .error e
  | .foreign payload, _ => .error (.foreign payload.typeName)

/-- Copy the items of a list from first to last. -/
def copyItems (cells : Cell → Heap → Except CopyError (Cell × Heap)) :
    List Value → Heap → Except CopyError (List Value × Heap)
  | [], h => .ok ([], h)
  | item :: rest, h =>
    match copyWith cells item h with
    | .ok (item, h) =>
      match copyItems cells rest h with
      | .ok (rest, h) => .ok (item :: rest, h)
      | .error e => .error e
    | .error e => .error e

/-- Copy the entries of a map in the order of the keys. -/
def copyEntries (cells : Cell → Heap → Except CopyError (Cell × Heap)) :
    List (String × Value) → Heap → Except CopyError (List (String × Value) × Heap)
  | [], h => .ok ([], h)
  | (key, value) :: rest, h =>
    match copyWith cells value h with
    | .ok (value, h) =>
      match copyEntries cells rest h with
      | .ok (rest, h) => .ok ((key, value) :: rest, h)
      | .error e => .error e
    | .error e => .error e

end

/-- Copy a cell: a new cell around a copy of what the old one holds. -/
def copyCell (inside : Value → Heap → Except CopyError (Value × Heap)) (cell : Cell) (h : Heap) :
    Except CopyError (Cell × Heap) :=
  match h.read? cell with
  | none => .error .endless
  | some value =>
    match inside value h with
    | .ok (value, h) => .ok (h.alloc value)
    | .error e => .error e

/-- Copy through at most `depth` cells on a path. -/
def copyWithin : Nat → Value → Heap → Except CopyError (Value × Heap)
  | 0 => copyWith fun _ _ => .error .endless
  | depth + 1 => copyWith (copyCell (copyWithin depth))

/-- Deep copy: no path passes more cells than the heap has, unless one reaches itself. -/
def copy (h : Heap) (value : Value) : Except CopyError (Value × Heap) := copyWithin h.size value h

end Value

/-- Types whose data can be copied into a heap. -/
class Copyable (α : Type) where
  /-- An independent copy and the heap with the cells of the copy. -/
  copy : Heap → α → Except CopyError (α × Heap)

namespace Copyable

/-- The copy of data without cells is the data. -/
@[reducible] def unchanged (α : Type) : Copyable α := ⟨fun h a => .ok (a, h)⟩

/-- Copy the members of a list from first to last. -/
def copyList [Copyable α] : Heap → List α → Except CopyError (List α × Heap)
  | h, [] => .ok ([], h)
  | h, a :: rest =>
    match copy h a with
    | .ok (a, h) =>
      match copyList h rest with
      | .ok (rest, h) => .ok (a :: rest, h)
      | .error e => .error e
    | .error e => .error e

/-- Copy the values of entries from first to last. -/
def copyEntries [Copyable α] :
    Heap → List (String × α) → Except CopyError (List (String × α) × Heap)
  | h, [] => .ok ([], h)
  | h, (key, a) :: rest =>
    match copy h a with
    | .ok (a, h) =>
      match copyEntries h rest with
      | .ok (rest, h) => .ok ((key, a) :: rest, h)
      | .error e => .error e
    | .error e => .error e

/-- Copy what is there. -/
def copyOption [Copyable α] (h : Heap) : Option α → Except CopyError (Option α × Heap)
  | none => .ok (none, h)
  | some a =>
    match copy h a with
    | .ok (a, h) => .ok (some a, h)
    | .error e => .error e

instance : Copyable Value := ⟨Value.copy⟩
instance : Copyable Number := unchanged Number
instance : Copyable Single := unchanged Single
instance : Copyable Double := unchanged Double
instance : Copyable Int32 := unchanged Int32
instance : Copyable Int64 := unchanged Int64
instance : Copyable Int := unchanged Int
instance : Copyable Bool := unchanged Bool
instance : Copyable Char := unchanged Char
instance : Copyable String := unchanged String
instance [Copyable α] : Copyable (List α) := ⟨copyList⟩
instance [Copyable α] : Copyable (Option α) := ⟨copyOption⟩

end Copyable

end OverlayStore
