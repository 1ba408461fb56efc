import OverlayStore.Value.Heap

/-!
# Equality of values

Values of different kinds differ. Containers are equal part by part, cells if they are the same
cell or hold equal values, and foreign payloads if they are the identical one. Floats compare as
numbers, so equality is not reflexive. An answer exists unless the comparison runs around a cycle.
-/

namespace OverlayStore.Value

mutual

/-- Compare two values, given the comparison of cells. -/
def sameWith (cells : Cell → Cell → Option Bool) : Value → Value → Option Bool
  | .plain a, .plain b => some (a.same b)
  | .list a, .list b => if a.length = b.length then sameItems cells a b else some false
  | .map a, .map b => if a.length = b.length then sameEntries cells a b else some false
  | .shared a, .shared b => cells a b
  | .foreign a, .foreign b => some (a.same b)
  | _, _ => some false

/-- Compare lists item by item, up to the first difference. -/
def sameItems (cells : Cell → Cell → Option Bool) : List Value → List Value → Option Bool
  | [], [] => some true
  | a :: as, b :: bs =>
    match sameWith cells a b with
    | some true => sameItems cells as bs
    | other => other
  | _, _ => some false

/-- Compare maps entry by entry in the order of the keys, up to the first difference. -/
def sameEntries (cells : Cell → Cell → Option Bool) :
    List (String × Value) → List (String × Value) → Option Bool
  | [], [] => some true
  | (j, a) :: as, (k, b) :: bs =>
    if j = k then
      match sameWith cells a b with
      | some true => sameEntries cells as bs
      | other => other
    else some false
  | _, _ => some false

end

/-- Compare two cells, given the comparison of what they hold. -/
def sameCell (h : Heap) (inside : Value → Value → Option Bool) (a b : Cell) : Option Bool :=
  if a = b then some true
  else
    match h.read? a, h.read? b with
    | some x, some y => inside x y
    | _, _ => none

/-- Compare through at most `depth` pairs of cells on a path. -/
def sameWithin (h : Heap) : Nat → Value → Value → Option Bool
  | 0 => sameWith (sameCell h fun _ _ => none)
  | depth + 1 => sameWith (sameCell h (sameWithin h depth))

/-- Compare two values: a path that passes more pairs of cells than the heap has comes back to one
of them, and does not end. -/
def same? (h : Heap) (a b : Value) : Option Bool := sameWithin h (h.size * h.size) a b

end OverlayStore.Value
