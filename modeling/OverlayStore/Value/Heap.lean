import OverlayStore.Value.Basic

/-!
# The heap of cells

All mutable cells in the order of their making. Cells are never removed, so a new cell differs from
every earlier one. The lemmas say what each operation does to every read.
-/

namespace OverlayStore

/-- What every cell holds at the moment. -/
structure Heap where
  /-- Contents of the cells, by index. -/
  cells : Array Value
  /-- Number of foreign payloads taken in so far. -/
  payloads : Nat
  deriving Repr

namespace Heap

/-- The heap without cells. -/
def empty : Heap := ⟨#[], 0⟩

/-- Number of cells. -/
def size (h : Heap) : Nat := h.cells.size

/-- Contents of a cell, if the heap has it. -/
def read? (h : Heap) (cell : Cell) : Option Value := h.cells[cell.index]?

/-- Make a new cell. -/
def alloc (h : Heap) (value : Value) : Cell × Heap :=
  (⟨h.size⟩, { h with cells := h.cells.push value })

/-- Replace the contents of a cell; a cell that the heap has not stays away. -/
def write (h : Heap) (cell : Cell) (value : Value) : Heap :=
  { h with cells := h.cells.setIfInBounds cell.index value }

/-- Take in a foreign payload under an identity of its own. -/
def adopt (h : Heap) (typeName : String) : Foreign × Heap :=
  (⟨h.payloads, typeName⟩, { h with payloads := h.payloads + 1 })

@[simp] theorem size_empty : empty.size = 0 := rfl

@[simp] theorem size_alloc (h : Heap) (value : Value) : (h.alloc value).2.size = h.size + 1 := by
  simp [alloc, size]

@[simp] theorem size_write (h : Heap) (cell : Cell) (value : Value) :
    (h.write cell value).size = h.size := by
  simp [write, size]

/-- The heap has exactly the cells below its size. -/
theorem read?_eq_none_iff {h : Heap} {cell : Cell} : h.read? cell = none ↔ h.size ≤ cell.index := by
  simp [read?, size]

@[simp] theorem read?_alloc_self (h : Heap) (value : Value) :
    (h.alloc value).2.read? (h.alloc value).1 = some value := by
  simp [alloc, read?, size]

/-- A new cell leaves every earlier one alone. -/
theorem read?_alloc_of_lt {h : Heap} {cell : Cell} (value : Value) (lt : cell.index < h.size) :
    (h.alloc value).2.read? cell = h.read? cell := by
  have ne : cell.index ≠ h.cells.size := Nat.ne_of_lt lt
  simp [alloc, read?, Array.getElem?_push, ne]

/-- A write is seen in its own cell. -/
theorem read?_write_self {h : Heap} {cell : Cell} (value : Value) (lt : cell.index < h.size) :
    (h.write cell value).read? cell = some value := by
  have lt' : cell.index < h.cells.size := lt
  simp [write, read?, lt']

/-- A write is not seen in another cell. -/
theorem read?_write_of_ne {h : Heap} {cell other : Cell} (value : Value) (ne : cell ≠ other) :
    (h.write cell value).read? other = h.read? other := by
  have ne' : cell.index ≠ other.index := fun he => ne (by cases cell; cases other; simp_all)
  simp [write, read?, Array.getElem?_setIfInBounds_ne ne']

end Heap

end OverlayStore
