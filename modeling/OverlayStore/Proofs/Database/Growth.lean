import OverlayStore.Proofs.Transaction.Renaming

/-!
# What no command takes away

A database only grows: transactions and cells are never lost. A cell holds what it holds until a
caller writes to it, because everything else that works with cells makes new ones.
-/

namespace OverlayStore

/-- A command writes to a cell. -/
def Command.WritesCell : Command V → Prop
  | .writeCell _ _ => True
  | _ => False

namespace Database

/-- Transactions are never lost. -/
theorem size_transactions_le_step [Storable V] (db : Database V) (command : Command V) :
    db.transactions.size ≤ (db.step command).2.transactions.size := by
  by_contra hlt
  have hlast : (db.step command).2.transactions.size < db.transactions.size := Nat.lt_of_not_le hlt
  obtain ⟨t', ht', -⟩ := step_continues (Array.getElem?_eq_getElem hlast) command
  exact Nat.lt_irrefl _ (Array.getElem?_eq_some_iff.mp ht').1

/-- What a command can do to the cells. -/
inductive HeapStep (db : Database Value) : Command Value → Heap → Prop
  /-- Nothing. -/
  | kept (command : Command Value) : HeapStep db command db.heap
  /-- A call on a transaction makes copies. -/
  | called {place : Nat} {t : Transaction Value} (ht : db.transaction? place = some t)
    (call : KeyCall Value) :
    HeapStep db (.own place call) (t.viewCall db.heap db.base call.toStoreCall).heap
  /-- So does a call through its view. -/
  | viewed {place : Nat} {t : Transaction Value} (ht : db.transaction? place = some t)
    (call : StoreCall Value) :
    HeapStep db (.view place call) (t.viewCall db.heap db.base call).heap
  /-- A cell is made. -/
  | made (value : Value) : HeapStep db (.newCell value) (db.heap.alloc value).2
  /-- A cell is written to. -/
  | written {cell : Cell} (hcell : db.heap.Has cell) (value : Value) :
    HeapStep db (.writeCell cell value) (db.heap.write cell value)
  /-- A value is copied. -/
  | copied {value copy : Value} {h' : Heap} (hcopy : value.copy db.heap = .ok (copy, h')) :
    HeapStep db (.copy value) h'
  /-- A payload is taken in. -/
  | adopted (typeName : String) : HeapStep db (.adopt typeName) (db.heap.adopt typeName).2

theorem heapStep (db : Database Value) (command : Command Value) :
    db.HeapStep command (db.step command).2.heap := by
  cases command with
  | own place call =>
    cases ht : db.transaction? place with
    | none =>
      rw [step_of_none rfl ht]
      exact .kept _
    | some t =>
      rw [step_own ht]
      exact .called ht call
  | view place call =>
    cases ht : db.transaction? place with
    | none =>
      rw [step_of_none rfl ht]
      exact .kept _
    | some t =>
      rw [step_view ht]
      exact .viewed ht call
  | newCell value => exact .made value
  | adopt typeName => exact .adopted typeName
  | writeCell cell value =>
    rw [step]
    split
    next old hr => exact .written (Heap.has_of_read? hr) value
    next => exact .kept _
  | copy value =>
    rw [step]
    split
    next hcopy => exact .copied hcopy
    next => exact .kept _
  | store call | direct call =>
    rw [step, storeCall]
    split <;> exact .kept _
  | commit place | rollback place =>
    rw [step]
    split <;> exact .kept _
  | conclude place ending order =>
    rw [step, conclude]
    cases db.transaction? place <;> exact .kept _
  | readCell cell =>
    rw [step]
    split <;> exact .kept _
  | getD | putNew | begin | lookup | deregister | registered | refuse => exact .kept _

/-- Every other command than a write to a cell leaves all cells as they are. -/
theorem heap_le_step {db : Database Value} {command : Command Value}
    (hwrite : ¬ command.WritesCell) : db.heap ≤ (db.step command).2.heap := by
  have hstep := db.heapStep command
  generalize (db.step command).2.heap = h' at hstep
  cases hstep with
  | kept => exact le_refl _
  | @called place t ht call => exact (t.extends_viewCall _ _ _).le
  | @viewed place t ht call => exact (t.extends_viewCall _ _ _).le
  | made value => exact db.heap.le_alloc value
  | written => exact absurd trivial hwrite
  | copied hcopy => exact (Value.extends_copy hcopy).le
  | adopted typeName => exact db.heap.le_adopt typeName

/-- Cells are never lost. -/
theorem size_heap_le_step (db : Database Value) (command : Command Value) :
    db.heap.size ≤ (db.step command).2.heap.size := by
  by_cases hwrite : command.WritesCell
  · have hstep := db.heapStep command
    generalize (db.step command).2.heap = h' at hstep
    cases hstep with
    | kept => exact le_refl _
    | @written cell _ value => exact (db.heap.size_write cell value).ge
    | called | viewed | made | copied | adopted => exact hwrite.elim
  · exact (heap_le_step hwrite).1

end Database

end OverlayStore
