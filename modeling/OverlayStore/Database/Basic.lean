import OverlayStore.Transaction.Basic

/-!
# The database

A store, the heap of its cells, and every transaction begun over it. A transaction is known to its
owner by its place in the order of beginning, and to everybody by its identifier as long as it is
registered. Sequence numbers come from a counter that only begins advance.
-/

namespace OverlayStore

/-- A database with all its transactions. -/
structure Database (V : Type) where
  /-- Contents of all cells. -/
  heap : Heap
  /-- The shared store. -/
  base : GuardedStore V
  /-- Every transaction begun so far, in order. -/
  transactions : Array (Transaction V)
  /-- Place of every registered transaction. -/
  registry : Std.ExtTreeMap TransactionId Nat
  /-- Sequence number of the next transaction. -/
  nextSequence : UInt64

namespace Database

/-- A database over a store, with no transaction and no cell. -/
def ofStore (s : Store V) : Database V := ⟨.empty, .plain s, #[], ∅, 1⟩

/-- An empty database with usable options. -/
def ofOptions (o : StoreOptions) : Except TransactionError (Database V) :=
  match Store.ofOptions o with
  | .ok s => .ok (ofStore s)
  | .error e => .error (.store e)

/-- The transaction at a place. -/
def transaction? (db : Database V) (place : Nat) : Option (Transaction V) :=
  db.transactions[place]?

/-- Number of registered transactions. -/
def registered (db : Database V) : Nat := db.registry.size

/-- The place of a registered transaction. -/
def lookup? (db : Database V) (id : TransactionId) : Option Nat := db.registry[id]?

/-- Begin a transaction and register it; its place comes back. -/
def begin (db : Database V) (nonce : UInt32) : Nat × Database V :=
  let id : TransactionId := ⟨db.nextSequence, nonce⟩
  let place := db.transactions.size
  (place,
    { db with
      transactions := db.transactions.push (.fresh id)
      registry := db.registry.insert id place
      nextSequence := db.nextSequence + 1 })

/-- Deregister a transaction and leave it as it is; its place comes back if it was registered. -/
def deregister (db : Database V) (id : TransactionId) : Option Nat × Database V :=
  (db.lookup? id, { db with registry := db.registry.erase id })

/-- Replace the transaction at a place. -/
def setTransaction (db : Database V) (place : Nat) (t : Transaction V) : Database V :=
  { db with transactions := db.transactions.setIfInBounds place t }

/-- Structural text of the part that manages transactions. -/
def managerStructural (db : Database V) : String :=
  Text.openRecord "TransactionManager"
    [("next_txid", Nat.repr db.nextSequence.toNat), ("active_count", Nat.repr db.registered)]

/-- Structural text. -/
def structural (db : Database V) : String :=
  Text.record "Database"
    [("store", db.base.store.structural), ("txn_manager", db.managerStructural)]

@[simp] theorem lookup?_begin (db : Database V) (nonce : UInt32) (id : TransactionId) :
    (db.begin nonce).2.lookup? id =
      if id = ⟨db.nextSequence, nonce⟩ then some db.transactions.size else db.lookup? id := by
  simp [begin, lookup?, Std.ExtTreeMap.getElem?_insert, eq_comm (a := id)]

@[simp] theorem lookup?_deregister (db : Database V) (id other : TransactionId) :
    (db.deregister id).2.lookup? other = if other = id then none else db.lookup? other := by
  simp [deregister, lookup?, Std.ExtTreeMap.getElem?_erase, eq_comm (a := other)]

/-- A transaction is found at the place that its begin answered. -/
@[simp] theorem transaction?_begin_self (db : Database V) (nonce : UInt32) :
    (db.begin nonce).2.transaction? (db.begin nonce).1 =
      some (.fresh ⟨db.nextSequence, nonce⟩) := by
  simp [begin, transaction?]

end Database

end OverlayStore
