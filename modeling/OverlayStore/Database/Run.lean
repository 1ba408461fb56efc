import OverlayStore.Database.Managed

/-!
# Runs

Everything that callers can do with a database, as commands, and what each command answers. A run
is a list of commands; a managed execution is the part of a run between the begin of its
transaction and its conclusion, so bodies nest and interleave in every possible way.
-/

namespace OverlayStore

/-- Something that a caller does. -/
inductive Command (V : Type) where
  /-- A call on the shared store. -/
  | store (call : StoreCall V)
  /-- The value of a key of the shared store, or another one. -/
  | getD (key : String) (fallback : V)
  /-- Set the value of a key of the shared store that has none. -/
  | putNew (key : String) (value : V)
  /-- A call on the shared store by way of the database. -/
  | direct (call : KeyCall V)
  /-- Begin a transaction, with the nonce that is drawn. -/
  | begin (nonce : UInt32)
  /-- A call on a transaction. -/
  | own (place : Nat) (call : KeyCall V)
  /-- A call on the view of a transaction. -/
  | view (place : Nat) (call : StoreCall V)
  /-- Commit a transaction, with the order in which its edits are applied. -/
  | commit (place : Nat) (order : KeyOrder := [])
  /-- Roll a transaction back. -/
  | rollback (place : Nat)
  /-- Conclude the managed execution of a transaction; if that commits it, in the given order. -/
  | conclude (place : Nat) (ending : Ending Unit) (order : KeyOrder := [])
  /-- Ask for a registered transaction. -/
  | lookup (id : TransactionId)
  /-- Deregister a transaction. -/
  | deregister (id : TransactionId)
  /-- Ask for the number of registered transactions. -/
  | registered
  /-- Make a cell. -/
  | newCell (value : Value)
  /-- Read a cell. -/
  | readCell (cell : Cell)
  /-- Replace the contents of a cell. -/
  | writeCell (cell : Cell) (value : Value)
  /-- Copy a value. -/
  | copy (value : Value)
  /-- Take in a foreign payload. -/
  | adopt (typeName : String)
  /-- Change the rules in front of the shared store. -/
  | refuse (refusals : Refusals)

/-- What a command answers. -/
inductive Answer (V : Type) where
  /-- The reply of a call that succeeded. -/
  | reply (reply : Reply V)
  /-- The error of a call that failed. -/
  | error (cause : Cause)
  /-- The place of a new transaction. -/
  | begun (place : Nat)
  /-- The place of a registered transaction, if there is one. -/
  | found (place : Option Nat)
  /-- An abort that is passed on. -/
  | aborted (text : String)
  /-- A new cell. -/
  | cell (cell : Cell)
  /-- A value. -/
  | value (value : Value)
  /-- A foreign payload. -/
  | foreign (payload : Foreign)
  /-- There is no such transaction or cell. -/
  | unknown

namespace Answer

/-- The answer of a call on a transaction. -/
def ofTransaction : Except TransactionError (Reply V) → Answer V
  | .ok r => .reply r
  | .error e => .error (.transaction e)

/-- The answer of a managed execution. -/
def ofConclusion : Conclusion Unit → Answer V
  | .returned () => .reply .done
  | .failed e => .error (.transaction e)
  | .aborted text => .aborted text

end Answer

namespace Database

/-- A call on the shared store; its error is turned into an answer. -/
def storeCall [Storable V] (db : Database V) (call : StoreCall V)
    (refused : StoreError → Answer V) : Answer V × Database V :=
  match db.base.call db.heap call with
  | .ok (reply, base) => (.reply reply, { db with base })
  | .error e => (refused e, db)

/-- A call on the transaction at a place, which may change it and make cells. -/
def onTransaction (db : Database V) (place : Nat)
    (call : Transaction V → Outcome (Transaction V) V) : Answer V × Database V :=
  match db.transaction? place with
  | none => (.unknown, db)
  | some t =>
    let outcome := call t
    (.ofTransaction outcome.answer,
      { db with heap := outcome.heap }.setTransaction place outcome.state)

/-- Carry out a command. -/
def step [Storable V] (db : Database V) : Command V → Answer V × Database V
  | .store call => db.storeCall call fun e => .error (.store e)
  | .getD key fallback => (.reply (.value (some (db.base.store.getD key fallback))), db)
  | .putNew key value =>
    match db.base.store.putNew key value with
    | (old, store) => (.reply (.value old), { db with base := { db.base with store } })
  | .direct call => db.storeCall call.toStoreCall fun e => .error (.transaction (.store e))
  | .begin nonce =>
    match db.begin nonce with
    | (place, db) => (.begun place, db)
  | .own place call => db.onTransaction place fun t => t.ownCall db.heap db.base call
  | .view place call => db.onTransaction place fun t => t.viewCall db.heap db.base call
  | .commit place order =>
    match db.transaction? place with
    | none => (.unknown, db)
    | some t =>
      let settled := t.commit order db.base
      (.ofTransaction (settled.answer.map fun () => .done),
        { db with base := settled.base }.setTransaction place settled.transaction)
  | .rollback place =>
    match db.transaction? place with
    | none => (.unknown, db)
    | some t => (.reply .done, db.setTransaction place t.rollback)
  | .conclude place ending order =>
    match db.conclude place ending order with
    | (some conclusion, db) => (.ofConclusion conclusion, db)
    | (none, db) => (.unknown, db)
  | .lookup id => (.found (db.lookup? id), db)
  | .deregister id =>
    match db.deregister id with
    | (place, db) => (.found place, db)
  | .registered => (.reply (.count db.registered), db)
  | .newCell value =>
    match db.heap.alloc value with
    | (cell, heap) => (.cell cell, { db with heap })
  | .readCell cell =>
    match db.heap.read? cell with
    | some value => (.value value, db)
    | none => (.unknown, db)
  | .writeCell cell value =>
    match db.heap.read? cell with
    | some old => (.value old, { db with heap := db.heap.write cell value })
    | none => (.unknown, db)
  | .copy value =>
    match value.copy db.heap with
    | .ok (copy, heap) => (.value copy, { db with heap })
    | .error e => (.error (.copy e), db)
  | .adopt typeName =>
    match db.heap.adopt typeName with
    | (payload, heap) => (.foreign payload, { db with heap })
  | .refuse refusals => (.reply .done, { db with base := { db.base with refusals } })

/-- Carry out commands one after the other, and collect what they answer. -/
def run [Storable V] (db : Database V) : List (Command V) → List (Answer V) × Database V
  | [] => ([], db)
  | command :: rest =>
    match db.step command with
    | (answer, db) =>
      match db.run rest with
      | (answers, db) => (answer :: answers, db)

@[simp] theorem run_nil [Storable V] (db : Database V) : db.run [] = ([], db) := rfl

@[simp] theorem run_cons [Storable V] (db : Database V) (command : Command V)
    (rest : List (Command V)) :
    db.run (command :: rest) =
      ((db.step command).1 :: ((db.step command).2.run rest).1,
        ((db.step command).2.run rest).2) := rfl

/-- A run in two parts goes on from where the first part ends. -/
theorem run_append [Storable V] (db : Database V) (first second : List (Command V)) :
    db.run (first ++ second) =
      ((db.run first).1 ++ ((db.run first).2.run second).1, ((db.run first).2.run second).2) := by
  induction first generalizing db with
  | nil => rfl
  | cons command rest ih => simp [ih]

end Database

end OverlayStore
