import OverlayStore.Database.Basic

/-!
# Managed executions

A managed execution begins a transaction, hands it to a body, and concludes it by the way in which
the body ended: a value asks for a commit, an error or an abort for a rollback. Whatever the end,
the transaction is over and deregistered.
-/

namespace OverlayStore

/-- How the body of a managed execution ends. -/
inductive Ending (α : Type) where
  /-- With a value. -/
  | returned (value : α)
  /-- With an error. -/
  | failed (cause : Cause)
  /-- By an abort, with a text. -/
  | aborted (text : String)

/-- What a managed execution answers. -/
inductive Conclusion (α : Type) where
  /-- The value of the body, whose edits are committed. -/
  | returned (value : α)
  /-- The failure of the transaction. -/
  | failed (error : TransactionError)
  /-- The abort of the body, passed on. -/
  | aborted (text : String)

namespace Transaction

/-- The error of a commit as the failure of the transaction, wrapped once. -/
def failure (id : TransactionId) (e : TransactionError) : TransactionError :=
  if e.isFailed then e else .failed id (.transaction e)

/-- End a transaction as the ending of its body asks. A commit applies the edits in the given
order. -/
def conclude (t : Transaction V) (order : KeyOrder) (base : GuardedStore V) :
    Ending α → Settled (Conclusion α) V
  | .returned value =>
    let settled := t.commit order base
    match settled.answer with
    | .ok () => { settled with answer := .returned value }
    | .error e => { settled with answer := .failed (failure t.id e) }
  | .failed cause => ⟨.failed (.failed t.id cause), t.rollback, base⟩
  | .aborted text => ⟨.aborted text, t, base⟩

end Transaction

namespace Database

/-- Conclude the managed execution of the transaction at a place. What is still active by then is
rolled back, and the transaction is deregistered in every case. -/
def conclude (db : Database V) (place : Nat) (ending : Ending α) (order : KeyOrder) :
    Option (Conclusion α) × Database V :=
  match db.transaction? place with
  | none => (none, db)
  | some t =>
    let settled := t.conclude order db.base ending
    (some settled.answer,
      ({ db with base := settled.base }.setTransaction place settled.transaction.rollback
        |>.deregister t.id).2)

end Database

end OverlayStore
