import OverlayStore.Overlay.Call

/-!
# Transactions

A transaction is an identifier, a phase and an overlay. It answers calls of its own and the calls
of a store through its view as long as it is active; a commit applies its edits to the store.
-/

namespace OverlayStore

/-- A transaction over a store that is kept elsewhere. -/
structure Transaction (V : Type) where
  /-- Identifier, given out at the beginning. -/
  id : TransactionId
  /-- Where the transaction stands. -/
  phase : Phase
  /-- The edits so far. -/
  overlay : Overlay V

/-- What the end of a transaction answers and leaves behind. -/
structure Settled (α V : Type) where
  /-- The answer. -/
  answer : α
  /-- The transaction afterwards. -/
  transaction : Transaction V
  /-- The store afterwards. -/
  base : GuardedStore V

/-- One of the three calls on a single key. -/
inductive KeyCall (V : Type) where
  /-- Set the value of the key. -/
  | put (key : String) (value : V)
  /-- The value of the key. -/
  | get (key : String)
  /-- Remove the key. -/
  | delete (key : String)

namespace KeyCall

/-- The same call among those of a store. -/
def toStoreCall : KeyCall V → StoreCall V
  | .put key value => .put key value
  | .get key => .get key
  | .delete key => .delete key

/-- What a transaction passes on of the answer of its view: a write answers nothing. -/
def passOn : KeyCall V → Reply V → Reply V
  | .get _, reply => reply
  | .put _ _, _ | .delete _, _ => .done

end KeyCall

namespace Transaction

/-- A new transaction. -/
def fresh (id : TransactionId) : Transaction V := ⟨id, .active, .empty⟩

/-- Number of edits. -/
def editCount (t : Transaction V) : Nat := t.overlay.size

/-- The error of every call on a transaction that is over. -/
def ended (t : Transaction V) : TransactionError := .ended t.id t.phase

/-- Carry out a call through the view. -/
def viewCall [Storable V] (t : Transaction V) (h : Heap) (base : GuardedStore V)
    (call : StoreCall V) : Outcome (Transaction V) V :=
  match t.phase with
  | .active =>
    let outcome := t.overlay.call h base call
    ⟨outcome.answer, { t with overlay := outcome.state }, outcome.heap⟩
  | .committed | .rolledBack | .failed => ⟨.error t.ended, t, h⟩

/-- Carry out a call on the transaction itself. -/
def ownCall [Storable V] (t : Transaction V) (h : Heap) (base : GuardedStore V)
    (call : KeyCall V) : Outcome (Transaction V) V :=
  let outcome := t.viewCall h base call.toStoreCall
  { outcome with answer := outcome.answer.map call.passOn }

/-- Commit with edits that are listed in some order. After a refusal the transaction has failed and
keeps its edits. -/
def commitIn (t : Transaction V) (order : EditList V) (base : GuardedStore V) :
    Settled (Except TransactionError Unit) V :=
  match t.phase with
  | .active =>
    match order.apply base with
    | (none, base) => ⟨.ok (), { t with phase := .committed, overlay := .empty }, base⟩
    | (some e, base) => ⟨.error (.failed t.id (.store e)), { t with phase := .failed }, base⟩
  | .committed | .rolledBack | .failed => ⟨.error t.ended, t, base⟩

/-- Commit with the edits in the order of the given keys. -/
def commit (t : Transaction V) (order : KeyOrder) (base : GuardedStore V) :
    Settled (Except TransactionError Unit) V :=
  t.commitIn (t.overlay.toListIn order) base

/-- Discard the edits of an active transaction. -/
def rollback (t : Transaction V) : Transaction V :=
  match t.phase with
  | .active => { t with phase := .rolledBack, overlay := .empty }
  | .committed | .rolledBack | .failed => t

/-- Structural text: the edits are not shown. -/
def structural (t : Transaction V) : String :=
  Text.openRecord "Transaction" [("id", t.id.structural), ("state", t.phase.structural)]

/-- Structural text of the view. -/
def viewStructural (t : Transaction V) : String :=
  Text.record "TransactionalStore" [("txn", t.structural)]

/-- A call through the view of a transaction that is over changes nothing. -/
theorem viewCall_of_final [Storable V] {t : Transaction V} (final : t.phase.isFinal = true)
    (h : Heap) (base : GuardedStore V) (call : StoreCall V) :
    t.viewCall h base call = ⟨.error t.ended, t, h⟩ := by
  cases phase : t.phase <;> simp_all [viewCall, Phase.isFinal]

/-- A commit of a transaction that is over changes nothing. -/
theorem commitIn_of_final {t : Transaction V} (final : t.phase.isFinal = true)
    (order : EditList V) (base : GuardedStore V) :
    t.commitIn order base = ⟨.error t.ended, t, base⟩ := by
  cases phase : t.phase <;> simp_all [commitIn, Phase.isFinal]

/-- A rollback of a transaction that is over changes nothing. -/
theorem rollback_of_final {t : Transaction V} (final : t.phase.isFinal = true) :
    t.rollback = t := by
  cases phase : t.phase <;> simp_all [rollback, Phase.isFinal]

/-- After a rollback a transaction is over. -/
theorem isFinal_rollback (t : Transaction V) : t.rollback.phase.isFinal = true := by
  cases phase : t.phase <;> simp [rollback, phase]

end Transaction

end OverlayStore
