import OverlayStore.Store.Error
import OverlayStore.Transaction.Id
import OverlayStore.Transaction.Phase
import OverlayStore.Value.Copy

/-!
# Errors of transactions

The causes for which a call on a transaction fails. A failed transaction carries the cause of its
failure, which may be any error at all, or a text given by the caller.
-/

namespace OverlayStore

mutual

/-- Why a call on a transaction fails. -/
inductive TransactionError where
  /-- The store below refused. -/
  | store (source : StoreError)
  /-- A value could not be copied. -/
  | copy (source : CopyError)
  /-- The transaction is over, and ended in the given phase. -/
  | ended (id : TransactionId) (phase : Phase)
  /-- The call has no meaning within a transaction. -/
  | unsupported (operation : String)
  /-- The transaction did not come to a good end. -/
  | failed (id : TransactionId) (cause : Cause)

/-- What made a transaction fail. -/
inductive Cause where
  /-- A refusal of the store. -/
  | store (source : StoreError)
  /-- A value without a copy. -/
  | copy (source : CopyError)
  /-- An error of a transaction. -/
  | transaction (source : TransactionError)
  /-- A text. -/
  | text (words : String)

end

mutual

/-- Text for a reader. -/
def TransactionError.message : TransactionError → String
  | .store source => "storage error: " ++ source.message
  | .copy source => "uncopyable value: " ++ source.message
  | .ended id phase => "transaction " ++ id.text ++ " is not active (state: " ++ phase.text ++ ")"
  | .unsupported operation => operation ++ " is not supported within a transaction"
  | .failed id cause => "transaction " ++ id.text ++ " failed: " ++ cause.message

/-- Text for a reader. -/
def Cause.message : Cause → String
  | .store source => source.message
  | .copy source => source.message
  | .transaction source => source.message
  | .text words => words

end

@[simp] theorem TransactionError.message_ended (id : TransactionId) (phase : Phase) :
    (ended id phase).message =
      "transaction " ++ id.text ++ " is not active (state: " ++ phase.text ++ ")" := rfl

@[simp] theorem TransactionError.message_failed (id : TransactionId) (cause : Cause) :
    (failed id cause).message = "transaction " ++ id.text ++ " failed: " ++ cause.message := rfl

mutual

/-- Structural text. -/
def TransactionError.structural : TransactionError → String
  | .store source => Text.applied "Storage" [source.structural]
  | .copy source => Text.applied "Uncopyable" [source.structural]
  | .ended id phase =>
    Text.record "NotActive" [("id", id.structural), ("state", phase.structural)]
  | .unsupported operation => Text.record "Unsupported" [("operation", Text.quoted operation)]
  | .failed id cause =>
    Text.record "TransactionFailed" [("id", id.structural), ("source", cause.structural)]

/-- Structural text; a plain text is quoted. -/
def Cause.structural : Cause → String
  | .store source => source.structural
  | .copy source => source.structural
  | .transaction source => source.structural
  | .text words => Text.quoted words

end

namespace TransactionError

/-- Whether the call came after the end of the transaction. -/
def isEnded : TransactionError → Bool
  | .ended _ _ => true
  | _ => false

/-- Whether the error is the failure of a transaction. -/
def isFailed : TransactionError → Bool
  | .failed _ _ => true
  | _ => false

end TransactionError

/-- An error as an error of a transaction: errors of the store and of copying are wrapped, an error
of a transaction stays what it is, and a text is none. -/
def Cause.raised? : Cause → Option TransactionError
  | .store source => some (.store source)
  | .copy source => some (.copy source)
  | .transaction source => some source
  | .text _ => none

end OverlayStore
