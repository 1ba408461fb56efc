import Std.Data.ExtTreeMap
import OverlayStore.Text.Structural

/-!
# Transaction identifiers

A sequence number that is given out once, and a nonce that tells apart identifiers of different
databases. Identifiers are ordered by the sequence number first.
-/

namespace OverlayStore

/-- The identifier of a transaction. -/
structure TransactionId where
  /-- Position in the order of beginning. -/
  sequence : UInt64
  /-- An arbitrary number drawn at the beginning. -/
  nonce : UInt32
  deriving DecidableEq, Repr

namespace TransactionId

/-- By sequence number, then by nonce. -/
instance : Ord TransactionId :=
  ⟨compareLex (compareOn TransactionId.sequence) (compareOn TransactionId.nonce)⟩

instance : Std.TransOrd TransactionId :=
  inferInstanceAs
    (Std.TransCmp (compareLex (compareOn TransactionId.sequence) (compareOn TransactionId.nonce)))

instance : Std.LawfulEqOrd TransactionId where
  eq_of_compare {a b} h := by
    have h' : (compare a.sequence b.sequence).then (compare a.nonce b.nonce) = .eq := h
    rw [Ordering.then_eq_eq] at h'
    cases a
    cases b
    simp_all

/-- A 32-bit word as eight lower-case hexadecimal digits. -/
def hexWord (n : UInt32) : String :=
  let digits := Nat.toDigits 16 n.toNat
  String.ofList (List.replicate (8 - digits.length) '0' ++ digits)

/-- Text in messages: the sequence number in decimal, the nonce in hexadecimal. -/
def text (id : TransactionId) : String :=
  "TX-" ++ Nat.repr id.sequence.toNat ++ "-" ++ hexWord id.nonce

/-- Structural text. -/
def structural (id : TransactionId) : String :=
  Text.record "TransactionId"
    [("sequence", Nat.repr id.sequence.toNat), ("nonce", Nat.repr id.nonce.toNat)]

end TransactionId

end OverlayStore
