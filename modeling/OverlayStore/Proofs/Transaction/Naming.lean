import OverlayStore.Proofs.Text.Numerals
import OverlayStore.Transaction.Error

/-!
# Identifiers by their text

The text of an identifier can be read back, also in front of other text: the sequence number ends
at a dash, and the nonce has a fixed width. Nothing but the text that is written is read; other
spellings of the same numbers are refused. So the text tells identifiers apart, and so does the
message of an error that names a transaction.
-/

namespace OverlayStore

/-- What stands before the first mark in a text, and what stands behind that mark. -/
def Text.cut? (mark : Char) : List Char → Option (List Char × List Char)
  | [] => none
  | c :: cs =>
    if c = mark then some ([], cs)
    else (cut? mark cs).map fun (front, rest) => (c :: front, rest)

/-- A text is cut at the first mark. -/
theorem Text.cut?_eq_some_iff {mark : Char} {cs front rest : List Char} :
    cut? mark cs = some (front, rest) ↔ cs = front ++ mark :: rest ∧ mark ∉ front := by
  induction cs generalizing front rest with
  | nil => simp [cut?]
  | cons c cs ih =>
    rw [cut?]
    split
    next hmark =>
      subst hmark
      cases front <;> simp +contextual [eq_comm]
    next hmark =>
      cases front with
      | nil => simp [hmark]
      | cons d front =>
        simp only [Option.map_eq_some_iff, Prod.exists, Prod.mk.injEq, List.cons.injEq, ih,
          List.cons_append, List.mem_cons, not_or]
        constructor
        · rintro ⟨_, _, ⟨rfl, hfront⟩, ⟨rfl, rfl⟩, rfl⟩
          exact ⟨⟨rfl, rfl⟩, Ne.symm hmark, hfront⟩
        · rintro ⟨⟨rfl, rfl⟩, -, hfront⟩
          exact ⟨_, _, ⟨rfl, hfront⟩, ⟨rfl, rfl⟩, rfl⟩

namespace TransactionId

open Text

variable {id : TransactionId} {cs rest : List Char}

/-! ## The written form -/

/-- A mark, the sequence number in decimal without leading zeros, a dash, and the nonce in eight
hexadecimal digits. -/
def Spells (id : TransactionId) (cs : List Char) : Prop :=
  ∃ sequence nonce, cs = "TX-".toList ++ (sequence ++ '-' :: nonce) ∧
    (Unpadded sequence ∧ number? 10 sequence = some id.sequence.toNat) ∧
    nonce.length = 8 ∧ number? 16 nonce = some id.nonce.toNat

/-- The decimal digits of a sequence number, told by their shape and their value. -/
theorem eq_sequence_iff {sequence : UInt64} :
    cs = Nat.toDigits 10 sequence.toNat ↔ Unpadded cs ∧ number? 10 cs = some sequence.toNat :=
  eq_toDigits_iff (by decide) (by decide)

/-- The hexadecimal digits of a nonce, told by their shape and their value. -/
theorem eq_nonce_iff {nonce : UInt32} :
    cs = padded 16 8 nonce.toNat ↔ cs.length = 8 ∧ number? 16 cs = some nonce.toNat :=
  eq_padded_iff (by decide) (by decide) (by decide) nonce.toNat_lt

/-- The characters of the text of an identifier. -/
theorem toList_text (id : TransactionId) :
    id.text.toList = "TX-".toList ++
      (Nat.toDigits 10 id.sequence.toNat ++ '-' :: padded 16 8 id.nonce.toNat) := by
  simp [text, hexWord, padded]

/-- Only its text spells an identifier. -/
theorem spells_iff {s : String} : id.Spells s.toList ↔ s = id.text := by
  simp only [Spells, ← eq_sequence_iff, ← eq_nonce_iff, ← String.toList_inj, toList_text]
  constructor
  · rintro ⟨_, _, heq, rfl, rfl⟩
    exact heq
  · intro heq
    exact ⟨_, _, heq, rfl, rfl⟩

/-! ## Reading -/

/-- The sequence number in front of a text, and what stands behind the dash that ends it. -/
def readSequence? (cs : List Char) : Option (UInt64 × List Char) := do
  let (digits, rest) ← cut? '-' cs
  let n ← number? 10 digits
  if Unpadded digits ∧ n < UInt64.size then some (UInt64.ofNat n, rest) else none

/-- The nonce in the first eight characters of a text, and what stands behind them. -/
def readNonce? (cs : List Char) : Option (UInt32 × List Char) := do
  let n ← number? 16 (cs.take 8)
  if 8 ≤ cs.length then some (UInt32.ofNat n, cs.drop 8) else none

/-- The identifier in front of a text, and what stands behind it. -/
def read? (cs : List Char) : Option (TransactionId × List Char) := do
  let cs ← cs.dropPrefix? "TX-".toList
  let (sequence, cs) ← readSequence? cs
  let (nonce, rest) ← readNonce? cs
  some (⟨sequence, nonce⟩, rest)

/-- The identifier that a text spells. -/
def ofText? (s : String) : Option TransactionId :=
  match read? s.toList with
  | some (id, []) => some id
  | _ => none

/-- A sequence number is read from its digits and the mark behind them. -/
theorem readSequence?_eq_some_iff {sequence : UInt64} :
    readSequence? cs = some (sequence, rest) ↔
      cs = Nat.toDigits 10 sequence.toNat ++ '-' :: rest := by
  simp only [readSequence?, Option.bind_eq_bind, Option.bind_eq_some_iff, Prod.exists,
    cut?_eq_some_iff, Option.ite_none_right_eq_some, Option.some.injEq, Prod.mk.injEq]
  constructor
  · rintro ⟨digits, _, ⟨rfl, -⟩, n, hn, ⟨hunpadded, hlt⟩, rfl, rfl⟩
    rw [eq_toDigits_of_number? (by decide) hunpadded hn, UInt64.toNat_ofNat_of_lt' hlt]
  · rintro rfl
    -- No digit is a dash, so the first dash is the one behind the number.
    have hdash : '-' ∉ Nat.toDigits 10 sequence.toNat := fun hmem =>
      absurd (Nat.isDigit_of_mem_toDigits (by decide) (by decide) hmem) (by decide)
    obtain ⟨hunpadded, hn⟩ := eq_sequence_iff.mp (rfl : Nat.toDigits 10 sequence.toNat = _)
    exact ⟨_, _, ⟨rfl, hdash⟩, _, hn, ⟨hunpadded, sequence.toNat_lt_size⟩,
      UInt64.ofNat_toNat, rfl⟩

/-- A nonce is read from its digits, whatever follows. -/
theorem readNonce?_eq_some_iff {nonce : UInt32} :
    readNonce? cs = some (nonce, rest) ↔ cs = padded 16 8 nonce.toNat ++ rest := by
  simp only [readNonce?, Option.bind_eq_bind, Option.bind_eq_some_iff,
    Option.ite_none_right_eq_some, Option.some.injEq, Prod.mk.injEq]
  constructor
  · rintro ⟨n, hn, hlength, rfl, rfl⟩
    have hwidth : (cs.take 8).length = 8 := List.length_take_of_le hlength
    -- Eight hexadecimal digits have room for the nonces and for nothing more.
    have hlt : n < UInt32.size := by
      have hlt := number?_lt (by decide) hn
      rwa [hwidth] at hlt
    rw [← eq_nonce_iff.mpr ⟨hwidth, hn.trans (congrArg some (UInt32.toNat_ofNat_of_lt' hlt).symm)⟩,
      List.take_append_drop]
  · rintro rfl
    obtain ⟨hwidth, hn⟩ := eq_nonce_iff.mp (rfl : padded 16 8 nonce.toNat = _)
    refine ⟨nonce.toNat, ?_, ?_, UInt32.ofNat_toNat, List.drop_left' hwidth⟩
    · rwa [List.take_left' hwidth]
    · rw [List.length_append, hwidth]
      exact Nat.le_add_right _ _

/-- A text from which an identifier is read begins with the text of this identifier. -/
theorem read?_eq_some_iff : read? cs = some (id, rest) ↔ cs = id.text.toList ++ rest := by
  simp only [read?, Option.bind_eq_bind, Option.bind_eq_some_iff, Prod.exists,
    List.dropPrefix?_eq_some_iff, beq_iff_eq, exists_eq_right, readSequence?_eq_some_iff,
    readNonce?_eq_some_iff, Option.some.injEq, Prod.mk.injEq, toList_text]
  constructor
  · rintro ⟨_, rfl, _, _, rfl, _, _, rfl, rfl, rfl⟩
    simp only [List.append_assoc, List.cons_append]
  · rintro rfl
    exact ⟨_, by simp only [List.append_assoc, List.cons_append], _, _, rfl, _, _, rfl, rfl, rfl⟩

/-- An identifier is read from its text and from no other one. -/
theorem ofText?_eq_some_iff {s : String} : ofText? s = some id ↔ s = id.text := by
  have hread : ofText? s = some id ↔ read? s.toList = some (id, []) := by
    rw [ofText?]
    split
    next other hother =>
      rw [hother, Option.some.injEq, Option.some.injEq, Prod.mk.injEq, and_iff_left rfl]
    next hnone => exact iff_of_false nofun (hnone id)
  rw [hread, read?_eq_some_iff, List.append_nil, String.toList_inj]

/-! ## Messages -/

/-- The transaction that a message names in front. -/
def ofMessage? (message : String) : Option TransactionId := do
  let cs ← message.toList.dropPrefix? "transaction ".toList
  let (id, _) ← read? cs
  some id

/-- The transaction is told by the words in front, whatever the message goes on to say. -/
theorem ofMessage?_naming (id : TransactionId) (rest : String) :
    ofMessage? ("transaction " ++ id.text ++ rest) = some id := by
  simp only [ofMessage?, Option.bind_eq_bind, Option.bind_eq_some_iff, Prod.exists,
    List.dropPrefix?_eq_some_iff, beq_iff_eq, exists_eq_right, read?_eq_some_iff]
  refine ⟨_, ?_, id, rest.toList, rfl, rfl⟩
  rw [String.toList_append, String.toList_append, List.append_assoc]

/-! ## The identity of a transaction -/

/-- The text of an identifier stands for it and for no other. -/
structure NamedByText (id : TransactionId) : Prop where
  /-- No other identifier has the same text. -/
  unique : ∀ other : TransactionId, id.text = other.text ↔ id = other
  /-- Its text, and no other one, has the written form of the identifier. -/
  spelled : ∀ s : String, id.Spells s.toList ↔ s = id.text
  /-- From its text, and from no other one, the identifier is read back. -/
  read : ∀ s : String, ofText? s = some id ↔ s = id.text
  /-- A call after the end of the transaction fails with a message that tells the transaction. -/
  ended : ∀ phase : Phase, ofMessage? (TransactionError.ended id phase).message = some id
  /-- Its failure has a message that tells the transaction, whatever the cause says. -/
  failed : ∀ cause : Cause, ofMessage? (TransactionError.failed id cause).message = some id

/-- Every identifier is told by its text, over the whole range of both numbers. -/
theorem namedByText (id : TransactionId) : id.NamedByText where
  unique other := by
    constructor
    · intro htext
      have hread : ofText? id.text = some id := ofText?_eq_some_iff.mpr rfl
      have hother : ofText? id.text = some other := ofText?_eq_some_iff.mpr htext
      exact Option.some.inj (hread.symm.trans hother)
    · rintro rfl
      rfl
  spelled _ := spells_iff
  read _ := ofText?_eq_some_iff
  ended phase := by
    rw [TransactionError.message_ended, String.append_assoc, String.append_assoc, ofMessage?_naming]
  failed cause := by
    rw [TransactionError.message_failed, String.append_assoc, ofMessage?_naming]

/-- Leading zeros are read where they are written, and nowhere else. -/
example :
    ofText? "TX-42-000000ab" = some ⟨42, 0xab⟩ ∧ ofText? "TX-042-000000ab" = none ∧
      ofText? "TX-42-ab" = none := by
  decide +kernel

end TransactionId

end OverlayStore
