import Mathlib.Tactic.SplitIfs
import OverlayStore.Database.Run
import OverlayStore.Proofs.Session.Basic
import OverlayStore.Proofs.Transaction.Renaming

/-!
# Databases without one of their transactions

A database that lacks one transaction, and the cells that nobody but its owner has seen, answers
every command that is not about this transaction as the whole database does, up to names: cells are
counted without the hidden ones, and later transactions without the missing one.
-/

namespace OverlayStore

/-! ## Names without a transaction -/

/-- A place or a size without one place: what comes later moves down. -/
def moveDown (place n : Nat) : Nat := if n ≤ place then n else n - 1

theorem moveDown_inj {place m n : Nat} (hm : m ≠ place) (hn : n ≠ place) :
    moveDown place m = moveDown place n ↔ m = n := by
  rw [moveDown, moveDown]
  split <;> split <;> omega

namespace TransactionId

/-- The identifiers without the one of a place: later ones move down, and the one that is left over
becomes the last. -/
def without (place : Nat) (id : TransactionId) : TransactionId :=
  ⟨.ofNat (if id.sequence.toNat = place + 1 then UInt64.size - 1
    else moveDown place id.sequence.toNat), id.nonce⟩

theorem toNat_sequence_without (place : Nat) (id : TransactionId) :
    (id.without place).sequence.toNat = if id.sequence.toNat = place + 1 then UInt64.size - 1
      else moveDown place id.sequence.toNat := by
  refine UInt64.toNat_ofNat_of_lt' ?_
  have hlt : id.sequence.toNat < UInt64.size := id.sequence.toNat_lt_size
  rw [moveDown]
  split
  · omega
  · split <;> omega

/-- Different identifiers stay different. -/
theorem without_inj {place : Nat} {id other : TransactionId} :
    id.without place = other.without place ↔ id = other := by
  refine ⟨fun heq => ?_, congrArg _⟩
  have hsequence := congrArg (fun id => id.sequence.toNat) heq
  simp only [toNat_sequence_without, moveDown] at hsequence
  have hlt : id.sequence.toNat < UInt64.size := id.sequence.toNat_lt_size
  have hlt' : other.sequence.toNat < UInt64.size := other.sequence.toNat_lt_size
  have hsame : id.sequence.toNat = other.sequence.toNat := by
    split_ifs at hsequence <;> omega
  have hnonce : (id.without place).nonce = (other.without place).nonce :=
    congrArg TransactionId.nonce heq
  cases id
  cases other
  rw [TransactionId.mk.injEq]
  exact ⟨UInt64.toNat_inj.mp hsame, hnonce⟩

end TransactionId

/-- The names without a transaction and without hidden cells. -/
def Names.without (place : Nat) (hidden : List Cell) : Names :=
  ⟨Cell.rank hidden, TransactionId.without place, moveDown place⟩

/-- The command with other names. -/
def Command.rename (ν : Names) : Command Value → Command Value
  | .store call => .store (call.map (Value.rename ν.cell))
  | .getD key fallback => .getD key (fallback.rename ν.cell)
  | .putNew key value => .putNew key (value.rename ν.cell)
  | .direct call => .direct (call.map (Value.rename ν.cell))
  | .begin nonce => .begin nonce
  | .own place call => .own (ν.place place) (call.map (Value.rename ν.cell))
  | .view place call => .view (ν.place place) (call.map (Value.rename ν.cell))
  | .commit place order => .commit (ν.place place) order
  | .rollback place => .rollback (ν.place place)
  | .conclude place ending order => .conclude (ν.place place) (ending.rename ν.id) order
  | .lookup id => .lookup (ν.id id)
  | .deregister id => .deregister (ν.id id)
  | .registered => .registered
  | .newCell value => .newCell (value.rename ν.cell)
  | .readCell cell => .readCell (ν.cell cell)
  | .writeCell cell value => .writeCell (ν.cell cell) (value.rename ν.cell)
  | .copy value => .copy (value.rename ν.cell)
  | .adopt typeName => .adopt typeName
  | .refuse refusals => .refuse refusals

/-- The answer with other names. -/
def Answer.rename (ν : Names) : Answer Value → Answer Value
  | .reply r => .reply (r.map (Value.rename ν.cell))
  | .error cause => .error (cause.rename ν.id)
  | .begun place => .begun (ν.place place)
  | .found place => .found (place.map ν.place)
  | .aborted text => .aborted text
  | .cell c => .cell (ν.cell c)
  | .value v => .value (v.rename ν.cell)
  | .foreign payload => .foreign payload
  | .unknown => .unknown

theorem Answer.ofTransaction_rename (ν : Names) (answer : Except TransactionError (Reply Value)) :
    ofTransaction (renameAnswer ν.id (Reply.map (Value.rename ν.cell)) answer) =
      (ofTransaction answer).rename ν := by
  cases answer with
  | ok reply => rfl
  | error e => rw [ofTransaction, rename, Cause.rename, renameAnswer, ofTransaction]

theorem Answer.ofConclusion_rename (ν : Names) (conclusion : Conclusion Unit) :
    ofConclusion (conclusion.rename ν.id) = (ofConclusion conclusion).rename ν := by
  cases conclusion with
  | failed e => rw [ofConclusion, rename, Cause.rename, Conclusion.rename, ofConclusion]
  | returned | aborted => rfl

/-- Names that agree on the values of a transaction rename it alike. -/
theorem Transaction.rename_congr {ν ν' : Names} {t : Transaction Value} (hid : ν.id = ν'.id)
    (ht : t.overlay.Within fun cell => ν.cell cell = ν'.cell cell) : t.rename ν = t.rename ν' := by
  rw [rename, rename, hid, Overlay.map_congr ht]

/-! ## Databases without a transaction -/

namespace Database

/-- An identifier is the one of the transaction at a place. -/
def HasId (db : Database V) (place : Nat) (id : TransactionId) : Prop :=
  ∃ t, db.transaction? place = some t ∧ t.id = id

/-- A command is about the transaction at a place: it begins it, is given to it, or names it. -/
def Concerns (db : Database V) (place : Nat) : Command V → Prop
  | .begin _ => db.transactions.size = place
  | .own other _ | .view other _ | .commit other _ | .rollback other | .conclude other _ _ =>
    other = place
  | .lookup id | .deregister id => db.HasId place id
  | .store _ | .getD _ _ | .putNew _ _ | .direct _ | .registered | .newCell _ | .readCell _
  | .writeCell _ _ | .copy _ | .adopt _ | .refuse _ => False

/-- The other database lacks the transaction at a place and the hidden cells, and nothing else. -/
structure Without (place : Nat) (hidden : List Cell) (db db' : Database Value) : Prop where
  /-- It has the cells that show. -/
  heap : db.heap.Mirrors hidden db'.heap
  /-- It has the same store. -/
  base : db'.base = db.base.map (Value.rename (Cell.rank hidden))
  /-- The store names cells that show. -/
  store : db.base.store.Within (db.heap.Shows hidden)
  /-- It has every other transaction. -/
  transaction : ∀ q, q ≠ place → db'.transaction? (moveDown place q) =
    (db.transaction? q).map (Transaction.rename (Names.without place hidden))
  /-- The other transactions hold cells that show. -/
  overlay : ∀ q t, q ≠ place → db.transaction? q = some t →
    t.overlay.Within (db.heap.Shows hidden)
  /-- It has no more transactions than that. -/
  size : db'.transactions.size = moveDown place db.transactions.size
  /-- The sequence numbers count the transactions. -/
  next : db.nextSequence = .ofNat (db.transactions.size + 1)
  /-- They count the transactions there as well. -/
  next' : db'.nextSequence = .ofNat (db'.transactions.size + 1)
  /-- Every other identifier is registered there for the same transaction. -/
  registry : ∀ id, ¬ db.HasId place id →
    db'.lookup? (id.without place) = (db.lookup? id).map (moveDown place)

variable {place : Nat} {hidden : List Cell} {db db' : Database Value} {t t' : Transaction Value}
  {q : Nat} {heap heap' : Heap} {base base' : GuardedStore Value}

theorem transaction?_begin (db : Database V) (nonce : UInt32) (q : Nat) :
    (db.begin nonce).2.transaction? q = if q = db.transactions.size then
      some (.fresh ⟨db.nextSequence, nonce⟩) else db.transaction? q :=
  Array.getElem?_push

/-- Whatever is made of another transaction, an identifier stays what it is. -/
theorem hasId_setTransaction {db : Database V} (hq : q ≠ place) (t : Transaction V)
    (id : TransactionId) : (db.setTransaction q t).HasId place id ↔ db.HasId place id := by
  rw [HasId, HasId, transaction?_setTransaction_of_ne db (Ne.symm hq)]

namespace Without

/-! ## What is done on both sides -/

/-- Other cells and another store. -/
theorem replace (hw : Without place hidden db db') (hm : heap.Mirrors hidden heap')
    (hshows : ∀ cell, db.heap.Shows hidden cell → heap.Shows hidden cell)
    (hbase : base' = base.map (Value.rename (Cell.rank hidden)))
    (hstore : base.store.Within (heap.Shows hidden)) :
    Without place hidden { db with heap, base } { db' with heap := heap', base := base' } where
  heap := hm
  base := hbase
  store := hstore
  transaction := hw.transaction
  overlay q t hq ht := (hw.overlay q t hq ht).mono hshows
  size := hw.size
  next := hw.next
  next' := hw.next'
  registry := hw.registry

/-- Another state of another transaction. -/
theorem setTransaction (hw : Without place hidden db db') (hq : q ≠ place)
    (ht : db.transaction? q = some t) (ht' : t'.overlay.Within (db.heap.Shows hidden)) :
    Without place hidden (db.setTransaction q t')
      (db'.setTransaction (moveDown place q) (t'.rename (Names.without place hidden))) where
  heap := hw.heap
  base := hw.base
  store := hw.store
  transaction r hr := by
    have hfound : db'.transaction? (moveDown place q) =
        some (t.rename (Names.without place hidden)) := by rw [hw.transaction q hq, ht]; rfl
    rw [transaction?_setTransaction hfound, transaction?_setTransaction ht, hw.transaction r hr]
    simp only [moveDown_inj hr hq]
    split <;> rfl
  overlay r u hr hu := by
    rw [transaction?_setTransaction ht] at hu
    split at hu
    next => exact Option.some.inj hu ▸ ht'
    next => exact hw.overlay r u hr hu
  size := by
    have hsize := hw.size
    simpa only [Database.setTransaction, Array.size_setIfInBounds] using hsize
  next := by
    have hnext := hw.next
    simpa only [Database.setTransaction, Array.size_setIfInBounds] using hnext
  next' := by
    have hnext := hw.next'
    simpa only [Database.setTransaction, Array.size_setIfInBounds] using hnext
  registry id hid := hw.registry id ((hasId_setTransaction hq t' id).not.mp hid)

/-- Other cells, another store, and another state of another transaction. -/
theorem settle (hw : Without place hidden db db') (hq : q ≠ place)
    (ht : db.transaction? q = some t) (hm : heap.Mirrors hidden heap')
    (hshows : ∀ cell, db.heap.Shows hidden cell → heap.Shows hidden cell)
    (hbase : base' = base.map (Value.rename (Cell.rank hidden)))
    (hstore : base.store.Within (heap.Shows hidden))
    (ht' : t'.overlay.Within (heap.Shows hidden)) :
    Without place hidden ({ db with heap, base }.setTransaction q t')
      ({ db' with heap := heap', base := base' }.setTransaction (moveDown place q)
        (t'.rename (Names.without place hidden))) :=
  (hw.replace hm hshows hbase hstore).setTransaction hq ht ht'

/-- An identifier is deregistered. -/
theorem deregister (hw : Without place hidden db db') (id : TransactionId) :
    Without place hidden (db.deregister id).2 (db'.deregister (id.without place)).2 where
  heap := hw.heap
  base := hw.base
  store := hw.store
  transaction := hw.transaction
  overlay := hw.overlay
  size := hw.size
  next := hw.next
  next' := hw.next'
  registry other hother := by
    rw [lookup?_deregister, lookup?_deregister, hw.registry other hother]
    simp only [TransactionId.without_inj]
    split <;> rfl

/-- Another transaction begins. -/
theorem begin (hw : Without place hidden db db') (nonce : UInt32)
    (hsize : db.transactions.size ≠ place) (hbound : db.transactions.size + 1 < UInt64.size) :
    Without place hidden (db.begin nonce).2 (db'.begin nonce).2 := by
  -- The counter has not come round, so the new sequence number comes after that of the place.
  have hid : (⟨db'.nextSequence, nonce⟩ : TransactionId) =
      TransactionId.without place ⟨db.nextSequence, nonce⟩ := by
    rw [TransactionId.without, hw.next, hw.next', hw.size, UInt64.toNat_ofNat_of_lt' hbound]
    congr 2
    rw [moveDown, moveDown]
    split_ifs <;> omega
  have hplace : (db.begin nonce).2.transaction? place = db.transaction? place := by
    rw [transaction?_begin, if_neg (Ne.symm hsize)]
  refine ⟨hw.heap, hw.base, hw.store, fun q hq => ?_, fun q t hq ht => ?_, ?_, ?_, ?_,
    fun id hnot => ?_⟩
  · rw [transaction?_begin, transaction?_begin, hw.size, hw.transaction q hq]
    simp only [moveDown_inj hq hsize, hid]
    split
    · exact congrArg some (Transaction.rename_fresh (Names.without place hidden) _).symm
    · rfl
  · rw [transaction?_begin] at ht
    split at ht
    next =>
      cases ht
      intro key v hv
      simp [Transaction.fresh] at hv
    next => exact hw.overlay q t hq ht
  · have hsize' := hw.size
    simp only [Database.begin, Array.size_push]
    rw [hsize', moveDown, moveDown]
    split <;> split <;> omega
  · simp only [Database.begin, Array.size_push]
    rw [hw.next]
    exact (UInt64.ofNat_add _ 1).symm
  · simp only [Database.begin, Array.size_push]
    rw [hw.next']
    exact (UInt64.ofNat_add _ 1).symm
  · have hnot' : ¬ db.HasId place id := by
      rwa [HasId, hplace] at hnot
    rw [lookup?_begin, lookup?_begin, hw.registry id hnot', hw.size]
    simp only [hid, TransactionId.without_inj]
    split <;> rfl

/-! ## What is done on one side -/

/-- The transaction begins. -/
theorem beginAt (hw : Without place hidden db db') (nonce : UInt32)
    (hsize : db.transactions.size = place) : Without place hidden (db.begin nonce).2 db' := by
  subst hsize
  refine ⟨hw.heap, hw.base, hw.store, fun q hq => ?_, fun q t hq ht => ?_, ?_, ?_, hw.next',
    fun id hnot => ?_⟩
  · rw [transaction?_begin, if_neg hq, hw.transaction q hq]
  · rw [transaction?_begin, if_neg hq] at ht
    exact hw.overlay q t hq ht
  · have hsize' := hw.size
    simp only [Database.begin, Array.size_push]
    rw [hsize', moveDown, moveDown]
    split <;> split <;> omega
  · simp only [Database.begin, Array.size_push]
    rw [hw.next]
    exact (UInt64.ofNat_add _ 1).symm
  · have hnew : id ≠ ⟨db.nextSequence, nonce⟩ := by
      rintro rfl
      exact hnot ⟨_, transaction?_begin_self db nonce, rfl⟩
    have hnone : ¬ db.HasId db.transactions.size id := by
      rintro ⟨t, ht, -⟩
      exact Nat.lt_irrefl _ (Array.getElem?_eq_some_iff.mp ht).1
    rw [lookup?_begin, if_neg hnew, hw.registry id hnone]

/-- Another state of the transaction. -/
theorem setAt (hw : Without place hidden db db') (ht : db.transaction? place = some t)
    (hid : t'.id = t.id) : Without place hidden (db.setTransaction place t') db' where
  heap := hw.heap
  base := hw.base
  store := hw.store
  transaction q hq := by
    rw [transaction?_setTransaction_of_ne db hq, hw.transaction q hq]
  overlay q u hq hu := by
    rw [transaction?_setTransaction_of_ne db hq] at hu
    exact hw.overlay q u hq hu
  size := by
    have hsize := hw.size
    simpa only [Database.setTransaction, Array.size_setIfInBounds] using hsize
  next := by
    have hnext := hw.next
    simpa only [Database.setTransaction, Array.size_setIfInBounds] using hnext
  next' := hw.next'
  registry id hnot := hw.registry id fun ⟨u, hu, hu'⟩ => by
    rw [ht] at hu
    cases hu
    exact hnot ⟨t', (transaction?_setTransaction ht t' place).trans (if_pos rfl), hid.trans hu'⟩

/-- The transaction is deregistered. -/
theorem deregisterAt (hw : Without place hidden db db') {id : TransactionId}
    (hid : db.HasId place id) : Without place hidden (db.deregister id).2 db' where
  heap := hw.heap
  base := hw.base
  store := hw.store
  transaction := hw.transaction
  overlay := hw.overlay
  size := hw.size
  next := hw.next
  next' := hw.next'
  registry other hother := by
    have hne : other ≠ id := by
      rintro rfl
      exact hother hid
    rw [lookup?_deregister, if_neg hne, hw.registry other hother]

/-- Cells are made that do not show. -/
theorem grow (hw : Without place hidden db db') (hextends : db.heap.Extends heap) :
    Without place (hidden ++ db.heap.fresh heap) { db with heap } db' := by
  have hshows : ∀ cell, db.heap.Shows hidden cell →
      heap.Shows (hidden ++ db.heap.fresh heap) cell := fun cell hc =>
    (Heap.shows_append_fresh hextends.le).mpr hc
  have hrank : ∀ cell, db.heap.Shows hidden cell →
      Cell.rank (hidden ++ db.heap.fresh heap) cell = Cell.rank hidden cell := fun cell hc =>
    Heap.rank_append_fresh hc.1 heap
  refine ⟨hw.heap.grow hextends.le hextends.payloads, ?_, hw.store.mono hshows, fun q hq => ?_,
    fun q t hq ht => (hw.overlay q t hq ht).mono hshows, hw.size, hw.next, hw.next', hw.registry⟩
  · rw [hw.base]
    exact (GuardedStore.map_congr (hw.store.mono hrank)).symm
  · rw [hw.transaction q hq]
    refine Option.map_congr fun t ht => ?_
    symm
    exact Transaction.rename_congr rfl ((hw.overlay q t hq ht).mono hrank)

/-- A hidden cell is written to. -/
theorem writeHidden (hw : Without place hidden db db') {cell : Cell} (hc : cell ∈ hidden)
    (v : Value) : Without place hidden { db with heap := db.heap.write cell v } db' := by
  have hshows : (db.heap.write cell v).Shows hidden = db.heap.Shows hidden := by
    funext c
    rw [Heap.Shows, Heap.Has, Heap.size_write]
    rfl
  exact hw.replace (hw.heap.write_hidden hc v) (fun c hc => hshows ▸ hc) hw.base (hshows ▸ hw.store)

end Without

end Database

end OverlayStore
