import OverlayStore.Proofs.Cells.Calls
import OverlayStore.Proofs.Database.Transactions

/-!
# Sessions

A session is a database together with every value that callers ever passed in or were answered. A
caller names a cell only through a handle that some such value has, so it can write to the cells it
was given and to no others. A session is reachable if it comes out of an empty database in this way.
-/

namespace OverlayStore

/-- The values that a command passes in; a cell counts as the handle to it. -/
def Command.values : Command Value → List Value
  | .store call | .view _ call => call.values
  | .getD _ fallback => [fallback]
  | .direct call | .own _ call => call.toStoreCall.values
  | .putNew _ value | .newCell value | .copy value => [value]
  | .readCell cell => [.shared cell]
  | .writeCell cell value => [.shared cell, value]
  | .begin _ | .commit _ _ | .rollback _ | .conclude _ _ _ | .lookup _ | .deregister _
  | .registered | .adopt _ | .refuse _ => []

/-- The values that an answer hands out; a cell counts as the handle to it. -/
def Answer.values : Answer Value → List Value
  | .reply r => r.values
  | .cell c => [.shared c]
  | .value v => [v]
  | .foreign payload => [.foreign payload]
  | .error _ | .begun _ | .found _ | .aborted _ | .unknown => []

/-- The answer of a transaction hands out what its call does. -/
@[simp] theorem Answer.values_ofTransaction (answer : Except TransactionError (Reply Value)) :
    (Answer.ofTransaction answer).values = answerValues answer := by
  cases answer <;> rfl

/-- The end of a managed execution hands out no value of the store. -/
@[simp] theorem Answer.values_ofConclusion (conclusion : Conclusion Unit) :
    (Answer.ofConclusion conclusion : Answer Value).values = [] := by
  cases conclusion <;> rfl

/-! ## What transactions hold -/

namespace Transaction

/-- The value that an active transaction holds for a key; one that is over holds nothing. -/
def held? (t : Transaction V) (key : String) : Option V :=
  match t.phase with
  | .active => t.overlay.held? key
  | .committed | .rolledBack | .failed => none

/-- An active transaction holds what its overlay does. -/
theorem held?_of_active {t : Transaction V} (hactive : t.phase = .active) (key : String) :
    t.held? key = t.overlay.held? key := by
  rw [held?, hactive]

theorem held?_setOverlay {t : Transaction V} (hactive : t.phase = .active) (o : Overlay V)
    (key : String) : ({ t with overlay := o } : Transaction V).held? key = o.held? key := by
  rw [held?_of_active]
  exact hactive

/-- A new transaction holds nothing. -/
theorem held?_fresh (id : TransactionId) (key : String) :
    (fresh id : Transaction V).held? key = none := by
  rw [held?_of_active rfl, fresh, Overlay.held?_empty]

/-- A transaction that is over holds nothing. -/
theorem held?_of_final {t : Transaction V} (hfinal : t.phase ≠ .active) (key : String) :
    t.held? key = none := by
  cases hphase : t.phase <;> simp_all [held?]

/-- Only an active transaction holds a value, and its overlay has it. -/
theorem phase_of_held? {t : Transaction V} {key : String} {v : V} (hv : t.held? key = some v) :
    t.phase = .active ∧ t.overlay.held? key = some v := by
  by_cases hactive : t.phase = .active
  · exact ⟨hactive, held?_of_active hactive key ▸ hv⟩
  · rw [held?_of_final hactive] at hv
    cases hv

end Transaction

namespace Database

/-- The value that a slot holds. -/
def held? (db : Database V) (slot : Slot) : Option V :=
  (db.transaction? slot.1).bind fun t => t.held? slot.2

/-- What a slot holds is in the overlay of an active transaction. -/
theorem held?_eq_some_iff {db : Database V} {place : Nat} {key : String} {v : V} :
    db.held? (place, key) = some v ↔
      ∃ t, db.transaction? place = some t ∧ t.phase = .active ∧ t.overlay.held? key = some v := by
  rw [held?, Option.bind_eq_some_iff]
  constructor
  · rintro ⟨t, ht, hv⟩
    exact ⟨t, ht, Transaction.phase_of_held? hv⟩
  · rintro ⟨t, ht, hactive, hv⟩
    exact ⟨t, ht, (Transaction.held?_of_active hactive key).trans hv⟩

/-- After a transaction is replaced, its slots hold what the new one does. -/
theorem held?_setTransaction {db : Database V} {place : Nat} {t : Transaction V}
    (ht : db.transaction? place = some t) (t' : Transaction V) (slot : Slot) :
    (db.setTransaction place t').held? slot =
      if slot.1 = place then t'.held? slot.2 else db.held? slot := by
  rw [held?, transaction?_setTransaction ht]
  split <;> rfl

/-- A command that is not given to a transaction leaves what it holds. -/
theorem held?_step_of_ne [Storable V] (db : Database V) {command : Command V} {slot : Slot}
    (hne : command.place? ≠ some slot.1) : (db.step command).2.held? slot = db.held? slot := by
  rw [held?, held?]
  rcases db.transaction?_step_of_ne hne with heq | ⟨hnone, id, hfresh⟩
  · rw [heq]
  · rw [hnone, hfresh]
    exact Transaction.held?_fresh id slot.2

/-- What is held after a call on an active transaction, which may also have made cells. -/
theorem held?_setOverlay {db : Database V} {place : Nat} {t : Transaction V}
    (ht : db.transaction? place = some t) (hactive : t.phase = .active) (o : Overlay V)
    (heap : Heap) (slot : Slot) :
    ({ db with heap }.setTransaction place { t with overlay := o }).held? slot =
      if slot.1 = place then o.held? slot.2 else db.held? slot := by
  have ht' : { db with heap }.transaction? place = some t := ht
  rw [held?_setTransaction ht', Transaction.held?_setOverlay hactive]
  rfl

end Database

/-! ## Sessions -/

/-- A database and what its callers saw. -/
structure Session where
  /-- The database. -/
  db : Database Value
  /-- Every value that was passed in or answered. -/
  seen : List Value

namespace Session

/-- An empty database that nobody has used. -/
def start : Session := ⟨.ofStore .empty, []⟩

/-- A caller names only cells whose handles it was given. -/
def Permits (s : Session) (command : Command Value) : Prop :=
  ∀ v ∈ command.values, v.Within fun cell => ∃ w ∈ s.seen, cell ∈ w.handles

/-- Whether callers may give a command can be computed. -/
instance (s : Session) (command : Command Value) : Decidable (s.Permits command) :=
  inferInstanceAs (Decidable (∀ v ∈ command.values, ∀ cell ∈ v.handles,
    ∃ w ∈ s.seen, cell ∈ w.handles))

/-- What a command answers. -/
def answer (s : Session) (command : Command Value) : Answer Value := (s.db.step command).1

/-- The session after a command. -/
def after (s : Session) (command : Command Value) : Session :=
  ⟨(s.db.step command).2, (s.answer command).values ++ (command.values ++ s.seen)⟩

/-- The sessions that callers can bring about. -/
inductive Reachable : Session → Prop
  /-- Nobody has done anything. -/
  | start : Reachable start
  /-- Somebody carries out one more command. -/
  | step {s : Session} (hs : Reachable s) {command : Command Value} (hp : s.Permits command) :
    Reachable (s.after command)

/-- What can be seen from outside the transactions: what callers saw, and what the store has. -/
def roots (s : Session) (v : Value) : Prop := v ∈ s.seen ∨ ∃ key, s.db.base.store.get? key = some v

/-- Ownership of the cells of a session. -/
def Owned (s : Session) (owner : Cell → Option Slot) : Prop :=
  Ownership s.db.heap s.roots s.db.held? owner

/-- At the start there is nothing to own. -/
theorem owned_start : start.Owned fun _ => none where
  has _ _ hc := by cases hc
  inside cell v hr := by
    have hnone : start.db.heap.read? cell = none := Heap.read?_eq_none_iff.mpr (Nat.zero_le _)
    rw [hnone] at hr
    cases hr
  root v hv := by
    rcases hv with hv | ⟨key, hv⟩
    · cases hv
    · simp [start, Database.ofStore, GuardedStore.plain] at hv
  slot slot v hv := by simp [start, Database.ofStore, Database.held?, Database.transaction?] at hv
  tree slot v hv := by simp [start, Database.ofStore, Database.held?, Database.transaction?] at hv

/-- What callers may pass in is open. -/
theorem Owned.permitted {s : Session} {owner : Cell → Option Slot} (ho : s.Owned owner)
    {command : Command Value} (hp : s.Permits command) :
    ∀ v ∈ command.values, v.Within fun cell => s.db.heap.Has cell ∧ owner cell = none := by
  intro v hv cell hc
  obtain ⟨w, hw, hcell⟩ := hp v hv cell hc
  exact ho.root w (.inl hw) cell hcell

/-- What the store has is open. -/
theorem Owned.base {s : Session} {owner : Cell → Option Slot} (ho : s.Owned owner) :
    s.db.base.store.Within fun cell => s.db.heap.Has cell ∧ owner cell = none :=
  fun key v hv => ho.root v (.inr ⟨key, hv⟩)

end Session

end OverlayStore
