import OverlayStore.Proofs.Database.Transactions
import OverlayStore.Proofs.Overlay.Refinement
import OverlayStore.Proofs.Transaction.Commit

/-!
# A transaction refines the plain store

A new transaction on a plain store of regular values answers every call as the store would, and its
commit leaves the store that would be left. The invariant is the simulation between the overlay and
the twin; it goes on as long as nobody else writes to the store or to a cell.
-/

namespace OverlayStore

/-- Every value of a store is regular. -/
def Store.Regular (h : Heap) (s : Store Value) : Prop :=
  ∀ key v, s.get? key = some v → v.Regular h

/-- Equal values under the same keys. -/
def Store.Equal (h : Heap) (s s' : Store Value) : Prop :=
  ∀ key, Option.Rel (fun a b => Value.same? h a b = some true) (s.get? key) (s'.get? key)

/-- Nothing is edited yet, and nothing was set. -/
theorem Simulates.empty {h : Heap} {s : Store Value} (hregular : s.Regular h) :
    Simulates h .empty s ⟨s, .empty⟩ := by
  constructor
  · intro key
    rw [Overlay.visible?_empty]
    cases hget : s.get? key with
    | none => exact .none
    | some v => exact .some (hregular key v hget).alike_self
  · intro key
    rw [Overlay.held?_empty, Store.get?_empty]
    exact .none

namespace Database

/-- A transaction beside its twin: calls on its view are carried out on the twin too, and nobody
else writes to the store, to a cell, or to the transaction. -/
inductive Beside (place : Nat) (start : Database Value) : Database Value → Twin Value → Prop
  /-- The twin starts from the store. -/
  | refl : Beside place start start ⟨start.base.store, .empty⟩
  /-- A call of the transaction. -/
  | call {db : Database Value} {m m' : Twin Value} (hbeside : Beside place start db m)
    {call : StoreCall Value} (huncounted : call.Uncounted) (hregular : call.Regular db.heap)
    {expected : Reply Value} (htwin : m.call db.heap call = .ok (expected, m')) :
    Beside place start (db.step (.view place call)).2 m'
  /-- A command that writes nowhere. -/
  | other {db : Database Value} {m : Twin Value} (hbeside : Beside place start db m)
    {command : Command Value} (hbase : (db.step command).2.base = db.base)
    (hheap : db.heap ≤ (db.step command).2.heap)
    (hplace : (db.step command).2.transaction? place = db.transaction? place) :
    Beside place start (db.step command).2 m

/-- The invariant: the store and its cells are as at the start, and the overlay of the transaction,
which is active, simulates the twin. -/
structure Tracks (place : Nat) (start db : Database Value) (m : Twin Value) : Prop where
  /-- The store is as it was. -/
  base : db.base = start.base
  /-- So are the cells that were there. -/
  heap : start.heap ≤ db.heap
  /-- The overlay simulates the twin. -/
  overlay : ∃ t, db.transaction? place = some t ∧ t.phase = .active ∧
    Simulates db.heap t.overlay start.base.store m

variable {place : Nat} {start db : Database Value} {m : Twin Value}

theorem tracks_refl {id : TransactionId} (ht : start.transaction? place = some (.fresh id))
    (hregular : start.base.store.Regular start.heap) :
    Tracks place start start ⟨start.base.store, .empty⟩ :=
  ⟨rfl, le_refl _, .fresh id, ht, rfl, .empty hregular⟩

namespace Tracks

/-- A call is answered alike, and the invariant goes on. -/
theorem call (htracks : Tracks place start db m) (hplain : start.base.refusals = .none)
    {call : StoreCall Value} (huncounted : call.Uncounted) (hregular : call.Regular db.heap) :
    ∃ expected m' r, m.call db.heap call = .ok (expected, m') ∧
      (db.step (.view place call)).1 = .reply r ∧
      r.Equal (db.step (.view place call)).2.heap expected ∧
      Tracks place start (db.step (.view place call)).2 m' := by
  obtain ⟨hbase, hheap, t, ht, hactive, hsim⟩ := htracks
  obtain ⟨expected, m', r, o', h', htwin, hcall, hle, hequal, hsim'⟩ :=
    hsim.agrees huncounted hregular
  have hplain' : db.base = .plain start.base.store := by
    rw [hbase]
    exact GuardedStore.eq_plain hplain
  have hstep : db.step (.view place call) =
      (.reply r, { db with heap := h' }.setTransaction place { t with overlay := o' }) := by
    rw [step_view ht, Transaction.viewCall_of_active hactive, hplain', hcall]
    rfl
  have hfound : { db with heap := h' }.transaction? place = some t := ht
  rw [hstep]
  refine ⟨expected, m', r, htwin, rfl, hequal, hbase, hheap.trans hle, { t with overlay := o' }, ?_,
    hactive, hsim'⟩
  rw [transaction?_setTransaction hfound, if_pos rfl]

/-- What writes nowhere leaves the invariant alone. -/
theorem other (htracks : Tracks place start db m) {db' : Database Value}
    (hbase : db'.base = db.base) (hheap : db.heap ≤ db'.heap)
    (hplace : db'.transaction? place = db.transaction? place) :
    Tracks place start db' m := by
  obtain ⟨hstart, hle, t, ht, hactive, hsim⟩ := htracks
  exact ⟨hbase.trans hstart, hle.trans hheap, t, hplace.trans ht, hactive, hsim.mono hheap⟩

/-- A commit leaves what the twin of the store has, whatever the order of the edits. -/
theorem commit (htracks : Tracks place start db m) (hplain : start.base.refusals = .none)
    (order : KeyOrder) :
    ∃ s, (db.step (.commit place order)).1 = .reply .done ∧
      (db.step (.commit place order)).2.base = .plain s ∧
      (db.step (.commit place order)).2.heap = db.heap ∧ s.Equal db.heap m.store := by
  obtain ⟨hbase, -, t, ht, hactive, hsim⟩ := htracks
  obtain ⟨s, happly, halike⟩ := hsim.apply order
  have hplain' : db.base = .plain start.base.store := by
    rw [hbase]
    exact GuardedStore.eq_plain hplain
  have hcommit : t.commit order db.base =
      ⟨.ok (), { t with phase := .committed, overlay := .empty }, .plain s⟩ := by
    rw [Transaction.commit, Transaction.commitIn, hactive, hplain', happly]
  refine ⟨s, ?_, ?_, ?_, fun key => Simulates.equal_of_alike (le_refl _) (halike key)⟩ <;>
    simp only [step, ht, hcommit] <;> rfl

/-- A rollback leaves the store as it was at the start. -/
theorem rollback (htracks : Tracks place start db m) :
    (db.step (.rollback place)).1 = .reply .done ∧
      (db.step (.rollback place)).2.base = start.base ∧
      (db.step (.rollback place)).2.heap = db.heap := by
  obtain ⟨hbase, -, t, ht, -⟩ := htracks
  simp only [step, ht]
  exact ⟨trivial, hbase, rfl⟩

end Tracks

/-- The invariant along every run. -/
theorem Beside.tracks (hbeside : Beside place start db m) {id : TransactionId}
    (ht : start.transaction? place = some (.fresh id)) (hplain : start.base.refusals = .none)
    (hregular : start.base.store.Regular start.heap) : Tracks place start db m := by
  induction hbeside with
  | refl => exact tracks_refl ht hregular
  | call _ huncounted hcall htwin ih =>
    obtain ⟨expected, m', r, htwin', -, -, htracks⟩ := ih.call hplain huncounted hcall
    rw [htwin] at htwin'
    cases htwin'
    exact htracks
  | other _ hbase hheap hplace ih => exact ih.other hbase hheap hplace

/-- A new transaction on a plain store of regular values is that store to its caller: after any
calls, the store below and its cells are as they were, the next call is answered as its twin answers
it, a commit leaves the store of the twin in whatever order the edits are applied, and a rollback
the store of the start. -/
theorem Beside.refines {id : TransactionId} (ht : start.transaction? place = some (.fresh id))
    (hplain : start.base.refusals = .none) (hregular : start.base.store.Regular start.heap)
    (hbeside : Beside place start db m) :
    (db.base = start.base ∧ start.heap ≤ db.heap) ∧
    (∀ call : StoreCall Value, call.Uncounted → call.Regular db.heap →
      ∃ expected m' r, m.call db.heap call = .ok (expected, m') ∧
        (db.step (.view place call)).1 = .reply r ∧
        r.Equal (db.step (.view place call)).2.heap expected) ∧
    (∀ order, ∃ s, (db.step (.commit place order)).1 = .reply .done ∧
      (db.step (.commit place order)).2.base = .plain s ∧
      (db.step (.commit place order)).2.heap = db.heap ∧ s.Equal db.heap m.store) ∧
    ((db.step (.rollback place)).1 = .reply .done ∧
      (db.step (.rollback place)).2.base = start.base ∧
      (db.step (.rollback place)).2.heap = db.heap) := by
  have htracks := hbeside.tracks ht hplain hregular
  refine ⟨⟨htracks.base, htracks.heap⟩, fun call huncounted hcall => ?_, htracks.commit hplain,
    htracks.rollback⟩
  obtain ⟨expected, m', r, htwin, hanswer, hequal, -⟩ := htracks.call hplain huncounted hcall
  exact ⟨expected, m', r, htwin, hanswer, hequal⟩

/-- A store with one entry, and a new transaction on it. -/
def opened : Database Value := ((ofStore (Store.empty.put "k" (.plain (.int 1))).2).begin 0).2

/-- The database after the transaction removed the entry and put another value in its place. -/
def replaced : Database Value :=
  ((opened.step (.view 0 (.delete "k"))).2.step (.view 0 (.put "k" (.plain (.int 2))))).2

/-- The value that was put is what a commit leaves. -/
theorem refines_replaced :
    opened.transaction? 0 = some (.fresh ⟨1, 0⟩) ∧ opened.base.refusals = .none ∧
      opened.base.store.Regular opened.heap ∧
      ∃ m, Beside 0 opened replaced m ∧ m.store.get? "k" = some (.plain (.int 2)) ∧
        ∃ s, (replaced.step (.commit 0)).1 = .reply .done ∧
          (replaced.step (.commit 0)).2.base = .plain s ∧ s.Equal replaced.heap m.store := by
  have hregular : opened.base.store.Regular opened.heap := by
    intro key v hv
    have hget : (if key = "k" then some (Value.plain (.int 1)) else none) = some v := by
      rw [← hv]
      simp [opened, Database.begin, ofStore, GuardedStore.plain]
    split at hget
    next =>
      cases hget
      exact Value.regular_plain.mpr rfl
    next => cases hget
  have hdeleted : Beside 0 opened (opened.step (.view 0 (.delete "k"))).2 _ :=
    .call .refl trivial trivial rfl
  have hvalue : (Value.plain (.int 2)).Regular (opened.step (.view 0 (.delete "k"))).2.heap :=
    Value.regular_plain.mpr rfl
  have hput : (StoreCall.put "k" (Value.plain (.int 2))).Uncounted := trivial
  have hreplaced : Beside 0 opened replaced _ := .call hdeleted hput hvalue rfl
  obtain ⟨-, -, hcommit, -⟩ := hreplaced.refines rfl rfl hregular
  obtain ⟨s, hdone, hbase, -, hequal⟩ := hcommit []
  exact ⟨rfl, rfl, hregular, _, hreplaced, by simp, s, hdone, hbase, hequal⟩

end Database

end OverlayStore
