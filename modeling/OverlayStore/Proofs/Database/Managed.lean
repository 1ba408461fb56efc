import OverlayStore.Proofs.Database.Transactions
import OverlayStore.Proofs.Transaction.Commit
import OverlayStore.Proofs.Transaction.Outcome

/-!
# Managed executions come to an end

A managed execution hands a new transaction to a body, which may do anything with it, with the store
and with other transactions, other managed executions included. Whatever the body did and however it
ended, the transaction is over for good, and the answer tells which of the five ends it was.
-/

namespace OverlayStore

namespace Transaction

/-- The five ends of a managed execution: how the body ended, what is answered, and the transaction
and the store that are left. -/
inductive ManagedEnd (t : Transaction V) (order : KeyOrder) (base : GuardedStore V) :
    Ending α → Conclusion α → Transaction V → GuardedStore V → Prop
  /-- The body returned, and all edits are applied. -/
  | committed (value : α) {base' : GuardedStore V} (hactive : t.phase = .active)
    (happly : EditList.apply (t.overlay.toListIn order) base = (none, base')) :
    ManagedEnd t order base (.returned value) (.returned value)
      { t with phase := .committed, overlay := .empty } base'
  /-- The body returned, but the store refused an edit. -/
  | refused (value : α) {base' : GuardedStore V} {e : StoreError} (hactive : t.phase = .active)
    (happly : EditList.apply (t.overlay.toListIn order) base = (some e, base')) :
    ManagedEnd t order base (.returned value) (.failed (.failed t.id (.store e)))
      { t with phase := .failed } base'
  /-- The body returned, but it had ended the transaction itself. -/
  | ended (value : α) (hfinal : t.phase ≠ .active) :
    ManagedEnd t order base (.returned value) (.failed (.failed t.id (.transaction t.ended))) t base
  /-- The body failed. -/
  | failed (cause : Cause) :
    ManagedEnd t order base (.failed cause) (.failed (.failed t.id cause)) t.rollback base
  /-- The body aborted. -/
  | aborted (text : String) :
    ManagedEnd t order base (.aborted text) (.aborted text) t.rollback base

/-- Why a managed execution fails. -/
inductive Fails (t : Transaction V) (order : KeyOrder) (base : GuardedStore V) :
    Ending α → Cause → Prop
  /-- The body failed, with this very cause. -/
  | body (cause : Cause) : Fails t order base (.failed cause) cause
  /-- The body had ended the transaction itself. -/
  | ended (value : α) (hfinal : t.phase ≠ .active) :
    Fails t order base (.returned value) (.transaction t.ended)
  /-- The store refused an edit. -/
  | refused (value : α) (hactive : t.phase = .active) {e : StoreError}
    (happly : (EditList.apply (t.overlay.toListIn order) base).1 = some e) :
    Fails t order base (.returned value) (.store e)

/-- Every managed execution has one of the ends. -/
theorem managedEnd_conclude (t : Transaction V) (order : KeyOrder) (base : GuardedStore V)
    (ending : Ending α) :
    ManagedEnd t order base ending (t.conclude order base ending).answer
      (t.conclude order base ending).transaction.rollback (t.conclude order base ending).base := by
  cases ending with
  | returned value =>
    have hresult := t.commit_result order base
    unfold conclude
    generalize t.commit order base = settled at hresult
    cases hresult with
    | ended hfinal =>
      have hkept := rollback_of_final (Phase.isFinal_eq_true_iff.mpr hfinal)
      simp only [hkept]
      exact .ended value hfinal
    | committed hactive happly => exact .committed value hactive happly
    | refused hactive happly => exact .refused value hactive happly
  | failed cause =>
    have hkept := rollback_of_final t.isFinal_rollback
    unfold conclude
    simp only [hkept]
    exact .failed cause
  | aborted text => exact .aborted text

namespace ManagedEnd

variable {t t' : Transaction V} {order : KeyOrder} {base base' : GuardedStore V}
  {ending : Ending α} {conclusion : Conclusion α}

/-- Every end ends the transaction, which keeps its identifier. -/
theorem final (he : ManagedEnd t order base ending conclusion t' base') :
    t'.id = t.id ∧ t'.phase ≠ .active := by
  cases he with
  | committed value hactive happly =>
    refine ⟨rfl, ?_⟩
    intro hphase
    cases hphase
  | refused value hactive happly =>
    refine ⟨rfl, ?_⟩
    intro hphase
    cases hphase
  | ended value hfinal => exact ⟨rfl, hfinal⟩
  | failed cause =>
    exact ⟨t.continues_rollback.id, Phase.isFinal_eq_true_iff.mp t.isFinal_rollback⟩
  | aborted text =>
    exact ⟨t.continues_rollback.id, Phase.isFinal_eq_true_iff.mp t.isFinal_rollback⟩

/-- A value is answered if the body returned it, left the transaction active, and no edit is
refused. -/
theorem returned_iff (he : ManagedEnd t order base ending conclusion t' base') (value : α) :
    conclusion = .returned value ↔ ending = .returned value ∧ t.phase = .active ∧
      (EditList.apply (t.overlay.toListIn order) base).1 = none := by
  cases he with
  | committed v hactive happly =>
    rw [happly]
    constructor
    · rintro ⟨⟩
      exact ⟨rfl, hactive, rfl⟩
    · rintro ⟨⟨⟩, -, -⟩
      rfl
  | refused v hactive happly =>
    rw [happly]
    constructor
    · intro hvalue
      cases hvalue
    · rintro ⟨-, -, hnone⟩
      cases hnone
  | ended v hfinal =>
    constructor
    · intro hvalue
      cases hvalue
    · rintro ⟨-, hactive, -⟩
      exact absurd hactive hfinal
  | failed cause =>
    constructor
    · intro hvalue
      cases hvalue
    · rintro ⟨hending, -⟩
      cases hending
  | aborted text =>
    constructor
    · intro hvalue
      cases hvalue
    · rintro ⟨hending, -⟩
      cases hending

/-- Every error is the failure of this transaction, and its cause is wrapped once. -/
theorem failed_iff (he : ManagedEnd t order base ending conclusion t' base')
    (e : TransactionError) :
    conclusion = .failed e ↔ ∃ cause, e = .failed t.id cause ∧ t.Fails order base ending cause := by
  cases he with
  | committed value hactive happly =>
    constructor
    · intro hfailed
      cases hfailed
    · rintro ⟨cause, -, hfails⟩
      cases hfails with
      | ended _ hfinal => exact absurd hactive hfinal
      | refused _ _ hrefused =>
        rw [happly] at hrefused
        cases hrefused
  | @refused value base' source hactive happly =>
    constructor
    · rintro ⟨⟩
      exact ⟨.store source, rfl, .refused value hactive (by rw [happly])⟩
    · rintro ⟨cause, rfl, hfails⟩
      cases hfails with
      | ended _ hfinal => exact absurd hactive hfinal
      | refused _ _ hrefused =>
        rw [happly] at hrefused
        cases hrefused
        rfl
  | ended value hfinal =>
    constructor
    · rintro ⟨⟩
      exact ⟨.transaction t.ended, rfl, .ended value hfinal⟩
    · rintro ⟨cause, rfl, hfails⟩
      cases hfails with
      | ended => rfl
      | refused _ hactive => exact absurd hactive hfinal
  | failed cause =>
    constructor
    · rintro ⟨⟩
      exact ⟨cause, rfl, .body cause⟩
    · rintro ⟨cause, rfl, hfails⟩
      cases hfails
      rfl
  | aborted text =>
    constructor
    · intro hfailed
      cases hfailed
    · rintro ⟨cause, -, hfails⟩
      cases hfails

/-- An abort is passed on, and nothing else looks like one. -/
theorem aborted_iff (he : ManagedEnd t order base ending conclusion t' base') (text : String) :
    conclusion = .aborted text ↔ ending = .aborted text := by
  cases he with
  | aborted words =>
    constructor <;> rintro ⟨⟩ <;> rfl
  | _ =>
    constructor <;> intro haborted <;> cases haborted

/-- After an answer with a value, the edits are in the store. -/
theorem committed_of_returned (he : ManagedEnd t order base ending conclusion t' base') {value : α}
    (hvalue : conclusion = .returned value) :
    t'.phase = .committed ∧ EditList.apply (t.overlay.toListIn order) base = (none, base') := by
  cases he with
  | committed v hactive happly => exact ⟨rfl, happly⟩
  | refused => cases hvalue
  | ended => cases hvalue
  | failed => cases hvalue
  | aborted => cases hvalue

/-- Unless the body returns and leaves the transaction active, no edit reaches the store, and the
transaction is rolled back or stays as the body ended it. -/
theorem untouched (he : ManagedEnd t order base ending conclusion t' base')
    (hending : t.phase = .active → ∀ value, ending ≠ .returned value) :
    base' = base ∧ t' = t.rollback := by
  cases he with
  | committed value hactive => exact absurd rfl (hending hactive value)
  | refused value hactive => exact absurd rfl (hending hactive value)
  | ended value hfinal =>
    exact ⟨rfl, (rollback_of_final (Phase.isFinal_eq_true_iff.mpr hfinal)).symm⟩
  | failed cause => exact ⟨rfl, rfl⟩
  | aborted text => exact ⟨rfl, rfl⟩

/-- An active transaction whose body did not return is rolled back. -/
theorem rolledBack (he : ManagedEnd t order base ending conclusion t' base')
    (hactive : t.phase = .active) (hending : ∀ value, ending ≠ .returned value) :
    base' = base ∧ t' = ⟨t.id, .rolledBack, .empty⟩ := by
  obtain ⟨hbase, rfl⟩ := he.untouched fun _ => hending
  refine ⟨hbase, ?_⟩
  rw [rollback, hactive]

/-- A transaction that its body ended stays as it is. -/
theorem kept (he : ManagedEnd t order base ending conclusion t' base')
    (hfinal : t.phase ≠ .active) : base' = base ∧ t' = t := by
  obtain ⟨hbase, rfl⟩ := he.untouched fun hactive => absurd hactive hfinal
  exact ⟨hbase, rollback_of_final (Phase.isFinal_eq_true_iff.mpr hfinal)⟩

/-- The rules in front of the store stay. -/
theorem refusals (he : ManagedEnd t order base ending conclusion t' base') :
    base'.refusals = base.refusals := by
  cases he with
  | committed _ _ happly | refused _ _ happly =>
    rw [← EditList.apply_refusals (t.overlay.toListIn order) base, happly]
  | ended | failed | aborted => rfl

/-! ### What the store lets through -/

/-- A value is answered if the body returned it, left the transaction active, and the store lets
everything through. -/
theorem allowed_iff (he : ManagedEnd t order base ending conclusion t' base') (value : α) :
    conclusion = .returned value ↔ ending = .returned value ∧ t.phase = .active ∧
      t.overlay.RemovalsAllowed base.refusals ∧ t.overlay.ValuesAllowed base.refusals := by
  rw [he.returned_iff, Overlay.apply_answer_eq_none_iff (t.overlay.toListIn_perm order)]

/-- After an answer with a value, the store has the edits and the transaction has none. -/
theorem applied (he : ManagedEnd t order base ending conclusion t' base') {value : α}
    (hvalue : conclusion = .returned value) :
    t' = ⟨t.id, .committed, .empty⟩ ∧ t.overlay.Applied base.store base'.store := by
  cases he with
  | committed v hactive happly =>
    exact ⟨rfl, Overlay.applied_of_visible (Overlay.get?_of_apply happly)⟩
  | refused => cases hvalue
  | ended => cases hvalue
  | failed => cases hvalue
  | aborted => cases hvalue

/-- A commit that fails was refused one of the edits, and the store has those that came before. -/
theorem stopped_of_failed (he : ManagedEnd t order base ending conclusion t' base')
    (hactive : t.phase = .active) {value : α} (hending : ending = .returned value)
    {e : TransactionError} (hfailed : conclusion = .failed e) :
    t' = { t with phase := .failed } ∧
      (∃ refusal, e = .failed t.id (.store refusal) ∧
        t.overlay.Refused base.refusals refusal) ∧
      (¬ t.overlay.RemovalsAllowed base.refusals →
        t.overlay.StoppedRemoving base.refusals base.store base'.store) ∧
      (t.overlay.RemovalsAllowed base.refusals →
        t.overlay.StoppedSetting base.refusals base.store base'.store) := by
  have hperm := t.overlay.toListIn_perm order
  cases he with
  | committed => cases hfailed
  | @refused _ base' source _ happly =>
    cases hfailed
    have hleft : base' = (EditList.apply (t.overlay.toListIn order) base).2 := by rw [happly]
    refine ⟨rfl, ⟨source, rfl, Overlay.refused_of_apply hperm (by rw [happly])⟩, ?_, ?_⟩
    · exact hleft ▸ Overlay.stoppedRemoving_apply hperm
    · exact hleft ▸ Overlay.stoppedSetting_apply hperm
  | ended _ hfinal => exact absurd hactive hfinal
  | failed => cases hending
  | aborted => cases hending

end ManagedEnd

end Transaction

namespace Database

/-! ## Whole executions -/

variable [Storable V]

/-- What the body of a managed execution leaves behind. -/
def afterBody (db : Database V) (nonce : UInt32) (body : List (Command V)) : Database V :=
  ((db.begin nonce).2.run body).2

/-- A managed execution: begin a transaction, carry out the body, and conclude the transaction as
the body ended. -/
def manage (db : Database V) (nonce : UInt32) (body : List (Command V)) (ending : Ending α)
    (order : KeyOrder) : Option (Conclusion α) × Database V :=
  (db.afterBody nonce body).conclude (db.begin nonce).1 ending order

/-- A managed execution is a part of a run, so bodies have managed executions in them. -/
theorem run_managed (db : Database V) (nonce : UInt32) (body : List (Command V))
    (ending : Ending Unit) (order : KeyOrder) :
    (db.run (.begin nonce :: (body ++ [.conclude (db.begin nonce).1 ending order]))).2 =
      (db.manage nonce body ending order).2 := by
  have hbegin : (db.step (.begin nonce)).2 = (db.begin nonce).2 := rfl
  rw [run_cons, run_append, hbegin]
  simp only [run_cons, run_nil, step, manage, afterBody]
  split
  next heq => rw [heq]
  next heq => rw [heq]

/-- What a managed execution comes to: its body left the transaction `t` at a place of the database
`left`, and the conclusion, which applies edits in the given order, leaves the transaction `t'`
there. -/
structure ManagedResult (place : Nat) (t : Transaction V) (left : Database V) (ending : Ending α)
    (order : KeyOrder) (conclusion : Conclusion α) (t' : Transaction V) (db : Database V) : Prop
    where
  /-- A value is answered if the body returned it, left the transaction active, and no edit is
  refused. -/
  returned : ∀ value, conclusion = .returned value ↔ ending = .returned value ∧
    t.phase = .active ∧ (EditList.apply (t.overlay.toListIn order) left.base).1 = none
  /-- Every error is the failure of this transaction, and its cause is wrapped once. -/
  failed : ∀ e, conclusion = .failed e ↔
    ∃ cause, e = .failed t.id cause ∧ t.Fails order left.base ending cause
  /-- An abort is passed on, and nothing else looks like one. -/
  aborted : ∀ text, conclusion = .aborted text ↔ ending = .aborted text
  /-- The transaction is at its place. -/
  found : db.transaction? place = some t'
  /-- It is over. -/
  final : t'.id = t.id ∧ t'.phase ≠ .active
  /-- No later command changes it. -/
  settled : ∀ commands, (db.run commands).2.transaction? place = some t'
  /-- With an answer that is a value, it is committed. -/
  committed : ∀ value, conclusion = .returned value →
    t'.phase = .committed ∧ EditList.apply (t.overlay.toListIn order) left.base = (none, db.base)
  /-- A value is answered if the body returned it, left the transaction active, and the store lets
  every key be removed and set that is to be. -/
  allowed : ∀ value, conclusion = .returned value ↔ ending = .returned value ∧
    t.phase = .active ∧ t.overlay.RemovalsAllowed left.base.refusals ∧
      t.overlay.ValuesAllowed left.base.refusals
  /-- With an answer that is a value, all edits are in the store, and none is left. -/
  applied : ∀ value, conclusion = .returned value →
    t' = ⟨t.id, .committed, .empty⟩ ∧ t.overlay.Applied left.base.store db.base.store
  /-- If the body returned and left the transaction active, but no value is answered, then the store
  refused one of the edits: the transaction has failed and keeps them, and the store has those that
  came before. -/
  refused : t.phase = .active → ∀ value, ending = .returned value → ∀ e, conclusion = .failed e →
    t' = { t with phase := .failed } ∧
      (∃ refusal, e = .failed t.id (.store refusal) ∧
        t.overlay.Refused left.base.refusals refusal) ∧
      (¬ t.overlay.RemovalsAllowed left.base.refusals →
        t.overlay.StoppedRemoving left.base.refusals left.base.store db.base.store) ∧
      (t.overlay.RemovalsAllowed left.base.refusals →
        t.overlay.StoppedSetting left.base.refusals left.base.store db.base.store)
  /-- If the body failed or aborted and left the transaction active, the store is as the body left
  it, and the transaction is rolled back without edits. -/
  rolledBack : t.phase = .active → (∀ value, ending ≠ .returned value) →
    db.base = left.base ∧ t' = ⟨t.id, .rolledBack, .empty⟩
  /-- If the body had ended the transaction, the store and the transaction are as it left them. -/
  kept : t.phase ≠ .active → db.base = left.base ∧ t' = t
  /-- The rules in front of the store stay. -/
  refusals : db.base.refusals = left.base.refusals
  /-- Unless the body returned and left the transaction active, the store is as the body left it,
  and the transaction is rolled back or stays as the body ended it. -/
  untouched : (t.phase = .active → ∀ value, ending ≠ .returned value) →
    db.base = left.base ∧ t' = t.rollback
  /-- The transaction is not registered, and all others are as the body left them. -/
  registry : ∀ id, db.lookup? id = if id = t.id then none else left.lookup? id
  /-- The other transactions are as the body left them. -/
  others : ∀ other, other ≠ place → db.transaction? other = left.transaction? other
  /-- So are the cells. -/
  heap : db.heap = left.heap

omit [Storable V] in
/-- A conclusion replaces the store and the transaction, and deregisters the transaction. -/
theorem conclude_of_some {db : Database V} {place : Nat} {t : Transaction V}
    (ht : db.transaction? place = some t) (ending : Ending α) (order : KeyOrder) :
    db.conclude place ending order = (some (t.conclude order db.base ending).answer,
      (({ db with base := (t.conclude order db.base ending).base }.setTransaction place
        (t.conclude order db.base ending).transaction.rollback).deregister t.id).2) := by
  simp only [conclude, ht]

/-- The conclusion of a managed execution, whatever its body left. -/
theorem conclude_result {db : Database V} {place : Nat} {t : Transaction V}
    (ht : db.transaction? place = some t) (ending : Ending α) (order : KeyOrder) :
    ∃ conclusion t', (db.conclude place ending order).1 = some conclusion ∧
      ManagedResult place t db ending order conclusion t' (db.conclude place ending order).2 := by
  have hend := t.managedEnd_conclude order db.base ending
  rw [conclude_of_some ht]
  generalize t.conclude order db.base ending = settled at hend
  have hplace : { db with base := settled.base }.transaction? place = some t := ht
  have hfound : (({ db with base := settled.base }.setTransaction place
      settled.transaction.rollback).deregister t.id).2.transaction? place =
      some settled.transaction.rollback :=
    (transaction?_setTransaction hplace _ place).trans (if_pos rfl)
  refine ⟨settled.answer, settled.transaction.rollback, rfl, ?_⟩
  exact {
    returned := hend.returned_iff
    failed := hend.failed_iff
    aborted := hend.aborted_iff
    found := hfound
    final := hend.final
    settled := by
      intro commands
      obtain ⟨t', ht', hc⟩ := run_continues hfound commands
      rw [ht', hc.final hend.final.2]
    committed := fun _ hvalue => hend.committed_of_returned hvalue
    allowed := hend.allowed_iff
    applied := fun _ hvalue => hend.applied hvalue
    refused := fun hactive _ hending _ hfailed => hend.stopped_of_failed hactive hending hfailed
    rolledBack := hend.rolledBack
    kept := hend.kept
    refusals := hend.refusals
    untouched := hend.untouched
    registry := lookup?_deregister _ t.id
    others := fun _ hne => transaction?_setTransaction_of_ne _ hne _
    heap := rfl }

/-- Every managed execution comes to its end: for every database, body and ending, and whatever the
order of the edits, the body leaves the transaction that was begun for it, and its conclusion has
the result above. -/
theorem manage_result (db : Database V) (nonce : UInt32) (body : List (Command V))
    (ending : Ending α) (order : KeyOrder) :
    ∃ t conclusion t', (db.afterBody nonce body).transaction? (db.begin nonce).1 = some t ∧
      t.id = ⟨db.nextSequence, nonce⟩ ∧ (db.manage nonce body ending order).1 = some conclusion ∧
      ManagedResult (db.begin nonce).1 t (db.afterBody nonce body) ending order conclusion t'
        (db.manage nonce body ending order).2 := by
  obtain ⟨t, ht, hc⟩ := run_continues (db.transaction?_begin_self nonce) body
  obtain ⟨conclusion, t', hconclusion, hresult⟩ := conclude_result ht ending order
  exact ⟨t, conclusion, t', ht, hc.id, hconclusion, hresult⟩

end Database

end OverlayStore
