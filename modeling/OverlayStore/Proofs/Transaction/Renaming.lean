import OverlayStore.Database.Managed
import OverlayStore.Proofs.Database.Transactions
import OverlayStore.Proofs.Overlay.Failures
import OverlayStore.Proofs.Overlay.Renaming

/-!
# Transactions past hidden cells

A transaction with another identifier, over a heap that has only the cells that show, does the same
as before: its calls are answered alike and hold alike, and its end leaves the same store. The other
identifier is seen in the errors of a transaction that is over or has failed, and nowhere else.
-/

namespace OverlayStore

/-- Other names for cells, for transactions, and for the places of transactions. -/
structure Names where
  /-- The cells. -/
  cell : Cell → Cell
  /-- The identifiers of transactions. -/
  id : TransactionId → TransactionId
  /-- The places of transactions. -/
  place : Nat → Nat

/-! ## Errors -/

mutual

/-- The error with other identifiers. -/
def TransactionError.rename (σ : TransactionId → TransactionId) :
    TransactionError → TransactionError
  | .store source => .store source
  | .copy source => .copy source
  | .ended id phase => .ended (σ id) phase
  | .unsupported operation => .unsupported operation
  | .failed id cause => .failed (σ id) (cause.rename σ)

/-- The cause with other identifiers. -/
def Cause.rename (σ : TransactionId → TransactionId) : Cause → Cause
  | .store source => .store source
  | .copy source => .copy source
  | .transaction source => .transaction (source.rename σ)
  | .text words => .text words

end

/-- An error that names no transaction. -/
def TransactionError.Nameless (e : TransactionError) : Prop := ∀ σ, e.rename σ = e

/-- Refusals of the store name no transaction. -/
theorem TransactionError.nameless_store (source : StoreError) : (store source).Nameless :=
  fun σ => by rw [rename]

/-- Nor do errors of copies. -/
theorem TransactionError.nameless_copy (source : CopyError) : (copy source).Nameless :=
  fun σ => by rw [rename]

/-- Nor does a call that is not supported. -/
theorem TransactionError.nameless_unsupported (operation : String) :
    (unsupported operation).Nameless :=
  fun σ => by rw [rename]

@[simp] theorem TransactionError.isFailed_rename (σ : TransactionId → TransactionId)
    (e : TransactionError) : (e.rename σ).isFailed = e.isFailed := by
  cases e <;> simp [rename, isFailed]

/-- A call on an overlay fails without naming a transaction. -/
theorem Overlay.nameless_call [Storable V] {o : Overlay V} {h : Heap} {base : GuardedStore V}
    {call : StoreCall V} {e : TransactionError} (he : (o.call h base call).answer = .error e) :
    e.Nameless := by
  cases failure_of_call he with
  | refused | incomparable => exact TransactionError.nameless_store _
  | given | visible | untouched | held => exact TransactionError.nameless_copy _
  | counts => exact TransactionError.nameless_unsupported _

/-! ## Transactions -/

/-- The call with other values. -/
def KeyCall.map {V W : Type} (f : V → W) : KeyCall V → KeyCall W
  | .put key value => .put key (f value)
  | .get key => .get key
  | .delete key => .delete key

/-- A mapped call is the mapped call on the store. -/
theorem KeyCall.toStoreCall_map {V W : Type} (f : V → W) (call : KeyCall V) :
    (call.map f).toStoreCall = call.toStoreCall.map f := by
  cases call <;> rfl

/-- A mapped reply is passed on mapped. -/
theorem KeyCall.passOn_map {V W : Type} (f : V → W) (call : KeyCall V) (reply : Reply V) :
    (call.map f).passOn (reply.map f) = (call.passOn reply).map f := by
  cases call <;> rfl

/-- The answer with other values and other identifiers. -/
def renameAnswer {α β : Type} (σ : TransactionId → TransactionId) (f : α → β) :
    Except TransactionError α → Except TransactionError β
  | .ok a => .ok (f a)
  | .error e => .error (e.rename σ)

/-- The ending with other identifiers. -/
def Ending.rename {α : Type} (σ : TransactionId → TransactionId) : Ending α → Ending α
  | .returned value => .returned value
  | .failed cause => .failed (cause.rename σ)
  | .aborted text => .aborted text

/-- The conclusion with other identifiers. -/
def Conclusion.rename {α : Type} (σ : TransactionId → TransactionId) : Conclusion α → Conclusion α
  | .returned value => .returned value
  | .failed e => .failed (e.rename σ)
  | .aborted text => .aborted text

namespace Transaction

/-- The transaction with other names. -/
def rename (ν : Names) (t : Transaction Value) : Transaction Value :=
  ⟨ν.id t.id, t.phase, t.overlay.map (Value.rename ν.cell)⟩

variable {ν : Names} {t : Transaction Value} {hidden : List Cell} {h h' : Heap}
  {base : GuardedStore Value}

/-- A new transaction is renamed by its identifier. -/
@[simp] theorem rename_fresh (ν : Names) (id : TransactionId) :
    (fresh id).rename ν = fresh (ν.id id) := by
  rw [rename, fresh, fresh, Overlay.map_empty]

/-- The error after the end is renamed by the identifier. -/
@[simp] theorem ended_rename (ν : Names) (t : Transaction Value) :
    (t.rename ν).ended = t.ended.rename ν.id := by
  rw [ended, ended, TransactionError.rename]
  rfl

/-- A rollback of the renamed transaction. -/
theorem rollback_rename (ν : Names) (t : Transaction Value) :
    (t.rename ν).rollback = t.rollback.rename ν := by
  by_cases hactive : t.phase = .active
  · simp only [rollback, hactive, rename, Overlay.map_empty]
  · have hfinal := Phase.isFinal_eq_true_iff.mpr hactive
    have hfinal' : (t.rename ν).phase.isFinal = true := hfinal
    rw [rollback_of_final hfinal, rollback_of_final hfinal']

/-- A commit of the renamed transaction. -/
theorem commit_rename (ν : Names) (t : Transaction Value) (order : KeyOrder)
    (base : GuardedStore Value) :
    (t.rename ν).commit order (base.map (Value.rename ν.cell)) =
      ⟨renameAnswer ν.id (fun u => u) (t.commit order base).answer,
        (t.commit order base).transaction.rename ν,
        (t.commit order base).base.map (Value.rename ν.cell)⟩ := by
  have hlist : (t.rename ν).overlay.toListIn order =
      EditList.map (Value.rename ν.cell) (t.overlay.toListIn order) :=
    Overlay.toListIn_map _ _ order
  by_cases hactive : t.phase = .active
  · have hactive' : (t.rename ν).phase = .active := hactive
    rw [commit, commit, commitIn, commitIn, hlist, hactive, hactive', EditList.apply_map]
    obtain ⟨refused, base'⟩ := EditList.apply (t.overlay.toListIn order) base
    cases refused with
    | none =>
      simp only [Prod.map_apply, rename, Overlay.map_empty, renameAnswer]
      rfl
    | some e =>
      simp only [Prod.map_apply, renameAnswer, TransactionError.rename, Cause.rename]
      rfl
  · have hfinal := Phase.isFinal_eq_true_iff.mpr hactive
    have hfinal' : (t.rename ν).phase.isFinal = true := hfinal
    rw [commit, commit, commitIn_of_final hfinal, commitIn_of_final hfinal', ended_rename]
    rfl

/-- A failure is wrapped alike. -/
theorem failure_rename (σ : TransactionId → TransactionId) (id : TransactionId)
    (e : TransactionError) : failure (σ id) (e.rename σ) = (failure id e).rename σ := by
  rw [failure, failure, TransactionError.isFailed_rename]
  split
  · rfl
  · rw [TransactionError.rename, Cause.rename]

/-- The conclusion of a managed execution of the renamed transaction. -/
theorem conclude_rename (ν : Names) (t : Transaction Value) (order : KeyOrder)
    (base : GuardedStore Value) (ending : Ending α) :
    (t.rename ν).conclude order (base.map (Value.rename ν.cell)) (ending.rename ν.id) =
      ⟨(t.conclude order base ending).answer.rename ν.id,
        (t.conclude order base ending).transaction.rename ν,
        (t.conclude order base ending).base.map (Value.rename ν.cell)⟩ := by
  cases ending with
  | returned value =>
    rw [Ending.rename, conclude, conclude, commit_rename]
    obtain ⟨answer, t', base'⟩ := t.commit order base
    cases answer with
    | ok u => rfl
    | error e =>
      simp only [renameAnswer, Conclusion.rename, ← failure_rename]
      rfl
  | failed cause =>
    rw [Ending.rename, conclude, conclude, rollback_rename, Conclusion.rename,
      TransactionError.rename]
    rfl
  | aborted text => rfl

/-- What a call through the view comes to, on both sides. -/
structure Alike (ν : Names) (hidden : List Cell) (h : Heap)
    (outcome outcome' : Outcome (Transaction Value) Value) : Prop where
  /-- The answers are the same up to names. -/
  answer : outcome'.answer = renameAnswer ν.id (Reply.map (Value.rename ν.cell)) outcome.answer
  /-- So are the transactions. -/
  state : outcome'.state = outcome.state.rename ν
  /-- One heap has only the cells of the other that show. -/
  heap : outcome.heap.Mirrors hidden outcome'.heap
  /-- No cell is changed. -/
  le : h ≤ outcome.heap
  /-- The values of the answer name cells that show. -/
  values : ∀ v ∈ answerValues outcome.answer, v.Within (outcome.heap.Shows hidden)
  /-- So do the values that are held. -/
  held : outcome.state.overlay.Within (outcome.heap.Shows hidden)

section

variable (hν : ν.cell = Cell.rank hidden) (hm : h.Mirrors hidden h')
  (hbase : base.store.Within (h.Shows hidden)) (ht : t.overlay.Within (h.Shows hidden))

include hν hm hbase ht

/-- A call through the view of the renamed transaction. -/
theorem alike_viewCall {call : StoreCall Value}
    (hcall : ∀ v ∈ call.values, v.Within (h.Shows hidden)) :
    Alike ν hidden h (t.viewCall h base call) ((t.rename ν).viewCall h'
      (base.map (Value.rename ν.cell)) (call.map (Value.rename ν.cell))) := by
  obtain ⟨ρ, σ, place⟩ := ν
  obtain rfl : ρ = Cell.rank hidden := hν
  by_cases hactive : t.phase = .active
  · have hactive' : (t.rename ⟨Cell.rank hidden, σ, place⟩).phase = .active := hactive
    have halike := Overlay.alike_call hm hbase ht hcall
    have hnameless : ∀ e, (t.overlay.call h base call).answer = .error e → e.rename σ = e :=
      fun e he => Overlay.nameless_call he σ
    rw [viewCall_of_active hactive, viewCall_of_active hactive']
    refine ⟨?_, ?_, halike.heap, halike.le, halike.values, halike.held⟩
    · refine halike.answer.trans ?_
      cases hanswer : (t.overlay.call h base call).answer with
      | ok reply => rfl
      | error e =>
        rw [renameAnswer, hnameless e hanswer]
        rfl
    · exact congrArg (Transaction.mk (σ t.id) t.phase) halike.state
  · have hfinal := Phase.isFinal_eq_true_iff.mpr hactive
    have hfinal' : (t.rename ⟨Cell.rank hidden, σ, place⟩).phase.isFinal = true := hfinal
    rw [viewCall_of_final hfinal, viewCall_of_final hfinal', ended_rename]
    exact ⟨rfl, rfl, hm, le_refl h, fun v hv => (by cases hv), ht⟩

/-- A call on the renamed transaction. -/
theorem alike_ownCall {call : KeyCall Value}
    (hcall : ∀ v ∈ call.toStoreCall.values, v.Within (h.Shows hidden)) :
    Alike ν hidden h (t.ownCall h base call) ((t.rename ν).ownCall h'
      (base.map (Value.rename ν.cell)) (call.map (Value.rename ν.cell))) := by
  have halike := alike_viewCall hν hm hbase ht hcall
  rw [← KeyCall.toStoreCall_map] at halike
  rw [ownCall, ownCall]
  refine ⟨?_, halike.state, halike.heap, halike.le, fun v hv => ?_, halike.held⟩
  · simp only [halike.answer]
    cases (t.viewCall h base call.toStoreCall).answer with
    | ok reply => exact congrArg Except.ok (call.passOn_map _ reply)
    | error e => rfl
  · refine halike.values v ?_
    simp only at hv
    cases hanswer : (t.viewCall h base call.toStoreCall).answer with
    | error e =>
      rw [hanswer] at hv
      cases hv
    | ok reply =>
      rw [hanswer] at hv
      cases call with
      | get key => exact hv
      | put | delete => cases hv

end

/-- A call through the view only makes cells. -/
theorem extends_viewCall (t : Transaction Value) (h : Heap) (base : GuardedStore Value)
    (call : StoreCall Value) : h.Extends (t.viewCall h base call).heap := by
  by_cases hactive : t.phase = .active
  · rw [viewCall_of_active hactive]
    exact t.overlay.extends_call h base call
  · rw [viewCall_of_final (Phase.isFinal_eq_true_iff.mpr hactive)]
    exact .refl h

end Transaction

end OverlayStore
