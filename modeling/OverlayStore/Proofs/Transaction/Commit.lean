import OverlayStore.Transaction.Basic
import OverlayStore.Proofs.Overlay.Visible

/-!
# How a commit ends

A commit finds the transaction over, or applies all edits, or stops at a refusal of the store. Each
of the three ways fixes the answer, the transaction and the store that are left.
-/

namespace OverlayStore.Transaction

/-- The three ways in which a commit ends. -/
inductive CommitResult (t : Transaction V) (order : KeyOrder) (base : GuardedStore V) :
    Settled (Except TransactionError Unit) V → Prop
  /-- The transaction was over already. -/
  | ended (hfinal : t.phase ≠ .active) : CommitResult t order base ⟨.error t.ended, t, base⟩
  /-- All edits are applied. -/
  | committed {base' : GuardedStore V} (hactive : t.phase = .active)
    (happly : EditList.apply (t.overlay.toListIn order) base = (none, base')) :
    CommitResult t order base ⟨.ok (), { t with phase := .committed, overlay := .empty }, base'⟩
  /-- The store refused an edit. -/
  | refused {base' : GuardedStore V} {e : StoreError} (hactive : t.phase = .active)
    (happly : EditList.apply (t.overlay.toListIn order) base = (some e, base')) :
    CommitResult t order base
      ⟨.error (.failed t.id (.store e)), { t with phase := .failed }, base'⟩

/-- Every commit ends in one of the ways. -/
theorem commit_result (t : Transaction V) (order : KeyOrder) (base : GuardedStore V) :
    CommitResult t order base (t.commit order base) := by
  by_cases hactive : t.phase = .active
  · rw [commit, commitIn, hactive]
    simp only
    split
    next base' happly => exact .committed hactive happly
    next e base' happly => exact .refused hactive happly
  · rw [commit, commitIn_of_final (Phase.isFinal_eq_true_iff.mpr hactive)]
    exact .ended hactive

/-- A commit of a transaction that is over changes nothing. -/
theorem commit_of_final {t : Transaction V} (hfinal : t.phase ≠ .active) (order : KeyOrder)
    (base : GuardedStore V) :
    t.commit order base = ⟨.error t.ended, t, base⟩ :=
  commitIn_of_final (Phase.isFinal_eq_true_iff.mpr hfinal) _ base

/-- After a commit the transaction is over, however the commit ended. -/
theorem isFinal_commit (t : Transaction V) (order : KeyOrder) (base : GuardedStore V) :
    (t.commit order base).transaction.phase.isFinal = true := by
  have hresult := t.commit_result order base
  generalize t.commit order base = settled at hresult
  cases hresult with
  | ended hfinal => exact Phase.isFinal_eq_true_iff.mpr hfinal
  | committed => rfl
  | refused => rfl

/-- After a commit that succeeds, the store has what the transaction showed. -/
theorem get?_of_commit {t : Transaction V} {order : KeyOrder} {base : GuardedStore V}
    (hok : (t.commit order base).answer = .ok ()) (key : String) :
    t.phase = .active ∧
      (t.commit order base).base.store.get? key = t.overlay.visible? base.store key := by
  have hresult := t.commit_result order base
  generalize t.commit order base = settled at hresult hok
  cases hresult with
  | ended => cases hok
  | committed hactive happly => exact ⟨hactive, Overlay.get?_of_apply happly key⟩
  | refused => cases hok

end OverlayStore.Transaction
