import OverlayStore.Proofs.Database.Commits
import OverlayStore.Proofs.Transaction.Outcome

/-!
# Commands on other keys

A key of the shared store is changed by calls that name it, by clearing the store, and by commits of
transactions that edit it. Whatever else is done leaves the value of the key.
-/

namespace OverlayStore

/-- A call on a store leaves a key: it names another one, or only reads. -/
def StoreCall.Spares (key : String) : StoreCall V → Prop
  | .put k _ | .update k _ | .delete k | .compareAndSwap k _ _ | .increment k _ | .decrement k _ =>
    k ≠ key
  | .clear => False
  | .get _ | .contains _ | .size | .isEmpty | .keys | .entries _ => True

/-- A command leaves a key of the shared store: it works on other keys or only reads, or it commits
a transaction without an edit of the key. -/
def Database.Spares (db : Database V) (key : String) : Command V → Prop
  | .store call => call.Spares key
  | .direct call => call.toStoreCall.Spares key
  | .putNew k _ => k ≠ key
  | .commit place _ | .conclude place (.returned ()) _ =>
    ∀ t, db.transaction? place = some t → t.overlay.edit? key = none
  | _ => True

variable {key : String}

/-- A call that spares a key leaves its value, whatever it answers. -/
theorem GuardedStore.get?_call_of_spares [Storable V] {g g' : GuardedStore V} {h : Heap}
    {call : StoreCall V} {reply : Reply V} (hspares : call.Spares key)
    (hok : g.call h call = .ok (reply, g')) : g'.store.get? key = g.store.get? key := by
  have hcounted : ∀ {k : String} {delta : Int64} {sum : Number} {s : Store V}, k ≠ key →
      g.store.increment k delta = .ok (sum, s) → s.get? key = g.store.get? key := by
    intro k delta sum s hne hok
    rw [Store.increment] at hok
    split at hok <;> cases hok
    exact (Store.get?_insert _ _ _ _).trans (if_neg hne.symm)
  cases call with
  | put k value =>
    rw [GuardedStore.call, GuardedStore.put] at hok
    cases hcheck : g.refusals.checkOn .put k <;> rw [hcheck] at hok <;> cases hok
    exact (Store.get?_put _ _ _ _).trans (if_neg hspares.symm)
  | delete k =>
    rw [GuardedStore.call, GuardedStore.delete] at hok
    cases hcheck : g.refusals.checkOn .delete k <;> rw [hcheck] at hok <;> cases hok
    exact (Store.get?_delete _ _ _).trans (if_neg hspares.symm)
  | update k value =>
    rw [GuardedStore.call, Store.update] at hok
    cases hok
    simp only
    split
    · exact (Store.get?_insert _ _ _ _).trans (if_neg hspares.symm)
    · rfl
  | compareAndSwap k expected value =>
    rw [GuardedStore.call, Store.compareAndSwap] at hok
    split at hok
    · cases hok
      rfl
    · split at hok <;> cases hok
      · exact (Store.get?_insert _ _ _ _).trans (if_neg hspares.symm)
      · rfl
  | increment k delta =>
    rw [GuardedStore.call] at hok
    cases hcount : g.store.increment k delta <;> rw [hcount] at hok <;> cases hok
    exact hcounted hspares hcount
  | decrement k delta =>
    rw [GuardedStore.call, Store.decrement] at hok
    split at hok
    next negated _ =>
      cases hcount : g.store.increment k negated <;> rw [hcount] at hok <;> cases hok
      exact hcounted hspares hcount
    next => cases hok
  | clear => exact hspares.elim
  | get | contains | size | isEmpty | keys | entries =>
    rw [GuardedStore.call_of_readsOnly rfl hok]

/-- A commit leaves the keys without an edit, also if it is refused half way. -/
theorem Transaction.get?_commit_of_untouched {t : Transaction V}
    (hedit : t.overlay.edit? key = none) (order : KeyOrder) (base : GuardedStore V) :
    (t.commit order base).base.store.get? key = base.store.get? key := by
  have happlied := Overlay.get?_apply_of_untouched (t.overlay.toListIn_perm order) hedit base
  have hresult := t.commit_result order base
  generalize t.commit order base = settled at hresult
  cases hresult with
  | ended => rfl
  | committed hactive happly =>
    rw [happly] at happlied
    exact happlied
  | refused hactive happly =>
    rw [happly] at happlied
    exact happlied

/-- The step: a command that spares a key leaves its value in the shared store. -/
theorem Database.get?_step_of_spares [Storable V] {db : Database V} {command : Command V}
    (hspares : db.Spares key command) :
    (db.step command).2.base.store.get? key = db.base.store.get? key := by
  have hcall : ∀ {call : StoreCall V} {refused}, call.Spares key →
      (db.storeCall call refused).2.base.store.get? key = db.base.store.get? key := by
    intro call refused hspares
    rw [storeCall]
    split
    next reply base hok => exact GuardedStore.get?_call_of_spares hspares hok
    next => rfl
  have hcommit : ∀ {place : Nat}, command.commits? = some place →
      (∀ t, db.transaction? place = some t → t.overlay.edit? key = none) →
      (db.step command).2.base.store.get? key = db.base.store.get? key := by
    intro place hc hedit
    cases ht : db.transaction? place with
    | none => rw [step_of_commits_of_none hc ht]
    | some t =>
      rw [(step_of_commits hc ht).2]
      exact Transaction.get?_commit_of_untouched (hedit t ht) command.order db.base
  have hidle : command.Indirect → command.commits? = none →
      (db.step command).2.base.store.get? key = db.base.store.get? key := by
    intro hindirect hc
    rw [base_step_of_indirect hindirect hc]
  cases command with
  | store call => exact hcall hspares
  | direct call => exact hcall hspares
  | putNew k value =>
    simp only [step, Store.putNew]
    cases db.base.store.get? k with
    | some old => rfl
    | none => exact (Store.get?_insert _ _ _ _).trans (if_neg (Ne.symm hspares))
  | commit place order => exact hcommit rfl hspares
  | conclude place ending order =>
    cases ending with
    | returned value => exact hcommit rfl hspares
    | failed | aborted => exact hidle trivial rfl
  | refuse refusals => rfl
  | _ => exact hidle trivial rfl

end OverlayStore
