import OverlayStore.Database.Run
import OverlayStore.Proofs.Transaction.Commit

/-!
# The transactions of a database

What commands do to the transaction at a place: it stays active, comes to one of its three ends, or
is over and stays as it is. It never disappears and never changes its identifier, and no command and
no run of commands reopens it.
-/

namespace OverlayStore

/-- The place of the transaction that a command is given to. -/
def Command.place? : Command V → Option Nat
  | .own place _ | .view place _ | .commit place _ | .rollback place
  | .conclude place _ _ => some place
  | .store _ | .getD _ _ | .putNew _ _ | .direct _ | .begin _ | .lookup _ | .deregister _
  | .registered | .newCell _ | .readCell _ | .writeCell _ _ | .copy _ | .adopt _ | .refuse _ => none

/-- The place of the transaction that a command commits, by hand or as the end of a managed
execution. -/
def Command.commits? : Command V → Option Nat
  | .commit place _ | .conclude place (.returned ()) _ => some place
  | _ => none

/-- The order in which a command applies edits, if it commits a transaction. -/
def Command.order : Command V → KeyOrder
  | .commit _ order | .conclude _ _ order => order
  | _ => []

/-- A command commits the transaction that it is given to. -/
theorem Command.place?_of_commits? {command : Command V} {place : Nat}
    (hc : command.commits? = some place) : command.place? = some place := by
  cases command with
  | commit other order => exact hc
  | conclude other ending order =>
    cases ending with
    | returned value => exact hc
    | failed | aborted => cases hc
  | _ => cases hc

/-- The place of the transaction that a command rolls back, by hand or as the end of a managed
execution whose body did not return. -/
def Command.rollsBack? : Command V → Option Nat
  | .rollback place | .conclude place (.failed _) _ | .conclude place (.aborted _) _ => some place
  | _ => none

/-- A command may end the transaction at a place in a phase: a commit in two of them, a rollback in
the third one. -/
def Command.EndsIn (command : Command V) (place : Nat) : Phase → Prop
  | .active => False
  | .committed | .failed => command.commits? = some place
  | .rolledBack => command.rollsBack? = some place

namespace Transaction

/-- A call through the view of an active transaction is one on its overlay. -/
theorem viewCall_of_active [Storable V] {t : Transaction V} (hactive : t.phase = .active) (h : Heap)
    (base : GuardedStore V) (call : StoreCall V) :
    t.viewCall h base call =
      ⟨(t.overlay.call h base call).answer,
        { t with overlay := (t.overlay.call h base call).state },
        (t.overlay.call h base call).heap⟩ := by
  rw [viewCall, hactive]

/-- One step of a transaction, which may end in some phases only. -/
inductive Moves (may : Phase → Prop) (t : Transaction V) : Transaction V → Prop
  /-- It stays active, with whatever edits. -/
  | active (hactive : t.phase = .active) (o : Overlay V) : Moves may t { t with overlay := o }
  /-- It is committed, and its edits are gone. -/
  | committed (hactive : t.phase = .active) (hmay : may .committed) :
    Moves may t { t with phase := .committed, overlay := .empty }
  /-- It has failed, and keeps its edits. -/
  | failed (hactive : t.phase = .active) (hmay : may .failed) :
    Moves may t { t with phase := .failed }
  /-- It is rolled back, and its edits are gone. -/
  | rolledBack (hactive : t.phase = .active) (hmay : may .rolledBack) :
    Moves may t { t with phase := .rolledBack, overlay := .empty }
  /-- It was over, and stays as it is. -/
  | ended (hfinal : t.phase ≠ .active) : Moves may t t

/-- A later state of a transaction: the same identifier, and nothing new once it is over. -/
structure Continues (t t' : Transaction V) : Prop where
  /-- The identifier stays. -/
  id : t'.id = t.id
  /-- The end is final. -/
  final : t.phase ≠ .active → t' = t

namespace Continues

variable {t t' t'' : Transaction V}

theorem refl (t : Transaction V) : Continues t t := ⟨rfl, fun _ => rfl⟩

theorem trans (hc : Continues t t') (hc' : Continues t' t'') : Continues t t'' := by
  refine ⟨hc'.id.trans hc.id, fun hfinal => ?_⟩
  have heq := hc.final hfinal
  rw [← heq] at hfinal
  rw [hc'.final hfinal, heq]

end Continues

theorem Moves.continues {may : Phase → Prop} {t t' : Transaction V} (hm : t.Moves may t') :
    t.Continues t' := by
  cases hm with
  | active hactive => exact ⟨rfl, fun hfinal => absurd hactive hfinal⟩
  | committed hactive => exact ⟨rfl, fun hfinal => absurd hactive hfinal⟩
  | failed hactive => exact ⟨rfl, fun hfinal => absurd hactive hfinal⟩
  | rolledBack hactive => exact ⟨rfl, fun hfinal => absurd hactive hfinal⟩
  | ended => exact .refl t

/-- A call leaves a transaction active, or over as it is. -/
theorem moves_viewCall [Storable V] (t : Transaction V) (may : Phase → Prop) (h : Heap)
    (base : GuardedStore V) (call : StoreCall V) : t.Moves may (t.viewCall h base call).state := by
  by_cases hactive : t.phase = .active
  · rw [viewCall_of_active hactive]
    exact .active hactive _
  · rw [viewCall_of_final (Phase.isFinal_eq_true_iff.mpr hactive)]
    exact .ended hactive

/-- A commit ends an active transaction in one of two phases. -/
theorem moves_commit (t : Transaction V) (may : Phase → Prop) (hcommitted : may .committed)
    (hfailed : may .failed) (order : KeyOrder) (base : GuardedStore V) :
    t.Moves may (t.commit order base).transaction := by
  have hresult := t.commit_result order base
  generalize t.commit order base = settled at hresult
  cases hresult with
  | ended hfinal => exact .ended hfinal
  | committed hactive => exact .committed hactive hcommitted
  | refused hactive => exact .failed hactive hfailed

/-- A rollback ends an active transaction in the third one. -/
theorem moves_rollback (t : Transaction V) (may : Phase → Prop) (hrolledBack : may .rolledBack) :
    t.Moves may t.rollback := by
  by_cases hactive : t.phase = .active
  · rw [rollback, hactive]
    exact .rolledBack hactive hrolledBack
  · rw [rollback_of_final (Phase.isFinal_eq_true_iff.mpr hactive)]
    exact .ended hactive

/-- What a managed execution leaves of its transaction: a commit if the body returned, and else a
rollback. -/
theorem rollback_conclude (t : Transaction V) (order : KeyOrder) (base : GuardedStore V)
    (ending : Ending α) :
    (t.conclude order base ending).transaction.rollback =
      match ending with
      | .returned _ => (t.commit order base).transaction
      | .failed _ | .aborted _ => t.rollback := by
  cases ending with
  | returned value =>
    rw [← rollback_of_final (t.isFinal_commit order base)]
    simp only [conclude]
    split <;> rfl
  | failed cause => exact rollback_of_final t.isFinal_rollback
  | aborted text => rfl

/-- A transaction goes on after a call. -/
theorem continues_viewCall [Storable V] (t : Transaction V) (h : Heap) (base : GuardedStore V)
    (call : StoreCall V) : t.Continues (t.viewCall h base call).state :=
  (t.moves_viewCall (fun _ => False) h base call).continues

/-- A transaction goes on after a rollback. -/
theorem continues_rollback (t : Transaction V) : t.Continues t.rollback :=
  (t.moves_rollback (fun _ => True) trivial).continues

/-- A transaction goes on after the end of its managed execution. -/
theorem continues_conclude (t : Transaction V) (order : KeyOrder) (base : GuardedStore V)
    (ending : Ending α) : t.Continues (t.conclude order base ending).transaction := by
  have hcommit := (t.moves_commit (fun _ => True) trivial trivial order base).continues
  cases ending with
  | returned value =>
    simp only [conclude]
    split <;> exact hcommit
  | failed cause => exact t.continues_rollback
  | aborted text => exact .refl t

end Transaction

namespace Database

variable {db : Database V} {place : Nat} {t : Transaction V}

/-- A transaction is found where it was set, if there was one. -/
theorem transaction?_setTransaction (ht : db.transaction? place = some t) (t' : Transaction V)
    (other : Nat) :
    (db.setTransaction place t').transaction? other =
      if other = place then some t' else db.transaction? other := by
  have hlt : place < db.transactions.size := (Array.getElem?_eq_some_iff.mp ht).1
  rw [setTransaction, transaction?, Array.getElem?_setIfInBounds, transaction?]
  by_cases heq : other = place
  · subst heq
    rw [if_pos rfl, if_pos hlt, if_pos rfl]
  · rw [if_neg (Ne.symm heq), if_neg heq]

/-- The other transactions stay. -/
theorem transaction?_setTransaction_of_ne (db : Database V) {place other : Nat}
    (hne : other ≠ place) (t : Transaction V) :
    (db.setTransaction place t).transaction? other = db.transaction? other :=
  Array.getElem?_setIfInBounds_ne (Ne.symm hne)

/-- A transaction that is set as it is changes nothing. -/
theorem setTransaction_self (ht : db.transaction? place = some t) :
    db.setTransaction place t = db := by
  obtain ⟨hlt, rfl⟩ := Array.getElem?_eq_some_iff.mp ht
  rw [setTransaction, Array.setIfInBounds, dif_pos hlt, Array.set_getElem_self]

/-! ## Commands -/

section Commands

variable [Storable V]

/-- A call through the view of a transaction replaces the transaction and the heap. -/
theorem step_view (ht : db.transaction? place = some t) (call : StoreCall V) :
    db.step (.view place call) = (.ofTransaction (t.viewCall db.heap db.base call).answer,
      { db with heap := (t.viewCall db.heap db.base call).heap }.setTransaction place
        (t.viewCall db.heap db.base call).state) := by
  simp only [step, onTransaction, ht]

/-- A call on a transaction itself does the same as the one through its view. -/
theorem step_own (ht : db.transaction? place = some t) (call : KeyCall V) :
    db.step (.own place call) = (.ofTransaction (t.ownCall db.heap db.base call).answer,
      { db with heap := (t.viewCall db.heap db.base call.toStoreCall).heap }.setTransaction place
        (t.viewCall db.heap db.base call.toStoreCall).state) := by
  simp only [step, onTransaction, ht]
  rfl

/-- A command that is given to a transaction finds none where none was begun. -/
theorem step_of_none {command : Command V} (hplace : command.place? = some place)
    (hnone : db.transaction? place = none) : db.step command = (.unknown, db) := by
  cases command with
  | own other call | view other call =>
    cases hplace
    simp only [step, onTransaction, hnone]
  | commit other | rollback other =>
    cases hplace
    simp only [step, hnone]
  | conclude other ending order =>
    cases hplace
    simp only [step, conclude, hnone]
  | _ => cases hplace

/-- A command that is given to a transaction moves it, and no other one. Only a commit or a rollback
ends it. -/
theorem step_of_some {command : Command V} (hplace : command.place? = some place)
    (ht : db.transaction? place = some t) :
    ∃ t', (db.step command).2.transactions = db.transactions.setIfInBounds place t' ∧
      t.Moves (command.EndsIn place) t' := by
  have hcommit : command.commits? = some place →
      t.Moves (command.EndsIn place) (t.commit command.order db.base).transaction :=
    fun hc => t.moves_commit (command.EndsIn place) hc hc command.order db.base
  have hrollback : command.rollsBack? = some place →
      t.Moves (command.EndsIn place) t.rollback :=
    fun hr => t.moves_rollback (command.EndsIn place) hr
  cases command with
  | own other call =>
    cases hplace
    rw [step_own ht]
    exact ⟨_, rfl, t.moves_viewCall _ _ _ _⟩
  | view other call =>
    cases hplace
    rw [step_view ht]
    exact ⟨_, rfl, t.moves_viewCall _ _ _ _⟩
  | commit other order =>
    cases hplace
    simp only [step, ht]
    exact ⟨_, rfl, hcommit rfl⟩
  | rollback other =>
    cases hplace
    simp only [step, ht]
    exact ⟨_, rfl, hrollback rfl⟩
  | conclude other ending order =>
    cases hplace
    simp only [step, conclude, ht, Transaction.rollback_conclude]
    cases ending with
    | returned value => exact ⟨_, rfl, hcommit rfl⟩
    | failed cause => exact ⟨_, rfl, hrollback rfl⟩
    | aborted text => exact ⟨_, rfl, hrollback rfl⟩
  | _ => cases hplace

/-- A command that is not given to a transaction leaves it alone; at most it begins a new one. -/
theorem transaction?_step_of_ne (db : Database V) {command : Command V}
    (hne : command.place? ≠ some place) :
    (db.step command).2.transaction? place = db.transaction? place ∨
      db.transaction? place = none ∧
        ∃ id, (db.step command).2.transaction? place = some (.fresh id) := by
  cases hgiven : command.place? with
  | some other =>
    left
    have hother : other ≠ place := by
      rintro rfl
      exact hne hgiven
    cases hs : db.transaction? other with
    | none => rw [step_of_none hgiven hs]
    | some s =>
      obtain ⟨s', hset, -⟩ := step_of_some hgiven hs
      rw [transaction?, hset, Array.getElem?_setIfInBounds_ne hother, transaction?]
  | none =>
    cases command with
    | begin nonce =>
      have hpush : (db.step (.begin nonce)).2.transaction? place =
          (db.transactions.push (.fresh ⟨db.nextSequence, nonce⟩))[place]? := rfl
      rw [hpush, Array.getElem?_push]
      split
      next heq =>
        right
        exact ⟨Array.getElem?_eq_none (Nat.le_of_eq heq.symm), _, rfl⟩
      next => exact .inl rfl
    | own _ _ | view _ _ | commit _ _ | rollback _ | conclude _ _ _ => cases hgiven
    | store _ | direct _ | readCell _ | writeCell _ _ | copy _ =>
      left
      simp only [step, storeCall]
      split <;> rfl
    | getD _ _ | putNew _ _ | lookup _ | deregister _ | registered | newCell _ | adopt _
    | refuse _ =>
      exact .inl rfl

/-- Only a begin puts a transaction where there was none, and it is a new one. -/
theorem fresh_of_step (hnone : db.transaction? place = none) {command : Command V}
    (ht : (db.step command).2.transaction? place = some t) : ∃ id, t = .fresh id := by
  by_cases hplace : command.place? = some place
  · rw [step_of_none hplace hnone, hnone] at ht
    cases ht
  · rcases db.transaction?_step_of_ne hplace with heq | ⟨-, id, hid⟩
    · rw [heq, hnone] at ht
      cases ht
    · rw [hid] at ht
      exact ⟨id, (Option.some.inj ht).symm⟩

/-- The step: whatever a command does, every transaction is still at its place, and only a commit or
a rollback of its own ends it. -/
theorem step_moves (ht : db.transaction? place = some t) (command : Command V) :
    ∃ t', (db.step command).2.transaction? place = some t' ∧
      t.Moves (command.EndsIn place) t' := by
  by_cases hplace : command.place? = some place
  · obtain ⟨t', hset, hm⟩ := step_of_some hplace ht
    refine ⟨t', ?_, hm⟩
    rw [transaction?, hset]
    exact (transaction?_setTransaction ht t' place).trans (if_pos rfl)
  · rcases db.transaction?_step_of_ne hplace with heq | ⟨hnone, -⟩
    · refine ⟨t, heq.trans ht, ?_⟩
      by_cases hactive : t.phase = .active
      · exact .active hactive t.overlay
      · exact .ended hactive
    · rw [ht] at hnone
      cases hnone

/-- Every transaction goes on at its place. -/
theorem step_continues (ht : db.transaction? place = some t) (command : Command V) :
    ∃ t', (db.step command).2.transaction? place = some t' ∧ t.Continues t' := by
  obtain ⟨t', ht', hm⟩ := step_moves ht command
  exact ⟨t', ht', hm.continues⟩

/-- The run: every transaction goes on at its place, whatever is carried out. -/
theorem run_continues (ht : db.transaction? place = some t) (commands : List (Command V)) :
    ∃ t', (db.run commands).2.transaction? place = some t' ∧ t.Continues t' := by
  induction commands generalizing db t with
  | nil => exact ⟨t, ht, .refl t⟩
  | cons command rest ih =>
    obtain ⟨t₁, ht₁, hc₁⟩ := step_continues ht command
    obtain ⟨t₂, ht₂, hc₂⟩ := ih ht₁
    exact ⟨t₂, ht₂, hc₁.trans hc₂⟩

end Commands

end Database

end OverlayStore
