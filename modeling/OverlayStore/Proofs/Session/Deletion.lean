import OverlayStore.Proofs.Database.Commits
import OverlayStore.Proofs.Overlay.Edits
import OverlayStore.Proofs.Session.Snapshot

/-!
# Deleted keys

A key that a transaction deleted stays deleted for it, whatever others put into the store, and its
commit removes it. Two things end that: the transaction buffers a value for the key, or it clears
its view while the store does not list the key, for then the deletion goes with the other edits.
-/

namespace OverlayStore

/-- A command makes a transaction forget that it deleted a key. -/
inductive Command.Forgets (place : Nat) (key : String) (base : GuardedStore V) :
    Command V → Answer V → Prop
  /-- A value is buffered for the key. -/
  | buffer {value : V} {command : Command V} {answer : Answer V}
    (hb : command.Buffers place key value answer) : Forgets place key base command answer
  /-- The view is cleared, and the store does not list the key. -/
  | clear (answer : Answer V) (hkeys : ∀ keys, base.keys = .ok keys → key ∉ keys) :
    Forgets place key base (.view place .clear) answer

/-- The two commands that delete a key in a transaction. -/
def Command.Deletes (place : Nat) (key : String) (command : Command V) : Prop :=
  command = .own place (.delete key) ∨ command = .view place (.delete key)

namespace Database

variable [Storable V] {db : Database V} {place : Nat} {key : String} {t : Transaction V}

/-- As long as the transaction at a place is active, it has the key among its removals. -/
def Deleted (db : Database V) (place : Nat) (key : String) : Prop :=
  ∃ t, db.transaction? place = some t ∧
    (t.phase = .active → t.overlay.edit? key = some .remove)

/-- Commands of which none makes a transaction forget that it deleted a key. -/
def Remembers (place : Nat) (key : String) : Database V → List (Command V) → Prop
  | _, [] => True
  | db, command :: rest =>
    ¬ command.Forgets place key db.base (db.step command).1 ∧
      Remembers place key (db.step command).2 rest

/-! ## One step -/

/-- A call through the view keeps the key removed unless it makes the transaction forget. -/
theorem removed_viewCall (hedit : t.phase = .active → t.overlay.edit? key = some .remove)
    {call : StoreCall V}
    (hsets : ∀ value reply, (t.viewCall db.heap db.base call).answer = .ok reply →
      ¬ call.Sets key value reply)
    (hclear : call = .clear → ∃ keys, db.base.keys = .ok keys ∧ key ∈ keys) :
    (t.viewCall db.heap db.base call).state.phase = .active →
      (t.viewCall db.heap db.base call).state.overlay.edit? key = some .remove := by
  by_cases hactive : t.phase = .active
  · rw [Transaction.viewCall_of_active hactive] at hsets ⊢
    exact fun _ => Overlay.edit?_call_of_removed (hedit hactive) hsets hclear
  · rw [Transaction.viewCall_of_final (Phase.isFinal_eq_true_iff.mpr hactive)]
    exact fun hphase => absurd hphase hactive

/-- The step: a key stays deleted unless the command makes the transaction forget it. -/
theorem deleted_step (hd : db.Deleted place key) {command : Command V}
    (hr : ¬ command.Forgets place key db.base (db.step command).1) :
    (db.step command).2.Deleted place key := by
  obtain ⟨t, ht, hedit⟩ := hd
  have hset : ∀ {db' : Database V} {t' : Transaction V}, db'.transactions = db.transactions →
      (t'.phase = .active → t'.overlay.edit? key = some .remove) →
      (db'.setTransaction place t').Deleted place key := by
    intro db' t' heq hedit'
    have ht' : db'.transaction? place = some t := by
      rw [transaction?, heq]
      exact ht
    exact ⟨t', (transaction?_setTransaction ht' t' place).trans (if_pos rfl), hedit'⟩
  by_cases hplace : command.place? = some place
  · cases command with
    | own other call =>
      cases hplace
      rw [step_own ht] at hr ⊢
      refine hset rfl (removed_viewCall hedit (fun value reply hok hsets => hr ?_) ?_)
      · cases call with
        | put k v =>
          cases hsets
          have hreply : (t.ownCall db.heap db.base (.put key value)).answer = .ok .done := by
            simp [Transaction.ownCall, hok, Except.map, KeyCall.passOn]
          rw [hreply]
          exact .buffer (.own .done)
        | get k => cases hsets
        | delete k => cases hsets
      · cases call <;> rintro ⟨⟩
    | view other call =>
      cases hplace
      rw [step_view ht] at hr ⊢
      refine hset rfl (removed_viewCall hedit (fun value reply hok hsets => hr ?_) ?_)
      · rw [hok]
        exact .buffer (.view hsets)
      · rintro rfl
        by_contra hnone
        exact hr (.clear _ fun keys hkeys hmem => hnone ⟨keys, hkeys, hmem⟩)
    | commit other order =>
      cases hplace
      simp only [step, ht]
      exact hset rfl fun hphase =>
        absurd hphase (Phase.isFinal_eq_true_iff.mp (t.isFinal_commit order db.base))
    | rollback other =>
      cases hplace
      simp only [step, ht]
      exact hset rfl fun hphase =>
        absurd hphase (Phase.isFinal_eq_true_iff.mp t.isFinal_rollback)
    | conclude other ending order =>
      cases hplace
      simp only [step, conclude, ht]
      exact hset rfl fun hphase =>
        absurd hphase (Phase.isFinal_eq_true_iff.mp (Transaction.isFinal_rollback _))
    | _ => cases hplace
  · rcases db.transaction?_step_of_ne hplace with heq | ⟨hnone, -⟩
    · exact ⟨t, heq.trans ht, hedit⟩
    · rw [ht] at hnone
      cases hnone

/-- The run: a key stays deleted as long as no command makes the transaction forget it. -/
theorem deleted_run (hd : db.Deleted place key) {commands : List (Command V)}
    (hr : db.Remembers place key commands) : (db.run commands).2.Deleted place key := by
  induction commands generalizing db with
  | nil => exact hd
  | cons command rest ih => exact ih (deleted_step hd hr.1) hr.2

/-! ## Deleted keys -/

/-- A key that a transaction deleted is not there for it, and its commit removes it. -/
structure Absent (db : Database V) (place : Nat) (key : String) : Prop where
  /-- As long as the transaction is active, it does not see the key. -/
  hidden : ∀ t, db.transaction? place = some t → t.phase = .active →
    (db.step (.view place (.contains key))).1 = .reply (.flag false) ∧
      (db.step (.view place (.get key))).1 = .reply (.value none) ∧
      (db.step (.own place (.get key))).1 = .reply (.value none)
  /-- After a commit that succeeds, the store does not have it. -/
  committed : ∀ command, command.commits? = some place → (db.step command).1 = .reply .done →
    (db.step command).2.base.store.get? key = none

/-- A deleted key is absent. -/
theorem Deleted.absent (hd : db.Deleted place key) : db.Absent place key := by
  obtain ⟨t, ht, hedit⟩ := hd
  constructor
  · intro t' ht' hactive
    rw [ht] at ht'
    cases ht'
    obtain ⟨hcontains, hget⟩ := Overlay.call_of_removed (hedit hactive) db.heap db.base
    rw [step_view ht, step_view ht, step_own ht, Transaction.ownCall,
      Transaction.viewCall_of_active hactive, Transaction.viewCall_of_active hactive,
      Transaction.viewCall_of_active hactive, KeyCall.toStoreCall, hcontains, hget]
    exact ⟨rfl, rfl, rfl⟩
  · intro command hc hdone
    obtain ⟨hok, hstep⟩ := step_of_commits hc ht
    obtain ⟨hactive, hget⟩ := Transaction.get?_of_commit (hok.mp hdone) key
    rw [hstep, hget, Overlay.visible?_of_edit (hedit hactive)]
    rfl

/-- A deletion leaves the key deleted. -/
theorem deleted_of_deletes (ht : db.transaction? place = some t) (hactive : t.phase = .active)
    {command : Command V} (hdeletes : command.Deletes place key) :
    (db.step command).2.Deleted place key := by
  have hremoved : (t.viewCall db.heap db.base (.delete key)).state.overlay.edit? key =
      some .remove := by
    rw [Transaction.viewCall_of_active hactive]
    simp only [Overlay.call, Overlay.remove, Overlay.edit?_insert, if_true]
  have hfound : ∀ heap t', ({ db with heap }.setTransaction place t').transaction? place =
      some t' := fun heap t' =>
    have ht' : { db with heap }.transaction? place = some t := ht
    (transaction?_setTransaction ht' t' place).trans (if_pos rfl)
  rcases hdeletes with rfl | rfl
  · rw [step_own ht]
    exact ⟨_, hfound _ _, fun _ => hremoved⟩
  · rw [step_view ht]
    exact ⟨_, hfound _ _, fun _ => hremoved⟩

/-- A key that a transaction deleted stays deleted, whatever others do, until the transaction
buffers a value for it or clears its view while the store does not list the key. -/
theorem absent_of_deletes (ht : db.transaction? place = some t) (hactive : t.phase = .active)
    {command : Command V} (hdeletes : command.Deletes place key) {commands : List (Command V)}
    (hr : (db.step command).2.Remembers place key commands) :
    ((db.step command).2.run commands).2.Absent place key :=
  (deleted_run (deleted_of_deletes ht hactive hdeletes) hr).absent

/-- A database with one entry and a transaction. -/
def stocked : Database Int64 := ((ofStore (Store.empty.put "k" 1).2).begin 0).2

/-- The entry stays deleted over a clear of the view and another value for its key. -/
theorem absent_of_deletes_stocked :
    stocked.transaction? 0 = some (.fresh ⟨1, 0⟩) ∧
      (stocked.step (.own 0 (.delete "k"))).2.Remembers 0 "k"
        [.view 0 .clear, .store (.put "k" 2)] ∧
      ((stocked.step (.own 0 (.delete "k"))).2.run
        [.view 0 .clear, .store (.put "k" 2)]).2.Absent 0 "k" := by
  have hremembers : (stocked.step (.own 0 (.delete "k"))).2.Remembers 0 "k"
      [.view 0 .clear, .store (.put "k" 2)] := by
    refine ⟨fun hforgets => ?_, fun hforgets => ?_, trivial⟩
    · cases hforgets with
      | buffer hb => obtain - | ⟨⟨⟩⟩ := hb
      | clear _ hkeys => exact hkeys ["k"] rfl List.mem_cons_self
    · cases hforgets with
      | buffer hb => cases hb
  exact ⟨rfl, hremembers, absent_of_deletes rfl rfl (.inl rfl) hremembers⟩

/-- A transaction deletes a key that the store does not have and clears its view, and then somebody
puts a value under the key. -/
def cleared : List (Command Int64) :=
  [.begin 0, .own 0 (.delete "k"), .view 0 .clear, .store (.put "k" 1)]

/-- The clear drops the deletion: the transaction sees the value, and its commit leaves it. -/
theorem forgotten_cleared :
    (((ofStore .empty).run cleared).2.step (.view 0 (.contains "k"))).1 = .reply (.flag true) ∧
      (((ofStore .empty).run cleared).2.step (.own 0 (.get "k"))).1 = .reply (.value (some 1)) ∧
      (((ofStore .empty).run cleared).2.step (.commit 0)).1 = .reply .done ∧
      (((ofStore .empty).run cleared).2.step (.commit 0)).2.base.store.get? "k" = some 1 :=
  ⟨rfl, rfl, rfl, rfl⟩

end Database

end OverlayStore
