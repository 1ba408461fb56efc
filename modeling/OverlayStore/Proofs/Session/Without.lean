import OverlayStore.Proofs.Database.Commits
import OverlayStore.Proofs.Database.Renaming
import OverlayStore.Proofs.Session.Ownership

/-!
# Steps without one of the transactions

A command that is not about the missing transaction does the same on both sides, up to names. A
command that is about it, short of a commit while it is active, changes nothing that shows: it makes
hidden cells at most.
-/

namespace OverlayStore

namespace Transaction

variable {t : Transaction Value} {order : KeyOrder} {base : GuardedStore Value}
  {region : Cell → Prop}

/-- The values that a transaction holds are those of its edits. -/
theorem within_of_held? (ht : t.overlay.Within region) :
    ∀ key v, t.held? key = some v → v.Within region :=
  fun key v hv => ht key v (phase_of_held? hv).2

/-- A transaction that is over has the edits that it had, or none. -/
theorem overlay_commit_within (ht : t.overlay.Within region) :
    (t.commit order base).transaction.overlay.Within region := by
  have hempty : (Overlay.empty : Overlay Value).Within region := fun key v hv => by simp at hv
  have hresult := t.commit_result order base
  generalize t.commit order base = settled at hresult
  cases hresult with
  | ended => exact ht
  | committed => exact hempty
  | refused => exact ht

/-- A rollback leaves the edits, or none. -/
theorem overlay_rollback_within (ht : t.overlay.Within region) :
    t.rollback.overlay.Within region := by
  by_cases hactive : t.phase = .active
  · intro key v hv
    simp [rollback, hactive] at hv
  · rwa [rollback_of_final (Phase.isFinal_eq_true_iff.mpr hactive)]

/-- So does the conclusion of a managed execution. -/
theorem overlay_conclude_within (ht : t.overlay.Within region) {α : Type} (ending : Ending α) :
    (t.conclude order base ending).transaction.overlay.Within region := by
  cases ending with
  | returned value =>
    simp only [conclude]
    split <;> exact overlay_commit_within ht
  | failed cause => exact overlay_rollback_within ht
  | aborted text => exact ht

end Transaction

namespace Database

/-- Two results of a step that are the same up to names. -/
structure StepsAlike (place : Nat) (hidden : List Cell) (db : Database Value)
    (result result' : Answer Value × Database Value) : Prop where
  /-- The answers are. -/
  answer : result'.1 = result.1.rename (Names.without place hidden)
  /-- The databases are. -/
  after : Without place hidden result.2 result'.2
  /-- The values of the answer name cells that show. -/
  values : ∀ v ∈ result.1.values, v.Within (result.2.heap.Shows hidden)
  /-- What showed before shows after it. -/
  shows : ∀ cell, db.heap.Shows hidden cell → result.2.heap.Shows hidden cell

variable {place : Nat} {hidden : List Cell} {db db' : Database Value} {q : Nat}

namespace Without

/-- A command that only asks. -/
theorem stepsAlike_self (hw : Without place hidden db db') {answer answer' : Answer Value}
    (hanswer : answer' = answer.rename (Names.without place hidden))
    (hvalues : ∀ v ∈ answer.values, v.Within (db.heap.Shows hidden)) :
    StepsAlike place hidden db (answer, db) (answer', db') :=
  ⟨hanswer, hw, hvalues, fun _ hc => hc⟩

/-- A call on the store. -/
theorem stepsAlike_storeCall (hw : Without place hidden db db') {call : StoreCall Value}
    (hcall : ∀ v ∈ call.values, v.Within (db.heap.Shows hidden))
    {refused : StoreError → Answer Value}
    (hrefused : ∀ e, refused e = (refused e).rename (Names.without place hidden))
    (hsilent : ∀ e, (refused e).values = []) :
    StepsAlike place hidden db (db.storeCall call refused)
      (db'.storeCall (call.map (Value.rename (Cell.rank hidden))) refused) := by
  have hsame := db.base.call_rename (ρ := Cell.rank hidden) call
    fun key current hc expected he =>
      Value.same?_rename hw.heap (hw.store key current hc) (hcall expected he)
  rw [storeCall, storeCall, hw.base, hsame]
  cases hok : db.base.call db.heap call with
  | error e =>
    refine hw.stepsAlike_self (hrefused e) fun v hv => ?_
    rw [hsilent] at hv
    cases hv
  | ok result =>
    obtain ⟨hstore, hreply⟩ := GuardedStore.call_within hw.store hcall hok
    exact ⟨rfl, hw.replace hw.heap (fun _ hc => hc) rfl hstore, hreply, fun _ hc => hc⟩

/-- The same transaction on the other side. -/
theorem transaction_some (hw : Without place hidden db db') (hq : q ≠ place)
    {t : Transaction Value} (ht : db.transaction? q = some t) :
    db'.transaction? (moveDown place q) = some (t.rename (Names.without place hidden)) := by
  rw [hw.transaction q hq, ht, Option.map_some]

/-- No transaction on the other side. -/
theorem transaction_none (hw : Without place hidden db db') (hq : q ≠ place)
    (ht : db.transaction? q = none) : db'.transaction? (moveDown place q) = none := by
  rw [hw.transaction q hq, ht, Option.map_none]

/-- A call on a transaction. -/
theorem stepsAlike_onTransaction (hw : Without place hidden db db') (hq : q ≠ place)
    {call call' : Transaction Value → Outcome (Transaction Value) Value}
    (halike : ∀ t, t.overlay.Within (db.heap.Shows hidden) →
      Transaction.Alike (Names.without place hidden) hidden db.heap (call t)
        (call' (t.rename (Names.without place hidden)))) :
    StepsAlike place hidden db (db.onTransaction q call)
      (db'.onTransaction (moveDown place q) call') := by
  rw [onTransaction, onTransaction]
  cases ht : db.transaction? q with
  | none =>
    rw [hw.transaction_none hq ht]
    exact hw.stepsAlike_self rfl fun v hv => by cases hv
  | some t =>
    obtain ⟨hanswer, hstate, hheap, hle, hvalues, hheld⟩ := halike t (hw.overlay q t hq ht)
    have hshows : ∀ cell, db.heap.Shows hidden cell → (call t).heap.Shows hidden cell :=
      fun cell hc => hc.mono hle
    rw [hw.transaction_some hq ht]
    refine ⟨?_, ?_, fun v hv => ?_, hshows⟩
    · simp only [hanswer]
      exact Answer.ofTransaction_rename (Names.without place hidden) (call t).answer
    · simp only [hstate]
      exact hw.settle hq ht hheap hshows hw.base (hw.store.mono hshows) hheld
    · exact hvalues v (Answer.values_ofTransaction (call t).answer ▸ hv)

/-- A commit of another transaction. -/
theorem stepsAlike_commit (hw : Without place hidden db db') (hq : q ≠ place) (order : KeyOrder) :
    StepsAlike place hidden db (db.step (.commit q order))
      (db'.step (.commit (moveDown place q) order)) := by
  rw [step, step]
  cases ht : db.transaction? q with
  | none =>
    rw [hw.transaction_none hq ht]
    exact hw.stepsAlike_self rfl fun v hv => by cases hv
  | some t =>
    have hcommit := t.commit_rename (Names.without place hidden) order db.base
    have hheld := hw.overlay q t hq ht
    have hstore : (t.commit order db.base).base.store.Within (db.heap.Shows hidden) :=
      Transaction.commit_all hw.store (Transaction.within_of_held? hheld)
    rw [hw.transaction_some hq ht]
    have hbase : db'.base = db.base.map (Value.rename (Names.without place hidden).cell) := hw.base
    simp only [hbase, hcommit]
    refine ⟨?_, ?_, fun v hv => ?_, fun _ hc => hc⟩
    · cases (t.commit order db.base).answer with
      | ok u => rfl
      | error e => exact Answer.ofTransaction_rename (Names.without place hidden) (.error e)
    · exact hw.settle hq ht hw.heap (fun _ hc => hc) rfl hstore
        (Transaction.overlay_commit_within hheld)
    · cases hanswer : (t.commit order db.base).answer <;> simp [hanswer, Except.map,
        Answer.ofTransaction, Answer.values, Reply.values] at hv

/-- A rollback of another transaction. -/
theorem stepsAlike_rollback (hw : Without place hidden db db') (hq : q ≠ place) :
    StepsAlike place hidden db (db.step (.rollback q))
      (db'.step (.rollback (moveDown place q))) := by
  rw [step, step]
  cases ht : db.transaction? q with
  | none =>
    rw [hw.transaction_none hq ht]
    exact hw.stepsAlike_self rfl fun v hv => by cases hv
  | some t =>
    rw [hw.transaction_some hq ht]
    simp only [Transaction.rollback_rename]
    refine ⟨rfl, ?_, fun v hv => (by cases hv), fun _ hc => hc⟩
    exact hw.setTransaction hq ht (Transaction.overlay_rollback_within (hw.overlay q t hq ht))

/-- The conclusion of the managed execution of another transaction. -/
theorem stepsAlike_conclude (hw : Without place hidden db db') (hq : q ≠ place)
    (ending : Ending Unit) (order : KeyOrder) :
    StepsAlike place hidden db (db.step (.conclude q ending order)) (db'.step
      (.conclude (moveDown place q) (ending.rename (TransactionId.without place)) order)) := by
  rw [step, step, conclude, conclude]
  cases ht : db.transaction? q with
  | none =>
    rw [hw.transaction_none hq ht]
    exact hw.stepsAlike_self rfl fun v hv => by cases hv
  | some t =>
    have hconclude := t.conclude_rename (Names.without place hidden) order db.base ending
    have hheld := hw.overlay q t hq ht
    have hstore : (t.conclude order db.base ending).base.store.Within (db.heap.Shows hidden) :=
      Transaction.conclude_all hw.store (Transaction.within_of_held? hheld) ending
    have hbase : db'.base = db.base.map (Value.rename (Names.without place hidden).cell) := hw.base
    have hid : (Names.without place hidden).id = TransactionId.without place := rfl
    rw [hid] at hconclude
    rw [hw.transaction_some hq ht]
    simp only [hbase, hconclude, Transaction.rollback_rename]
    refine ⟨?_, ?_, fun v hv => ?_, fun _ hc => hc⟩
    · exact Answer.ofConclusion_rename (Names.without place hidden) _
    · exact (hw.settle hq ht hw.heap (fun _ hc => hc) rfl hstore
        (Transaction.overlay_rollback_within
          (Transaction.overlay_conclude_within hheld ending))).deregister t.id
    · rw [Answer.values_ofConclusion] at hv
      cases hv

/-- The value of a key, or another one. -/
theorem stepsAlike_getD (hw : Without place hidden db db') (key : String) {fallback : Value}
    (hfallback : fallback.Within (db.heap.Shows hidden)) :
    StepsAlike place hidden db (db.step (.getD key fallback))
      (db'.step (.getD key (fallback.rename (Cell.rank hidden)))) := by
  rw [step, step, hw.base]
  refine hw.stepsAlike_self ?_ fun v hv => ?_
  · simp only [GuardedStore.map, Store.getD_map]
    rfl
  · obtain rfl : v = db.base.store.getD key fallback := List.mem_singleton.mp hv
    rw [Store.getD]
    cases hget : db.base.store.get? key with
    | none => exact hfallback
    | some w => exact hw.store key w hget

/-- A value for a key that has none. -/
theorem stepsAlike_putNew (hw : Without place hidden db db') (key : String) {value : Value}
    (hvalue : value.Within (db.heap.Shows hidden)) :
    StepsAlike place hidden db (db.step (.putNew key value))
      (db'.step (.putNew key (value.rename (Cell.rank hidden)))) := by
  have hwithin : (db.base.store.putNew key value).2.Within (db.heap.Shows hidden) ∧
      ∀ v ∈ (db.base.store.putNew key value).1.toList, v.Within (db.heap.Shows hidden) := by
    rw [Store.putNew]
    cases hget : db.base.store.get? key with
    | none => exact ⟨hw.store.insert key hvalue, by simp⟩
    | some w => exact ⟨hw.store, by simpa using hw.store key w hget⟩
  rw [step, step, hw.base]
  simp only [GuardedStore.map, Store.putNew_map]
  refine ⟨rfl, ?_, hwithin.2, fun _ hc => hc⟩
  exact hw.replace hw.heap (fun _ hc => hc) rfl hwithin.1

/-- A new cell around a value that shows. -/
theorem stepsAlike_newCell (hw : Without place hidden db db') {value : Value}
    (hvalue : value.Within (db.heap.Shows hidden)) :
    StepsAlike place hidden db (db.step (.newCell value))
      (db'.step (.newCell (value.rename (Cell.rank hidden)))) := by
  obtain ⟨hm, hshows, hrank⟩ := hw.heap.alloc hvalue
  have hgrown : ∀ cell, db.heap.Shows hidden cell → (db.heap.alloc value).2.Shows hidden cell :=
    fun cell hc => hc.mono (db.heap.le_alloc value)
  refine ⟨congrArg Answer.cell hrank.symm, hw.replace hm hgrown hw.base (hw.store.mono hgrown),
    fun v hv => ?_, hgrown⟩
  obtain rfl : v = .shared (db.heap.alloc value).1 := List.mem_singleton.mp hv
  exact Value.within_shared.mpr hshows

/-- A cell that shows is read. -/
theorem stepsAlike_readCell (hw : Without place hidden db db') {cell : Cell}
    (hcell : db.heap.Shows hidden cell) :
    StepsAlike place hidden db (db.step (.readCell cell))
      (db'.step (.readCell (Cell.rank hidden cell))) := by
  obtain ⟨v, hv⟩ := Heap.exists_read?_of_has hcell.1
  rw [step, step, hv, hw.heap.read cell v hcell.2 hv]
  refine hw.stepsAlike_self rfl fun w hmem => ?_
  obtain rfl : w = v := List.mem_singleton.mp hmem
  exact hw.heap.closed cell w hcell hv

/-- A cell that shows is written to. -/
theorem stepsAlike_writeCell (hw : Without place hidden db db') {cell : Cell}
    (hcell : db.heap.Shows hidden cell) {value : Value}
    (hvalue : value.Within (db.heap.Shows hidden)) :
    StepsAlike place hidden db (db.step (.writeCell cell value))
      (db'.step (.writeCell (Cell.rank hidden cell) (value.rename (Cell.rank hidden)))) := by
  obtain ⟨v, hv⟩ := Heap.exists_read?_of_has hcell.1
  have hshows : ∀ c, db.heap.Shows hidden c → (db.heap.write cell value).Shows hidden c := by
    intro c hc
    rw [Heap.Shows, Heap.Has, Heap.size_write]
    exact hc
  rw [step, step, hv, hw.heap.read cell v hcell.2 hv]
  refine ⟨rfl, ?_, fun w hmem => ?_, hshows⟩
  · exact hw.replace (hw.heap.write hcell hvalue) hshows hw.base (hw.store.mono hshows)
  · obtain rfl : w = v := List.mem_singleton.mp hmem
    exact (hw.heap.closed cell w hcell hv).mono hshows

/-- A value that shows is copied. -/
theorem stepsAlike_copy (hw : Without place hidden db db') {value : Value}
    (hvalue : value.Within (db.heap.Shows hidden)) :
    StepsAlike place hidden db (db.step (.copy value))
      (db'.step (.copy (value.rename (Cell.rank hidden)))) := by
  have hcopy := Value.mirrored_copy hw.heap hvalue
  rw [step, step]
  generalize value.copy db.heap = result at hcopy
  generalize (value.rename (Cell.rank hidden)).copy db'.heap = result' at hcopy
  cases hcopy with
  | error e =>
    exact hw.stepsAlike_self (by rw [Answer.rename, Cause.rename]) fun v hv => by cases hv
  | @ok copy g g' hg hle hcells =>
    have hshows : ∀ cell, db.heap.Shows hidden cell → g.Shows hidden cell :=
      fun cell hc => hc.mono hle
    refine ⟨rfl, hw.replace hg hshows hw.base (hw.store.mono hshows), fun v hv => ?_, hshows⟩
    obtain rfl : v = copy := List.mem_singleton.mp hv
    exact hcells

/-- A payload is taken in. -/
theorem stepsAlike_adopt (hw : Without place hidden db db') (typeName : String) :
    StepsAlike place hidden db (db.step (.adopt typeName)) (db'.step (.adopt typeName)) := by
  obtain ⟨hm, hpayload⟩ := hw.heap.adopt typeName
  refine ⟨congrArg Answer.foreign hpayload.symm,
    hw.replace hm (fun _ hc => hc) hw.base hw.store, fun v hv => ?_, fun _ hc => hc⟩
  obtain rfl : v = .foreign (db.heap.adopt typeName).1 := List.mem_singleton.mp hv
  exact Value.within_foreign _ _

/-- A command that is not about the transaction does the same on both sides, unless it counts the
registered transactions. -/
theorem stepsAlike (hw : Without place hidden db db') {command : Command Value}
    (hvalues : ∀ v ∈ command.values, v.Within (db.heap.Shows hidden))
    (hother : ¬ db.Concerns place command) (hcounts : command ≠ .registered)
    (hbound : (db.step command).2.transactions.size < UInt64.size) :
    StepsAlike place hidden db (db.step command)
      (db'.step (command.rename (Names.without place hidden))) := by
  cases command with
  | store call =>
    exact hw.stepsAlike_storeCall hvalues (fun e => by rw [Answer.rename, Cause.rename])
      fun _ => rfl
  | direct call =>
    rw [Command.rename, step, step, KeyCall.toStoreCall_map]
    exact hw.stepsAlike_storeCall hvalues
      (fun e => by rw [Answer.rename, Cause.rename, TransactionError.rename]) fun _ => rfl
  | getD key fallback => exact hw.stepsAlike_getD key (hvalues fallback List.mem_cons_self)
  | putNew key value => exact hw.stepsAlike_putNew key (hvalues value List.mem_cons_self)
  | begin nonce =>
    have hsize : (db.step (.begin nonce)).2.transactions.size = db.transactions.size + 1 :=
      Array.size_push _
    rw [hsize] at hbound
    refine ⟨?_, hw.begin nonce hother hbound, fun v hv => (by cases hv), fun _ hc => hc⟩
    exact congrArg Answer.begun hw.size
  | own q call =>
    refine hw.stepsAlike_onTransaction hother fun t ht => ?_
    rw [hw.base]
    exact Transaction.alike_ownCall rfl hw.heap hw.store ht hvalues
  | view q call =>
    refine hw.stepsAlike_onTransaction hother fun t ht => ?_
    rw [hw.base]
    exact Transaction.alike_viewCall rfl hw.heap hw.store ht hvalues
  | commit q order => exact hw.stepsAlike_commit hother order
  | rollback q => exact hw.stepsAlike_rollback hother
  | conclude q ending order => exact hw.stepsAlike_conclude hother ending order
  | lookup id =>
    exact hw.stepsAlike_self (congrArg Answer.found (hw.registry id hother)) fun v hv => by cases hv
  | deregister id =>
    refine ⟨?_, hw.deregister id, fun v hv => (by cases hv), fun _ hc => hc⟩
    exact congrArg Answer.found (hw.registry id hother)
  | registered => exact absurd rfl hcounts
  | newCell value => exact hw.stepsAlike_newCell (hvalues value List.mem_cons_self)
  | readCell cell =>
    exact hw.stepsAlike_readCell
      (Value.within_shared.mp (hvalues (.shared cell) List.mem_cons_self))
  | writeCell cell value =>
    exact hw.stepsAlike_writeCell
      (Value.within_shared.mp (hvalues (.shared cell) List.mem_cons_self))
      (hvalues value (by simp [Command.values]))
  | copy value => exact hw.stepsAlike_copy (hvalues value List.mem_cons_self)
  | adopt typeName => exact hw.stepsAlike_adopt typeName
  | refuse refusals =>
    refine ⟨rfl, ?_, fun v hv => (by cases hv), fun _ hc => hc⟩
    refine hw.replace hw.heap (fun _ hc => hc) ?_ hw.store
    rw [hw.base]
    rfl

/-! ## Steps that do not show -/

/-- A step after which no other cells are hidden. -/
theorem still {e : Database Value} (hw : Without place hidden e db') (hheap : e.heap = db.heap) :
    Without place (hidden ++ db.heap.fresh e.heap) e db' := by
  rwa [hheap, Heap.fresh_self, List.append_nil]

/-- A call on the transaction makes hidden cells at most. -/
theorem call (hw : Without place hidden db db')
    {call : Transaction Value → Outcome (Transaction Value) Value}
    (hcall : ∀ t, db.heap.Extends (call t).heap ∧ (call t).state.id = t.id) :
    Without place (hidden ++ db.heap.fresh (db.onTransaction place call).2.heap)
      (db.onTransaction place call).2 db' := by
  rw [onTransaction]
  cases ht : db.transaction? place with
  | none => exact hw.still rfl
  | some t => exact (hw.grow (hcall t).1).setAt ht (hcall t).2

end Without

/-- A step that does not show: it is about the transaction and does not commit it while it is
active, or it is about hidden cells and new ones. -/
inductive Hides (db : Database Value) (place : Nat) (hidden : List Cell) : Command Value → Prop
  /-- The command is about the transaction. -/
  | transaction {command : Command Value} (hc : db.Concerns place command)
    (hcommit : command.commits? = some place →
      ∀ t, db.transaction? place = some t → t.phase ≠ .active) : Hides db place hidden command
  /-- A cell is made. -/
  | newCell (value : Value) : Hides db place hidden (.newCell value)
  /-- A cell is read. -/
  | readCell (cell : Cell) : Hides db place hidden (.readCell cell)
  /-- A hidden cell is written to. -/
  | writeCell {cell : Cell} (hc : cell ∈ hidden) (value : Value) :
    Hides db place hidden (.writeCell cell value)
  /-- A value is copied. -/
  | copy (value : Value) : Hides db place hidden (.copy value)

namespace Without

/-- A step that does not show changes nothing on the other side. -/
theorem hides (hw : Without place hidden db db') {command : Command Value}
    (hh : db.Hides place hidden command) :
    Without place (hidden ++ db.heap.fresh (db.step command).2.heap) (db.step command).2 db' := by
  cases hh with
  | transaction hc hcommit =>
    cases command with
    | begin nonce => exact (hw.beginAt nonce hc).still rfl
    | own other call =>
      obtain rfl : other = place := hc
      exact hw.call fun t => ⟨t.extends_viewCall _ _ _, (t.continues_viewCall _ _ _).id⟩
    | view other call =>
      obtain rfl : other = place := hc
      exact hw.call fun t => ⟨t.extends_viewCall _ _ _, (t.continues_viewCall _ _ _).id⟩
    | commit other order =>
      obtain rfl : other = place := hc
      rw [step]
      cases ht : db.transaction? other with
      | none => exact hw.still rfl
      | some t =>
        simp only [Transaction.commit_of_final (hcommit rfl t ht)]
        exact (hw.setAt ht rfl).still rfl
    | rollback other =>
      obtain rfl : other = place := hc
      rw [step]
      cases ht : db.transaction? other with
      | none => exact hw.still rfl
      | some t => exact (hw.setAt ht t.continues_rollback.id).still rfl
    | conclude other ending order =>
      obtain rfl : other = place := hc
      rw [step, conclude]
      cases ht : db.transaction? other with
      | none => exact hw.still rfl
      | some t =>
        -- Only a commit could write to the store, and the transaction is over by then.
        have hbase : (t.conclude order db.base ending).base = db.base := by
          cases ending with
          | returned value =>
            simp only [Transaction.conclude, Transaction.commit_of_final (hcommit rfl t ht)]
          | failed | aborted => rfl
        have hid : (t.conclude order db.base ending).transaction.rollback.id = t.id :=
          (Transaction.continues_rollback _).id.trans (t.continues_conclude order db.base ending).id
        simp only [hbase]
        exact ((hw.setAt ht hid).deregisterAt
          ⟨_, (transaction?_setTransaction ht _ other).trans (if_pos rfl), hid⟩).still rfl
    | lookup id => exact hw.still rfl
    | deregister id => exact (hw.deregisterAt hc).still rfl
    | _ => exact hc.elim
  | newCell value => exact hw.grow (.alloc db.heap value)
  | readCell cell =>
    rw [step]
    split <;> exact hw.still rfl
  | @writeCell cell hc value =>
    rw [step]
    split
    next =>
      have hfresh : db.heap.fresh (db.heap.write cell value) = [] := by
        rw [Heap.fresh, Heap.size_write, Nat.sub_self]
        rfl
      simp only [hfresh, List.append_nil]
      exact hw.writeHidden hc value
    next => exact hw.still rfl
  | copy value =>
    rw [step]
    cases hcopy : value.copy db.heap with
    | error e => exact hw.still rfl
    | ok result => exact hw.grow (Value.extends_copy hcopy)

end Without

end Database

end OverlayStore
