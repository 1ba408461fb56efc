import OverlayStore.Proofs.Cells.Ordered
import OverlayStore.Proofs.Overlay.Outcomes
import OverlayStore.Proofs.Session.Ownership

/-!
# Maps stay in the order of their keys

If the maps that callers pass in are in the order of their keys, then so are all maps that the
store, the cells and the transactions hold, and all that are answered, in every run: a call moves
values from one of these places to another, or copies them.
-/

namespace OverlayStore

/-! ## Calls -/

namespace Overlay

variable {o : Overlay Value} {h h' : Heap} {base : GuardedStore Value}

/-- All that a call leaves and answers is in order. -/
structure LeavesOrdered (outcome : Outcome (Overlay Value) Value) : Prop where
  /-- The cells. -/
  heap : outcome.heap.Ordered
  /-- The overlay. -/
  state : outcome.state.All Value.Ordered
  /-- The values of the answer. -/
  values : ∀ v ∈ answerValues outcome.answer, v.Ordered

/-- A call that leaves everything as it was. -/
theorem leavesOrdered_unchanged (ho : o.All Value.Ordered) (hh : h.Ordered)
    {answer : Except TransactionError (Reply Value)} (hvalues : answerValues answer = []) :
    LeavesOrdered (o.unchanged h answer) := by
  refine ⟨hh, ho, fun v hv => ?_⟩
  rw [unchanged, hvalues] at hv
  cases hv

/-- A call that answers a reply without values, or fails. -/
theorem leavesOrdered_map {α : Type} (ho : o.All Value.Ordered) (hh : h.Ordered)
    (result : Except TransactionError α) {reply : α → Reply Value}
    (hreply : ∀ a, (reply a).values = []) :
    LeavesOrdered (o.unchanged h (result.map reply)) := by
  refine leavesOrdered_unchanged ho hh ?_
  cases result with
  | error e => rfl
  | ok a => exact hreply a

/-- A call that reads. -/
theorem leavesOrdered_answering {α : Type} (ho : o.All Value.Ordered) (hh : h.Ordered)
    {reply : α → Reply Value} {result : Except TransactionError (α × Heap)}
    (hok : ∀ a h', result = .ok (a, h') → h'.Ordered ∧ ∀ v ∈ (reply a).values, v.Ordered) :
    LeavesOrdered (o.answering h reply result) := by
  cases result with
  | error e => exact leavesOrdered_unchanged ho hh rfl
  | ok made =>
    obtain ⟨hh', hvalues⟩ := hok made.1 made.2 rfl
    exact ⟨hh', ho, hvalues⟩

/-- A call that holds a copy. -/
theorem leavesOrdered_holding (ho : o.All Value.Ordered) (hh : h.Ordered) (key : String)
    {reply : Reply Value} (hreply : ∀ v ∈ reply.values, v.Ordered) {v : Value} (hv : v.Ordered) :
    LeavesOrdered (o.holding h key reply (Copyable.copy h v)) := by
  cases hcopy : Copyable.copy h v with
  | error e => exact leavesOrdered_unchanged ho hh rfl
  | ok made =>
    obtain ⟨hh', hmade⟩ := Value.ordered_copyWithin hv hh hcopy
    exact ⟨hh', ho.set key hmade, hreply⟩

/-- A call that holds a copy on a condition. -/
theorem leavesOrdered_holdingIf (ho : o.All Value.Ordered) (hh : h.Ordered) (key : String)
    {v : Value} (hv : v.Ordered) (condition : Except TransactionError Bool) :
    LeavesOrdered (o.holdingIf h key (Copyable.copy h v) condition) := by
  obtain e | ⟨- | -⟩ := condition
  · exact leavesOrdered_unchanged ho hh rfl
  · exact leavesOrdered_unchanged ho hh rfl
  · exact leavesOrdered_holding ho hh key (List.forall_mem_nil _) hv

/-- What is read is in order. -/
theorem ordered_read (ho : o.All Value.Ordered) (hh : h.Ordered)
    (hbase : base.store.All Value.Ordered) {key : String} {found : Option Value}
    (hok : o.read h base key = .ok (found, h')) :
    h'.Ordered ∧ ∀ v ∈ found.toList, v.Ordered := by
  rcases read_eq_ok hok with ⟨-, rfl, rfl⟩ | ⟨v, copy, hvisible, hcopy, rfl⟩
  · exact ⟨hh, List.forall_mem_nil _⟩
  · obtain ⟨hh', hmade⟩ := Value.ordered_copyWithin (all_visible hbase ho hvisible) hh hcopy
    exact ⟨hh', List.forall_mem_singleton.mpr hmade⟩

/-- Entries are copied in order. -/
theorem ordered_copyEntries {entries made : List (String × Value)}
    (hvalues : ∀ e ∈ entries, e.2.Ordered) (hh : h.Ordered)
    (hok : Copyable.copyEntries h entries = .ok (made, h')) :
    h'.Ordered ∧ ∀ e ∈ made, e.2.Ordered := by
  rw [Copyable.copyEntries_eq] at hok
  exact copyEach_keeps Heap.Ordered (fun e => e.2.Ordered) (fun e he _ _ _ hh hok =>
    Value.ordered_copyWithin (hvalues e he) hh (copyUnderKey_eq_ok_iff.mp hok).2) hh hok

/-- The listed entries are in order. -/
theorem ordered_entries (ho : o.All Value.Ordered) (hh : h.Ordered)
    (hbase : base.store.All Value.Ordered) {order : KeyOrder} {es : List (String × Value)}
    (hok : o.entries order h base = .ok (es, h')) : h'.Ordered ∧ ∀ e ∈ es, e.2.Ordered := by
  obtain ⟨untouched, h₁, held, hfirst, hsecond, rfl⟩ := entries_eq_ok hok
  obtain ⟨hh₁, hleft⟩ := ordered_copyEntries
    (fun e he => hbase e.1 e.2 (mem_untouchedIn_iff.mp he).1) hh hfirst
  obtain ⟨hh', hright⟩ := ordered_copyEntries
    (fun e he => ho e.1 e.2 (mem_assignments_toListIn_iff.mp he)) hh₁ hsecond
  refine ⟨hh', fun e he => ?_⟩
  exact (List.mem_append.mp (Table.mem_of_mem_toList_ofList he)).elim (hleft e) (hright e)

/-- Every call on an overlay leaves and answers what is in order, if it is given that. -/
theorem leavesOrdered_call (ho : o.All Value.Ordered) (hh : h.Ordered)
    (hbase : base.store.All Value.Ordered) {call : StoreCall Value}
    (hcall : ∀ v ∈ call.values, v.Ordered) :
    LeavesOrdered (o.call h base call) := by
  cases call with
  | put key value =>
    rw [call_put]
    have hbefore : ∀ v ∈ (Reply.value (o.held? key)).values, v.Ordered :=
      fun v hv => ho key v (Option.mem_toList.mp hv)
    exact leavesOrdered_holding ho hh key hbefore (hcall value List.mem_cons_self)
  | get key =>
    rw [call_get]
    exact leavesOrdered_answering ho hh fun found h' hok => ordered_read ho hh hbase hok
  | update key value =>
    rw [call_update]
    exact leavesOrdered_holdingIf ho hh key (hcall value List.mem_cons_self) _
  | compareAndSwap key expected value =>
    rw [call_compareAndSwap]
    exact leavesOrdered_holdingIf ho hh key
      (hcall value (List.mem_cons_of_mem _ List.mem_cons_self)) _
  | entries order =>
    rw [call_entries]
    refine leavesOrdered_answering ho hh fun es h' hok => ?_
    obtain ⟨hh', hes⟩ := ordered_entries ho hh hbase hok
    exact ⟨hh', List.forall_mem_map.mpr hes⟩
  | delete key =>
    exact ⟨hh, ho.remove key, fun v hv => ho key v (Option.mem_toList.mp hv)⟩
  | clear =>
    have ho' : (removeAll base).2.All Value.Ordered := all_removeAll base
    rw [Overlay.call]
    generalize removeAll base = removed at ho'
    obtain ⟨error, o'⟩ := removed
    cases error with
    | none => exact ⟨hh, ho', List.forall_mem_nil _⟩
    | some e => exact ⟨hh, ho', List.forall_mem_nil _⟩
  | contains key => exact leavesOrdered_map ho hh (o.shows base key) fun _ => rfl
  | size => exact leavesOrdered_map ho hh (o.keys base) fun _ => rfl
  | isEmpty => exact leavesOrdered_map ho hh (o.keys base) fun _ => rfl
  | keys => exact leavesOrdered_map ho hh (o.keys base) fun _ => rfl
  | increment | decrement => exact leavesOrdered_unchanged ho hh rfl

end Overlay

namespace Transaction

/-- A call through the view of a transaction leaves and answers what is in order. -/
theorem ordered_viewCall {t : Transaction Value} {h : Heap} {base : GuardedStore Value}
    (ht : ∀ key v, t.held? key = some v → v.Ordered) (hh : h.Ordered)
    (hbase : base.store.All Value.Ordered) {call : StoreCall Value}
    (hcall : ∀ v ∈ call.values, v.Ordered) :
    (t.viewCall h base call).heap.Ordered ∧
      (∀ key v, (t.viewCall h base call).state.held? key = some v → v.Ordered) ∧
      ∀ v ∈ answerValues (t.viewCall h base call).answer, v.Ordered := by
  by_cases hactive : t.phase = .active
  · have ho : t.overlay.All Value.Ordered :=
      fun key v hv => ht key v ((held?_of_active hactive key).trans hv)
    obtain ⟨hh', ho', hvalues⟩ := Overlay.leavesOrdered_call ho hh hbase hcall
    rw [viewCall_of_active hactive]
    refine ⟨hh', fun key v hv => ho' key v ?_, hvalues⟩
    rwa [held?_setOverlay hactive] at hv
  · rw [viewCall_of_final (Phase.isFinal_eq_true_iff.mpr hactive)]
    exact ⟨hh, ht, List.forall_mem_nil _⟩

end Transaction

/-! ## Runs -/

namespace Database

/-- All that a database holds is in order. -/
structure Ordered (db : Database Value) : Prop where
  /-- The values of the store. -/
  base : db.base.store.All Value.Ordered
  /-- The cells. -/
  heap : db.heap.Ordered
  /-- What active transactions hold. -/
  held : ∀ slot v, db.held? slot = some v → v.Ordered

variable {db : Database Value} {place : Nat}

namespace Ordered

/-- What an active transaction holds is in order. -/
theorem transaction (hdb : db.Ordered) {t : Transaction Value}
    (ht : db.transaction? place = some t) : ∀ key v, t.held? key = some v → v.Ordered := by
  intro key v hv
  refine hdb.held (place, key) v ?_
  rw [held?, ht]
  exact hv

/-- A transaction is replaced, next to a store and cells in order. -/
theorem setTransaction (hdb : db.Ordered) {t : Transaction Value}
    (ht : db.transaction? place = some t) {base : GuardedStore Value}
    (hbase : base.store.All Value.Ordered) {heap : Heap} (hheap : heap.Ordered)
    {t' : Transaction Value} (hheld : ∀ key v, t'.held? key = some v → v.Ordered) :
    ({ db with base, heap }.setTransaction place t').Ordered := by
  have ht' : { db with base, heap }.transaction? place = some t := ht
  refine ⟨hbase, hheap, fun slot v hv => ?_⟩
  rw [held?_setTransaction ht'] at hv
  split at hv
  · exact hheld slot.2 v hv
  · exact hdb.held slot v hv

/-- A call on a transaction. -/
theorem onTransaction (hdb : db.Ordered)
    {call : Transaction Value → Outcome (Transaction Value) Value}
    (hcall : ∀ t, (∀ key v, t.held? key = some v → v.Ordered) →
      (call t).heap.Ordered ∧ (∀ key v, (call t).state.held? key = some v → v.Ordered) ∧
        ∀ v ∈ answerValues (call t).answer, v.Ordered) :
    (db.onTransaction place call).2.Ordered ∧
      ∀ v ∈ (db.onTransaction place call).1.values, v.Ordered := by
  rw [Database.onTransaction]
  cases ht : db.transaction? place with
  | none => exact ⟨hdb, List.forall_mem_nil _⟩
  | some t =>
    obtain ⟨hheap, hheld, hvalues⟩ := hcall t (hdb.transaction ht)
    refine ⟨hdb.setTransaction ht hdb.base hheap hheld, ?_⟩
    rw [Answer.values_ofTransaction]
    exact hvalues

/-- A call on the store. -/
theorem storeCall (hdb : db.Ordered) {call : StoreCall Value}
    (hcall : ∀ v ∈ call.values, v.Ordered) {refused : StoreError → Answer Value}
    (hsilent : ∀ e, (refused e).values = []) :
    (db.storeCall call refused).2.Ordered ∧
      ∀ v ∈ (db.storeCall call refused).1.values, v.Ordered := by
  rw [Database.storeCall]
  cases hok : db.base.call db.heap call with
  | error e =>
    refine ⟨hdb, fun v hv => ?_⟩
    rw [hsilent] at hv
    cases hv
  | ok result =>
    obtain ⟨hstore, hreply⟩ := GuardedStore.call_all (fun n => .plain _) hdb.base hcall hok
    exact ⟨⟨hstore, hdb.heap, hdb.held⟩, hreply⟩

/-- A transaction that holds nothing any more. -/
theorem settle (hdb : db.Ordered) {t : Transaction Value}
    (ht : db.transaction? place = some t) {base : GuardedStore Value}
    (hbase : base.store.All Value.Ordered) {t' : Transaction Value}
    (hnone : ∀ key, t'.held? key = none) :
    ({ db with base }.setTransaction place t').Ordered := by
  refine hdb.setTransaction ht hbase hdb.heap fun key v hv => ?_
  rw [hnone] at hv
  cases hv

/-- A commit. -/
theorem commit (hdb : db.Ordered) (order : KeyOrder) :
    (db.step (.commit place order)).2.Ordered ∧
      ∀ v ∈ (db.step (.commit place order)).1.values, v.Ordered := by
  rw [Database.step]
  cases ht : db.transaction? place with
  | none => exact ⟨hdb, List.forall_mem_nil _⟩
  | some t =>
    refine ⟨hdb.settle ht (Transaction.commit_all hdb.base (hdb.transaction ht))
      (t.held?_commit order db.base), ?_⟩
    rw [Answer.values_ofTransaction]
    cases (t.commit order db.base).answer <;> exact List.forall_mem_nil _

/-- A rollback. -/
theorem rollback (hdb : db.Ordered) :
    (db.step (.rollback place)).2.Ordered ∧
      ∀ v ∈ (db.step (.rollback place)).1.values, v.Ordered := by
  rw [Database.step]
  cases ht : db.transaction? place with
  | none => exact ⟨hdb, List.forall_mem_nil _⟩
  | some t => exact ⟨hdb.settle ht hdb.base t.held?_rollback, List.forall_mem_nil _⟩

/-- The end of a managed execution. -/
theorem conclude (hdb : db.Ordered) (ending : Ending Unit) (order : KeyOrder) :
    (db.step (.conclude place ending order)).2.Ordered ∧
      ∀ v ∈ (db.step (.conclude place ending order)).1.values, v.Ordered := by
  rw [Database.step, Database.conclude]
  cases ht : db.transaction? place with
  | none => exact ⟨hdb, List.forall_mem_nil _⟩
  | some t =>
    have hbase : (t.conclude order db.base ending).base.store.All Value.Ordered :=
      Transaction.conclude_all hdb.base (hdb.transaction ht) ending
    have hset := hdb.settle ht hbase (t.conclude order db.base ending).transaction.held?_rollback
    refine ⟨⟨hset.base, hset.heap, hset.held⟩, ?_⟩
    rw [Answer.values_ofConclusion]
    exact List.forall_mem_nil _

/-- A read with a fallback. -/
theorem getD (hdb : db.Ordered) (key : String) {fallback : Value} (hfallback : fallback.Ordered) :
    (db.base.store.getD key fallback).Ordered := by
  rw [Store.getD]
  cases hget : db.base.store.get? key with
  | none => exact hfallback
  | some v => exact hdb.base key v hget

/-- A value for a key that has none. -/
theorem putNew (hdb : db.Ordered) (key : String) {value : Value} (hvalue : value.Ordered) :
    (db.step (.putNew key value)).2.Ordered ∧
      ∀ v ∈ (db.step (.putNew key value)).1.values, v.Ordered := by
  rw [Database.step, Store.putNew]
  cases hget : db.base.store.get? key with
  | none => exact ⟨⟨hdb.base.insert key hvalue, hdb.heap, hdb.held⟩, List.forall_mem_nil _⟩
  | some v =>
    exact ⟨⟨hdb.base, hdb.heap, hdb.held⟩, List.forall_mem_singleton.mpr (hdb.base key v hget)⟩

/-- A cell is written. -/
theorem writeCell (hdb : db.Ordered) (cell : Cell) {value : Value} (hvalue : value.Ordered) :
    (db.step (.writeCell cell value)).2.Ordered ∧
      ∀ v ∈ (db.step (.writeCell cell value)).1.values, v.Ordered := by
  rw [Database.step]
  cases hr : db.heap.read? cell with
  | none => exact ⟨hdb, List.forall_mem_nil _⟩
  | some v =>
    exact ⟨⟨hdb.base, hdb.heap.write cell hvalue, hdb.held⟩,
      List.forall_mem_singleton.mpr (hdb.heap cell v hr)⟩

/-- A value is copied. -/
theorem copy (hdb : db.Ordered) {value : Value} (hvalue : value.Ordered) :
    (db.step (.copy value)).2.Ordered ∧
      ∀ v ∈ (db.step (.copy value)).1.values, v.Ordered := by
  rw [Database.step]
  cases hcopy : value.copy db.heap with
  | error e => exact ⟨hdb, List.forall_mem_nil _⟩
  | ok result =>
    obtain ⟨hheap, hmade⟩ := Value.ordered_copyWithin hvalue hdb.heap hcopy
    exact ⟨⟨hdb.base, hheap, hdb.held⟩, List.forall_mem_singleton.mpr hmade⟩

/-- The step: a command that is given values in order leaves and answers such values. -/
theorem step (hdb : db.Ordered) {command : Command Value}
    (hcommand : ∀ v ∈ command.values, v.Ordered) :
    (db.step command).2.Ordered ∧ ∀ v ∈ (db.step command).1.values, v.Ordered := by
  cases command with
  | store call => exact hdb.storeCall hcommand fun _ => rfl
  | direct call => exact hdb.storeCall hcommand fun _ => rfl
  | own place call =>
    refine hdb.onTransaction fun t ht => ?_
    obtain ⟨hheap, hheld, hvalues⟩ := Transaction.ordered_viewCall ht hdb.heap hdb.base hcommand
    exact ⟨hheap, hheld, fun v hv => hvalues v (t.values_ownCall db.heap db.base call hv)⟩
  | view place call =>
    exact hdb.onTransaction fun t ht => Transaction.ordered_viewCall ht hdb.heap hdb.base hcommand
  | commit place order => exact hdb.commit order
  | rollback place => exact hdb.rollback
  | conclude place ending order => exact hdb.conclude ending order
  | getD key fallback =>
    have hfallback := hcommand fallback List.mem_cons_self
    exact ⟨hdb, List.forall_mem_singleton.mpr (hdb.getD key hfallback)⟩
  | putNew key value => exact hdb.putNew key (hcommand value List.mem_cons_self)
  | begin nonce =>
    refine ⟨⟨hdb.base, hdb.heap, fun slot v hv => hdb.held slot v ?_⟩, List.forall_mem_nil _⟩
    rwa [db.held?_step_of_ne (by rintro ⟨⟩)] at hv
  | newCell value =>
    exact ⟨⟨hdb.base, hdb.heap.alloc (hcommand value List.mem_cons_self), hdb.held⟩,
      List.forall_mem_singleton.mpr (.shared _)⟩
  | readCell cell =>
    rw [Database.step]
    cases hr : db.heap.read? cell with
    | none => exact ⟨hdb, List.forall_mem_nil _⟩
    | some v => exact ⟨hdb, List.forall_mem_singleton.mpr (hdb.heap cell v hr)⟩
  | writeCell cell value =>
    exact hdb.writeCell cell (hcommand value (List.mem_cons_of_mem _ List.mem_cons_self))
  | copy value => exact hdb.copy (hcommand value List.mem_cons_self)
  | adopt typeName =>
    exact ⟨⟨hdb.base, hdb.heap, hdb.held⟩, List.forall_mem_singleton.mpr (.foreign _)⟩
  | lookup | deregister | registered | refuse =>
    exact ⟨⟨hdb.base, hdb.heap, hdb.held⟩, List.forall_mem_nil _⟩

/-- The run: any number of commands. -/
theorem run (hdb : db.Ordered) {commands : List (Command Value)}
    (hcommands : ∀ command ∈ commands, ∀ v ∈ command.values, v.Ordered) :
    (db.run commands).2.Ordered ∧
      ∀ answer ∈ (db.run commands).1, ∀ v ∈ answer.values, v.Ordered := by
  induction commands generalizing db with
  | nil => exact ⟨hdb, List.forall_mem_nil _⟩
  | cons command rest ih =>
    rw [List.forall_mem_cons] at hcommands
    obtain ⟨hafter, hvalues⟩ := hdb.step hcommands.1
    obtain ⟨hrest, hanswers⟩ := ih hafter hcommands.2
    exact ⟨hrest, List.forall_mem_cons.mpr ⟨hvalues, hanswers⟩⟩

end Ordered

/-- In an empty database everything is in order. -/
theorem ordered_ofStore_empty : (ofStore .empty : Database Value).Ordered where
  base := Store.all_empty
  heap cell v hr := by
    rw [Heap.read?_eq_none_iff.mpr (Nat.zero_le _)] at hr
    cases hr
  held slot v hv := by simp [ofStore, held?, transaction?] at hv

/-- In every run from an empty database, all maps are in the order of their keys and no key stands
twice, if that holds of the maps that are passed in. -/
theorem ordered_run {commands : List (Command Value)}
    (hcommands : ∀ command ∈ commands, ∀ v ∈ command.values, v.Ordered) :
    ((ofStore .empty).run commands).2.Ordered ∧
      ∀ answer ∈ ((ofStore .empty).run commands).1, ∀ v ∈ answer.values, v.Ordered :=
  ordered_ofStore_empty.run hcommands

end Database

end OverlayStore
