import OverlayStore.Proofs.Cells.Mirroring
import OverlayStore.Proofs.Overlay.Outcomes
import OverlayStore.Proofs.Store.Renaming

/-!
# Overlays past hidden cells

In two heaps of which one has only the cells of the other that show, the overlay and the renamed
overlay answer every call alike, hold alike, and make the same cells. They also leave the same store
when their edits are applied. A call that nobody but the transaction sees only makes cells.
-/

namespace OverlayStore

section

variable {V W : Type}

/-- The edit with another value. -/
def Edit.map (f : V → W) : Edit V → Edit W
  | .set value => .set (f value)
  | .remove => .remove

/-- The overlay with other values under the same keys. -/
def Overlay.map (f : V → W) (o : Overlay V) : Overlay W := ⟨o.edits.mapValues (Edit.map f)⟩

/-- The edits with other values in the same order. -/
def EditList.map (f : V → W) (order : EditList V) : EditList W :=
  List.map (Prod.map id (Edit.map f)) order

variable (f : V → W)

/-! ## Applying edits -/

namespace EditList

/-- The keys to remove stay. -/
@[simp] theorem removals_map (order : EditList V) : removals (map f order) = order.removals := by
  rw [removals, removals, map, List.filterMap_map]
  refine List.filterMap_congr fun e he => ?_
  obtain ⟨key, edit⟩ := e
  cases edit <;> rfl

/-- The entries to set are the mapped ones. -/
theorem assignments_map (order : EditList V) :
    assignments (map f order) = order.assignments.map (Prod.map id f) := by
  rw [assignments, assignments, map, List.filterMap_map, List.map_filterMap]
  refine List.filterMap_congr fun e he => ?_
  obtain ⟨key, edit⟩ := e
  cases edit <;> rfl

/-- Keys are removed alike, up to the same refusal. -/
theorem removeEach_map (keys : List String) (base : GuardedStore V) :
    removeEach keys (base.map f) = Prod.map id (GuardedStore.map f) (removeEach keys base) := by
  induction keys generalizing base with
  | nil => rfl
  | cons key rest ih =>
    rw [removeEach, removeEach, GuardedStore.delete_map]
    cases base.delete key with
    | error e => rfl
    | ok result => exact ih result.2

/-- Mapped values are set alike, up to the same refusal. -/
theorem setEach_map (entries : List (String × V)) (base : GuardedStore V) :
    setEach (entries.map (Prod.map id f)) (base.map f) =
      Prod.map id (GuardedStore.map f) (setEach entries base) := by
  induction entries generalizing base with
  | nil => rfl
  | cons e rest ih =>
    rw [List.map_cons, Prod.map_apply, setEach, setEach, GuardedStore.put_map, id]
    cases base.put e.1 e.2 with
    | error e => rfl
    | ok result => exact ih result.2

/-- Edits with other values leave the same keys. -/
theorem applyToKeys_map (order : EditList V) (keys : Std.ExtTreeSet String) :
    applyToKeys (map f order) keys = order.applyToKeys keys := by
  rw [applyToKeys, applyToKeys, map, List.foldl_map]
  refine List.foldl_ext _ _ keys fun keys e _ => ?_
  obtain ⟨key, value | -⟩ := e <;> rfl

/-- Edits with other values leave the store with other values. -/
theorem apply_map (order : EditList V) (base : GuardedStore V) :
    apply (map f order) (base.map f) = Prod.map id (GuardedStore.map f) (order.apply base) := by
  rw [apply, apply, removals_map, removeEach_map, assignments_map]
  obtain ⟨refused, base'⟩ := removeEach order.removals base
  cases refused with
  | some e => rfl
  | none => exact setEach_map f order.assignments base'

end EditList

/-! ## Edits -/

namespace Overlay

variable (o : Overlay V)

/-- A key has the mapped edit. -/
@[simp] theorem edit?_map (key : String) : (o.map f).edit? key = (o.edit? key).map (Edit.map f) :=
  Table.getElem?_mapValues (Edit.map f) o.edits key

/-- The touched keys stay. -/
@[simp] theorem touches_map (key : String) : (o.map f).touches key = o.touches key :=
  Table.contains_mapValues (Edit.map f) o.edits key

/-- The mapped value is held. -/
@[simp] theorem held?_map (key : String) : (o.map f).held? key = (o.held? key).map f := by
  rw [held?, held?, edit?_map]
  obtain - | ⟨value | -⟩ := o.edit? key <;> rfl

/-- The listed edits are the mapped ones. -/
@[simp] theorem toList_map : (o.map f).toList = EditList.map f o.toList :=
  Table.toList_mapValues (Edit.map f) o.edits

/-- Other values come in the same order. -/
@[simp] theorem toListIn_map (order : KeyOrder) :
    (o.map f).toListIn order = EditList.map f (o.toListIn order) := by
  rw [toListIn, toListIn, toList_map]
  exact (order.map_arrange (Edit.map f) o.toList).symm

/-- Other values are untouched at the same places. -/
theorem untouchedIn_map (order : KeyOrder) (entries : Table V) :
    (o.map f).untouchedIn order (entries.mapValues f) =
      (o.untouchedIn order entries).map (Prod.map id f) := by
  rw [untouchedIn, untouchedIn, Table.toList_mapValues, ← order.map_arrange, List.filter_map]
  simp only [touches_map]
  rfl

/-- Without edits there is nothing to map. -/
@[simp] theorem map_empty : (empty : Overlay V).map f = empty :=
  congrArg Overlay.mk (Table.mapValues_empty (Edit.map f))

/-- A new edit is mapped with the others. -/
theorem map_insert (key : String) (edit : Edit V) :
    (o.insert key edit).map f = (o.map f).insert key (edit.map f) :=
  congrArg Overlay.mk (Table.mapValues_insert (Edit.map f) o.edits key edit)

/-- Removals have no values to map. -/
theorem map_removing (keys : List String) : (removing keys : Overlay V).map f = removing keys := by
  rw [removing, removing, ← map_empty f]
  generalize (empty : Overlay V) = o
  induction keys generalizing o with
  | nil => rfl
  | cons key rest ih => rw [List.foldl_cons, List.foldl_cons, ih, map_insert, Edit.map]

/-- Everything is removed alike. -/
theorem removeAll_map (base : GuardedStore V) :
    removeAll (base.map f) = Prod.map id (map f) (removeAll base) := by
  rw [removeAll, removeAll, GuardedStore.keys_map]
  cases base.keys with
  | ok keys => exact congrArg (Prod.mk none) (map_removing f keys).symm
  | error e => exact congrArg (Prod.mk (some e)) (map_empty f).symm

/-- The same keys show. -/
@[simp] theorem shows_map (base : GuardedStore V) (key : String) :
    (o.map f).shows (base.map f) key = o.shows base key := by
  rw [shows, shows, edit?_map, GuardedStore.contains_map]
  obtain - | ⟨value | -⟩ := o.edit? key <;> rfl

/-- The same keys are listed. -/
@[simp] theorem keys_map (base : GuardedStore V) : (o.map f).keys (base.map f) = o.keys base := by
  rw [keys, keys, GuardedStore.keys_map, toList_map]
  simp only [EditList.applyToKeys_map]

end Overlay

end

/-! ## Renamed cells -/

namespace Overlay

variable {o : Overlay Value}

/-- Renamings that agree on the cells of an overlay rename it alike. -/
theorem map_congr {ρ σ : Cell → Cell} (ho : o.Within fun cell => ρ cell = σ cell) :
    o.map (Value.rename ρ) = o.map (Value.rename σ) := by
  refine congrArg Overlay.mk (Table.mapValues_congr fun key edit hedit => ?_)
  cases edit with
  | set v => exact congrArg Edit.set (Value.rename_congr (ho key v (held?_eq_some_iff.mpr hedit)))
  | remove => rfl

end Overlay

/-! ## Calls past hidden cells -/

namespace Overlay

/-- Two outcomes of calls that are the same up to the names of cells. -/
structure Alike (hidden : List Cell) (h : Heap) (outcome outcome' : Outcome (Overlay Value) Value) :
    Prop where
  /-- The answers are. -/
  answer : outcome'.answer = outcome.answer.map (Reply.map (Value.rename (Cell.rank hidden)))
  /-- What is held is. -/
  state : outcome'.state = outcome.state.map (Value.rename (Cell.rank hidden))
  /-- One heap has only the cells of the other that show. -/
  heap : outcome.heap.Mirrors hidden outcome'.heap
  /-- No cell is changed. -/
  le : h ≤ outcome.heap
  /-- The values of the answer name cells that show. -/
  values : ∀ v ∈ answerValues outcome.answer, v.Within (outcome.heap.Shows hidden)
  /-- So do the values that are held. -/
  held : outcome.state.Within (outcome.heap.Shows hidden)

variable {o : Overlay Value} {hidden : List Cell} {h h' : Heap} {base : GuardedStore Value}

section

variable (hm : h.Mirrors hidden h') (ho : o.Within (h.Shows hidden))

include hm ho

/-- A call that changes nothing. -/
private theorem alike_unchanged (answer : Except TransactionError (Reply Value))
    (hvalues : ∀ v ∈ answerValues answer, v.Within (h.Shows hidden)) :
    Alike hidden h (o.unchanged h answer) ((o.map (Value.rename (Cell.rank hidden))).unchanged h'
      (answer.map (Reply.map (Value.rename (Cell.rank hidden))))) :=
  ⟨rfl, rfl, hm, le_refl h, hvalues, ho⟩

/-- A call that fails. -/
private theorem alike_refused (e : TransactionError) :
    Alike hidden h (o.unchanged h (.error e))
      ((o.map (Value.rename (Cell.rank hidden))).unchanged h' (.error e)) :=
  alike_unchanged hm ho (.error e) fun v hv => by cases hv

/-- A call that only asks for what is not a value. -/
private theorem alike_map {α : Type} (result : Except TransactionError α) {reply : α → Reply Value}
    (hreply : ∀ a, (reply a).map (Value.rename (Cell.rank hidden)) = reply a)
    (hvalues : ∀ a, (reply a).values = []) :
    Alike hidden h (o.unchanged h (result.map reply))
      ((o.map (Value.rename (Cell.rank hidden))).unchanged h' (result.map reply)) := by
  cases result with
  | error e => exact alike_refused hm ho e
  | ok a =>
    have hsame := alike_unchanged hm ho (.ok (reply a)) fun v hv => by
      rw [answerValues_ok, hvalues] at hv
      cases hv
    rw [Except.map, hreply] at hsame
    exact hsame

/-- A call that reads into the heap. -/
private theorem alike_answering {α : Type} {rename : α → α} {cells : α → List Cell}
    {result result' : Except TransactionError (α × Heap)}
    (hr : Mirrored hidden h rename cells result result') {reply : α → Reply Value}
    (hreply : ∀ a, reply (rename a) = (reply a).map (Value.rename (Cell.rank hidden)))
    (hvalues : ∀ a, ∀ v ∈ (reply a).values, v.handles ⊆ cells a) :
    Alike hidden h (o.answering h reply result)
      ((o.map (Value.rename (Cell.rank hidden))).answering h' reply result') := by
  cases hr with
  | error e => exact alike_refused hm ho e
  | @ok a g g' hg hle hcells =>
    exact ⟨congrArg Except.ok (hreply a), rfl, hg, hle,
      fun v hv cell hc => hcells cell (hvalues a v hv hc), ho.mono fun _ hc => hc.mono hle⟩

/-- A call that holds a copy. -/
private theorem alike_holding (key : String) (reply : Reply Value)
    (hvalues : ∀ v ∈ reply.values, v.Within (h.Shows hidden)) {value : Value}
    (hv : value.Within (h.Shows hidden)) :
    Alike hidden h (o.holding h key reply (Copyable.copy h value))
      ((o.map (Value.rename (Cell.rank hidden))).holding h' key
        (reply.map (Value.rename (Cell.rank hidden)))
        (Copyable.copy h' (value.rename (Cell.rank hidden)))) := by
  have hcopy : Mirrored hidden h (Value.rename (Cell.rank hidden)) Value.handles
      (Copyable.copy h value) (Copyable.copy h' (value.rename (Cell.rank hidden))) :=
    Value.mirrored_copy hm hv
  generalize Copyable.copy h value = result at hcopy
  generalize Copyable.copy h' (value.rename (Cell.rank hidden)) = result' at hcopy
  cases hcopy with
  | error e => exact alike_refused hm ho (.copy e)
  | @ok copy g g' hg hle hcells =>
    exact ⟨rfl, (map_insert _ o key (.set copy)).symm, hg, hle,
      fun v hv => (hvalues v hv).mono fun _ hc => hc.mono hle,
      (ho.mono fun _ hc => hc.mono hle).set key hcells⟩

/-- A call that holds a copy on a condition. -/
private theorem alike_holdingIf (key : String) {value : Value} (hv : value.Within (h.Shows hidden))
    (condition : Except TransactionError Bool) :
    Alike hidden h (o.holdingIf h key (Copyable.copy h value) condition)
      ((o.map (Value.rename (Cell.rank hidden))).holdingIf h' key
        (Copyable.copy h' (value.rename (Cell.rank hidden))) condition) := by
  obtain e | ⟨- | -⟩ := condition
  · exact alike_refused hm ho e
  · exact alike_unchanged hm ho (.ok (.flag false)) fun v hv => by cases hv
  · exact alike_holding hm ho key (.flag true) (fun v hv => by cases hv) hv

end

/-- A value is handed out alike. -/
private theorem mirrored_handOut (hm : h.Mirrors hidden h') {v : Value}
    (hv : v.Within (h.Shows hidden)) :
    Mirrored hidden h (Option.map (Value.rename (Cell.rank hidden)))
      (fun found => found.toList.flatMap Value.handles) (handOut h v)
      (handOut h' (v.rename (Cell.rank hidden))) := by
  have hcopy : Mirrored hidden h (Value.rename (Cell.rank hidden)) Value.handles
      (Copyable.copy h v) (Copyable.copy h' (v.rename (Cell.rank hidden))) :=
    Value.mirrored_copy hm hv
  rw [handOut, handOut]
  generalize Copyable.copy h v = result at hcopy
  generalize Copyable.copy h' (v.rename (Cell.rank hidden)) = result' at hcopy
  cases hcopy with
  | error e => exact .error (TransactionError.copy e)
  | @ok copy g g' hg hle hcells => exact .ok (a := some copy) hg hle (by simpa using hcells)

section

variable (hm : h.Mirrors hidden h') (hbase : base.store.Within (h.Shows hidden))
  (ho : o.Within (h.Shows hidden))

include hm hbase ho

/-- A key is read alike. -/
theorem mirrored_read (key : String) :
    Mirrored hidden h (Option.map (Value.rename (Cell.rank hidden)))
      (fun found => found.toList.flatMap Value.handles) (o.read h base key)
      ((o.map (Value.rename (Cell.rank hidden))).read h'
        (base.map (Value.rename (Cell.rank hidden))) key) := by
  have hnone : Mirrored hidden h (Option.map (Value.rename (Cell.rank hidden)))
      (fun found => found.toList.flatMap Value.handles)
      (.ok (none, h) : Except TransactionError _) (.ok (none, h')) :=
    .ok (a := none) hm (le_refl h) (by simp)
  rw [read, read, edit?_map, GuardedStore.get_map]
  cases hedit : o.edit? key with
  | some edit =>
    cases edit with
    | set value => exact mirrored_handOut hm (ho key value (held?_eq_some_iff.mpr hedit))
    | remove => exact hnone
  | none =>
    simp only [Option.map_none]
    cases hget : base.get key with
    | error e => exact .error (TransactionError.store e)
    | ok found =>
      cases found with
      | none => exact hnone
      | some value =>
        rw [GuardedStore.get] at hget
        split at hget
        next => cases hget
        next => exact mirrored_handOut hm (hbase key value (Except.ok.inj hget))

/-- A key is compared alike. -/
theorem agrees_rename (key : String) {expected : Value}
    (hexpected : expected.Within (h.Shows hidden)) :
    (o.map (Value.rename (Cell.rank hidden))).agrees h'
        (base.map (Value.rename (Cell.rank hidden))) key (expected.rename (Cell.rank hidden)) =
      o.agrees h base key expected := by
  have hsame : ∀ {v : Value}, v.Within (h.Shows hidden) →
      same h' (v.rename (Cell.rank hidden)) (expected.rename (Cell.rank hidden)) =
        same h v expected := by
    intro v hv
    have heq : Storable.same? h' (v.rename (Cell.rank hidden))
        (expected.rename (Cell.rank hidden)) = Storable.same? h v expected :=
      Value.same?_rename hm hv hexpected
    rw [same, same, heq]
  rw [agrees, agrees, edit?_map, GuardedStore.get_map]
  cases hedit : o.edit? key with
  | some edit =>
    cases edit with
    | set value => exact hsame (ho key value (held?_eq_some_iff.mpr hedit))
    | remove => rfl
  | none =>
    simp only [Option.map_none]
    cases hget : base.get key with
    | error e => rfl
    | ok found =>
      cases found with
      | none => rfl
      | some value =>
        rw [GuardedStore.get] at hget
        split at hget
        next => cases hget
        next => exact hsame (hbase key value (Except.ok.inj hget))

/-- The entries are listed alike. -/
theorem mirrored_entries (order : KeyOrder) :
    Mirrored hidden h (List.map (Prod.map id (Value.rename (Cell.rank hidden))))
      (List.flatMap fun e => e.2.handles) (o.entries order h base)
      ((o.map (Value.rename (Cell.rank hidden))).entries order h'
        (base.map (Value.rename (Cell.rank hidden)))) := by
  have hentry : ∀ (e : String × Value) {h h' : Heap}, h.Mirrors hidden h' →
      (∀ cell ∈ e.2.handles, h.Shows hidden cell) →
      Mirrored hidden h (Prod.map id (Value.rename (Cell.rank hidden))) (fun e => e.2.handles)
        (copyUnderKey (fun v h => v.copy h) e h) (copyUnderKey (fun v h => v.copy h)
          (Prod.map id (Value.rename (Cell.rank hidden)) e) h') := by
    intro e h h' hm hv
    rw [copyUnderKey_eq_map, copyUnderKey_eq_map]
    exact (Value.mirrored_copy hm hv).map (fun v => rfl) fun v => List.Subset.refl _
  rw [entries, entries, GuardedStore.entries_map]
  cases hentries : base.entries with
  | error e => exact .error (TransactionError.store e)
  | ok table =>
    have htable : table = base.store.entries := by
      rw [GuardedStore.entries] at hentries
      split at hentries <;> cases hentries
      rfl
    subst htable
    simp only [Except.map, Copyable.copyEntries_eq, untouchedIn_map, toListIn_map,
      EditList.assignments_map]
    -- First the entries of the store that are not touched are copied, then those that are held.
    have hfirst := mirrored_copyEach (o.untouchedIn order base.store.entries)
      (fun e _ => hentry e) hm fun e he => hbase e.1 e.2 (mem_untouchedIn_iff.mp he).1
    generalize copyEach _ (o.untouchedIn order base.store.entries) h = result at hfirst
    generalize copyEach _ (List.map _ (o.untouchedIn order base.store.entries)) h' = result'
      at hfirst
    cases hfirst with
    | error e => exact .error (TransactionError.copy e)
    | @ok untouched g g' hg hle hcells =>
      have hsecond := mirrored_copyEach (EditList.assignments (o.toListIn order))
        (fun e _ => hentry e) hg fun e he =>
          (ho e.1 e.2 (mem_assignments_toListIn_iff.mp he)).mono fun _ hc => hc.mono hle
      simp only
      generalize copyEach _ (EditList.assignments (o.toListIn order)) g = result at hsecond
      generalize copyEach _ (List.map _ (EditList.assignments (o.toListIn order))) g' = result'
        at hsecond
      cases hsecond with
      | error e => exact .error (TransactionError.copy e)
      | @ok held g₁ g₁' hg₁ hle₁ hcells₁ =>
        simp only
        rw [← List.map_append, Table.ofList_map, Table.toList_mapValues]
        refine .ok hg₁ (hle.trans hle₁) fun cell hc => ?_
        obtain ⟨e, he, hcell⟩ := List.mem_flatMap.mp hc
        rcases List.mem_append.mp (Table.mem_of_mem_toList_ofList he) with he | he
        · exact (hcells cell (List.mem_flatMap.mpr ⟨e, he, hcell⟩)).mono hle₁
        · exact hcells₁ cell (List.mem_flatMap.mpr ⟨e, he, hcell⟩)

/-- Every call comes out alike. -/
theorem alike_call {call : StoreCall Value}
    (hcall : ∀ v ∈ call.values, v.Within (h.Shows hidden)) :
    Alike hidden h (o.call h base call) ((o.map (Value.rename (Cell.rank hidden))).call h'
      (base.map (Value.rename (Cell.rank hidden)))
      (call.map (Value.rename (Cell.rank hidden)))) := by
  have hheld : ∀ key, ∀ v ∈ (o.held? key).toList, v.Within (h.Shows hidden) := fun key v hv =>
    ho key v (Option.mem_toList.mp hv)
  cases call with
  | put key value =>
    rw [StoreCall.map, call_put, call_put, held?_map]
    exact alike_holding hm ho key (.value (o.held? key)) (hheld key)
      (hcall value List.mem_cons_self)
  | get key =>
    rw [StoreCall.map, call_get, call_get]
    exact alike_answering hm ho (mirrored_read hm hbase ho key) (fun found => rfl)
      fun found v hv cell hc => List.mem_flatMap.mpr ⟨v, hv, hc⟩
  | update key value =>
    rw [StoreCall.map, call_update, call_update, shows_map]
    exact alike_holdingIf hm ho key (hcall value List.mem_cons_self) _
  | delete key =>
    refine ⟨?_, (map_insert _ o key .remove).symm, hm, le_refl h, hheld key, ho.remove key⟩
    rw [StoreCall.map, call, call, remove, remove, held?_map]
    rfl
  | contains key =>
    rw [StoreCall.map, call, call, shows_map]
    exact alike_map hm ho _ (fun _ => rfl) fun _ => rfl
  | size =>
    rw [StoreCall.map, call, call, keys_map]
    exact alike_map hm ho _ (fun _ => rfl) fun _ => rfl
  | isEmpty =>
    rw [StoreCall.map, call, call, keys_map]
    exact alike_map hm ho _ (fun _ => rfl) fun _ => rfl
  | clear =>
    have hnone : (removeAll base).2.Within (h.Shows hidden) := by
      intro key v hv
      rw [held?_removeAll] at hv
      cases hv
    rw [StoreCall.map, call, call, removeAll_map]
    generalize removeAll base = result at hnone
    obtain ⟨refused, o₁⟩ := result
    cases refused <;> exact ⟨rfl, rfl, hm, le_refl h, fun v hv => (by cases hv), hnone⟩
  | keys =>
    rw [StoreCall.map, call, call, keys_map]
    exact alike_map hm ho _ (fun _ => rfl) fun _ => rfl
  | entries order =>
    rw [StoreCall.map, call_entries, call_entries]
    refine alike_answering hm ho (mirrored_entries hm hbase ho order) (fun found => rfl)
      fun found v hv cell hc => ?_
    obtain ⟨e, he, rfl⟩ := List.mem_map.mp hv
    exact List.mem_flatMap.mpr ⟨e, he, hc⟩
  | compareAndSwap key expected value =>
    rw [StoreCall.map, call_compareAndSwap, call_compareAndSwap,
      agrees_rename hm hbase ho key (hcall expected List.mem_cons_self)]
    exact alike_holdingIf hm ho key (hcall value (by simp [StoreCall.values])) _
  | increment key delta | decrement key delta =>
    exact alike_refused hm ho (.unsupported _)

end

/-! ## What calls leave alone -/

/-- A held copy makes cells at most. -/
theorem extends_holding {key : String} {reply : Reply Value} {value : Value} :
    h.Extends (o.holding h key reply (Copyable.copy h value)).heap := by
  cases hcopy : Copyable.copy h value with
  | error e => exact .refl h
  | ok result => exact Value.extends_copy hcopy

/-- So does one that is held on a condition. -/
theorem extends_holdingIf {key : String} {value : Value}
    {condition : Except TransactionError Bool} :
    h.Extends (o.holdingIf h key (Copyable.copy h value) condition).heap := by
  obtain e | ⟨- | -⟩ := condition
  · exact .refl h
  · exact .refl h
  · exact extends_holding

/-- So does a value that is handed out. -/
theorem extends_handOut {v : Value} {found : Option Value} {g : Heap}
    (hok : handOut h v = .ok (found, g)) : h.Extends g := by
  rw [handOut] at hok
  split at hok
  next copy g hcopy =>
    cases hok
    exact Value.extends_copy hcopy
  next => cases hok

/-- So does a read. -/
theorem extends_read {key : String} {found : Option Value} {g : Heap}
    (hok : o.read h base key = .ok (found, g)) : h.Extends g := by
  rw [read] at hok
  split at hok
  next =>
    cases hok
    exact .refl h
  next => exact extends_handOut hok
  next =>
    split at hok
    next => exact extends_handOut hok
    next =>
      cases hok
      exact .refl h
    next => cases hok

/-- A listing makes the cells of the copies. -/
theorem extends_entries {order : KeyOrder} {found : List (String × Value)} {g : Heap}
    (hok : o.entries order h base = .ok (found, g)) : h.Extends g := by
  have hcopy : ∀ {entries copied : List (String × Value)} {h g : Heap},
      Copyable.copyEntries h entries = .ok (copied, g) → h.Extends g := by
    intro entries copied h g hok
    rw [Copyable.copyEntries_eq] at hok
    exact extends_copyEach
      (fun e _ _ _ _ hb => Value.extends_copy (copyUnderKey_eq_ok_iff.mp hb).2) hok
  rw [entries] at hok
  split at hok
  next => cases hok
  next =>
    split at hok
    next => cases hok
    next untouched h₁ huntouched =>
      split at hok
      next => cases hok
      next held h₂ hheld =>
        cases hok
        exact (hcopy huntouched).trans (hcopy hheld)

/-- Whatever a call is and wherever its cells come from, it only makes cells. -/
theorem extends_call (o : Overlay Value) (h : Heap) (base : GuardedStore Value)
    (call : StoreCall Value) : h.Extends (o.call h base call).heap := by
  cases call with
  | put key value =>
    rw [call_put]
    exact extends_holding
  | get key =>
    rw [call_get]
    cases hread : o.read h base key with
    | error e => exact .refl h
    | ok result => exact extends_read hread
  | update key value =>
    rw [call_update]
    exact extends_holdingIf
  | entries order =>
    rw [call_entries]
    cases hentries : o.entries order h base with
    | error e => exact .refl h
    | ok result => exact extends_entries hentries
  | compareAndSwap key expected value =>
    rw [call_compareAndSwap]
    exact extends_holdingIf
  | clear =>
    rw [call]
    split <;> exact .refl h
  | delete | contains | size | isEmpty | keys | increment | decrement => exact .refl h

end Overlay

end OverlayStore
