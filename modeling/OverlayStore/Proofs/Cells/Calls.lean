import OverlayStore.Overlay.Call
import OverlayStore.Proofs.Cells.Ownership
import OverlayStore.Proofs.Overlay.Visible
import OverlayStore.Proofs.Store.Tables

/-!
# Calls and the cells they move

A call on a store moves values that it was given or had already. A call on an overlay keeps the
overlay and answers copies, or holds a copy of what it was given, or gives up what it held. Nothing
else can happen to a cell.
-/

namespace OverlayStore

/-- The values that a reply hands out. -/
def Reply.values : Reply V → List V
  | .value v => v.toList
  | .entries es => es.map Prod.snd
  | .done | .flag _ | .count _ | .keys _ | .number _ => []

/-- The values that a call passes in. -/
def StoreCall.values : StoreCall V → List V
  | .put _ value | .update _ value => [value]
  | .compareAndSwap _ expected value => [expected, value]
  | .get _ | .delete _ | .contains _ | .size | .isEmpty | .clear | .keys | .entries _
  | .increment _ _ | .decrement _ _ => []

/-- The values that the answer of a call hands out. -/
def answerValues {ε : Type} : Except ε (Reply V) → List V
  | .ok reply => reply.values
  | .error _ => []

@[simp] theorem answerValues_ok {ε : Type} (reply : Reply V) :
    answerValues (.ok reply : Except ε (Reply V)) = reply.values := rfl

@[simp] theorem answerValues_error {ε : Type} (e : ε) :
    answerValues (.error e : Except ε (Reply V)) = [] := rfl

theorem error_of_map {ε α β : Type} {f : α → β} {result : Except ε α} {e : ε}
    (he : result.map f = .error e) : result = .error e := by
  cases result with
  | error e' =>
    cases he
    rfl
  | ok a => cases he

theorem exists_ok_of_map {ε α β : Type} {f : α → β} {result : Except ε α} {b : β}
    (hok : result.map f = .ok b) : ∃ a, result = .ok a ∧ f a = b := by
  cases result with
  | error e => cases hok
  | ok a =>
    cases hok
    exact ⟨a, rfl, rfl⟩

/-! ## Calls on a store -/

/-- Every value of a store has a property. -/
def Store.All (s : Store V) (p : V → Prop) : Prop := ∀ key v, s.get? key = some v → p v

/-- Every cell that a store names lies in a region. -/
def Store.Within (s : Store Value) (region : Cell → Prop) : Prop := s.All (·.Within region)

namespace Store

variable {s : Store V} {p : V → Prop}

/-- What all values have, they have in a weaker form. -/
theorem All.mono {q : V → Prop} (hs : s.All p) (hsub : ∀ v, p v → q v) : s.All q :=
  fun key v hv => hsub v (hs key v hv)

/-- A store stays in a larger region. -/
theorem Within.mono {s : Store Value} {region larger : Cell → Prop} (hs : s.Within region)
    (hsub : ∀ cell, region cell → larger cell) : s.Within larger :=
  All.mono hs fun _ hv => hv.mono hsub

@[simp] theorem all_empty : (empty : Store V).All p := by
  intro key v hv
  simp at hv

/-- A value that is put in has the property if the others have. -/
theorem All.insert (hs : s.All p) (key : String) {value : V} (hvalue : p value) :
    Store.All ⟨s.entries.insert key value⟩ p := by
  intro k v hv
  rw [get?_insert] at hv
  split at hv
  next => exact Option.some.inj hv ▸ hvalue
  next => exact hs k v hv

/-- Nothing is lost with a key that goes. -/
theorem All.delete (hs : s.All p) (key : String) : (s.delete key).2.All p := by
  intro k v hv
  rw [get?_delete] at hv
  split at hv
  next => cases hv
  next => exact hs k v hv

/-- The listed values are those of the store. -/
theorem All.toList (hs : s.All p) : ∀ e ∈ s.entries.toList, p e.2 :=
  fun e he => hs e.1 e.2 (Std.ExtTreeMap.mem_toList_iff_getElem?_eq_some.mp he)

variable {s t : Store Value} {p : Value → Prop}

/-- What counting puts into a store is a number. -/
theorem eq_ofNumber_of_counted {current : Option Value} {delta : Int64} {sum : Number}
    {next : Value} (heq : counted current delta = .ok (sum, next)) : next = .ofNumber sum := by
  cases current with
  | none =>
    simp only [counted, Storable.ofNumber?] at heq
    cases heq
    rfl
  | some value =>
    simp only [counted, Storable.ofNumber?] at heq
    split at heq
    next => cases heq
    next =>
      split at heq
      next => cases heq
      next =>
        cases heq
        rfl

/-- Counting up keeps what all numbers have. -/
theorem All.increment (hnumber : ∀ n, p (.ofNumber n)) (hs : s.All p) {key : String}
    {delta : Int64} {sum : Number} (heq : s.increment key delta = .ok (sum, t)) : t.All p := by
  rw [Store.increment] at heq
  split at heq
  next next hcounted =>
    cases heq
    exact hs.insert key (eq_ofNumber_of_counted hcounted ▸ hnumber sum)
  next => cases heq

/-- So does counting down. -/
theorem All.decrement (hnumber : ∀ n, p (.ofNumber n)) (hs : s.All p) {key : String}
    {delta : Int64} {sum : Number} (heq : s.decrement key delta = .ok (sum, t)) : t.All p := by
  rw [Store.decrement] at heq
  split at heq
  next => exact hs.increment hnumber heq
  next => cases heq

/-- A swap puts in the new value, or nothing. -/
theorem All.compareAndSwap (hs : s.All p) {h : Heap} {key : String} {expected value : Value}
    (hvalue : p value) {swapped : Bool}
    (heq : s.compareAndSwap h key expected value = .ok (swapped, t)) : t.All p := by
  rw [Store.compareAndSwap] at heq
  split at heq
  next =>
    cases heq
    exact hs
  next =>
    split at heq
    next =>
      cases heq
      exact hs.insert key hvalue
    next =>
      cases heq
      exact hs
    next => cases heq

end Store

/-- What all numbers, the values of a store and those of a call have, the store and the reply have
after the call. -/
theorem GuardedStore.call_all {g g' : GuardedStore Value} {h : Heap} {call : StoreCall Value}
    {reply : Reply Value} {p : Value → Prop} (hnumber : ∀ n, p (.ofNumber n)) (hg : g.store.All p)
    (hcall : ∀ v ∈ call.values, p v) (hok : g.call h call = .ok (reply, g')) :
    g'.store.All p ∧ ∀ v ∈ reply.values, p v := by
  have hfound : ∀ key, ∀ v ∈ (Reply.value (g.store.get? key)).values, p v :=
    fun key v hv => hg key v (Option.mem_toList.mp hv)
  cases call with
  | put key value =>
    simp only [GuardedStore.call, GuardedStore.put] at hok
    split at hok <;> cases hok
    exact ⟨hg.insert key (hcall value (by simp [StoreCall.values])), hfound key⟩
  | get key =>
    simp only [GuardedStore.call, GuardedStore.get] at hok
    split at hok <;> cases hok
    exact ⟨hg, hfound key⟩
  | update key value =>
    simp only [GuardedStore.call, GuardedStore.keep, Store.update] at hok
    split at hok <;> cases hok
    · exact ⟨hg.insert key (hcall value (by simp [StoreCall.values])), by simp [Reply.values]⟩
    · exact ⟨hg, by simp [Reply.values]⟩
  | delete key =>
    simp only [GuardedStore.call, GuardedStore.delete] at hok
    split at hok <;> cases hok
    exact ⟨hg.delete key, hfound key⟩
  | contains key =>
    simp only [GuardedStore.call, GuardedStore.contains] at hok
    split at hok <;> cases hok
    exact ⟨hg, by simp [Reply.values]⟩
  | size =>
    cases hok
    exact ⟨hg, by simp [Reply.values]⟩
  | isEmpty =>
    cases hok
    exact ⟨hg, by simp [Reply.values]⟩
  | clear =>
    cases hok
    exact ⟨Store.all_empty, by simp [Reply.values]⟩
  | keys =>
    simp only [GuardedStore.call, GuardedStore.keys] at hok
    split at hok <;> cases hok
    exact ⟨hg, by simp [Reply.values]⟩
  | entries =>
    simp only [GuardedStore.call, GuardedStore.entries] at hok
    split at hok <;> cases hok
    refine ⟨hg, fun v hv => ?_⟩
    obtain ⟨e, he, rfl⟩ := List.mem_map.mp hv
    exact hg.toList e he
  | compareAndSwap key expected value =>
    obtain ⟨_, hswap, hkept⟩ := exists_ok_of_map hok
    cases hkept
    exact ⟨hg.compareAndSwap (hcall value (by simp [StoreCall.values])) hswap,
      by simp [Reply.values]⟩
  | increment key delta =>
    obtain ⟨_, hsum, hkept⟩ := exists_ok_of_map hok
    cases hkept
    exact ⟨hg.increment hnumber hsum, by simp [Reply.values]⟩
  | decrement key delta =>
    obtain ⟨_, hsum, hkept⟩ := exists_ok_of_map hok
    cases hkept
    exact ⟨hg.decrement hnumber hsum, by simp [Reply.values]⟩

/-- A call on a store stays in every region that has the cells of the store and of the call. -/
theorem GuardedStore.call_within {g g' : GuardedStore Value} {h : Heap} {call : StoreCall Value}
    {reply : Reply Value} {region : Cell → Prop} (hg : g.store.Within region)
    (hcall : ∀ v ∈ call.values, v.Within region) (hok : g.call h call = .ok (reply, g')) :
    g'.store.Within region ∧ ∀ v ∈ reply.values, v.Within region := by
  refine call_all (fun n cell hc => ?_) hg hcall hok
  rw [Value.ofNumber, Value.handles_plain] at hc
  cases hc

/-! ## Applying edits -/

namespace EditList

variable {base : GuardedStore V} {p : V → Prop}

private theorem removeEach_all (keys : List String) (hb : base.store.All p) :
    (removeEach keys base).2.store.All p := by
  induction keys generalizing base with
  | nil => exact hb
  | cons key rest ih =>
    rw [removeEach]
    split
    next old base' hdelete =>
      rw [GuardedStore.delete] at hdelete
      split at hdelete <;> cases hdelete
      exact ih (hb.delete key)
    next => exact hb

private theorem setEach_all {entries : List (String × V)} (hb : base.store.All p)
    (he : ∀ e ∈ entries, p e.2) : (setEach entries base).2.store.All p := by
  induction entries generalizing base with
  | nil => exact hb
  | cons e rest ih =>
    rw [List.forall_mem_cons] at he
    obtain ⟨key, value⟩ := e
    rw [setEach]
    split
    next old base' hput =>
      rw [GuardedStore.put] at hput
      split at hput <;> cases hput
      exact ih (hb.insert key he.1) he.2
    next => exact hb

/-- What the values of a store and of edits have, the store has after they are applied. -/
theorem apply_all {order : EditList V} (hb : base.store.All p)
    (ho : ∀ e ∈ order.assignments, p e.2) : (order.apply base).2.store.All p := by
  have hremoved := removeEach_all order.removals hb
  rw [apply]
  split
  next e base' heq =>
    rw [heq] at hremoved
    exact hremoved
  next base' heq =>
    rw [heq] at hremoved
    exact setEach_all hremoved ho

end EditList

/-! ## Calls on an overlay -/

/-- A call sets a key to a value, and its reply says so. -/
inductive StoreCall.Sets (key : String) (value : V) : StoreCall V → Reply V → Prop
  /-- A put that succeeds sets its key. -/
  | put (reply : Reply V) : Sets key value (.put key value) reply
  /-- An update that found its key sets it. -/
  | update : Sets key value (.update key value) (.flag true)
  /-- A swap that found what it expected sets its key. -/
  | swap (expected : V) : Sets key value (.compareAndSwap key expected value) (.flag true)

/-- A call with this answer writes to a key. Removing everything counts also if it fails, since
the edits are gone then. -/
inductive StoreCall.Writes (key : String) :
    StoreCall V → Except TransactionError (Reply V) → Prop
  /-- The key is set. -/
  | set {value : V} {call : StoreCall V} {reply : Reply V} (hs : call.Sets key value reply) :
    Writes key call (.ok reply)
  /-- The key is removed. -/
  | delete (reply : Reply V) : Writes key (.delete key) (.ok reply)
  /-- Every key is removed. -/
  | clear (answer : Except TransactionError (Reply V)) : Writes key .clear answer

namespace Overlay

/-- Every held value has a property. -/
def All (o : Overlay V) (p : V → Prop) : Prop := ∀ key v, o.held? key = some v → p v

/-- Every cell that an overlay names lies in a region. -/
def Within (o : Overlay Value) (region : Cell → Prop) : Prop := o.All (·.Within region)

section

variable {o : Overlay V} {p : V → Prop}

/-- A value that is held from now on has the property if the others have. -/
theorem All.set (ho : o.All p) (key : String) {value : V} (hvalue : p value) :
    (o.insert key (.set value)).All p := by
  intro k v hv
  rw [held?_insert_set] at hv
  split at hv
  next => exact Option.some.inj hv ▸ hvalue
  next => exact ho k v hv

/-- Nothing is lost with a value that is given up. -/
theorem All.remove (ho : o.All p) (key : String) : (o.insert key .remove).All p := by
  intro k v hv
  rw [held?_insert_remove] at hv
  split at hv
  next => cases hv
  next => exact ho k v hv

/-- After the removal of everything nothing is held. -/
theorem all_removeAll (base : GuardedStore V) : (removeAll base).2.All p :=
  fun key v hv => absurd ((held?_removeAll base key).symm.trans hv) (Option.some_ne_none v).symm

/-- An overlay stays in a larger region. -/
theorem Within.mono {o : Overlay Value} {region larger : Cell → Prop} (ho : o.Within region)
    (hsub : ∀ cell, region cell → larger cell) : o.Within larger :=
  fun key v hv => (ho key v hv).mono hsub

/-- What the values of a store and the held ones have, the visible ones have. -/
theorem all_visible {s : Store V} (hs : s.All p) (hheld : o.All p) {key : String} {v : V}
    (hv : o.visible? s key = some v) : p v := by
  cases hedit : o.edit? key with
  | none => exact hs key v (visible?_of_untouched hedit s ▸ hv)
  | some edit =>
    rw [visible?_of_edit hedit] at hv
    exact hheld key v (by rw [held?, hedit]; exact hv)

end

/-- What a call on an overlay can do. -/
inductive Effect (o : Overlay Value) (h : Heap) :
    StoreCall Value → Outcome (Overlay Value) Value → Prop
  /-- The overlay is kept, nothing is written, and the answer consists of copies. -/
  | kept {call : StoreCall Value} {answer : Except TransactionError (Reply Value)} {h' : Heap}
    {vs : List Value} (hwrites : ∀ key, ¬ call.Writes key answer) (hcopies : Copies h h' vs)
    (hvalues : answerValues answer ⊆ vs) : Effect o h call ⟨answer, o, h'⟩
  /-- A copy of a value that was passed in is held, and what was held before may be answered. -/
  | set {call : StoreCall Value} {reply : Reply Value} {key : String} {value copy : Value}
    {h' : Heap} (hsets : call.Sets key value reply) (hcopy : value.copy h = .ok (copy, h'))
    (hvalues : ∀ v ∈ reply.values, o.held? key = some v) :
    Effect o h call ⟨.ok reply, o.insert key (.set copy), h'⟩
  /-- A key is removed, and what was held is answered. -/
  | removed (key : String) :
    Effect o h (.delete key) ⟨.ok (.value (o.held? key)), o.insert key .remove, h⟩
  /-- Nothing is held any more. -/
  | cleared {answer : Except TransactionError (Reply Value)} {o' : Overlay Value}
    (hvalues : answerValues answer = []) (hheld : ∀ key, o'.held? key = none) :
    Effect o h .clear ⟨answer, o', h⟩

/-- A failure writes to no key, unless everything was to be removed. -/
private theorem not_writes_error {call : StoreCall Value} (hcall : call ≠ .clear)
    (e : TransactionError) (key : String) : ¬ call.Writes key (.error e) := by
  rintro (_ | _ | _)
  exact hcall rfl

/-- A success writes only if it sets or removes. -/
private theorem not_writes_ok {call : StoreCall Value} {reply : Reply Value}
    (hsets : ∀ key value, ¬ call.Sets key value reply) (hdelete : ∀ key, call ≠ .delete key)
    (hclear : call ≠ .clear) (key : String) : ¬ call.Writes key (.ok reply) := by
  intro hwrites
  cases hwrites with
  | set hs => exact hsets key _ hs
  | delete => exact hdelete key rfl
  | clear => exact hclear rfl

private theorem kept_of_error (call : StoreCall Value) (hcall : call ≠ .clear)
    (o : Overlay Value) (h : Heap) (e : TransactionError) :
    o.Effect h call (o.unchanged h (.error e)) :=
  .kept (not_writes_error hcall e) (.nil h) (by simp)

/-- A call that neither sets nor removes and answers no values. -/
private theorem kept_of_map {α : Type} (call : StoreCall Value) (hcall : call ≠ .clear)
    (o : Overlay Value) (h : Heap) (result : Except TransactionError α) (reply : α → Reply Value)
    (hreply : ∀ a, (∀ key, ¬ call.Writes key (.ok (reply a))) ∧ (reply a).values = []) :
    o.Effect h call (o.unchanged h (result.map reply)) := by
  cases result with
  | error e => exact kept_of_error call hcall o h e
  | ok a => exact .kept (hreply a).1 (.nil h) (by simp [Except.map, (hreply a).2])

/-- A conditional set either holds a copy or leaves everything as it was. -/
theorem setIf_eq_ok [Copyable V] {o o' : Overlay V} {h h' : Heap} {key : String} {value : V}
    {condition : Except TransactionError Bool} {set : Bool}
    (heq : o.setIf h key value condition = .ok (set, o', h')) :
    (set = true ∧ ∃ copy, Copyable.copy h value = .ok (copy, h') ∧
        o' = o.insert key (.set copy)) ∨
      (set = false ∧ o' = o ∧ h' = h) := by
  unfold setIf at heq
  split at heq
  next =>
    cases hcopy : Copyable.copy h value with
    | error e => simp [Overlay.set, hcopy] at heq
    | ok result =>
      simp only [Overlay.set, hcopy] at heq
      cases heq
      exact .inl ⟨rfl, result.1, rfl, rfl⟩
  next =>
    cases heq
    exact .inr ⟨rfl, rfl, rfl⟩
  next => cases heq

/-- A conditional set as an effect of the call that asked for it. -/
private theorem effect_of_setIf {o : Overlay Value} {h : Heap} {key : String} {value : Value}
    (condition : Except TransactionError Bool) {call : StoreCall Value}
    {outcome : Outcome (Overlay Value) Value} (hclear : call ≠ .clear)
    (hsets : call.Sets key value (.flag true))
    (hkept : ∀ key, ¬ call.Writes key (.ok (.flag false)))
    (hok : ∀ found o' h', o.setIf h key value condition = .ok (found, o', h') →
      outcome = ⟨.ok (.flag found), o', h'⟩)
    (herror : ∀ e, o.setIf h key value condition = .error e →
      outcome = o.unchanged h (.error e)) :
    o.Effect h call outcome := by
  cases heq : o.setIf h key value condition with
  | error e => exact herror e heq ▸ kept_of_error call hclear o h e
  | ok result =>
    obtain ⟨found, o', h'⟩ := result
    rw [hok found o' h' heq]
    rcases setIf_eq_ok heq with ⟨rfl, copy, hcopy, rfl⟩ | ⟨rfl, rfl, rfl⟩
    · exact .set hsets hcopy (by simp [Reply.values])
    · exact .kept hkept (.nil h') (by simp [Reply.values])

section

variable {o : Overlay Value} {h h' : Heap} {base : GuardedStore Value}

/-- What is read is a copy. -/
theorem copies_of_read (hclosed : h.Closed h.Has) (hbase : base.store.Within h.Has)
    (hheld : o.Within h.Has) {key : String} {found : Option Value}
    (heq : o.read h base key = .ok (found, h')) : Copies h h' found.toList := by
  rcases read_eq_ok heq with ⟨-, rfl, rfl⟩ | ⟨v, copy, hvisible, hcopy, rfl⟩
  · exact .nil h'
  · exact Value.copies_of_copy hclosed (all_visible hbase hheld hvisible) hcopy

/-- The listed entries are copies. -/
theorem copies_of_entries (hclosed : h.Closed h.Has) (hbase : base.store.Within h.Has)
    (hheld : o.Within h.Has) {order : KeyOrder} {found : List (String × Value)}
    (heq : o.entries order h base = .ok (found, h')) :
    ∃ vs, Copies h h' vs ∧ found.map Prod.snd ⊆ vs := by
  obtain ⟨untouched, h₁, held, hfirst, hsecond, rfl⟩ := entries_eq_ok heq
  have hleft := Copyable.copies_of_copyEntries hclosed
    (fun e he => hbase e.1 e.2 (mem_untouchedIn_iff.mp he).1) hfirst
  have hright := Copyable.copies_of_copyEntries (hleft.closed_has hclosed)
    (fun e he => (hheld e.1 e.2 (mem_assignments_toListIn_iff.mp he)).mono fun _ hi =>
      hi.mono hleft.le) hsecond
  refine ⟨_, hleft.append hright, fun v hv => ?_⟩
  obtain ⟨e, he, rfl⟩ := List.mem_map.mp hv
  rw [← List.map_append]
  exact List.mem_map_of_mem (Table.mem_of_mem_toList_ofList he)

/-- Every call on an overlay has one of the effects. -/
theorem call_effect (hclosed : h.Closed h.Has) (hbase : base.store.Within h.Has)
    (hheld : o.Within h.Has) (call : StoreCall Value) : o.Effect h call (o.call h base call) := by
  cases call with
  | put key value =>
    cases hcopy : Copyable.copy h value with
    | error e =>
      have hcall : o.call h base (.put key value) = o.unchanged h (.error (.copy e)) := by
        simp [Overlay.call, Overlay.set, hcopy]
      exact hcall ▸ kept_of_error (.put key value) nofun o h _
    | ok result =>
      have hcall : o.call h base (.put key value) =
          ⟨.ok (.value (o.held? key)), o.insert key (.set result.1), result.2⟩ := by
        simp [Overlay.call, Overlay.set, hcopy]
      exact hcall ▸ .set (.put _) hcopy (by simp [Reply.values])
  | get key =>
    cases hread : o.read h base key with
    | error e =>
      have hcall : o.call h base (.get key) = o.unchanged h (.error e) := by
        simp [Overlay.call, hread]
      exact hcall ▸ kept_of_error (.get key) nofun o h e
    | ok result =>
      have hcall : o.call h base (.get key) = ⟨.ok (.value result.1), o, result.2⟩ := by
        simp [Overlay.call, hread]
      exact hcall ▸ .kept (not_writes_ok nofun nofun nofun)
        (copies_of_read hclosed hbase hheld hread) (by simp [Reply.values])
  | update key value =>
    exact effect_of_setIf (o.shows base key) nofun .update (not_writes_ok nofun nofun nofun)
      (fun found o' h' heq => by simp [Overlay.call, heq]) fun e heq => by simp [Overlay.call, heq]
  | delete key => exact .removed key
  | contains key =>
    exact kept_of_map (.contains key) nofun o h (o.shows base key) .flag fun _ =>
      ⟨not_writes_ok nofun nofun nofun, rfl⟩
  | size =>
    exact kept_of_map .size nofun o h (o.keys base) (fun keys => .count keys.length) fun _ =>
      ⟨not_writes_ok nofun nofun nofun, rfl⟩
  | isEmpty =>
    exact kept_of_map .isEmpty nofun o h (o.keys base) (fun keys => .flag (keys.length == 0))
      fun _ => ⟨not_writes_ok nofun nofun nofun, rfl⟩
  | clear =>
    have hnone := held?_removeAll base
    rw [Overlay.call]
    split
    next o' heq => exact .cleared rfl fun key => by simpa [heq] using hnone key
    next e o' heq => exact .cleared rfl fun key => by simpa [heq] using hnone key
  | keys =>
    exact kept_of_map .keys nofun o h (o.keys base) .keys fun _ =>
      ⟨not_writes_ok nofun nofun nofun, rfl⟩
  | entries order =>
    cases hentries : o.entries order h base with
    | error e =>
      have hcall : o.call h base (.entries order) = o.unchanged h (.error e) := by
        simp [Overlay.call, hentries]
      exact hcall ▸ kept_of_error (.entries order) nofun o h e
    | ok result =>
      have hcall : o.call h base (.entries order) = ⟨.ok (.entries result.1), o, result.2⟩ := by
        simp [Overlay.call, hentries]
      obtain ⟨vs, hcopies, hsub⟩ := copies_of_entries hclosed hbase hheld hentries
      exact hcall ▸ .kept (not_writes_ok nofun nofun nofun) hcopies hsub
  | compareAndSwap key expected value =>
    exact effect_of_setIf (o.agrees h base key expected) nofun (.swap expected)
      (not_writes_ok nofun nofun nofun)
      (fun found o' h' heq => by simp [Overlay.call, heq]) fun e heq => by simp [Overlay.call, heq]
  | increment key delta => exact kept_of_error (.increment key delta) nofun o h _
  | decrement key delta => exact kept_of_error (.decrement key delta) nofun o h _

end

end Overlay

end OverlayStore
