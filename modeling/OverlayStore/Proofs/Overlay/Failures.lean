import OverlayStore.Proofs.Cells.Calls
import OverlayStore.Proofs.Overlay.Outcomes

/-!
# Why calls fail

A call on a store is refused, or it counts badly, or its comparison runs around a cycle. A call on
an overlay fails because the store refuses to be asked, or a value has no copy, or a comparison runs
around a cycle, or the call counts. The values that are copied are those passed in, the visible one
of a key that is read, and all visible ones for a listing.
-/

namespace OverlayStore

/-! ## Refusals -/

namespace GuardedStore

variable {g : GuardedStore V} {key : String} {e : StoreError}

/-- What stands behind a rule fails with the refusal of the rule. -/
private theorem ne_endless_of_guarded {α : Type} {refusal : Option StoreError} {a : α}
    (hrefusal : refusal ≠ some .endless)
    (he : (match refusal with
      | some e => Except.error e
      | none => .ok a) = .error e) : e ≠ .endless := by
  cases refusal with
  | none => cases he
  | some e' =>
    cases he
    exact fun hendless => hrefusal (congrArg some hendless)

/-- Reading a key compares nothing. -/
theorem ne_endless_of_get (he : g.get key = .error e) : e ≠ .endless :=
  ne_endless_of_guarded (g.refusals.checkOn_ne_endless .get key) he

/-- Asking for a key compares nothing. -/
theorem ne_endless_of_contains (he : g.contains key = .error e) : e ≠ .endless :=
  ne_endless_of_guarded (g.refusals.checkOn_ne_endless .contains key) he

/-- Setting a value compares nothing. -/
theorem ne_endless_of_put {value : V} (he : g.put key value = .error e) : e ≠ .endless :=
  ne_endless_of_guarded (g.refusals.checkOn_ne_endless .put key) he

/-- Removing a key compares nothing. -/
theorem ne_endless_of_delete (he : g.delete key = .error e) : e ≠ .endless :=
  ne_endless_of_guarded (g.refusals.checkOn_ne_endless .delete key) he

/-- Listing the keys compares nothing. -/
theorem ne_endless_of_keys (he : g.keys = .error e) : e ≠ .endless :=
  ne_endless_of_guarded (g.refusals.check_ne_endless .keys) he

/-- Listing the entries compares nothing. -/
theorem ne_endless_of_entries (he : g.entries = .error e) : e ≠ .endless :=
  ne_endless_of_guarded (g.refusals.check_ne_endless .entries) he

end GuardedStore

/-! ## Calls on a store -/

namespace Store

variable [Storable V] {s : Store V} {key : String} {delta : Int64}

/-- Counting compares nothing. -/
theorem counted_ne_endless {current : Option V} : counted current delta ≠ .error .endless := by
  intro he
  unfold counted at he
  split at he
  next => split at he <;> cases he
  next =>
    split at he
    next => cases he
    next =>
      split at he
      next => cases he
      next => split at he <;> cases he

/-- Adding compares nothing. -/
theorem increment_ne_endless : s.increment key delta ≠ .error .endless := by
  intro he
  rw [increment] at he
  split at he
  next => cases he
  next hfailed =>
    cases he
    exact counted_ne_endless hfailed

/-- Subtracting compares nothing. -/
theorem decrement_ne_endless : s.decrement key delta ≠ .error .endless := by
  intro he
  rw [decrement] at he
  split at he
  next => exact increment_ne_endless he
  next => cases he

/-- A comparison that does not end is that of the stored value with the expected one. -/
theorem incomparable_of_endless {h : Heap} {expected value : V}
    (he : s.compareAndSwap h key expected value = .error .endless) :
    ∃ current, s.get? key = some current ∧ Storable.same? h current expected = none := by
  rw [compareAndSwap] at he
  split at he
  next => cases he
  next current hget =>
    split at he
    next => cases he
    next => cases he
    next hsame => exact ⟨current, hget, hsame⟩

end Store

/-- A call on a store runs around a cycle only where it compares. -/
theorem GuardedStore.compares_of_endless [Storable V] {g : GuardedStore V} {h : Heap}
    {call : StoreCall V} (he : g.call h call = .error .endless) :
    ∃ key expected value current, call = .compareAndSwap key expected value ∧
      g.store.get? key = some current ∧ Storable.same? h current expected = none := by
  cases call with
  | put key value => exact absurd rfl (ne_endless_of_put (error_of_map he))
  | get key => exact absurd rfl (ne_endless_of_get (error_of_map he))
  | delete key => exact absurd rfl (ne_endless_of_delete (error_of_map he))
  | contains key => exact absurd rfl (ne_endless_of_contains (error_of_map he))
  | keys => exact absurd rfl (ne_endless_of_keys (error_of_map he))
  | entries => exact absurd rfl (ne_endless_of_entries (error_of_map he))
  | update | size | isEmpty | clear => cases he
  | compareAndSwap key expected value =>
    obtain ⟨current, hget, hsame⟩ := Store.incomparable_of_endless (error_of_map he)
    exact ⟨key, expected, value, current, rfl, hget, hsame⟩
  | increment key delta => exact absurd (error_of_map he) Store.increment_ne_endless
  | decrement key delta => exact absurd (error_of_map he) Store.decrement_ne_endless

/-! ## Calls on an overlay -/

namespace Overlay

/-- What the store answers for an untouched key is visible. -/
private theorem visible?_of_get {o : Overlay V} {base : GuardedStore V} {key : String}
    (hedit : o.edit? key = none) {v : V} (hget : base.get key = .ok (some v)) :
    o.visible? base.store key = some v := by
  rw [GuardedStore.get] at hget
  split at hget
  next => cases hget
  next =>
    rw [visible?_of_untouched hedit]
    exact Except.ok.inj hget

/-- Why a call on an overlay fails. -/
inductive Failure [Storable V] (o : Overlay V) (h : Heap) (base : GuardedStore V) :
    StoreCall V → TransactionError → Prop
  /-- The store refuses to be asked. -/
  | refused (call : StoreCall V) {e : StoreError} (hends : e ≠ .endless) :
    Failure o h base call (.store e)
  /-- A value that is passed in has no copy. -/
  | given {call : StoreCall V} {v : V} (hv : v ∈ call.values) {e : CopyError}
    (hcopy : Copyable.copy h v = .error e) : Failure o h base call (.copy e)
  /-- The value that is read has no copy. -/
  | visible {key : String} {v : V} (hv : o.visible? base.store key = some v) {e : CopyError}
    (hcopy : Copyable.copy h v = .error e) : Failure o h base (.get key) (.copy e)
  /-- A listed value of the store has no copy. -/
  | untouched {order : KeyOrder} {e : CopyError}
    (hcopy : Copyable.copyEntries h (o.untouchedIn order base.store.entries) = .error e) :
    Failure o h base (.entries order) (.copy e)
  /-- A listed value of the overlay has no copy, after those of the store were copied. -/
  | held {order : KeyOrder} {untouched : List (String × V)} {h' : Heap}
    (huntouched : Copyable.copyEntries h (o.untouchedIn order base.store.entries) =
      .ok (untouched, h'))
    {e : CopyError}
    (hcopy : Copyable.copyEntries h' (EditList.assignments (o.toListIn order)) = .error e) :
    Failure o h base (.entries order) (.copy e)
  /-- The visible value cannot be compared with the expected one. -/
  | incomparable {key : String} {current expected value : V}
    (hv : o.visible? base.store key = some current)
    (hsame : Storable.same? h current expected = none) :
    Failure o h base (.compareAndSwap key expected value) (.store .endless)
  /-- The call counts. -/
  | counts (call : StoreCall V) (operation : String) :
    Failure o h base call (.unsupported operation)

variable [Storable V] {o : Overlay V} {h : Heap} {base : GuardedStore V} {key : String}
  {call : StoreCall V} {e : TransactionError}

private theorem failure_of_shows (he : o.shows base key = .error e) : o.Failure h base call e := by
  rw [shows] at he
  split at he
  next => cases he
  next => cases he
  next =>
    split at he
    next => cases he
    next hcontains =>
      cases he
      exact .refused _ (GuardedStore.ne_endless_of_contains hcontains)

private theorem failure_of_keys (he : o.keys base = .error e) : o.Failure h base call e := by
  rw [keys] at he
  split at he
  next => cases he
  next hkeys =>
    cases he
    exact .refused _ (GuardedStore.ne_endless_of_keys hkeys)

private theorem failure_of_handOut {v : V} (hv : o.visible? base.store key = some v)
    (he : handOut h v = .error e) : o.Failure h base (.get key) e := by
  rw [handOut] at he
  split at he
  next => cases he
  next hcopy =>
    cases he
    exact .visible hv hcopy

private theorem failure_of_read (he : o.read h base key = .error e) :
    o.Failure h base (.get key) e := by
  rw [read] at he
  split at he
  next => cases he
  next hedit => exact failure_of_handOut (visible?_of_edit hedit _) he
  next hedit =>
    split at he
    next hget => exact failure_of_handOut (visible?_of_get hedit hget) he
    next => cases he
    next hget =>
      cases he
      exact .refused _ (GuardedStore.ne_endless_of_get hget)

private theorem failure_of_same {current expected value : V}
    (hv : o.visible? base.store key = some current) (he : same h current expected = .error e) :
    o.Failure h base (.compareAndSwap key expected value) e := by
  rw [same] at he
  split at he
  next => cases he
  next hsame =>
    cases he
    exact .incomparable hv hsame

private theorem failure_of_agrees {expected value : V}
    (he : o.agrees h base key expected = .error e) :
    o.Failure h base (.compareAndSwap key expected value) e := by
  rw [agrees] at he
  split at he
  next => cases he
  next hedit => exact failure_of_same (visible?_of_edit hedit _) he
  next hedit =>
    split at he
    next hget => exact failure_of_same (visible?_of_get hedit hget) he
    next => cases he
    next hget =>
      cases he
      exact .refused _ (GuardedStore.ne_endless_of_get hget)

private theorem failure_of_entries {order : KeyOrder} (he : o.entries order h base = .error e) :
    o.Failure h base (.entries order) e := by
  rw [entries] at he
  split at he
  next hentries =>
    cases he
    exact .refused _ (GuardedStore.ne_endless_of_entries hentries)
  next table hentries =>
    have htable : table = base.store.entries := by
      rw [GuardedStore.entries] at hentries
      split at hentries <;> cases hentries
      rfl
    subst htable
    split at he
    next huntouched =>
      cases he
      exact .untouched huntouched
    next huntouched =>
      split at he
      next hheld =>
        cases he
        exact .held huntouched hheld
      next => cases he

private theorem failure_of_holding {reply : Reply V} {v : V} (hv : v ∈ call.values)
    (he : (o.holding h key reply (Copyable.copy h v)).answer = .error e) :
    o.Failure h base call e := by
  cases hcopy : Copyable.copy h v with
  | error source =>
    rw [hcopy] at he
    cases he
    exact .given hv hcopy
  | ok result =>
    rw [hcopy] at he
    cases he

private theorem failure_of_holdingIf {v : V} (hv : v ∈ call.values)
    {condition : Except TransactionError Bool}
    (hcondition : ∀ e, condition = .error e → o.Failure h base call e)
    (he : (o.holdingIf h key (Copyable.copy h v) condition).answer = .error e) :
    o.Failure h base call e := by
  obtain e' | ⟨- | -⟩ := condition
  · cases he
    exact hcondition e rfl
  · cases he
  · exact failure_of_holding hv he

private theorem failure_of_answering {α : Type} {reply : α → Reply V}
    {result : Except TransactionError (α × Heap)}
    (hresult : ∀ e, result = .error e → o.Failure h base call e)
    (he : (o.answering h reply result).answer = .error e) : o.Failure h base call e := by
  cases result with
  | error e' =>
    cases he
    exact hresult e rfl
  | ok result => cases he

/-- There is no other reason for which a call fails. -/
theorem failure_of_call (he : (o.call h base call).answer = .error e) :
    o.Failure h base call e := by
  cases call with
  | put key value =>
    rw [call_put] at he
    exact failure_of_holding List.mem_cons_self he
  | get key =>
    rw [call_get] at he
    exact failure_of_answering (fun e => failure_of_read) he
  | update key value =>
    rw [call_update] at he
    exact failure_of_holdingIf List.mem_cons_self (fun e => failure_of_shows) he
  | delete key => cases he
  | contains key => exact failure_of_shows (error_of_map he)
  | size | isEmpty | keys => exact failure_of_keys (error_of_map he)
  | clear =>
    rw [Overlay.call, removeAll] at he
    cases hkeys : base.keys with
    | ok keys =>
      rw [hkeys] at he
      cases he
    | error source =>
      rw [hkeys] at he
      cases he
      exact .refused _ (GuardedStore.ne_endless_of_keys hkeys)
  | entries =>
    rw [call_entries] at he
    exact failure_of_answering (fun e => failure_of_entries) he
  | compareAndSwap key expected value =>
    rw [call_compareAndSwap] at he
    exact failure_of_holdingIf (List.mem_cons_of_mem _ List.mem_cons_self)
      (fun e => failure_of_agrees) he
  | increment | decrement =>
    cases he
    exact .counts _ _

end Overlay

end OverlayStore
