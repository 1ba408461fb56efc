import OverlayStore.Overlay.Call

/-!
# What a call on an overlay comes to

A call reads into the heap, holds a copy of a value, or holds it on a condition. Whichever it is, if
it fails then the overlay and the heap are what they were. Only a clear loses the edits when the
store does not list its keys.
-/

namespace OverlayStore

namespace Overlay

/-- The outcome of a call that reads into the heap. -/
def answering {α : Type} (o : Overlay V) (h : Heap) (reply : α → Reply V) :
    Except TransactionError (α × Heap) → Outcome (Overlay V) V
  | .ok (a, h) => ⟨.ok (reply a), o, h⟩
  | .error e => o.unchanged h (.error e)

/-- The outcome of a call that holds a copy. -/
def holding (o : Overlay V) (h : Heap) (key : String) (reply : Reply V) :
    Except CopyError (V × Heap) → Outcome (Overlay V) V
  | .ok (copy, h) => ⟨.ok reply, o.insert key (.set copy), h⟩
  | .error e => o.unchanged h (.error (.copy e))

/-- The outcome of a call that holds a copy on a condition. -/
def holdingIf (o : Overlay V) (h : Heap) (key : String) (copy : Except CopyError (V × Heap)) :
    Except TransactionError Bool → Outcome (Overlay V) V
  | .ok true => o.holding h key (.flag true) copy
  | .ok false => o.unchanged h (.ok (.flag false))
  | .error e => o.unchanged h (.error e)

section

variable [Storable V] (o : Overlay V) (h : Heap) (base : GuardedStore V) (key : String) (value : V)

/-- A call that copies reads into the heap, holds a copy, or holds it on a condition, and a clear
puts removals in place of the edits. -/
theorem call_eq (call : StoreCall V) : o.call h base call =
    match call with
    | .put key value => o.holding h key (.value (o.held? key)) (Copyable.copy h value)
    | .get key => o.answering h .value (o.read h base key)
    | .update key value => o.holdingIf h key (Copyable.copy h value) (o.shows base key)
    | .clear =>
      match base.keys with
      | .ok keys => ⟨.ok .done, removing keys, h⟩
      | .error e => ⟨.error (.store e), .empty, h⟩
    | .entries order => o.answering h .entries (o.entries order h base)
    | .compareAndSwap key expected value =>
      o.holdingIf h key (Copyable.copy h value) (o.agrees h base key expected)
    | call => o.call h base call := by
  cases call with
  | put key value =>
    dsimp only
    rw [Overlay.call, Overlay.set]
    cases Copyable.copy h value <;> rfl
  | get key =>
    dsimp only
    rw [Overlay.call]
    cases o.read h base key <;> rfl
  | update key value =>
    dsimp only
    rw [Overlay.call, setIf.eq_def, Overlay.set]
    obtain e | ⟨- | -⟩ := o.shows base key <;> first | rfl | cases Copyable.copy h value <;> rfl
  | clear =>
    dsimp only
    rw [Overlay.call, removeAll]
    cases base.keys <;> rfl
  | entries order =>
    dsimp only
    rw [Overlay.call]
    cases o.entries order h base <;> rfl
  | compareAndSwap key expected value =>
    dsimp only
    rw [Overlay.call, setIf.eq_def, Overlay.set]
    obtain e | ⟨- | -⟩ := o.agrees h base key expected <;>
      first | rfl | cases Copyable.copy h value <;> rfl
  | _ => rfl

/-- A put holds a copy, and answers the value that was held. -/
theorem call_put : o.call h base (.put key value) =
    o.holding h key (.value (o.held? key)) (Copyable.copy h value) :=
  o.call_eq h base (.put key value)

/-- A get reads. -/
theorem call_get : o.call h base (.get key) = o.answering h .value (o.read h base key) :=
  o.call_eq h base (.get key)

/-- An update holds a copy if the key shows. -/
theorem call_update : o.call h base (.update key value) =
    o.holdingIf h key (Copyable.copy h value) (o.shows base key) :=
  o.call_eq h base (.update key value)

/-- A listing reads all entries. -/
theorem call_entries (order : KeyOrder) :
    o.call h base (.entries order) = o.answering h .entries (o.entries order h base) :=
  o.call_eq h base (.entries order)

/-- A compare-and-swap holds a copy if the visible value is the expected one. -/
theorem call_compareAndSwap (expected : V) : o.call h base (.compareAndSwap key expected value) =
    o.holdingIf h key (Copyable.copy h value) (o.agrees h base key expected) :=
  o.call_eq h base (.compareAndSwap key expected value)

end

/-! ## Calls that fail -/

section

variable {o : Overlay V} {h : Heap} {key : String} {reply : Reply V} {e : TransactionError}

/-- Without a copy nothing is held. -/
theorem holding_of_error {copy : Except CopyError (V × Heap)}
    (herror : (o.holding h key reply copy).answer = .error e) :
    o.holding h key reply copy = o.unchanged h (.error e) := by
  cases copy with
  | ok result => cases herror
  | error source =>
    cases herror
    rfl

/-- Nor if the condition fails. -/
theorem holdingIf_of_error {copy : Except CopyError (V × Heap)}
    {condition : Except TransactionError Bool}
    (herror : (o.holdingIf h key copy condition).answer = .error e) :
    o.holdingIf h key copy condition = o.unchanged h (.error e) := by
  obtain e' | ⟨- | -⟩ := condition
  · cases herror
    rfl
  · cases herror
  · exact holding_of_error herror

/-- What cannot be read leaves no new cells. -/
theorem answering_of_error {α : Type} {reply : α → Reply V}
    {result : Except TransactionError (α × Heap)}
    (herror : (o.answering h reply result).answer = .error e) :
    o.answering h reply result = o.unchanged h (.error e) := by
  cases result with
  | ok result => cases herror
  | error e' =>
    cases herror
    rfl

variable [Storable V] {base : GuardedStore V} {call : StoreCall V}

/-- A call that fails leaves the overlay and the heap, unless it clears. -/
theorem call_of_error (hne : call ≠ .clear) (herror : (o.call h base call).answer = .error e) :
    o.call h base call = o.unchanged h (.error e) := by
  cases call with
  | clear => exact absurd rfl hne
  | put key value =>
    rw [call_put] at herror ⊢
    exact holding_of_error herror
  | get key =>
    rw [call_get] at herror ⊢
    exact answering_of_error herror
  | update key value =>
    rw [call_update] at herror ⊢
    exact holdingIf_of_error herror
  | entries =>
    rw [call_entries] at herror ⊢
    exact answering_of_error herror
  | compareAndSwap key expected value =>
    rw [call_compareAndSwap] at herror ⊢
    exact holdingIf_of_error herror
  | delete => cases herror
  | contains | size | isEmpty | keys | increment | decrement =>
    exact congrArg (o.unchanged h) herror

/-- A clear fails if the keys of the store cannot be listed, and then the edits are gone. -/
theorem call_clear_of_error {e : StoreError} (hkeys : base.keys = .error e) :
    o.call h base .clear = ⟨.error (.store e), .empty, h⟩ := by
  rw [call_eq, hkeys]

end

/-- An overlay without edits is the empty one. -/
theorem eq_empty_iff_size_eq_zero {o : Overlay V} : o = empty ↔ o.size = 0 := by
  obtain ⟨edits⟩ := o
  rw [empty, Overlay.mk.injEq, size, Std.ExtTreeMap.eq_empty_iff_size_eq_zero]

end Overlay

end OverlayStore
