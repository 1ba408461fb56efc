import OverlayStore.Overlay.Read

/-!
# Calls on an overlay

An overlay answers the calls of a store without touching the store. A call that fails leaves the
overlay and the heap as they were, but for the one that removes everything.
-/

namespace OverlayStore

/-- What a call answers and leaves behind. -/
structure Outcome (σ V : Type) where
  /-- The answer. -/
  answer : Except TransactionError (Reply V)
  /-- What was called, after the call. -/
  state : σ
  /-- The heap after the call. -/
  heap : Heap

namespace Overlay

/-- The outcome of a call that only reads. -/
def unchanged (o : Overlay V) (h : Heap) (answer : Except TransactionError (Reply V)) :
    Outcome (Overlay V) V :=
  ⟨answer, o, h⟩

/-- Carry out a call of a store on an overlay. Counting is refused: a sum that is read here could
not be made good when the edits are applied. -/
def call [Storable V] (o : Overlay V) (h : Heap) (base : GuardedStore V) :
    StoreCall V → Outcome (Overlay V) V
  | .put key value =>
    match o.set h key value with
    | .ok (old, o, h) => ⟨.ok (.value old), o, h⟩
    | .error e => o.unchanged h (.error (.copy e))
  | .get key =>
    match o.read h base key with
    | .ok (found, h) => ⟨.ok (.value found), o, h⟩
    | .error e => o.unchanged h (.error e)
  | .update key value =>
    match o.setIf h key value (o.shows base key) with
    | .ok (found, o, h) => ⟨.ok (.flag found), o, h⟩
    | .error e => o.unchanged h (.error e)
  | .delete key => ⟨.ok (.value (o.remove key).1), (o.remove key).2, h⟩
  | .contains key => o.unchanged h ((o.shows base key).map .flag)
  | .size => o.unchanged h ((o.keys base).map fun keys => .count keys.length)
  | .isEmpty => o.unchanged h ((o.keys base).map fun keys => .flag (keys.length == 0))
  | .clear =>
    match removeAll base with
    | (none, o) => ⟨.ok .done, o, h⟩
    | (some e, o) => ⟨.error (.store e), o, h⟩
  | .keys => o.unchanged h ((o.keys base).map .keys)
  | .entries order =>
    match o.entries order h base with
    | .ok (entries, h) => ⟨.ok (.entries entries), o, h⟩
    | .error e => o.unchanged h (.error e)
  | .compareAndSwap key expected value =>
    match o.setIf h key value (o.agrees h base key expected) with
    | .ok (swapped, o, h) => ⟨.ok (.flag swapped), o, h⟩
    | .error e => o.unchanged h (.error e)
  | .increment _ _ => o.unchanged h (.error (.unsupported "increment_and_get"))
  | .decrement _ _ => o.unchanged h (.error (.unsupported "decrement_and_get"))

end Overlay

end OverlayStore
