import OverlayStore.Store.Call

/-!
# Guarded stores

A store behind rules that refuse some operations, altogether or on some keys, each with an error of
its own. A refusal comes before the store is touched. The store without rules is the plain store.
-/

namespace OverlayStore

/-- The operations that a rule can refuse. -/
inductive Operation where
  /-- Setting a value. -/
  | put
  /-- Reading a value. -/
  | get
  /-- Removing a key. -/
  | delete
  /-- Asking for a key. -/
  | contains
  /-- Listing the keys. -/
  | keys
  /-- Listing the entries. -/
  | entries
  deriving DecidableEq, Repr

/-- Name of the operation in a refusal. -/
def Operation.name : Operation → String
  | .put => "put"
  | .get => "get"
  | .delete => "delete"
  | .contains => "contains_key"
  | .keys => "keys"
  | .entries => "get_all"

/-- An error with which a call can be refused. Refusing compares nothing, so it always ends. -/
structure Refusal where
  /-- The error. -/
  error : StoreError
  /-- It is none of a comparison. -/
  ends : error ≠ .endless

namespace Refusal

/-- The refusal of an argument, with a message. -/
def argument (message : String) : Refusal :=
  ⟨.badArgument message, StoreError.badArgument_ne_endless message⟩

/-- An operation is rejected as a whole. -/
def whole (op : Operation) : Refusal := argument (op.name ++ " rejected")

/-- An operation is rejected on one key. -/
def onKey (op : Operation) (key : String) : Refusal :=
  argument (op.name ++ " rejected for key " ++ key)

end Refusal

/-- When an operation is refused, and with what error. -/
inductive Rule where
  /-- Never. -/
  | never
  /-- Always. -/
  | always (refusal : Operation → Refusal := Refusal.whole)
  /-- On the keys that have a refusal. -/
  | within (refusal? : Operation → String → Option Refusal)

/-- The rule that refuses an operation on listed keys. -/
def Rule.on (keys : List String) (refusal : Operation → String → Refusal := Refusal.onKey) : Rule :=
  .within fun op key => if key ∈ keys then some (refusal op key) else none

/-- A rule for every operation. -/
abbrev Refusals : Type := Operation → Rule

namespace Refusals

/-- Nothing is refused. -/
def none : Refusals := fun _ => .never

/-- One key is read-only: nothing is refused but to set its value. -/
def readOnly (key : String) : Refusals
  | .put => .on [key] fun _ key => .argument ("key " ++ key ++ " is read-only")
  | .get | .delete | .contains | .keys | .entries => .never

/-- The refusal of an operation without a key, if there is one. -/
def check (r : Refusals) (op : Operation) : Option StoreError :=
  match r op with
  | .always refusal => some (refusal op).error
  | .never | .within _ => Option.none

/-- The refusal of an operation on a key, if there is one. -/
def checkOn (r : Refusals) (op : Operation) (key : String) : Option StoreError :=
  match r op with
  | .always refusal => some (refusal op).error
  | .within refusal? => (refusal? op key).map Refusal.error
  | .never => Option.none

@[simp] theorem check_none (op : Operation) : none.check op = Option.none := rfl

@[simp] theorem checkOn_none (op : Operation) (key : String) : none.checkOn op key = Option.none :=
  rfl

/-- No operation is refused because a comparison does not end. -/
theorem check_ne_endless (r : Refusals) (op : Operation) : r.check op ≠ some .endless := by
  intro he
  rw [check] at he
  split at he
  next refusal _ => exact (refusal op).ends (Option.some.inj he)
  next => cases he
  next => cases he

/-- Nor is an operation on a key. -/
theorem checkOn_ne_endless (r : Refusals) (op : Operation) (key : String) :
    r.checkOn op key ≠ some .endless := by
  intro he
  rw [checkOn] at he
  split at he
  next refusal _ => exact (refusal op).ends (Option.some.inj he)
  next =>
    obtain ⟨refusal, -, hends⟩ := Option.map_eq_some_iff.mp he
    exact refusal.ends hends
  next => cases he

/-- A read-only key refuses its value, and nothing else is refused. -/
theorem checkOn_readOnly (locked : String) (op : Operation) (key : String) :
    (readOnly locked).checkOn op key =
      if op = .put ∧ key = locked then
        some (.badArgument ("key " ++ locked ++ " is read-only"))
      else Option.none := by
  cases op with
  | put =>
    by_cases heq : key = locked <;> simp [checkOn, readOnly, Rule.on, heq, Refusal.argument]
  | get | delete | contains | keys | entries => rfl

end Refusals

/-- A store and the rules in front of it. -/
structure GuardedStore (V : Type) where
  /-- The store behind the rules. -/
  store : Store V
  /-- The rules. -/
  refusals : Refusals

namespace GuardedStore

/-- A store without rules. -/
def plain (s : Store V) : GuardedStore V := ⟨s, .none⟩

/-- Set the value of a key unless that is refused. -/
def put (g : GuardedStore V) (key : String) (value : V) :
    Except StoreError (Option V × GuardedStore V) :=
  match g.refusals.checkOn .put key with
  | some e => .error e
  | none => .ok ((g.store.put key value).1, { g with store := (g.store.put key value).2 })

/-- The value of a key unless reading it is refused. -/
def get (g : GuardedStore V) (key : String) : Except StoreError (Option V) :=
  match g.refusals.checkOn .get key with
  | some e => .error e
  | none => .ok (g.store.get? key)

/-- Remove a key unless that is refused. -/
def delete (g : GuardedStore V) (key : String) :
    Except StoreError (Option V × GuardedStore V) :=
  match g.refusals.checkOn .delete key with
  | some e => .error e
  | none => .ok ((g.store.delete key).1, { g with store := (g.store.delete key).2 })

/-- Whether a key has a value, unless asking is refused. -/
def contains (g : GuardedStore V) (key : String) : Except StoreError Bool :=
  match g.refusals.checkOn .contains key with
  | some e => .error e
  | none => .ok (g.store.contains key)

/-- The keys unless listing them is refused. -/
def keys (g : GuardedStore V) : Except StoreError (List String) :=
  match g.refusals.check .keys with
  | some e => .error e
  | none => .ok g.store.keys

/-- The entries unless listing them is refused. -/
def entries (g : GuardedStore V) : Except StoreError (Table V) :=
  match g.refusals.check .entries with
  | some e => .error e
  | none => .ok g.store.entries

/-- Replace the store behind the rules by the one that a call leaves. -/
def keep (g : GuardedStore V) (result : Reply V × Store V) : Reply V × GuardedStore V :=
  (result.1, { g with store := result.2 })

/-- Carry out a call. An error leaves the store as it was. -/
def call [Storable V] (g : GuardedStore V) (h : Heap) :
    StoreCall V → Except StoreError (Reply V × GuardedStore V)
  | .put key value => (g.put key value).map fun (old, g) => (.value old, g)
  | .get key => (g.get key).map fun found => (.value found, g)
  | .update key value =>
    .ok (g.keep (.flag (g.store.update key value).1, (g.store.update key value).2))
  | .delete key => (g.delete key).map fun (old, g) => (.value old, g)
  | .contains key => (g.contains key).map fun found => (.flag found, g)
  | .size => .ok (.count g.store.size, g)
  | .isEmpty => .ok (.flag (g.store.size == 0), g)
  | .clear => .ok (g.keep (.done, .empty))
  | .keys => g.keys.map fun keys => (.keys keys, g)
  | .entries _ => g.entries.map fun entries => (.entries entries.toList, g)
  | .compareAndSwap key expected value =>
    (g.store.compareAndSwap h key expected value).map fun (swapped, s) =>
      g.keep (.flag swapped, s)
  | .increment key delta =>
    (g.store.increment key delta).map fun (sum, s) => g.keep (.number sum, s)
  | .decrement key delta =>
    (g.store.decrement key delta).map fun (sum, s) => g.keep (.number sum, s)

end GuardedStore

end OverlayStore
