import Std.Data.ExtTreeMap
import OverlayStore.Storable
import OverlayStore.Store.Options

/-!
# The store

A map from texts to values. Compare-and-swap and counting read and write one key in a single step;
every call that is refused leaves the store as it was. The lemmas give each operation through the
value under a key.
-/

namespace OverlayStore

/-- A finite map from texts, in the order of the keys. -/
abbrev Table (α : Type) : Type := Std.ExtTreeMap String α

/-- A key-value store. -/
structure Store (V : Type) where
  /-- Value of every key that has one. -/
  entries : Table V

namespace Store

/-- The store without entries. -/
def empty : Store V := ⟨∅⟩

/-- A new store with usable options, which do not show in the store. -/
def ofOptions (o : StoreOptions) : Except StoreError (Store V) :=
  match o.check with
  | .ok () => .ok empty
  | .error e => .error e

/-- The value under a key. -/
def get? (s : Store V) (key : String) : Option V := s.entries[key]?

/-- Whether a key has a value. -/
def contains (s : Store V) (key : String) : Bool := s.entries.contains key

/-- Number of entries. -/
def size (s : Store V) : Nat := s.entries.size

/-- The keys in order. -/
def keys (s : Store V) : List String := s.entries.keys

/-- Set the value of a key; the value it had before comes back. -/
def put (s : Store V) (key : String) (value : V) : Option V × Store V :=
  (s.get? key, ⟨s.entries.insert key value⟩)

/-- Replace the value of a key that has one, and say whether it had. -/
def update (s : Store V) (key : String) (value : V) : Bool × Store V :=
  if s.contains key then (true, ⟨s.entries.insert key value⟩) else (false, s)

/-- Remove a key; the value it had comes back. -/
def delete (s : Store V) (key : String) : Option V × Store V :=
  (s.get? key, ⟨s.entries.erase key⟩)

/-- The value under a key, or another one if there is none. -/
def getD (s : Store V) (key : String) (fallback : V) : V := (s.get? key).getD fallback

/-- Set the value of a key that has none; a value that is there stays and comes back. -/
def putNew (s : Store V) (key : String) (value : V) : Option V × Store V :=
  match s.get? key with
  | some old => (some old, s)
  | none => (none, ⟨s.entries.insert key value⟩)

/-- Replace the value of a key if it equals the expected one, and say whether it did. -/
def compareAndSwap [Storable V] (s : Store V) (h : Heap) (key : String) (expected value : V) :
    Except StoreError (Bool × Store V) :=
  match s.get? key with
  | none => .ok (false, s)
  | some current =>
    match Storable.same? h current expected with
    | some true => .ok (true, ⟨s.entries.insert key value⟩)
    | some false => .ok (false, s)
    | none => .error .endless

/-- The number after adding to the value of a key, and the value that holds it; a key without a
value starts as a `long` with the delta. -/
def counted [Storable V] (current : Option V) (delta : Int64) : Except StoreError (Number × V) :=
  match current with
  | none =>
    match Storable.ofNumber? (.long delta) with
    | some value => .ok (.long delta, value)
    | none => .error (.wrongKind (Number.long delta).kind (Storable.typeName V))
  | some value =>
    match Storable.number? value with
    | none => .error (.wrongKind "number" (Storable.kind value))
    | some number =>
      match number.add? delta with
      | none => .error (.overflow number.kind delta)
      | some sum =>
        match Storable.ofNumber? sum with
        | none => .error (.wrongKind sum.kind (Storable.kind value))
        | some next => .ok (sum, next)

/-- Add to the number under a key and answer the sum. -/
def increment [Storable V] (s : Store V) (key : String) (delta : Int64) :
    Except StoreError (Number × Store V) :=
  match counted (s.get? key) delta with
  | .ok (sum, next) => .ok (sum, ⟨s.entries.insert key next⟩)
  | .error e => .error e

/-- Subtract from the number under a key: add the negated delta, if it has one. -/
def decrement [Storable V] (s : Store V) (key : String) (delta : Int64) :
    Except StoreError (Number × Store V) :=
  match int64Exact (-delta.toInt) with
  | some negated => s.increment key negated
  | none => .error (.overflow "long" delta)

/-- Structural text: the number of entries only. -/
def structural (s : Store V) : String :=
  Text.openRecord "ConcurrentStore" [("len", Nat.repr s.size)]

@[simp] theorem get?_empty (key : String) : (empty : Store V).get? key = none := by
  simp [empty, get?]

@[simp] theorem get?_insert (entries : Table V) (key k : String) (value : V) :
    (⟨entries.insert key value⟩ : Store V).get? k =
      if k = key then some value else (⟨entries⟩ : Store V).get? k := by
  simp [get?, Std.ExtTreeMap.getElem?_insert, eq_comm (a := k)]

/-- A key holds what was put last. -/
@[simp] theorem get?_put (s : Store V) (key k : String) (value : V) :
    (s.put key value).2.get? k = if k = key then some value else s.get? k :=
  get?_insert s.entries key k value

/-- A deleted key holds nothing. -/
@[simp] theorem get?_delete (s : Store V) (key k : String) :
    (s.delete key).2.get? k = if k = key then none else s.get? k := by
  simp [delete, get?, Std.ExtTreeMap.getElem?_erase, eq_comm (a := k)]

/-- The keys of a store are those with a value. -/
theorem contains_eq_isSome (s : Store V) (key : String) : s.contains key = (s.get? key).isSome := by
  simp [contains, get?]

/-- Two stores with the same value under every key are the same. -/
theorem ext_get? {s t : Store V} (h : ∀ key, s.get? key = t.get? key) : s = t := by
  cases s
  cases t
  exact congrArg Store.mk (Std.ExtTreeMap.ext_getElem? h)

end Store

end OverlayStore
