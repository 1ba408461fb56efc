import OverlayStore.Proofs.Cells.Calls
import OverlayStore.Proofs.Cells.Renaming

/-!
# Stores with renamed cells

A store whose values name other cells answers every call with renamed values and is left with
renamed values. Nothing but a comparison looks at the names of cells, so it is enough if comparisons
come out alike.
-/

namespace OverlayStore

/-! ## Tables -/

namespace Table

variable {α β : Type} {f f' : α → β} {t : Table α}

/-- The table with other values under the same keys. -/
def mapValues (f : α → β) (t : Table α) : Table β := t.map fun _ => f

/-- The value of a key is the mapped one. -/
@[simp] theorem getElem?_mapValues (f : α → β) (t : Table α) (key : String) :
    (t.mapValues f)[key]? = t[key]?.map f := by
  simp [mapValues]

/-- The keys stay. -/
@[simp] theorem contains_mapValues (f : α → β) (t : Table α) (key : String) :
    (t.mapValues f).contains key = t.contains key := by
  simp [mapValues]

/-- The list is the mapped one. -/
@[simp] theorem toList_mapValues (f : α → β) (t : Table α) :
    (t.mapValues f).toList = t.toList.map (Prod.map id f) := by
  rw [mapValues, Std.ExtTreeMap.toList_map]
  rfl

/-- Without entries there is nothing to map. -/
theorem mapValues_empty (f : α → β) : (∅ : Table α).mapValues f = ∅ :=
  Std.ExtTreeMap.ext_getElem? fun key => by simp

/-- An inserted value is mapped with the others. -/
theorem mapValues_insert (f : α → β) (t : Table α) (key : String) (a : α) :
    mapValues f (t.insert key a) = (t.mapValues f).insert key (f a) := by
  refine Std.ExtTreeMap.ext_getElem? fun k => ?_
  rw [getElem?_mapValues, Std.ExtTreeMap.getElem?_insert, Std.ExtTreeMap.getElem?_insert,
    getElem?_mapValues]
  split <;> rfl

/-- A key that goes is gone from both tables. -/
theorem mapValues_erase (f : α → β) (t : Table α) (key : String) :
    mapValues f (t.erase key) = (t.mapValues f).erase key := by
  refine Std.ExtTreeMap.ext_getElem? fun k => ?_
  rw [getElem?_mapValues, Std.ExtTreeMap.getElem?_erase, Std.ExtTreeMap.getElem?_erase,
    getElem?_mapValues]
  split <;> rfl

/-- A table made from other entries. -/
theorem ofList_map (f : α → β) (entries : List (String × α)) :
    (Std.ExtTreeMap.ofList (entries.map (Prod.map id f)) compare : Table β) =
      mapValues f (Std.ExtTreeMap.ofList entries compare) := by
  rw [Std.ExtTreeMap.ofList_eq_foldl, Std.ExtTreeMap.ofList_eq_foldl, ← mapValues_empty f]
  generalize (∅ : Table α) = t
  induction entries generalizing t with
  | nil => rfl
  | cons e rest ih =>
    rw [List.map_cons, List.foldl_cons, List.foldl_cons, ← ih, mapValues_insert]
    rfl

/-- Only the values that are there count. -/
theorem mapValues_congr (h : ∀ (key : String) a, t[key]? = some a → f a = f' a) :
    t.mapValues f = t.mapValues f' := by
  refine Std.ExtTreeMap.ext_getElem? fun key => ?_
  rw [getElem?_mapValues, getElem?_mapValues]
  exact Option.map_congr fun a ha => h key a ha

end Table

/-! ## Stores, calls and replies -/

section

variable {V W : Type}

/-- The store with other values under the same keys. -/
def Store.map (f : V → W) (s : Store V) : Store W := ⟨s.entries.mapValues f⟩

/-- The store with other values behind the same rules. -/
def GuardedStore.map (f : V → W) (g : GuardedStore V) : GuardedStore W :=
  ⟨g.store.map f, g.refusals⟩

/-- The call that passes in other values. -/
def StoreCall.map (f : V → W) : StoreCall V → StoreCall W
  | .put key value => .put key (f value)
  | .get key => .get key
  | .update key value => .update key (f value)
  | .delete key => .delete key
  | .contains key => .contains key
  | .size => .size
  | .isEmpty => .isEmpty
  | .clear => .clear
  | .keys => .keys
  | .entries order => .entries order
  | .compareAndSwap key expected value => .compareAndSwap key (f expected) (f value)
  | .increment key delta => .increment key delta
  | .decrement key delta => .decrement key delta

/-- The reply that hands out other values. -/
def Reply.map (f : V → W) : Reply V → Reply W
  | .done => .done
  | .value v => .value (v.map f)
  | .flag b => .flag b
  | .count n => .count n
  | .keys ks => .keys ks
  | .entries es => .entries (es.map (Prod.map id f))
  | .number n => .number n

variable (f : V → W)

namespace Store

/-- A key has the mapped value. -/
@[simp] theorem get?_map (s : Store V) (key : String) : (s.map f).get? key = (s.get? key).map f :=
  Table.getElem?_mapValues f s.entries key

/-- The keys stay. -/
@[simp] theorem contains_map (s : Store V) (key : String) :
    (s.map f).contains key = s.contains key :=
  Table.contains_mapValues f s.entries key

/-- The size stays. -/
@[simp] theorem size_map (s : Store V) : (s.map f).size = s.size := by
  simp [size, map, Table.mapValues]

/-- The listed keys stay. -/
@[simp] theorem keys_map (s : Store V) : (s.map f).keys = s.keys := by
  simp [keys, map, Table.mapValues]

/-- The empty store has nothing to map. -/
@[simp] theorem map_empty : (empty : Store V).map f = empty :=
  congrArg Store.mk (Table.mapValues_empty f)

/-- The store with one more value. -/
theorem map_insert (entries : Table V) (key : String) (value : V) :
    (⟨entries.insert key value⟩ : Store V).map f =
      ⟨(map f ⟨entries⟩).entries.insert key (f value)⟩ :=
  congrArg Store.mk (Table.mapValues_insert f entries key value)

/-- A put answers the mapped value and leaves the mapped store. -/
theorem put_map (s : Store V) (key : String) (value : V) :
    (s.map f).put key (f value) = Prod.map (Option.map f) (map f) (s.put key value) := by
  rw [put, put, Prod.map_apply, get?_map, map_insert]

/-- So does a delete. -/
theorem delete_map (s : Store V) (key : String) :
    (s.map f).delete key = Prod.map (Option.map f) (map f) (s.delete key) := by
  rw [delete, delete, Prod.map_apply, get?_map]
  exact congrArg (Prod.mk _) (congrArg Store.mk (Table.mapValues_erase f s.entries key).symm)

/-- An update finds the same keys. -/
theorem update_map (s : Store V) (key : String) (value : V) :
    (s.map f).update key (f value) = Prod.map id (map f) (s.update key value) := by
  rw [update, update, contains_map]
  split
  · rw [Prod.map_apply, map_insert]
    rfl
  · rfl

/-- A value is put in on the same condition. -/
theorem putNew_map (s : Store V) (key : String) (value : V) :
    (s.map f).putNew key (f value) = Prod.map (Option.map f) (map f) (s.putNew key value) := by
  rw [putNew, putNew, get?_map]
  cases s.get? key with
  | some old => rfl
  | none =>
    simp only [Option.map_none]
    rw [Prod.map_apply, map_insert]
    rfl

/-- A missing key gives the mapped fallback. -/
theorem getD_map (s : Store V) (key : String) (fallback : V) :
    (s.map f).getD key (f fallback) = f (s.getD key fallback) := by
  rw [getD, getD, get?_map]
  cases s.get? key <;> rfl

end Store

namespace GuardedStore

variable (g : GuardedStore V)

/-- A put is refused alike, or puts in the mapped value. -/
theorem put_map (key : String) (value : V) :
    (g.map f).put key (f value) = (g.put key value).map (Prod.map (Option.map f) (map f)) := by
  rw [put, put]
  simp only [map, Store.put_map]
  cases g.refusals.checkOn .put key <;> rfl

/-- A get is refused alike, or answers the mapped value. -/
theorem get_map (key : String) : (g.map f).get key = (g.get key).map (Option.map f) := by
  rw [get, get]
  simp only [map, Store.get?_map]
  cases g.refusals.checkOn .get key <;> rfl

/-- A delete is refused alike, or answers the mapped value. -/
theorem delete_map (key : String) :
    (g.map f).delete key = (g.delete key).map (Prod.map (Option.map f) (map f)) := by
  rw [delete, delete]
  simp only [map, Store.delete_map]
  cases g.refusals.checkOn .delete key <;> rfl

/-- Asking for a key is answered alike. -/
@[simp] theorem contains_map (key : String) : (g.map f).contains key = g.contains key := by
  rw [contains, contains]
  simp only [map, Store.contains_map]

/-- Listing the keys is answered alike. -/
@[simp] theorem keys_map : (g.map f).keys = g.keys := by
  rw [keys, keys]
  simp only [map, Store.keys_map]

/-- Listing the entries is refused alike, or answers the mapped ones. -/
theorem entries_map : (g.map f).entries = g.entries.map (Table.mapValues f) := by
  rw [entries, entries]
  simp only [map]
  cases g.refusals.check .entries <;> rfl

end GuardedStore

end

/-! ## Renamed cells -/

section

variable {ρ σ : Cell → Cell}

/-- Renamings that agree on the cells of a store rename it alike. -/
theorem GuardedStore.map_congr {g : GuardedStore Value}
    (hg : g.store.Within fun cell => ρ cell = σ cell) :
    g.map (Value.rename ρ) = g.map (Value.rename σ) := by
  have hentries : g.store.entries.mapValues (Value.rename ρ) =
      g.store.entries.mapValues (Value.rename σ) :=
    Table.mapValues_congr fun key v hv => Value.rename_congr (hg key v hv)
  exact congrArg (fun entries => GuardedStore.mk ⟨entries⟩ g.refusals) hentries

/-- A sum does not depend on names of cells. -/
theorem Store.counted_rename (current : Option Value) (delta : Int64) :
    counted (current.map (Value.rename ρ)) delta =
      (counted current delta).map (Prod.map id (Value.rename ρ)) := by
  have hof : ∀ n, (Storable.ofNumber? n : Option Value) = some (.ofNumber n) := fun _ => rfl
  cases current with
  | none =>
    simp only [counted, Option.map_none, hof]
    exact congrArg (fun v => Except.ok (_, v)) (Value.rename_ofNumber ρ _).symm
  | some v =>
    have hnumber : Storable.number? (v.rename ρ) = Storable.number? v := Value.number?_rename ρ v
    have hkind : Storable.kind (v.rename ρ) = Storable.kind v := Value.kind_rename ρ v
    simp only [counted, Option.map_some, hnumber, hkind, hof]
    cases Storable.number? v with
    | none => rfl
    | some n =>
      simp only
      cases n.add? delta with
      | none => rfl
      | some sum => exact congrArg (fun v => Except.ok (sum, v)) (Value.rename_ofNumber ρ sum).symm

/-- Counting up does not depend on names of cells. -/
theorem Store.increment_rename (s : Store Value) (key : String) (delta : Int64) :
    (s.map (Value.rename ρ)).increment key delta =
      (s.increment key delta).map (Prod.map id (Store.map (Value.rename ρ))) := by
  rw [increment, increment, get?_map, counted_rename]
  cases counted (s.get? key) delta with
  | error e => rfl
  | ok result => exact congrArg (fun s => Except.ok (result.1, s)) (map_insert _ _ _ _).symm

/-- Nor does counting down. -/
theorem Store.decrement_rename (s : Store Value) (key : String) (delta : Int64) :
    (s.map (Value.rename ρ)).decrement key delta =
      (s.decrement key delta).map (Prod.map id (Store.map (Value.rename ρ))) := by
  rw [decrement, decrement]
  split
  · exact s.increment_rename key _
  · rfl

/-- A swap does not depend on names of cells if the comparison does not. -/
theorem Store.compareAndSwap_rename {s : Store Value} {h h' : Heap} {key : String}
    {expected : Value} (hsame : ∀ current, s.get? key = some current →
      Value.same? h' (current.rename ρ) (expected.rename ρ) = Value.same? h current expected)
    (value : Value) :
    (s.map (Value.rename ρ)).compareAndSwap h' key (expected.rename ρ) (value.rename ρ) =
      (s.compareAndSwap h key expected value).map (Prod.map id (Store.map (Value.rename ρ))) := by
  rw [compareAndSwap, compareAndSwap, get?_map]
  cases hget : s.get? key with
  | none => rfl
  | some current =>
    have heq : Storable.same? h' (current.rename ρ) (expected.rename ρ) =
      Storable.same? h current expected := hsame current hget
    simp only [Option.map_some, heq]
    split
    · exact congrArg (fun s => Except.ok (true, s)) (map_insert _ _ _ _).symm
    · rfl
    · rfl

/-- A call with renamed values on a renamed store is answered with renamed values, if comparisons
with the values of the store come out alike. -/
theorem GuardedStore.call_rename (g : GuardedStore Value) {h h' : Heap} (call : StoreCall Value)
    (hsame : ∀ key current, g.store.get? key = some current → ∀ expected ∈ call.values,
      Value.same? h' (current.rename ρ) (expected.rename ρ) = Value.same? h current expected) :
    (g.map (Value.rename ρ)).call h' (call.map (Value.rename ρ)) =
      (g.call h call).map (Prod.map (Reply.map (Value.rename ρ)) (map (Value.rename ρ))) := by
  cases call with
  | put key value =>
    rw [StoreCall.map, call, call, put_map]
    cases g.put key value <;> rfl
  | get key =>
    rw [StoreCall.map, call, call, get_map]
    cases g.get key <;> rfl
  | update key value =>
    have hupdate := g.store.update_map (Value.rename ρ) key value
    rw [StoreCall.map, call, call]
    simp only [map] at hupdate ⊢
    rw [hupdate]
    rfl
  | delete key =>
    rw [StoreCall.map, call, call, delete_map]
    cases g.delete key <;> rfl
  | contains key =>
    rw [StoreCall.map, call, call, contains_map]
    cases g.contains key <;> rfl
  | size =>
    rw [StoreCall.map, call, call]
    simp only [map, Store.size_map]
    rfl
  | isEmpty =>
    rw [StoreCall.map, call, call]
    simp only [map, Store.size_map]
    rfl
  | clear =>
    rw [StoreCall.map, call, call, ← Store.map_empty (Value.rename ρ)]
    rfl
  | keys =>
    rw [StoreCall.map, call, call, keys_map]
    cases g.keys <;> rfl
  | entries =>
    rw [StoreCall.map, call, call, entries_map]
    cases g.entries with
    | error e => rfl
    | ok entries =>
      exact congrArg (fun es => Except.ok (Reply.entries es, _)) (Table.toList_mapValues _ _)
  | compareAndSwap key expected value =>
    have hswap := Store.compareAndSwap_rename
      (fun current hc => hsame key current hc expected List.mem_cons_self) value
    rw [StoreCall.map, call, call]
    simp only [map] at hswap ⊢
    rw [hswap]
    cases g.store.compareAndSwap h key expected value <;> rfl
  | increment key delta =>
    have hsum := g.store.increment_rename (ρ := ρ) key delta
    rw [StoreCall.map, call, call]
    simp only [map] at hsum ⊢
    rw [hsum]
    cases g.store.increment key delta <;> rfl
  | decrement key delta =>
    have hsum := g.store.decrement_rename (ρ := ρ) key delta
    rw [StoreCall.map, call, call]
    simp only [map] at hsum ⊢
    rw [hsum]
    cases g.store.decrement key delta <;> rfl

end

end OverlayStore
