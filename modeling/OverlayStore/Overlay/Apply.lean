import Std.Data.ExtTreeSet
import OverlayStore.Overlay.Basic

/-!
# Applying edits

Edits are applied to a store in two passes, first all removals and then all values, each up to the
first refusal. What was applied before a refusal stays. The order within a pass is an argument.
Edits can also be applied to the keys alone, where nothing is refused.
-/

namespace OverlayStore

/-- Edits in some order. -/
abbrev EditList (V : Type) : Type := List (String × Edit V)

namespace EditList

/-- The keys to remove. -/
def removals (order : EditList V) : List String :=
  order.filterMap fun (key, edit) =>
    match edit with
    | .set _ => none
    | .remove => some key

/-- The entries to set. -/
def assignments (order : EditList V) : List (String × V) :=
  order.filterMap fun (key, edit) => edit.value?.map fun value => (key, value)

/-- Remove keys one by one, up to the first refusal. -/
def removeEach : List String → GuardedStore V → Option StoreError × GuardedStore V
  | [], base => (none, base)
  | key :: rest, base =>
    match base.delete key with
    | .ok (_, base) => removeEach rest base
    | .error e => (some e, base)

/-- Set entries one by one, up to the first refusal. -/
def setEach : List (String × V) → GuardedStore V → Option StoreError × GuardedStore V
  | [], base => (none, base)
  | (key, value) :: rest, base =>
    match base.put key value with
    | .ok (_, base) => setEach rest base
    | .error e => (some e, base)

/-- Apply edits: all removals, then all values. -/
def apply (order : EditList V) (base : GuardedStore V) : Option StoreError × GuardedStore V :=
  match removeEach order.removals base with
  | (some e, base) => (some e, base)
  | (none, base) => setEach order.assignments base

/-- The keys of a store after edits: a key that is set is there, a key that is removed is not. -/
def applyToKeys (order : EditList V) (keys : Std.ExtTreeSet String) : Std.ExtTreeSet String :=
  order.foldl (fun keys (key, edit) =>
    match edit with
    | .set _ => keys.insert key
    | .remove => keys.erase key) keys

/-- A key is among the removals if one of the edits removes it. -/
theorem mem_removals_iff {order : EditList V} {key : String} :
    key ∈ order.removals ↔ (key, Edit.remove) ∈ order := by
  simp only [removals, List.mem_filterMap]
  constructor
  · rintro ⟨⟨k, edit⟩, mem, eq⟩
    cases edit with
    | set value => simp at eq
    | remove =>
      cases eq
      exact mem
  · exact fun mem => ⟨(key, .remove), mem, rfl⟩

/-- An entry is among the assignments if one of the edits sets it. -/
theorem mem_assignments_iff {order : EditList V} {key : String} {value : V} :
    (key, value) ∈ order.assignments ↔ (key, Edit.set value) ∈ order := by
  simp only [assignments, List.mem_filterMap]
  constructor
  · rintro ⟨⟨k, edit⟩, mem, eq⟩
    cases edit with
    | set v =>
      cases eq
      exact mem
    | remove => simp [Edit.value?] at eq
  · exact fun mem => ⟨(key, .set value), mem, rfl⟩

end EditList

end OverlayStore
