import Mathlib.Data.List.TakeWhile
import OverlayStore.Overlay.Apply

/-!
# Edits up to a refusal

Edits are applied in two passes, each up to the first refusal: what stands before it is done, and
nothing behind it. So the edits and the refused keys alone decide whether all are applied; only the
part that is done depends on the order.
-/

namespace OverlayStore

namespace Refusals

/-- Whether an operation on a key is let through. -/
def allows (r : Refusals) (op : Operation) (key : String) : Bool := (r.checkOn op key).isNone

theorem allows_iff {r : Refusals} {op : Operation} {key : String} :
    r.allows op key = true ↔ r.checkOn op key = Option.none := by
  rw [allows, Option.isNone_iff_eq_none]

end Refusals

namespace EditList

/-! ## Removals -/

/-- Removals stop at the first key whose removal is refused. -/
theorem removeEach_answer (keys : List String) (base : GuardedStore V) :
    (removeEach keys base).1 = keys.findSome? (base.refusals.checkOn .delete) := by
  induction keys generalizing base with
  | nil => rfl
  | cons key rest ih =>
    rw [removeEach, GuardedStore.delete, List.findSome?_cons]
    cases base.refusals.checkOn .delete key with
    | some e => rfl
    | none => exact ih _

/-- Removals leave the rules. -/
theorem removeEach_refusals (keys : List String) (base : GuardedStore V) :
    (removeEach keys base).2.refusals = base.refusals := by
  induction keys generalizing base with
  | nil => rfl
  | cons key rest ih =>
    rw [removeEach, GuardedStore.delete]
    cases base.refusals.checkOn .delete key with
    | some e => rfl
    | none => exact ih _

/-- The keys before the first refused one are gone, and no others. -/
theorem get?_removeEach (keys : List String) (base : GuardedStore V) (key : String) :
    (removeEach keys base).2.store.get? key =
      if key ∈ keys.takeWhile (base.refusals.allows .delete) then none
      else base.store.get? key := by
  induction keys generalizing base with
  | nil => simp [removeEach]
  | cons k rest ih =>
    rw [removeEach, GuardedStore.delete]
    cases hcheck : base.refusals.checkOn .delete k with
    | some e => simp [Refusals.allows, hcheck]
    | none =>
      have hallows := Refusals.allows_iff.mpr hcheck
      simp only [ih, Store.get?_delete, List.takeWhile_cons, hallows, if_true, List.mem_cons]
      by_cases hrest : key ∈ rest.takeWhile (base.refusals.allows .delete)
      · simp [hrest]
      · by_cases hk : key = k <;> simp [hrest, hk]

/-- Without a refusal all keys are gone. -/
theorem get?_removeEach_of_allowed {keys : List String} {base : GuardedStore V}
    (hallowed : ∀ key ∈ keys, base.refusals.checkOn .delete key = none) (key : String) :
    (removeEach keys base).2.store.get? key =
      if key ∈ keys then none else base.store.get? key := by
  have hall : keys.takeWhile (base.refusals.allows .delete) = keys :=
    List.takeWhile_eq_self_iff.mpr fun k hk => Refusals.allows_iff.mpr (hallowed k hk)
  rw [get?_removeEach, hall]

/-! ## Values -/

/-- Values are set up to the first key on which that is refused. -/
theorem setEach_answer (entries : List (String × V)) (base : GuardedStore V) :
    (setEach entries base).1 = entries.findSome? fun e => base.refusals.checkOn .put e.1 := by
  induction entries generalizing base with
  | nil => rfl
  | cons e rest ih =>
    obtain ⟨key, value⟩ := e
    rw [setEach, GuardedStore.put, List.findSome?_cons]
    cases base.refusals.checkOn .put key with
    | some e => rfl
    | none => exact ih _

/-- Setting values leaves the rules. -/
theorem setEach_refusals (entries : List (String × V)) (base : GuardedStore V) :
    (setEach entries base).2.refusals = base.refusals := by
  induction entries generalizing base with
  | nil => rfl
  | cons e rest ih =>
    obtain ⟨key, value⟩ := e
    rw [setEach, GuardedStore.put]
    cases base.refusals.checkOn .put key with
    | some e => rfl
    | none => exact ih _

/-- A key is as it was, or it has a value that was to be set and that was let through. -/
theorem get?_setEach_cases (entries : List (String × V)) (base : GuardedStore V) (key : String) :
    (setEach entries base).2.store.get? key = base.store.get? key ∨
      ∃ value, (key, value) ∈ entries ∧ base.refusals.checkOn .put key = none ∧
        (setEach entries base).2.store.get? key = some value := by
  induction entries generalizing base with
  | nil => exact .inl rfl
  | cons e rest ih =>
    obtain ⟨k, v⟩ := e
    rw [setEach, GuardedStore.put]
    cases hcheck : base.refusals.checkOn .put k with
    | some e => exact .inl rfl
    | none =>
      rcases ih { base with store := (base.store.put k v).2 } with hkept | ⟨value, hm, hlet, hset⟩
      · by_cases hk : key = k
        · subst hk
          refine .inr ⟨v, List.mem_cons_self, hcheck, ?_⟩
          rw [hkept, Store.get?_put, if_pos rfl]
        · left
          rw [hkept, Store.get?_put, if_neg hk]
      · exact .inr ⟨value, List.mem_cons_of_mem _ hm, hlet, hset⟩

/-- Keys that are not set keep their values. -/
theorem get?_setEach_of_notMem {entries : List (String × V)} {base : GuardedStore V} {key : String}
    (hkey : key ∉ entries.map Prod.fst) :
    (setEach entries base).2.store.get? key = base.store.get? key := by
  rcases get?_setEach_cases entries base key with hkept | ⟨value, hm, -⟩
  · exact hkept
  · exact absurd (List.mem_map_of_mem hm) hkey

/-- Values that are set without a refusal stand under their keys. -/
theorem get?_setEach_of_mem {entries : List (String × V)} {base : GuardedStore V}
    (hallowed : ∀ e ∈ entries, base.refusals.checkOn .put e.1 = none)
    (hn : (entries.map Prod.fst).Nodup) {key : String} {value : V} (hm : (key, value) ∈ entries) :
    (setEach entries base).2.store.get? key = some value := by
  induction entries generalizing base with
  | nil => cases hm
  | cons e rest ih =>
    obtain ⟨k, v⟩ := e
    rw [List.map_cons, List.nodup_cons] at hn
    rw [List.forall_mem_cons] at hallowed
    rw [setEach, GuardedStore.put, hallowed.1]
    rcases List.mem_cons.mp hm with heq | hm
    · cases heq
      simp only [get?_setEach_of_notMem hn.1, Store.get?_put, if_true]
    · exact ih hallowed.2 hn.2 hm

/-! ## Both passes -/

/-- The two passes one after the other. -/
theorem apply_eq (order : EditList V) (base : GuardedStore V) :
    order.apply base =
      match (removeEach order.removals base).1 with
      | some e => (some e, (removeEach order.removals base).2)
      | none => setEach order.assignments (removeEach order.removals base).2 := by
  rw [apply]
  cases removeEach order.removals base with
  | mk answer left => cases answer <;> rfl

/-- The refusal at which the edits stop: that of a removal comes first. -/
theorem apply_answer (order : EditList V) (base : GuardedStore V) :
    (order.apply base).1 = (order.removals.findSome? (base.refusals.checkOn .delete)).or
      (order.assignments.findSome? fun e => base.refusals.checkOn .put e.1) := by
  rw [apply_eq, removeEach_answer]
  cases order.removals.findSome? (base.refusals.checkOn .delete) with
  | some e => rfl
  | none => rw [Option.none_or, setEach_answer, removeEach_refusals]

/-- The rules stay as they are. -/
theorem apply_refusals (order : EditList V) (base : GuardedStore V) :
    (order.apply base).2.refusals = base.refusals := by
  rw [apply_eq]
  split
  · exact removeEach_refusals _ _
  · exact (setEach_refusals _ _).trans (removeEach_refusals _ _)

/-- All edits are applied if none is refused. -/
theorem apply_answer_eq_none_iff {order : EditList V} {base : GuardedStore V} :
    (order.apply base).1 = none ↔
      (∀ key ∈ order.removals, base.refusals.checkOn .delete key = none) ∧
        ∀ e ∈ order.assignments, base.refusals.checkOn .put e.1 = none := by
  rw [apply_answer, Option.or_eq_none_iff, List.findSome?_eq_none_iff, List.findSome?_eq_none_iff]

end EditList

end OverlayStore
