import OverlayStore.Proofs.Overlay.Visible
import OverlayStore.Proofs.Store.Tables

/-!
# Overlays over a plain store

Without rules in front of the store, what an overlay answers depends on the visible values alone:
the tests for a key, the listings, and the values that are handed out. Edits can always be applied,
and removing everything leaves nothing visible.
-/

namespace OverlayStore

namespace GuardedStore

/-- A store without rules is the plain one. -/
theorem eq_plain {g : GuardedStore V} (hg : g.refusals = .none) : g = plain g.store := by
  cases g
  exact congrArg _ hg

end GuardedStore

namespace Overlay

variable (o : Overlay V) (s : Store V)

/-! ## Single keys -/

/-- A key is shown if it has a visible value. -/
theorem shows_plain (key : String) :
    o.shows (.plain s) key = .ok (o.visible? s key).isSome := by
  unfold shows visible?
  split
  next hedit => rw [hedit]; rfl
  next v hedit => rw [hedit]; rfl
  next hedit =>
    rw [hedit]
    simp [GuardedStore.contains, GuardedStore.plain, Store.contains_eq_isSome]

/-- A copy of the visible value is read. -/
theorem read_plain [Copyable V] (h : Heap) (key : String) :
    o.read h (.plain s) key =
      match o.visible? s key with
      | some v => handOut h v
      | none => .ok (none, h) := by
  unfold read visible?
  cases hedit : o.edit? key with
  | none =>
    simp only [GuardedStore.get, GuardedStore.plain, Refusals.checkOn_none]
    cases s.get? key <;> rfl
  | some edit => cases edit <;> rfl

/-- The visible value is compared with what is expected. -/
theorem agrees_plain [Storable V] (h : Heap) (key : String) (expected : V) :
    o.agrees h (.plain s) key expected =
      match o.visible? s key with
      | some v => same h v expected
      | none => .ok false := by
  unfold agrees visible?
  cases hedit : o.edit? key with
  | none =>
    simp only [GuardedStore.get, GuardedStore.plain, Refusals.checkOn_none]
    cases s.get? key <;> rfl
  | some edit => cases edit <;> rfl

/-! ## Listings -/

/-- The visible entries in a given order: those of the store that are not touched, and then those
that are held. -/
def visibleEntries (order : KeyOrder) : List (String × V) :=
  o.untouchedIn order s.entries ++ EditList.assignments (o.toListIn order)

/-- The visible entries are those with a visible value. -/
theorem mem_visibleEntries_iff {o : Overlay V} {s : Store V} {order : KeyOrder} (key : String)
    (v : V) : (key, v) ∈ o.visibleEntries s order ↔ o.visible? s key = some v := by
  rw [visibleEntries, List.mem_append, mem_untouchedIn_iff, mem_assignments_toListIn_iff]
  unfold visible? held? Store.get?
  cases o.edit? key with
  | none => simp
  | some edit => simp

/-- No key is visible twice. -/
theorem nodup_keys_visibleEntries (order : KeyOrder) :
    ((o.visibleEntries s order).map Prod.fst).Nodup := by
  rw [visibleEntries, List.map_append, List.nodup_append]
  refine ⟨?_, EditList.nodup_keys_assignments (o.toListIn_perm order), ?_⟩
  · have hkeys : ((order.arrange s.entries.toList).map Prod.fst).Nodup := by
      rw [((order.arrange_perm _).map Prod.fst).nodup_iff,
        Std.ExtTreeMap.map_fst_toList_eq_keys]
      exact Std.ExtTreeMap.nodup_keys
    exact (List.filter_sublist.map Prod.fst).nodup hkeys
  · -- A key of the first part has no edit, a key of the second part has one.
    intro key hleft other hright heq
    subst heq
    obtain ⟨e, he, rfl⟩ := List.mem_map.mp hleft
    obtain ⟨f, hf, heq⟩ := List.mem_map.mp hright
    have hnone := (mem_untouchedIn_iff.mp he).2
    rw [mem_assignments_toListIn_iff, heq, held?, hnone] at hf
    cases hf

/-- The values to set are in the order of the edits. -/
theorem assignments_toListIn (order : KeyOrder) :
    EditList.assignments (o.toListIn order) = order.arrange (EditList.assignments o.toList) := by
  refine order.filterMap_arrange (fun e e' he => ?_) o.toList
  obtain ⟨value, -, rfl⟩ := Option.map_eq_some_iff.mp he
  rfl

/-- The parts of the visible entries can be told apart by their keys. -/
theorem filter_visibleEntries {o : Overlay V} {s : Store V} {untouched held : List (String × V)}
    (huntouched : untouched.Perm (o.untouchedIn [] s.entries))
    (hheld : held.Perm (EditList.assignments o.toList)) :
    (untouched ++ held).filter (fun e => !o.touches e.1) = untouched ∧
      (untouched ++ held).filter (fun e => o.touches e.1) = held := by
  have hleft : ∀ e ∈ untouched, o.touches e.1 = false := by
    intro e he
    rw [touches_eq_isSome, (mem_untouchedIn_iff.mp (huntouched.mem_iff.mp he)).2]
    rfl
  have hright : ∀ e ∈ held, o.touches e.1 = true := by
    intro e he
    have hmem : e ∈ EditList.assignments (o.toListIn []) := hheld.mem_iff.mp he
    rw [touches_eq_isSome, held?_eq_some_iff.mp (mem_assignments_toListIn_iff.mp hmem)]
    rfl
  rw [List.filter_append, List.filter_append]
  constructor
  · rw [List.filter_eq_self.mpr (by simpa using hleft),
      List.filter_eq_nil_iff.mpr (by simpa using hright), List.append_nil]
  · rw [List.filter_eq_nil_iff.mpr (by simpa using hleft), List.filter_eq_self.mpr hright,
      List.nil_append]

/-- Every order in which the two parts of the visible entries can be copied is given by their
keys. -/
theorem exists_copyingOrder {o : Overlay V} {s : Store V} {untouched held : List (String × V)}
    (huntouched : untouched.Perm (o.untouchedIn [] s.entries))
    (hheld : held.Perm (EditList.assignments o.toList)) :
    ∃ order, o.untouchedIn order s.entries = untouched ∧
      EditList.assignments (o.toListIn order) = held := by
  have hperm : (untouched ++ held).Perm (o.visibleEntries s []) := huntouched.append hheld
  have harranged := KeyOrder.arrange_of_perm hperm
    ((hperm.map Prod.fst).nodup_iff.mpr (o.nodup_keys_visibleEntries s []))
  obtain ⟨hleft, hright⟩ := filter_visibleEntries huntouched hheld
  obtain ⟨hleft', hright'⟩ := filter_visibleEntries (.refl (o.untouchedIn [] s.entries)) (.refl _)
  refine ⟨(untouched ++ held).map Prod.fst, ?_, ?_⟩
  · rw [← harranged, KeyOrder.filter_arrange] at hleft
    refine Eq.trans ?_ hleft
    rw [untouchedIn, KeyOrder.filter_arrange]
    exact congrArg _ hleft'.symm
  · rw [← harranged, KeyOrder.filter_arrange] at hright
    refine Eq.trans ?_ hright
    rw [assignments_toListIn]
    exact congrArg _ hright'.symm

/-- The visible keys are listed in order. -/
theorem keys_plain {α : Type} {t : Table α}
    (ht : ∀ key : String, (o.visible? s key).isSome ↔ (t[key]?).isSome) :
    o.keys (.plain s) = .ok t.keys := by
  have hmem : ∀ key, key ∈ EditList.applyToKeys o.toList (Std.ExtTreeSet.ofList s.keys) ↔
      (t[key]?).isSome := by
    intro key
    rw [← ht key, mem_applyToKeys_iff (.refl _), visible?]
    cases o.edit? key with
    | some edit => rfl
    | none => simp [Std.ExtTreeSet.mem_ofList, Store.keys, Store.get?]
  simp only [keys, GuardedStore.keys, GuardedStore.plain, Refusals.check_none,
    Table.toList_eq_keys hmem]

/-! ## Everything -/

/-- Removing everything cannot fail, and leaves nothing visible. -/
theorem removeAll_plain :
    removeAll (.plain s) = (none, removing s.keys) ∧
      ∀ key, (removing s.keys : Overlay V).visible? s key = none := by
  constructor
  · simp [removeAll, GuardedStore.keys, GuardedStore.plain]
  · intro key
    unfold visible?
    rw [edit?_removing]
    by_cases hkey : key ∈ s.keys
    · rw [if_pos hkey]
      rfl
    · rw [if_neg hkey]
      rw [Store.keys, Std.ExtTreeMap.mem_keys, ← Std.ExtTreeMap.isSome_getElem?_iff_mem] at hkey
      simpa [Store.get?] using hkey

end Overlay

namespace EditList

private theorem removeEach_plain (keys : List String) (s : Store V) :
    ∃ s', removeEach keys (.plain s) = (none, .plain s') := by
  induction keys generalizing s with
  | nil => exact ⟨s, rfl⟩
  | cons key rest ih =>
    simp only [removeEach, GuardedStore.delete, GuardedStore.plain, Refusals.checkOn_none]
    exact ih _

private theorem setEach_plain (entries : List (String × V)) (s : Store V) :
    ∃ s', setEach entries (.plain s) = (none, .plain s') := by
  induction entries generalizing s with
  | nil => exact ⟨s, rfl⟩
  | cons e rest ih =>
    simp only [setEach, GuardedStore.put, GuardedStore.plain, Refusals.checkOn_none]
    exact ih _

/-- Edits are never refused by a plain store. -/
theorem apply_plain (order : EditList V) (s : Store V) :
    ∃ s', order.apply (.plain s) = (none, .plain s') := by
  obtain ⟨mid, hmid⟩ := removeEach_plain order.removals s
  obtain ⟨s', hs'⟩ := setEach_plain order.assignments mid
  exact ⟨s', by rw [apply, hmid]; exact hs'⟩

end EditList

end OverlayStore
