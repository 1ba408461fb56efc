import Mathlib.Data.List.Nodup
import OverlayStore.Overlay.Read
import OverlayStore.Proofs.Overlay.Passes

/-!
# What a store shows through an overlay

A key shows the value of its edit, or the value of the store if it has no edit. Edits that are
applied without a refusal turn the visible values into those of the store, whatever was removed
first.
-/

namespace OverlayStore

namespace Overlay

/-! ## Held values -/

/-- Without edits nothing is held. -/
@[simp] theorem held?_empty (key : String) : (empty : Overlay V).held? key = none := by
  rw [held?, edit?_empty]
  rfl

/-- A value that is set is held. -/
@[simp] theorem held?_insert_set (o : Overlay V) (key k : String) (value : V) :
    (o.insert key (.set value)).held? k = if k = key then some value else o.held? k := by
  by_cases heq : k = key <;> simp [held?, heq, Edit.value?]

/-- A key that is removed holds nothing. -/
@[simp] theorem held?_insert_remove (o : Overlay V) (key k : String) :
    (o.insert key .remove).held? k = if k = key then none else o.held? k := by
  by_cases heq : k = key <;> simp [held?, heq, Edit.value?]

/-- A value is held if the edit of the key sets it. -/
theorem held?_eq_some_iff {o : Overlay V} {key : String} {value : V} :
    o.held? key = some value ↔ o.edit? key = some (.set value) := by
  rw [held?, Option.bind_eq_some_iff]
  constructor
  · rintro ⟨edit, hedit, hvalue⟩
    cases edit with
    | set w => rw [hedit, Option.some.inj hvalue]
    | remove => cases hvalue
  · intro hedit
    exact ⟨.set value, hedit, rfl⟩

/-- The values to set are the held ones, in whatever order. -/
theorem mem_assignments_toListIn_iff {o : Overlay V} {order : KeyOrder} {e : String × V} :
    e ∈ EditList.assignments (o.toListIn order) ↔ o.held? e.1 = some e.2 := by
  rw [EditList.mem_assignments_iff, (o.toListIn_perm order).mem_iff, mem_toList_iff,
    held?_eq_some_iff]

/-- The entries of a table that are not touched, in whatever order. -/
theorem mem_untouchedIn_iff {o : Overlay V} {order : KeyOrder} {entries : Table V} {key : String}
    {v : V} : (key, v) ∈ o.untouchedIn order entries ↔
      entries[key]? = some v ∧ o.edit? key = none := by
  rw [untouchedIn, List.mem_filter, KeyOrder.mem_arrange_iff,
    Std.ExtTreeMap.mem_toList_iff_getElem?_eq_some]
  simp [touches_eq_isSome]

/-- After the removal of everything nothing is held. -/
theorem held?_removeAll (base : GuardedStore V) (key : String) :
    (removeAll base).2.held? key = none := by
  rw [removeAll]
  split
  next keys _ =>
    rw [held?, edit?_removing]
    split <;> rfl
  next => simp [held?]

/-! ## Visible values -/

/-- The value that a key shows. -/
def visible? (o : Overlay V) (s : Store V) (key : String) : Option V :=
  match o.edit? key with
  | some edit => edit.value?
  | none => s.get? key

/-- A key with an edit shows the value of the edit. -/
theorem visible?_of_edit {o : Overlay V} {key : String} {edit : Edit V}
    (he : o.edit? key = some edit) (s : Store V) : o.visible? s key = edit.value? := by
  rw [visible?, he]

/-- A key without one shows the value of the store. -/
theorem visible?_of_untouched {o : Overlay V} {key : String} (he : o.edit? key = none)
    (s : Store V) : o.visible? s key = s.get? key := by
  rw [visible?, he]

/-- Without edits the store shows. -/
@[simp] theorem visible?_empty (s : Store V) (key : String) :
    (empty : Overlay V).visible? s key = s.get? key :=
  visible?_of_untouched (edit?_empty key) s

/-- An edit shows under its key and nowhere else. -/
@[simp] theorem visible?_insert (o : Overlay V) (s : Store V) (key k : String) (edit : Edit V) :
    (o.insert key edit).visible? s k = if k = key then edit.value? else o.visible? s k := by
  rw [visible?, edit?_insert]
  by_cases heq : k = key
  · rw [if_pos heq, if_pos heq]
  · rw [if_neg heq, if_neg heq, visible?]

/-- What is held is visible. -/
theorem visible?_of_held {o : Overlay V} {key : String} {v : V} (hv : o.held? key = some v)
    (s : Store V) : o.visible? s key = some v := by
  obtain ⟨edit, he, hvalue⟩ := Option.bind_eq_some_iff.mp hv
  rw [visible?_of_edit he, hvalue]

/-- The keys of the edits are distinct. -/
theorem nodup_keys_toList (o : Overlay V) : (o.toList.map Prod.fst).Nodup := by
  rw [List.nodup_iff_pairwise_ne, List.pairwise_map]
  refine o.edits.distinct_keys_toList.imp fun {a b} hne heq => hne ?_
  rw [heq, Std.compare_self]

/-- Every order of the edits is given by their keys. -/
theorem exists_toListIn_eq {o : Overlay V} {edits : List (String × Edit V)}
    (hperm : edits.Perm o.toList) : ∃ order, o.toListIn order = edits :=
  ⟨edits.map Prod.fst, KeyOrder.arrange_of_perm hperm
    ((hperm.map Prod.fst).nodup_iff.mpr o.nodup_keys_toList)⟩

end Overlay

/-! ## Applying edits -/

namespace EditList

/-- The keys to set are keys of the edits. -/
theorem assignments_keys_sublist (order : EditList V) :
    (order.assignments.map Prod.fst).Sublist (order.map Prod.fst) := by
  induction order with
  | nil => exact List.Sublist.slnil
  | cons e rest ih =>
    obtain ⟨key, edit⟩ := e
    cases edit with
    | set value => exact ih.cons_cons key
    | remove => exact ih.cons key

/-- No key is to be set twice, in whatever order the edits come. -/
theorem nodup_keys_assignments {order : EditList V} {o : Overlay V} (hperm : order.Perm o.toList) :
    (order.assignments.map Prod.fst).Nodup := by
  refine order.assignments_keys_sublist.nodup ?_
  exact (hperm.map Prod.fst).nodup_iff.mpr o.nodup_keys_toList

end EditList

namespace Overlay

variable {o : Overlay V} {order : EditList V}

/-- The keys to remove are those that the overlay removes. -/
theorem mem_removals_iff_of_perm (hperm : order.Perm o.toList) {key : String} :
    key ∈ order.removals ↔ o.edit? key = some .remove := by
  rw [EditList.mem_removals_iff, hperm.mem_iff, mem_toList_iff]

/-- The entries to set are those that the overlay sets. -/
theorem mem_assignments_iff_of_perm (hperm : order.Perm o.toList) {key : String} {value : V} :
    (key, value) ∈ order.assignments ↔ o.edit? key = some (.set value) := by
  rw [EditList.mem_assignments_iff, hperm.mem_iff, mem_toList_iff]

/-- A key that is not held is not among those to set. -/
theorem notMem_keys_assignments (hperm : order.Perm o.toList) {key : String}
    (hkey : o.held? key = none) : key ∉ order.assignments.map Prod.fst := by
  intro hm
  obtain ⟨e, he, rfl⟩ := List.mem_map.mp hm
  have hheld := held?_eq_some_iff.mpr ((mem_assignments_iff_of_perm hperm).mp he)
  rw [hkey] at hheld
  cases hheld

/-- After edits are applied without a refusal, in whatever order, the store has what was visible
before. -/
theorem get?_of_applyIn (hperm : order.Perm o.toList) {base base' : GuardedStore V}
    (hok : order.apply base = (none, base')) (key : String) :
    base'.store.get? key = o.visible? base.store key := by
  obtain ⟨hremovals, hvalues⟩ := EditList.apply_answer_eq_none_iff.mp (congrArg Prod.fst hok)
  have hmid := EditList.get?_removeEach_of_allowed hremovals key
  have hset : (EditList.setEach order.assignments
      (EditList.removeEach order.removals base).2).2 = base' := by
    have hnone := List.findSome?_eq_none_iff.mpr hremovals
    rw [EditList.apply_eq, EditList.removeEach_answer, hnone] at hok
    exact congrArg Prod.snd hok
  rw [← hset]
  rcases hedit : o.edit? key with _ | value | _
  · have hnot : key ∉ order.removals := by
      rw [mem_removals_iff_of_perm hperm, hedit]
      exact nofun
    have hheld : o.held? key = none := by rw [held?, hedit]; rfl
    rw [EditList.get?_setEach_of_notMem (notMem_keys_assignments hperm hheld), hmid, if_neg hnot,
      visible?_of_untouched hedit]
  · rw [visible?_of_edit hedit]
    refine EditList.get?_setEach_of_mem ?_ (EditList.nodup_keys_assignments hperm)
      ((mem_assignments_iff_of_perm hperm).mpr hedit)
    rw [EditList.removeEach_refusals]
    exact hvalues
  · have hheld : o.held? key = none := by rw [held?, hedit]; rfl
    rw [EditList.get?_setEach_of_notMem (notMem_keys_assignments hperm hheld), hmid,
      if_pos ((mem_removals_iff_of_perm hperm).mpr hedit), visible?_of_edit hedit]
    rfl

/-- The same in an order of the keys. -/
theorem get?_of_apply {order : KeyOrder} {base base' : GuardedStore V}
    (hok : EditList.apply (o.toListIn order) base = (none, base')) (key : String) :
    base'.store.get? key = o.visible? base.store key :=
  get?_of_applyIn (o.toListIn_perm order) hok key

end Overlay

/-! ## Applying edits to keys -/

namespace EditList

/-- Edits of other keys leave a key. -/
theorem mem_applyToKeys_of_notMem {order : EditList V} {keys : Std.ExtTreeSet String}
    {key : String} (hkey : key ∉ order.map Prod.fst) :
    key ∈ order.applyToKeys keys ↔ key ∈ keys := by
  induction order generalizing keys with
  | nil => rfl
  | cons e rest ih =>
    obtain ⟨k, edit⟩ := e
    rw [List.map_cons, List.mem_cons, not_or] at hkey
    have hne : k ≠ key := Ne.symm hkey.1
    cases edit with
    | set value => exact (ih hkey.2).trans (by simp [hne])
    | remove => exact (ih hkey.2).trans (by simp [hne])

/-- A key is there after its edit if it was set. -/
theorem mem_applyToKeys_of_mem {order : EditList V} (hn : (order.map Prod.fst).Nodup)
    {keys : Std.ExtTreeSet String} {key : String} {edit : Edit V} (hmem : (key, edit) ∈ order) :
    key ∈ order.applyToKeys keys ↔ edit.value?.isSome := by
  induction order generalizing keys with
  | nil => cases hmem
  | cons e rest ih =>
    rw [List.map_cons, List.nodup_cons] at hn
    rcases List.mem_cons.mp hmem with rfl | hmem
    · cases edit with
      | set value => exact (mem_applyToKeys_of_notMem hn.1).trans (by simp [Edit.value?])
      | remove => exact (mem_applyToKeys_of_notMem hn.1).trans (by simp [Edit.value?])
    · exact ih hn.2 hmem

end EditList

namespace Overlay

variable {o : Overlay V}

/-- The keys after all edits: those with a value, and those of the store that are not touched. It
does not matter in which order the edits come. -/
theorem mem_applyToKeys_iff {order : EditList V} (hperm : order.Perm o.toList)
    {keys : Std.ExtTreeSet String} {key : String} :
    key ∈ order.applyToKeys keys ↔
      match o.edit? key with
      | some edit => edit.value?.isSome
      | none => key ∈ keys := by
  have hn : (order.map Prod.fst).Nodup := (hperm.map Prod.fst).nodup_iff.mpr o.nodup_keys_toList
  cases hedit : o.edit? key with
  | some edit =>
    exact EditList.mem_applyToKeys_of_mem hn (hperm.mem_iff.mpr (mem_toList_iff.mpr hedit))
  | none =>
    refine EditList.mem_applyToKeys_of_notMem fun hmem => ?_
    obtain ⟨e, he, rfl⟩ := List.mem_map.mp hmem
    rw [mem_toList_iff.mp (hperm.mem_iff.mp he)] at hedit
    cases hedit

/-- The visible keys in one expression: those of the store that are not touched, and those that are
held. -/
theorem keys_eq (o : Overlay V) (base : GuardedStore V) :
    o.keys base =
      match base.keys with
      | .ok keys =>
        .ok (Std.ExtTreeSet.ofList
          (keys.filter (fun key => !o.touches key) ++
            (EditList.assignments o.toList).map Prod.fst)).toList
      | .error e => .error (.store e) := by
  rw [keys]
  cases base.keys with
  | error e => rfl
  | ok keys =>
    refine congrArg (fun set : Std.ExtTreeSet String => Except.ok set.toList)
      (Std.ExtTreeSet.ext_mem fun key => ?_)
    have hheld : key ∈ (EditList.assignments o.toList).map Prod.fst ↔ (o.held? key).isSome := by
      simp [Option.isSome_iff_exists, EditList.mem_assignments_iff, mem_toList_iff,
        held?_eq_some_iff]
    simp only [mem_applyToKeys_iff (.refl _), Std.ExtTreeSet.mem_ofList, List.contains_iff_mem,
      List.mem_append, List.mem_filter, hheld, held?, touches_eq_isSome]
    cases o.edit? key <;> simp

/-! ## Copies of visible values -/

section

variable [Copyable V] {o : Overlay V} {h h' : Heap} {base : GuardedStore V}

/-- What is read is a copy of the visible value, if there is one. -/
theorem read_eq_ok {key : String} {found : Option V} (hok : o.read h base key = .ok (found, h')) :
    (o.visible? base.store key = none ∧ found = none ∧ h' = h) ∨
      ∃ v copy, o.visible? base.store key = some v ∧ Copyable.copy h v = .ok (copy, h') ∧
        found = some copy := by
  have hhandOut : ∀ v, handOut h v = .ok (found, h') →
      ∃ copy, Copyable.copy h v = .ok (copy, h') ∧ found = some copy := by
    intro v hmade
    rw [handOut] at hmade
    split at hmade
    next copy h₁ hcopy =>
      cases hmade
      exact ⟨copy, hcopy, rfl⟩
    next => cases hmade
  rw [read] at hok
  rw [visible?]
  cases hedit : o.edit? key with
  | some edit =>
    rw [hedit] at hok
    cases edit with
    | remove =>
      cases hok
      exact .inl ⟨rfl, rfl, rfl⟩
    | set v =>
      obtain ⟨copy, hcopy, hfound⟩ := hhandOut v hok
      exact .inr ⟨v, copy, rfl, hcopy, hfound⟩
  | none =>
    simp only [hedit, GuardedStore.get] at hok
    cases hcheck : base.refusals.checkOn .get key with
    | some e =>
      rw [hcheck] at hok
      cases hok
    | none =>
      simp only [hcheck] at hok
      cases hget : base.store.get? key with
      | none =>
        rw [hget] at hok
        cases hok
        exact .inl ⟨rfl, rfl, rfl⟩
      | some v =>
        rw [hget] at hok
        obtain ⟨copy, hcopy, hfound⟩ := hhandOut v hok
        exact .inr ⟨v, copy, rfl, hcopy, hfound⟩

/-- The entries are copied in two parts, which are put together. -/
theorem entries_eq_ok {order : KeyOrder} {es : List (String × V)}
    (hok : o.entries order h base = .ok (es, h')) :
    ∃ untouched h₁ held,
      Copyable.copyEntries h (o.untouchedIn order base.store.entries) = .ok (untouched, h₁) ∧
      Copyable.copyEntries h₁ (EditList.assignments (o.toListIn order)) = .ok (held, h') ∧
      es = (Std.ExtTreeMap.ofList (untouched ++ held) compare).toList := by
  rw [entries, GuardedStore.entries] at hok
  cases hcheck : base.refusals.check .entries with
  | some e =>
    rw [hcheck] at hok
    cases hok
  | none =>
    simp only [hcheck] at hok
    split at hok
    next => cases hok
    next untouched h₁ huntouched =>
      split at hok
      next => cases hok
      next held h₂ hheld =>
        cases hok
        exact ⟨untouched, h₁, held, huntouched, hheld, rfl⟩

end

end Overlay

end OverlayStore
