import OverlayStore.Transaction.Basic
import OverlayStore.Proofs.Overlay.Visible

/-!
# What a commit comes to

The order in which edits are applied is left open, so what can be said of a commit is said for every
order: whether it succeeds, what the store has afterwards, and how far it came if it was refused.
-/

namespace OverlayStore

namespace Overlay

/-- No key to remove is refused. -/
def RemovalsAllowed (o : Overlay V) (r : Refusals) : Prop :=
  ∀ key, o.edit? key = some .remove → r.checkOn .delete key = none

/-- No key to set is refused. -/
def ValuesAllowed (o : Overlay V) (r : Refusals) : Prop :=
  ∀ key value, o.edit? key = some (.set value) → r.checkOn .put key = none

/-- An error is the refusal of one of the edits. -/
inductive Refused (o : Overlay V) (r : Refusals) : StoreError → Prop
  /-- A key could not be removed. -/
  | removal {key : String} {e : StoreError} (hedit : o.edit? key = some .remove)
    (hcheck : r.checkOn .delete key = some e) : Refused o r e
  /-- A key could not be set. -/
  | value {key : String} {value : V} {e : StoreError} (hedit : o.edit? key = some (.set value))
    (hcheck : r.checkOn .put key = some e) : Refused o r e

/-- All edits are in the store, and nothing else has changed. -/
structure Applied (o : Overlay V) (s s' : Store V) : Prop where
  /-- Every key to set has its value. -/
  set : ∀ key value, o.edit? key = some (.set value) → s'.get? key = some value
  /-- Every key to remove is gone. -/
  removed : ∀ key, o.edit? key = some .remove → s'.get? key = none
  /-- Every other key is as it was. -/
  kept : ∀ key, o.edit? key = none → s'.get? key = s.get? key

/-- The edits stopped among the removals: at most keys that may be removed are gone. -/
def StoppedRemoving (o : Overlay V) (r : Refusals) (s s' : Store V) : Prop :=
  ∀ key, s'.get? key = s.get? key ∨
    o.edit? key = some .remove ∧ r.checkOn .delete key = none ∧ s'.get? key = none

/-- The edits came to the values: the removals are done, and at most keys that may be set are
set. -/
structure StoppedSetting (o : Overlay V) (r : Refusals) (s s' : Store V) : Prop where
  /-- A key to set is as it was, or it may be set and has its value. -/
  set : ∀ key value, o.edit? key = some (.set value) →
    s'.get? key = s.get? key ∨ r.checkOn .put key = none ∧ s'.get? key = some value
  /-- Every key to remove is gone. -/
  removed : ∀ key, o.edit? key = some .remove → s'.get? key = none
  /-- Every other key is as it was. -/
  kept : ∀ key, o.edit? key = none → s'.get? key = s.get? key

/-- A store that has what was visible has all edits. -/
theorem applied_of_visible {o : Overlay V} {s s' : Store V}
    (hs : ∀ key, s'.get? key = o.visible? s key) : o.Applied s s' where
  set key value hedit := by rw [hs, visible?_of_edit hedit]; rfl
  removed key hedit := by rw [hs, visible?_of_edit hedit]; rfl
  kept key hedit := by rw [hs, visible?_of_untouched hedit]

/-! ## How far the edits come -/

variable {o : Overlay V} {order : EditList V} {base : GuardedStore V}

/-- No removal on the list is refused if none of the overlay is. -/
theorem forall_removals_iff (hperm : order.Perm o.toList) :
    (∀ key ∈ order.removals, base.refusals.checkOn .delete key = none) ↔
      o.RemovalsAllowed base.refusals := by
  simp only [RemovalsAllowed, mem_removals_iff_of_perm hperm]

/-- No value on the list is refused if none of the overlay is. -/
theorem forall_assignments_iff (hperm : order.Perm o.toList) :
    (∀ e ∈ order.assignments, base.refusals.checkOn .put e.1 = none) ↔
      o.ValuesAllowed base.refusals := by
  simp only [ValuesAllowed, Prod.forall, mem_assignments_iff_of_perm hperm]

/-- Whether all edits are applied does not depend on their order. -/
theorem apply_answer_eq_none_iff (hperm : order.Perm o.toList) :
    (order.apply base).1 = none ↔
      o.RemovalsAllowed base.refusals ∧ o.ValuesAllowed base.refusals := by
  rw [EditList.apply_answer_eq_none_iff, forall_removals_iff hperm, forall_assignments_iff hperm]

/-- The error at which the edits stop is the refusal of one of them. -/
theorem refused_of_apply (hperm : order.Perm o.toList) {e : StoreError}
    (herror : (order.apply base).1 = some e) : o.Refused base.refusals e := by
  rw [EditList.apply_answer, Option.or_eq_some_iff] at herror
  rcases herror with hremoval | ⟨-, hvalue⟩
  · obtain ⟨key, hm, hcheck⟩ := List.exists_of_findSome?_eq_some hremoval
    exact .removal ((mem_removals_iff_of_perm hperm).mp hm) hcheck
  · obtain ⟨⟨key, value⟩, hm, hcheck⟩ := List.exists_of_findSome?_eq_some hvalue
    exact .value ((mem_assignments_iff_of_perm hperm).mp hm) hcheck

/-- If a removal is refused then no value is set. -/
theorem stoppedRemoving_apply (hperm : order.Perm o.toList)
    (hrefused : ¬ o.RemovalsAllowed base.refusals) :
    o.StoppedRemoving base.refusals base.store (order.apply base).2.store := by
  intro key
  have hsome : (EditList.removeEach order.removals base).1 ≠ none := by
    rw [EditList.removeEach_answer, ne_eq, List.findSome?_eq_none_iff, forall_removals_iff hperm]
    exact hrefused
  obtain ⟨e, he⟩ := Option.ne_none_iff_exists'.mp hsome
  rw [EditList.apply_eq, he]
  simp only [EditList.get?_removeEach]
  by_cases hm : key ∈ order.removals.takeWhile (base.refusals.allows .delete)
  · right
    refine ⟨?_, Refusals.allows_iff.mp (List.mem_takeWhile_imp hm), if_pos hm⟩
    exact (mem_removals_iff_of_perm hperm).mp ((List.takeWhile_prefix _).subset hm)
  · exact .inl (if_neg hm)

/-- If no removal is refused then all of them are done before any value is set. -/
theorem stoppedSetting_apply (hperm : order.Perm o.toList)
    (hallowed : o.RemovalsAllowed base.refusals) :
    o.StoppedSetting base.refusals base.store (order.apply base).2.store := by
  have hremovals := (forall_removals_iff hperm).mpr hallowed
  have happly : order.apply base =
      EditList.setEach order.assignments (EditList.removeEach order.removals base).2 := by
    rw [EditList.apply_eq, EditList.removeEach_answer, List.findSome?_eq_none_iff.mpr hremovals]
  have hremoved := EditList.get?_removeEach_of_allowed hremovals
  have hrules := EditList.removeEach_refusals order.removals base
  have hnot : ∀ key, o.held? key = none → (order.apply base).2.store.get? key =
      (EditList.removeEach order.removals base).2.store.get? key := fun key hheld => by
    rw [happly, EditList.get?_setEach_of_notMem (notMem_keys_assignments hperm hheld)]
  constructor
  · intro key value hedit
    have hkey : key ∉ order.removals := by
      rw [mem_removals_iff_of_perm hperm, hedit]
      rintro ⟨⟩
    have hbefore := (hremoved key).trans (if_neg hkey)
    rw [happly]
    rcases EditList.get?_setEach_cases order.assignments
      (EditList.removeEach order.removals base).2 key with hkept | ⟨v, hm, hlet, hset⟩
    · exact .inl (hkept.trans hbefore)
    · rw [mem_assignments_iff_of_perm hperm, hedit] at hm
      cases hm
      exact .inr ⟨hrules ▸ hlet, hset⟩
  · intro key hedit
    rw [hnot key (by rw [held?, hedit]; rfl), hremoved,
      if_pos ((mem_removals_iff_of_perm hperm).mpr hedit)]
  · intro key hedit
    have hkey : key ∉ order.removals := by
      rw [mem_removals_iff_of_perm hperm, hedit]
      rintro ⟨⟩
    rw [hnot key (by rw [held?, hedit]; rfl), hremoved, if_neg hkey]

/-- However far the edits come, the keys without an edit are as they were. -/
theorem get?_apply_of_untouched (hperm : order.Perm o.toList) {key : String}
    (hedit : o.edit? key = none) (base : GuardedStore V) :
    (order.apply base).2.store.get? key = base.store.get? key := by
  by_cases hallowed : o.RemovalsAllowed base.refusals
  · exact (stoppedSetting_apply hperm hallowed).kept key hedit
  · rcases stoppedRemoving_apply hperm hallowed key with hkept | ⟨hremove, -⟩
    · exact hkept
    · rw [hedit] at hremove
      cases hremove

end Overlay

namespace Transaction

/-- What the commit of an active transaction comes to, in whatever order its edits are applied. -/
structure CommitOutcome (t : Transaction V) (base : GuardedStore V)
    (settled : Settled (Except TransactionError Unit) V) : Prop where
  /-- It succeeds if no key to remove and no key to set is refused. -/
  succeeds : settled.answer = .ok () ↔
    t.overlay.RemovalsAllowed base.refusals ∧ t.overlay.ValuesAllowed base.refusals
  /-- Then all edits are in the store, and none is left. -/
  committed : settled.answer = .ok () →
    settled.transaction = ⟨t.id, .committed, .empty⟩ ∧
      t.overlay.Applied base.store settled.base.store
  /-- Otherwise the transaction has failed by the refusal of one of its edits, and keeps them. -/
  failed : ∀ e, settled.answer = .error e →
    settled.transaction = { t with phase := .failed } ∧
      ∃ refusal, e = .failed t.id (.store refusal) ∧ t.overlay.Refused base.refusals refusal
  /-- If a key to remove is refused, the edits stopped among the removals. -/
  stoppedRemoving : ¬ t.overlay.RemovalsAllowed base.refusals →
    t.overlay.StoppedRemoving base.refusals base.store settled.base.store
  /-- If none is, they came to the values. -/
  stoppedSetting : t.overlay.RemovalsAllowed base.refusals →
    t.overlay.StoppedSetting base.refusals base.store settled.base.store
  /-- The rules in front of the store stay. -/
  refusals : settled.base.refusals = base.refusals

/-- A commit of an active transaction, by what becomes of the edits. -/
theorem commitIn_of_active {t : Transaction V} (hactive : t.phase = .active) (order : EditList V)
    (base : GuardedStore V) :
    t.commitIn order base =
      match (order.apply base).1 with
      | none => ⟨.ok (), ⟨t.id, .committed, .empty⟩, (order.apply base).2⟩
      | some e => ⟨.error (.failed t.id (.store e)), { t with phase := .failed },
          (order.apply base).2⟩ := by
  rw [commitIn, hactive]
  cases order.apply base with
  | mk answer left => cases answer <;> rfl

/-- Every order in which the edits can be applied is that of a commit. -/
theorem exists_commit_eq_commitIn {t : Transaction V} {edits : EditList V}
    (hperm : edits.Perm t.overlay.toList) :
    ∃ order, ∀ base, t.commit order base = t.commitIn edits base := by
  obtain ⟨order, heq⟩ := Overlay.exists_toListIn_eq hperm
  exact ⟨order, fun base => by rw [commit, heq]⟩

/-- The outcome of a commit, for every store, every refusal and every order of the edits. -/
theorem commitIn_outcome {t : Transaction V} (hactive : t.phase = .active) {order : EditList V}
    (hperm : order.Perm t.overlay.toList) (base : GuardedStore V) :
    CommitOutcome t base (t.commitIn order base) := by
  have hsucceeds : (order.apply base).1 = none ↔ _ := Overlay.apply_answer_eq_none_iff hperm
  have hremoving : ¬ t.overlay.RemovalsAllowed base.refusals → _ :=
    Overlay.stoppedRemoving_apply hperm
  have hsetting : t.overlay.RemovalsAllowed base.refusals → _ := Overlay.stoppedSetting_apply hperm
  have hrules := EditList.apply_refusals order base
  rw [commitIn_of_active hactive]
  cases hanswer : (order.apply base).1 with
  | none =>
    have happly : order.apply base = (none, (order.apply base).2) := by rw [← hanswer]
    exact {
      succeeds := iff_of_true rfl (hsucceeds.mp hanswer)
      committed := fun _ =>
        ⟨rfl, Overlay.applied_of_visible (Overlay.get?_of_applyIn hperm happly)⟩
      failed := nofun
      stoppedRemoving := hremoving
      stoppedSetting := hsetting
      refusals := hrules }
  | some e =>
    have hrefused := Overlay.refused_of_apply hperm hanswer
    refine {
      succeeds := iff_of_false nofun fun hallowed => ?_
      committed := nofun
      failed := ?_
      stoppedRemoving := hremoving
      stoppedSetting := hsetting
      refusals := hrules }
    · rw [hsucceeds.mpr hallowed] at hanswer
      cases hanswer
    · rintro _ ⟨⟩
      exact ⟨rfl, e, rfl, hrefused⟩

/-- A transaction that removes two keys and sets a third. -/
def mixed : Transaction Int64 :=
  ⟨⟨1, 0⟩, .active, ((Overlay.empty.insert "a" .remove).insert "b" (.set 2)).insert "c" .remove⟩

/-- A store that does not let one of its keys be removed. -/
def reluctant : GuardedStore Int64 :=
  ⟨((Store.empty.put "a" 1).2.put "c" 3).2, fun op =>
    match op with
    | .delete => .on ["c"]
    | .put | .get | .contains | .keys | .entries => .never⟩

/-- The edits in another order than that of their keys. -/
def mixedOrder : EditList Int64 := [("b", .set 2), ("a", .remove), ("c", .remove)]

/-- The commit fails at the key that may not be removed, and the value is not set. -/
theorem commitIn_outcome_reluctant :
    mixed.phase = .active ∧ mixedOrder.Perm mixed.overlay.toList ∧
      (mixed.commitIn mixedOrder reluctant).answer ≠ .ok () ∧
      (mixed.commitIn mixedOrder reluctant).base.store.get? "b" = none := by
  have hactive : mixed.phase = .active := rfl
  have hperm : mixedOrder.Perm mixed.overlay.toList := .swap _ _ _
  have houtcome := commitIn_outcome hactive hperm reluctant
  have hrefused : ¬ mixed.overlay.RemovalsAllowed reluctant.refusals := by
    intro hallowed
    have hc := hallowed "c" rfl
    cases hc
  refine ⟨hactive, hperm, fun hok => hrefused (houtcome.succeeds.mp hok).1, ?_⟩
  rcases houtcome.stoppedRemoving hrefused "b" with hkept | ⟨hedit, -⟩
  · exact hkept
  · cases hedit

end Transaction

end OverlayStore
