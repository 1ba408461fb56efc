import OverlayStore.Proofs.Cells.Faithful
import OverlayStore.Proofs.Overlay.Plain

/-!
# What an overlay lists

The keys and the entries of an overlay are computed in different ways: the keys start from the
store and are extended by edits, the entries are copied in two parts and put together. Both list the
visible values, and a value that can be copied at all has the same copy in either way.
-/

namespace OverlayStore

namespace Copyable

/-- Entries that were copied one after the other, out of one heap. -/
theorem isCopy_of_copyEntries {base h h' : Heap} (hclosed : base.Closed base.Has)
    {entries made : List (String × Value)} (hv : ∀ e ∈ entries, e.2.Within base.Has)
    (hle : base ≤ h) (hok : copyEntries h entries = .ok (made, h')) :
    h ≤ h' ∧ List.Forall₂ (fun c e => c.1 = e.1 ∧ Value.IsCopy base h' c.2 e.2) made entries := by
  rw [copyEntries_eq] at hok
  refine copyEach_forall₂ (fun h (c e : String × Value) => c.1 = e.1 ∧ Value.IsCopy base h c.2 e.2)
    (fun h h' c e hle hc => ⟨hc.1, hc.2.mono hle⟩) (fun e he h c h' hle hc => ?_) hle hok
  obtain ⟨hkey, hcopy⟩ := copyUnderKey_eq_ok_iff.mp hc
  obtain ⟨hle', hmade⟩ := Value.made_of_copy hclosed (hv e he) hle hcopy
  exact ⟨hle', hkey, hmade.isCopy⟩

/-- A list is copied in two parts. -/
theorem copyEntries_append [Copyable V] {h h₁ h₂ : Heap} {as bs as' bs' : List (String × V)}
    (has : copyEntries h as = .ok (as', h₁)) (hbs : copyEntries h₁ bs = .ok (bs', h₂)) :
    copyEntries h (as ++ bs) = .ok (as' ++ bs', h₂) := by
  rw [copyEntries_eq] at has hbs ⊢
  exact copyEach_append has hbs

end Copyable

/-! ## Keys and entries -/

namespace Overlay

variable (o : Overlay V) (s : Store V)

/-- The visible values, as a table. -/
def visibleTable : Table V := Std.ExtTreeMap.ofList (o.visibleEntries s []) compare

/-- The table has the visible value of every key. -/
theorem getElem?_visibleTable (key : String) : (o.visibleTable s)[key]? = o.visible? s key := by
  have hself : List.Forall₂ (fun e f : String × V => e.1 = f.1 ∧ e.2 = f.2)
      (o.visibleEntries s []) (o.visibleEntries s []) :=
    List.forall₂_same.mpr fun e _ => ⟨rfl, rfl⟩
  have hrel := Table.rel_getElem?_ofList hself (o.nodup_keys_visibleEntries s [])
    mem_visibleEntries_iff key
  rw [visibleTable]
  generalize (Std.ExtTreeMap.ofList (o.visibleEntries s []) compare)[key]? = listed at hrel
  generalize o.visible? s key = visible at hrel
  cases hrel with
  | none => rfl
  | some heq => rw [heq]

/-- The keys of the table are those with a visible value. -/
theorem mem_keys_visibleTable_iff {o : Overlay V} {s : Store V} {key : String} :
    key ∈ (o.visibleTable s).keys ↔ (o.visible? s key).isSome := by
  rw [Std.ExtTreeMap.mem_keys, ← Std.ExtTreeMap.isSome_getElem?_iff_mem, getElem?_visibleTable]

/-- The keys are those with a visible value. -/
theorem keys_visible : o.keys (.plain s) = .ok (o.visibleTable s).keys :=
  o.keys_plain s fun key => by rw [getElem?_visibleTable]

/-- The entries have the visible keys, and under every key a copy of the visible value. -/
theorem entries_visible {o : Overlay Value} {s : Store Value} {order : KeyOrder} {h h' : Heap}
    (hclosed : h.Closed h.Has) (hvisible : ∀ key v, o.visible? s key = some v → v.Within h.Has)
    {es : List (String × Value)} (hok : o.entries order h (.plain s) = .ok (es, h')) :
    es.map Prod.fst = (o.visibleTable s).keys ∧
      ∀ key copy, (key, copy) ∈ es →
        ∃ v, o.visible? s key = some v ∧ Value.IsCopy h h' copy v := by
  obtain ⟨untouched, h₁, held, hfirst, hsecond, rfl⟩ := entries_eq_ok hok
  have hmade : Copyable.copyEntries h (o.visibleEntries s order) = .ok (untouched ++ held, h') :=
    Copyable.copyEntries_append hfirst hsecond
  have hwithin : ∀ e ∈ o.visibleEntries s order, e.2.Within h.Has := fun e he =>
    hvisible e.1 e.2 ((mem_visibleEntries_iff e.1 e.2).mp he)
  obtain ⟨-, hcopies⟩ := Copyable.isCopy_of_copyEntries hclosed hwithin (le_refl h) hmade
  have hrel := Table.rel_getElem?_ofList hcopies (o.nodup_keys_visibleEntries s order)
    mem_visibleEntries_iff
  constructor
  · have htables : ∀ key : String, Option.Rel (Value.IsCopy h h')
        (Std.ExtTreeMap.ofList (untouched ++ held) compare)[key]? (o.visibleTable s)[key]? := by
      intro key
      rw [getElem?_visibleTable]
      exact hrel key
    rw [Table.keys_eq_of_forall₂ (Table.forall₂_toList htables),
      Std.ExtTreeMap.map_fst_toList_eq_keys]
  · intro key copy he
    have hcopy := hrel key
    rw [Std.ExtTreeMap.mem_toList_iff_getElem?_eq_some.mp he] at hcopy
    generalize o.visible? s key = visible at hcopy
    cases hcopy with
    | some hcopy => exact ⟨_, rfl, hcopy⟩

end Overlay

end OverlayStore
