import Mathlib.Data.List.Forall2
import Mathlib.Data.List.Sort
import OverlayStore.Store.Basic

/-!
# Tables as lists

A table lists its entries in the order of the keys, so lists of two tables can be compared key by
key: related values under every key give related lists, and a list with distinct keys is read back
from the table that it makes.
-/

namespace OverlayStore.Table

/-- What stands in the strict order of keys is told by its members. -/
theorem eq_of_ordered_by {α : Type*} (key : α → String) {as bs : List α}
    (has : as.Pairwise fun a b => compare (key a) (key b) = .lt)
    (hbs : bs.Pairwise fun a b => compare (key a) (key b) = .lt) (hmem : ∀ a, a ∈ as ↔ a ∈ bs) :
    as = bs := by
  have hirrefl : Std.Irrefl fun a b => compare (key a) (key b) = .lt := by
    refine ⟨fun a hlt => ?_⟩
    rw [Std.compare_self] at hlt
    cases hlt
  have hantisymm : Std.Antisymm fun a b => compare (key a) (key b) = .lt := by
    refine ⟨fun a b hab hba => ?_⟩
    have hswap : compare (key b) (key a) = (compare (key a) (key b)).swap :=
      Std.OrientedCmp.eq_swap
    rw [hswap, hab] at hba
    cases hba
  exact List.Pairwise.eq_of_mem_iff has hbs hmem

/-- Texts in strict order are told by which ones they are. -/
theorem eq_of_ordered {as bs : List String} (has : as.Pairwise fun a b => compare a b = .lt)
    (hbs : bs.Pairwise fun a b => compare a b = .lt) (hmem : ∀ key, key ∈ as ↔ key ∈ bs) :
    as = bs :=
  eq_of_ordered_by id has hbs hmem

variable {α β : Type}

/-- The keys of a table, listed from the set of them. -/
theorem toList_eq_keys {keys : Std.ExtTreeSet String} {t : Table α}
    (hmem : ∀ key, key ∈ keys ↔ (t[key]?).isSome) : keys.toList = t.keys := by
  refine eq_of_ordered Std.ExtTreeSet.ordered_toList Std.ExtTreeMap.ordered_keys fun key => ?_
  rw [Std.ExtTreeSet.mem_toList, hmem, Std.ExtTreeMap.mem_keys,
    Std.ExtTreeMap.isSome_getElem?_iff_mem]

/-- Related values are both there or both not. -/
theorem isSome_iff_of_rel {R : α → β → Prop} {a : Option α} {b : Option β}
    (hrel : Option.Rel R a b) : a.isSome ↔ b.isSome := by
  cases hrel <;> simp

/-- Related values under every key give related lists of entries. -/
theorem forall₂_toList {R : α → β → Prop} {s : Table α} {t : Table β}
    (hrel : ∀ key : String, Option.Rel R s[key]? t[key]?) :
    List.Forall₂ (fun e f => e.1 = f.1 ∧ R e.2 f.2) s.toList t.toList := by
  have hkeys : s.toList.map Prod.fst = t.toList.map Prod.fst := by
    rw [Std.ExtTreeMap.map_fst_toList_eq_keys, Std.ExtTreeMap.map_fst_toList_eq_keys]
    refine eq_of_ordered Std.ExtTreeMap.ordered_keys Std.ExtTreeMap.ordered_keys fun key => ?_
    rw [Std.ExtTreeMap.mem_keys, Std.ExtTreeMap.mem_keys, ← Std.ExtTreeMap.isSome_getElem?_iff_mem,
      ← Std.ExtTreeMap.isSome_getElem?_iff_mem]
    exact isSome_iff_of_rel (hrel key)
  have hlength : s.toList.length = t.toList.length := by
    rw [← List.length_map (f := Prod.fst), hkeys, List.length_map]
  refine List.forall₂_iff_get.mpr ⟨hlength, fun i hi hj => ?_⟩
  have hkey : (s.toList[i]).1 = (t.toList[i]).1 := by
    have hget := congrArg (fun keys => keys[i]?) hkeys
    simpa only [List.getElem?_map, List.getElem?_eq_getElem hi, List.getElem?_eq_getElem hj,
      Option.map_some, Option.some.injEq] using hget
  refine ⟨hkey, ?_⟩
  have hs : s[(s.toList[i]).1]? = some (s.toList[i]).2 :=
    Std.ExtTreeMap.mem_toList_iff_getElem?_eq_some.mp (List.getElem_mem hi)
  have ht : t[(t.toList[i]).1]? = some (t.toList[i]).2 :=
    Std.ExtTreeMap.mem_toList_iff_getElem?_eq_some.mp (List.getElem_mem hj)
  have hval := hrel (s.toList[i]).1
  rw [hs, hkey, ht] at hval
  cases hval with
  | some hr => exact hr

/-- Entries that are related one by one have the same keys. -/
theorem keys_eq_of_forall₂ {R : α → β → Prop} {made : List (String × α)}
    {source : List (String × β)}
    (hmade : List.Forall₂ (fun e f => e.1 = f.1 ∧ R e.2 f.2) made source) :
    made.map Prod.fst = source.map Prod.fst := by
  induction hmade with
  | nil => rfl
  | cons he _ ih => rw [List.map_cons, List.map_cons, ih, he.1]

/-- A table made from a list whose entries are related to those of a list with distinct keys. -/
theorem rel_getElem?_ofList {R : α → β → Prop} {made : List (String × α)}
    {source : List (String × β)}
    (hmade : List.Forall₂ (fun e f => e.1 = f.1 ∧ R e.2 f.2) made source)
    (hn : (source.map Prod.fst).Nodup) {look : String → Option β}
    (hlook : ∀ key b, (key, b) ∈ source ↔ look key = some b) (key : String) :
    Option.Rel R (Std.ExtTreeMap.ofList made compare)[key]? (look key) := by
  have hkeys := keys_eq_of_forall₂ hmade
  cases hl : look key with
  | none =>
    have habsent : key ∉ made.map Prod.fst := by
      rw [hkeys]
      intro hm
      obtain ⟨e, he, rfl⟩ := List.mem_map.mp hm
      rw [(hlook e.1 e.2).mp he] at hl
      cases hl
    rw [Std.ExtTreeMap.getElem?_ofList_of_contains_eq_false (by simpa using habsent)]
    exact .none
  | some b =>
    obtain ⟨i, hi, hsource⟩ := List.getElem_of_mem ((hlook key b).mpr hl)
    have hi' : i < made.length := hmade.length_eq ▸ hi
    obtain ⟨hkey, hr⟩ := hmade.get hi' hi
    simp only [List.get_eq_getElem, hsource] at hkey hr
    have hdistinct : made.Pairwise fun a b => ¬ compare a.1 b.1 = .eq := by
      rw [← hkeys, List.nodup_iff_pairwise_ne, List.pairwise_map] at hn
      exact hn.imp fun hne heq => hne (Std.LawfulEqCmp.eq_of_compare heq)
    have hmem : (key, (made[i]).2) ∈ made := hkey ▸ List.getElem_mem hi'
    rw [Std.ExtTreeMap.getElem?_ofList_of_mem Std.ReflCmp.compare_self hdistinct hmem]
    exact .some hr

/-- What is found after insertions was inserted, or was there before. -/
theorem mem_or_of_getElem?_foldl_insert {entries : List (String × α)} {t : Table α} {key : String}
    {value : α} (hfound : (entries.foldl (fun t p => t.insert p.1 p.2) t)[key]? = some value) :
    (key, value) ∈ entries ∨ t[key]? = some value := by
  induction entries generalizing t with
  | nil => exact .inr hfound
  | cons e rest ih =>
    rcases ih hfound with hrest | hinsert
    · exact .inl (List.mem_cons_of_mem e hrest)
    · rw [Std.ExtTreeMap.getElem?_insert] at hinsert
      split at hinsert
      next hkey =>
        rw [← Std.LawfulEqCmp.eq_of_compare hkey, ← Option.some.inj hinsert]
        exact .inl List.mem_cons_self
      next => exact .inr hinsert

/-- A table made from a list has only entries of the list. -/
theorem mem_of_mem_toList_ofList {entries : List (String × α)} {e : String × α}
    (he : e ∈ (Std.ExtTreeMap.ofList entries compare).toList) : e ∈ entries := by
  rw [Std.ExtTreeMap.mem_toList_iff_getElem?_eq_some, Std.ExtTreeMap.ofList_eq_foldl] at he
  exact (mem_or_of_getElem?_foldl_insert he).resolve_right (by simp)

end OverlayStore.Table
