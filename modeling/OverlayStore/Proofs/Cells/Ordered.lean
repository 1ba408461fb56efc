import OverlayStore.Proofs.Cells.Copy
import OverlayStore.Proofs.Store.Tables

/-!
# Maps in the order of their keys

The entries of a map stand in the order of their keys, and no key has two. Nothing in the type of a
value asks for that: it holds of every map that is built from entries or extended by one, and
copying keeps it, since a copy has the keys of its source.
-/

namespace OverlayStore

/-- Entries in the order of their keys, no two of them under one key. -/
def Ascending (entries : List (String × α)) : Prop :=
  (entries.map Prod.fst).Pairwise fun a b => compare a b = .lt

private theorem ne_of_compare_lt {a b : String} (hlt : compare a b = .lt) : a ≠ b := by
  rintro rfl
  rw [Std.compare_self] at hlt
  cases hlt

/-- A key is looked up in the first entry and then in the others. -/
private theorem lookup_cons_eq_ite (k key : String) (value : α) (rest : List (String × α)) :
    ((key, value) :: rest).lookup k = if k = key then some value else rest.lookup k := by
  by_cases heq : k = key
  · subst heq
    rw [List.lookup_cons_self, if_pos rfl]
  · rw [List.lookup_cons, beq_eq_false_iff_ne.mpr heq, if_neg heq]

namespace Ascending

variable {entries others : List (String × α)}

/-- No key stands twice. -/
theorem nodup (ha : Ascending entries) : (entries.map Prod.fst).Nodup :=
  ha.imp ne_of_compare_lt

/-- The keys decide. -/
theorem of_keys_eq {made : List (String × β)} (ha : Ascending entries)
    (hkeys : made.map Prod.fst = entries.map Prod.fst) : Ascending made := by
  rw [Ascending, hkeys]
  exact ha

/-- The entries are those that are found under their keys. -/
theorem mem_iff_lookup (ha : Ascending entries) {e : String × α} :
    e ∈ entries ↔ entries.lookup e.1 = some e.2 := by
  induction entries with
  | nil => simp
  | cons first rest ih =>
    obtain ⟨hfirst, hrest⟩ := List.pairwise_cons.mp ha
    obtain ⟨key, value⟩ := first
    rw [List.mem_cons, ih hrest, lookup_cons_eq_ite]
    by_cases heq : e.1 = key
    · have hnone : ¬ rest.lookup e.1 = some e.2 := fun hsome =>
        ne_of_compare_lt (hfirst e.1 (List.mem_map_of_mem ((ih hrest).mpr hsome))) heq.symm
      rw [if_pos heq, or_iff_left hnone, Option.some.injEq]
      exact ⟨fun hsame => (congrArg Prod.snd hsame).symm, fun hvalue => Prod.ext heq hvalue.symm⟩
    · rw [if_neg heq, or_iff_right fun hsame => heq (congrArg Prod.fst hsame)]

/-- Entries in order are told by what is found under every key. -/
theorem ext (ha : Ascending entries) (hb : Ascending others)
    (hlookup : ∀ key, entries.lookup key = others.lookup key) : entries = others := by
  refine Table.eq_of_ordered_by Prod.fst (List.pairwise_map.mp ha) (List.pairwise_map.mp hb)
    fun e => ?_
  rw [ha.mem_iff_lookup, hb.mem_iff_lookup, hlookup]

end Ascending

namespace Value

/-! ## Entries -/

/-- An entry after an insertion is the new one or an old one. -/
theorem mem_insertEntry {key : String} {value : α} {entries : List (String × α)} {e : String × α}
    (he : e ∈ insertEntry key value entries) : e = (key, value) ∨ e ∈ entries := by
  induction entries with
  | nil => exact .inl (List.mem_singleton.mp he)
  | cons first rest ih =>
    obtain ⟨k, v⟩ := first
    rw [insertEntry] at he
    split at he
    · exact List.mem_cons.mp he
    · exact (List.mem_cons.mp he).imp_right (List.mem_cons_of_mem _)
    · rcases List.mem_cons.mp he with rfl | he
      · exact .inr List.mem_cons_self
      · exact (ih he).imp_right (List.mem_cons_of_mem _)

/-- The new key has its value, and every other one the value that it had. -/
theorem lookup_insertEntry (key k : String) (value : α) (entries : List (String × α)) :
    (insertEntry key value entries).lookup k =
      if k = key then some value else entries.lookup k := by
  induction entries with
  | nil => exact lookup_cons_eq_ite k key value []
  | cons e rest ih =>
    obtain ⟨k', v⟩ := e
    rw [insertEntry]
    cases hcompare : compare key k' with
    | lt => exact lookup_cons_eq_ite k key value _
    | eq =>
      obtain rfl := Std.LawfulEqCmp.eq_of_compare hcompare
      simp only [lookup_cons_eq_ite]
      split <;> rfl
    | gt =>
      have hne := ne_of_compare_lt (Std.OrientedCmp.gt_iff_lt.mp hcompare)
      simp only [lookup_cons_eq_ite, ih]
      -- Both keys are asked for, but in another order.
      by_cases heq : k = k'
      · rw [if_pos heq, if_pos heq, if_neg (heq ▸ hne)]
      · rw [if_neg heq, if_neg heq]

/-- An insertion keeps the order. -/
theorem ascending_insertEntry {entries : List (String × α)} (ha : Ascending entries) (key : String)
    (value : α) : Ascending (insertEntry key value entries) := by
  induction entries with
  | nil => exact List.pairwise_singleton _ _
  | cons e rest ih =>
    obtain ⟨k, v⟩ := e
    obtain ⟨hfirst, hrest⟩ := List.pairwise_cons.mp ha
    rw [insertEntry]
    cases hcompare : compare key k with
    | lt =>
      refine List.pairwise_cons.mpr ⟨fun k' hk' => ?_, ha⟩
      rcases List.mem_cons.mp hk' with rfl | hk'
      · exact hcompare
      · exact Std.TransCmp.lt_trans hcompare (hfirst k' hk')
    | eq =>
      obtain rfl := Std.LawfulEqCmp.eq_of_compare hcompare
      exact List.pairwise_cons.mpr ⟨hfirst, hrest⟩
    | gt =>
      refine List.pairwise_cons.mpr ⟨fun k' hk' => ?_, ih hrest⟩
      obtain ⟨e, he, rfl⟩ := List.mem_map.mp hk'
      rcases mem_insertEntry he with rfl | he
      · exact Std.OrientedCmp.gt_iff_lt.mp hcompare
      · exact hfirst e.1 (List.mem_map_of_mem he)

/-- Entries that are inserted one after the other stand in order, and a key has the value of the
last one. -/
theorem foldl_insertEntry {sorted : List (String × α)} (ha : Ascending sorted)
    (entries : List (String × α)) :
    Ascending (entries.foldl (fun sorted (key, value) => insertEntry key value sorted) sorted) ∧
      ∀ k,
        (entries.foldl (fun sorted (key, value) => insertEntry key value sorted) sorted).lookup k =
          (entries.reverse.lookup k).or (sorted.lookup k) := by
  induction entries generalizing sorted with
  | nil => exact ⟨ha, fun k => rfl⟩
  | cons e rest ih =>
    obtain ⟨key, value⟩ := e
    obtain ⟨hsorted, hlookup⟩ := ih (ascending_insertEntry ha key value)
    refine ⟨hsorted, fun k => (hlookup k).trans ?_⟩
    rw [List.reverse_cons, List.lookup_append, lookup_insertEntry, lookup_cons_eq_ite,
      Option.or_assoc]
    split <;> rfl

/-- A map made from entries has them in order, and under every key the last one. -/
theorem ofEntries_eq_map_iff {entries sorted : List (String × Value)} :
    ofEntries entries = .map sorted ↔
      Ascending sorted ∧ ∀ key, sorted.lookup key = entries.reverse.lookup key := by
  have hnone : Ascending ([] : List (String × Value)) := .nil
  obtain ⟨hordered, hfold⟩ := foldl_insertEntry hnone entries
  have hlookup := fun key => (hfold key).trans Option.or_none
  rw [ofEntries, Value.map.injEq]
  constructor
  · rintro rfl
    exact ⟨hordered, hlookup⟩
  · rintro ⟨hsorted, hfound⟩
    exact hordered.ext hsorted fun key => (hlookup key).trans (hfound key).symm

/-! ## Values -/

/-- Every map of a value is in the order of its keys; what cells hold does not count. -/
inductive Ordered : Value → Prop
  /-- Plain data. -/
  | plain (data : Plain) : Ordered (.plain data)
  /-- A list of such values. -/
  | list {items : List Value} (hitems : ∀ v ∈ items, Ordered v) : Ordered (.list items)
  /-- A map in order with such values. -/
  | map {entries : List (String × Value)} (hkeys : Ascending entries)
    (hvalues : ∀ e ∈ entries, Ordered e.2) : Ordered (.map entries)
  /-- A handle. -/
  | shared (cell : Cell) : Ordered (.shared cell)
  /-- A payload. -/
  | foreign (payload : Foreign) : Ordered (.foreign payload)

/-- A map made from entries is in order. -/
theorem ordered_ofEntries {entries : List (String × Value)} (he : ∀ e ∈ entries, e.2.Ordered) :
    (ofEntries entries).Ordered := by
  obtain ⟨hordered, hlookup⟩ := ofEntries_eq_map_iff.mp (rfl : ofEntries entries = .map _)
  refine .map hordered fun e hm => ?_
  rw [hordered.mem_iff_lookup, hlookup, List.lookup_eq_some_iff] at hm
  obtain ⟨before, after, heq, -⟩ := hm
  refine he (e.1, e.2) (List.mem_reverse.mp ?_)
  rw [heq]
  exact List.mem_append_right _ List.mem_cons_self

/-- A container that is extended stays in order. -/
theorem ordered_extended {old item : Value} (hold : old.Ordered) (key : String)
    (hitem : item.Ordered) : (old.extended key item).1.Ordered := by
  cases hold with
  | list hitems =>
    refine .list fun v hv => ?_
    rcases List.mem_append.mp hv with hv | hv
    · exact hitems v hv
    · exact List.mem_singleton.mp hv ▸ hitem
  | map hkeys hvalues =>
    refine .map (ascending_insertEntry hkeys key item) fun e he => ?_
    rcases mem_insertEntry he with rfl | he
    · exact hitem
    · exact hvalues e he
  | plain | shared | foreign => exact hitem

end Value

/-! ## Cells and copies -/

/-- All cells hold values in order. -/
def Heap.Ordered (h : Heap) : Prop := ∀ cell v, h.read? cell = some v → v.Ordered

namespace Heap

variable {h : Heap}

/-- A new cell holds a value in order. -/
theorem Ordered.alloc (hh : h.Ordered) {v : Value} (hv : v.Ordered) : (h.alloc v).2.Ordered := by
  intro cell w hw
  by_cases hcell : cell = (h.alloc v).1
  · rw [hcell, read?_alloc_self] at hw
    exact Option.some.inj hw ▸ hv
  · have hlt : cell.index < h.size := by
      have hhas : cell.index < h.size + 1 := by
        rw [← size_alloc h v]
        exact has_of_read? hw
      refine lt_of_le_of_ne (Nat.le_of_lt_succ hhas) fun heq => hcell ?_
      rw [Heap.alloc, ← heq]
    rw [read?_alloc_of_lt v hlt] at hw
    exact hh cell w hw

/-- A write puts in a value in order. -/
theorem Ordered.write (hh : h.Ordered) (cell : Cell) {v : Value} (hv : v.Ordered) :
    (h.write cell v).Ordered := by
  intro other w hw
  by_cases hcell : cell = other
  · subst hcell
    have hlt : cell.index < h.size := by
      rw [← size_write h cell v]
      exact has_of_read? hw
    rw [read?_write_self v hlt] at hw
    exact Option.some.inj hw ▸ hv
  · rw [read?_write_of_ne v hcell] at hw
    exact hh other w hw

end Heap

section

variable {copy : α → Heap → Except CopyError (α × Heap)} {h h' : Heap}

/-- What the copying of every member keeps, the copying of a list keeps, and what the copy of every
member has, all copies have. -/
theorem copyEach_keeps (kept : Heap → Prop) (made : α → Prop) {as bs : List α}
    (hcopy : ∀ a ∈ as, ∀ h b h', kept h → copy a h = .ok (b, h') → kept h' ∧ made b)
    (hk : kept h) (hok : copyEach copy as h = .ok (bs, h')) : kept h' ∧ ∀ b ∈ bs, made b := by
  induction as generalizing h bs with
  | nil =>
    cases hok
    exact ⟨hk, List.forall_mem_nil _⟩
  | cons a rest ih =>
    rw [List.forall_mem_cons] at hcopy
    obtain ⟨b, h₁, tail, hhead, htail, rfl⟩ := copyEach_cons_eq_ok_iff.mp hok
    obtain ⟨hk₁, hmade⟩ := hcopy.1 _ _ _ hk hhead
    obtain ⟨hk₂, hrest⟩ := ih hcopy.2 hk₁ htail
    exact ⟨hk₂, List.forall_mem_cons.mpr ⟨hmade, hrest⟩⟩

/-- Copied entries have the keys of their sources. -/
theorem keys_of_copyEach {entries made : List (String × α)}
    (hok : copyEach (copyUnderKey copy) entries h = .ok (made, h')) :
    made.map Prod.fst = entries.map Prod.fst := by
  induction entries generalizing h made with
  | nil =>
    cases hok
    rfl
  | cons e rest ih =>
    obtain ⟨b, h₁, tail, hhead, htail, rfl⟩ := copyEach_cons_eq_ok_iff.mp hok
    rw [List.map_cons, List.map_cons, ih htail, (copyUnderKey_eq_ok_iff.mp hhead).1]

end

namespace Value

/-- If the copies of cells leave the heap in order then so do those of values. -/
theorem ordered_copyWith {cells : Cell → Heap → Except CopyError (Cell × Heap)}
    (hcells : ∀ cell h cell' h', h.Ordered → cells cell h = .ok (cell', h') → h'.Ordered)
    {v : Value} (hv : v.Ordered) {h h' : Heap} {v' : Value} (hh : h.Ordered)
    (hok : copyWith cells v h = .ok (v', h')) : h'.Ordered ∧ v'.Ordered := by
  induction hv generalizing h h' v' with
  | plain data =>
    cases hok
    exact ⟨hh, .plain data⟩
  | foreign payload => cases hok
  | shared cell =>
    rw [copyWith_shared, built_eq_ok_iff] at hok
    obtain ⟨cell', hc, rfl⟩ := hok
    exact ⟨hcells cell h cell' h' hh hc, .shared cell'⟩
  | @list items _ ih =>
    rw [copyWith_list, built_eq_ok_iff] at hok
    obtain ⟨made, hmade, rfl⟩ := hok
    obtain ⟨hh', hmade⟩ := copyEach_keeps Heap.Ordered Ordered
      (fun v hm _ _ _ hh hok => ih v hm hh hok) hh hmade
    exact ⟨hh', .list hmade⟩
  | @map entries hkeys _ ih =>
    rw [copyWith_map, built_eq_ok_iff] at hok
    obtain ⟨made, hmade, rfl⟩ := hok
    obtain ⟨hh', hvalues⟩ := copyEach_keeps Heap.Ordered (fun e => e.2.Ordered)
      (fun e hm _ _ _ hh hok => ih e hm hh (copyUnderKey_eq_ok_iff.mp hok).2) hh hmade
    exact ⟨hh', .map (hkeys.of_keys_eq (keys_of_copyEach hmade)) hvalues⟩

/-- A copy of a value in order is in order, and so are its cells. -/
theorem ordered_copyWithin {depth : Nat} {v v' : Value} {h h' : Heap} (hv : v.Ordered)
    (hh : h.Ordered) (hok : copyWithin depth v h = .ok (v', h')) : h'.Ordered ∧ v'.Ordered := by
  induction depth generalizing v v' h h' with
  | zero => exact ordered_copyWith (fun _ _ _ _ _ hc => by cases hc) hv hh hok
  | succ depth ih =>
    refine ordered_copyWith (fun cell h cell' h' hh hc => ?_) hv hh hok
    obtain ⟨w, w', h₁, hw, hin, halloc⟩ := copyCell_eq_ok_iff.mp hc
    obtain ⟨hh₁, hw'⟩ := ih (hh cell w hw) hh hin
    cases halloc
    exact hh₁.alloc hw'

end Value

end OverlayStore
