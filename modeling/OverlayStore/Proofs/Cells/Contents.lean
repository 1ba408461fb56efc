import Mathlib.Data.List.Forall2
import Mathlib.Data.List.Nodup
import OverlayStore.Value.Contents
import OverlayStore.Proofs.Cells.Paths

/-!
# Contents and footprints

The footprint of a value lists the cells on its paths, each behind the cells it leads to and once
for every path. Contents and footprint of a value depend on no cell outside the footprint, and a
value whose footprint repeats no cell reaches every cell by one path.
-/

namespace OverlayStore

/-- Induction on contents through the items of lists and the values of maps. -/
theorem Contents.induction {motive : Contents → Prop}
    (plain : ∀ data, motive (.plain data))
    (list : ∀ items, (∀ x ∈ items, motive x) → motive (.list items))
    (map : ∀ entries, (∀ e ∈ entries, motive e.2) → motive (.map entries))
    (cell : ∀ inside, motive inside → motive (.cell inside))
    (foreign : ∀ payload, motive (.foreign payload)) (x : Contents) : motive x :=
  @Contents.rec motive (fun items => ∀ x ∈ items, motive x)
    (fun entries => ∀ e ∈ entries, motive e.2) (fun e => motive e.2)
    plain list map cell foreign (by simp)
    (fun _ _ hx hrest => List.forall_mem_cons.mpr ⟨hx, hrest⟩) (by simp)
    (fun _ _ he hrest => List.forall_mem_cons.mpr ⟨he, hrest⟩) (fun _ _ hx => hx) x

/-- Plain data that is no number although it is a float. -/
def Plain.isNaN : Plain → Bool
  | .float x => x.isNaN
  | .double x => x.isNaN
  | _ => false

/-- Plain data equals itself unless it is no number. -/
theorem Plain.same_self (data : Plain) : data.same data = !data.isNaN := by
  cases data <;> simp [Plain.same, Plain.isNaN, Single.same_self, Double.same_self]

namespace Contents

mutual

/-- The plain data and the foreign payloads of contents, in order. -/
def leaves : Contents → List (Plain ⊕ Foreign)
  | .plain data => [.inl data]
  | .list items => itemLeaves items
  | .map entries => entryLeaves entries
  | .cell inside => leaves inside
  | .foreign payload => [.inr payload]

/-- The leaves of the items of a list. -/
def itemLeaves : List Contents → List (Plain ⊕ Foreign)
  | [] => []
  | item :: rest => leaves item ++ itemLeaves rest

/-- The leaves of the values of a map. -/
def entryLeaves : List (String × Contents) → List (Plain ⊕ Foreign)
  | [] => []
  | (_, value) :: rest => leaves value ++ entryLeaves rest

end

/-- Plain data are a leaf. -/
@[simp] theorem leaves_plain (data : Plain) : (plain data).leaves = [.inl data] := by
  simp [leaves]

/-- A cell has the leaves of what it holds. -/
@[simp] theorem leaves_cell (inside : Contents) : (cell inside).leaves = inside.leaves := by
  simp [leaves]

/-- A payload is a leaf. -/
@[simp] theorem leaves_foreign (payload : Foreign) : (foreign payload).leaves = [.inr payload] := by
  simp [leaves]

/-- A list has the leaves of its items. -/
@[simp] theorem leaves_list (items : List Contents) :
    (list items).leaves = items.flatMap leaves := by
  rw [leaves]
  induction items with
  | nil => simp [itemLeaves]
  | cons item rest ih => simp [itemLeaves, ih]

/-- A map has the leaves of its values. -/
@[simp] theorem leaves_map (entries : List (String × Contents)) :
    (map entries).leaves = entries.flatMap fun e => e.2.leaves := by
  rw [leaves]
  induction entries with
  | nil => simp [entryLeaves]
  | cons e rest ih => simp [entryLeaves, ih]

/-- No foreign payload is reached. -/
def PayloadFree (x : Contents) : Prop := ∀ payload, Sum.inr payload ∉ x.leaves

/-- Every float that is reached is a number. -/
def NaNFree (x : Contents) : Prop := ∀ data, Sum.inl data ∈ x.leaves → data.isNaN = false

@[simp] theorem payloadFree_plain (data : Plain) : (plain data).PayloadFree := by
  simp [PayloadFree]

@[simp] theorem not_payloadFree_foreign (payload : Foreign) :
    ¬ (foreign payload).PayloadFree := by
  simp [PayloadFree]

@[simp] theorem payloadFree_cell {inside : Contents} :
    (cell inside).PayloadFree ↔ inside.PayloadFree := by
  simp [PayloadFree]

@[simp] theorem payloadFree_list {items : List Contents} :
    (list items).PayloadFree ↔ ∀ x ∈ items, x.PayloadFree := by
  simp only [PayloadFree, leaves_list, List.mem_flatMap, not_exists, not_and]
  exact ⟨fun h x hx payload => h payload x hx, fun h payload x hx => h x hx payload⟩

@[simp] theorem payloadFree_map {entries : List (String × Contents)} :
    (map entries).PayloadFree ↔ ∀ e ∈ entries, e.2.PayloadFree := by
  simp only [PayloadFree, leaves_map, List.mem_flatMap, not_exists, not_and]
  exact ⟨fun h e he payload => h payload e he, fun h payload e he => h e he payload⟩

@[simp] theorem naNFree_plain {data : Plain} : (plain data).NaNFree ↔ data.isNaN = false := by
  simp [NaNFree]

@[simp] theorem naNFree_cell {inside : Contents} : (cell inside).NaNFree ↔ inside.NaNFree := by
  simp [NaNFree]

@[simp] theorem naNFree_list {items : List Contents} :
    (list items).NaNFree ↔ ∀ x ∈ items, x.NaNFree := by
  simp only [NaNFree, leaves_list, List.mem_flatMap]
  exact ⟨fun h x hx data hd => h data ⟨x, hx, hd⟩, fun h data ⟨x, hx, hd⟩ => h x hx data hd⟩

@[simp] theorem naNFree_map {entries : List (String × Contents)} :
    (map entries).NaNFree ↔ ∀ e ∈ entries, e.2.NaNFree := by
  simp only [NaNFree, leaves_map, List.mem_flatMap]
  exact ⟨fun h e he data hd => h data ⟨e, he, hd⟩, fun h data ⟨e, he, hd⟩ => h e he data hd⟩

end Contents

namespace Value

/-! ## Contents -/

/-- Contents exist for a list when they exist for every item. -/
theorem itemContents_eq_some_iff {look : Cell → Option Contents} {items : List Value}
    {xs : List Contents} : itemContents look items = some xs ↔
      List.Forall₂ (fun v x => contentsWith look v = some x) items xs := by
  induction items generalizing xs with
  | nil => cases xs <;> simp [itemContents]
  | cons v rest ih =>
    rw [itemContents]
    constructor
    · intro h
      split at h
      next x ys hx hys =>
        cases h
        exact .cons hx (ih.mp hys)
      · cases h
    · rintro (_ | ⟨hx, hrest⟩)
      rw [hx, ih.mpr hrest]

/-- Contents exist for a map when they exist for every value. -/
theorem entryContents_eq_some_iff {look : Cell → Option Contents} {entries : List (String × Value)}
    {xs : List (String × Contents)} : entryContents look entries = some xs ↔
      List.Forall₂ (fun e x => e.1 = x.1 ∧ contentsWith look e.2 = some x.2) entries xs := by
  induction entries generalizing xs with
  | nil => cases xs <;> simp [entryContents]
  | cons e rest ih =>
    obtain ⟨key, v⟩ := e
    rw [entryContents]
    constructor
    · intro h
      split at h
      next x ys hx hys =>
        cases h
        exact .cons ⟨rfl, hx⟩ (ih.mp hys)
      · cases h
    · rintro (_ | ⟨⟨hk, hx⟩, hrest⟩)
      rw [hx, ih.mpr hrest]
      simp only at hk
      rw [hk]

private theorem itemContents_congr {look look' : Cell → Option Contents} {items : List Value}
    (h : ∀ v ∈ items, contentsWith look v = contentsWith look' v) :
    itemContents look items = itemContents look' items := by
  induction items with
  | nil => simp [itemContents]
  | cons v rest ih =>
    rw [List.forall_mem_cons] at h
    rw [itemContents, itemContents, h.1, ih h.2]

private theorem entryContents_congr {look look' : Cell → Option Contents}
    {entries : List (String × Value)}
    (h : ∀ e ∈ entries, contentsWith look e.2 = contentsWith look' e.2) :
    entryContents look entries = entryContents look' entries := by
  induction entries with
  | nil => simp [entryContents]
  | cons e rest ih =>
    rw [List.forall_mem_cons] at h
    rw [entryContents, entryContents, h.1, ih h.2]

/-- Contents depend on the cells that a value names, and on no others. -/
theorem contentsWith_congr {look look' : Cell → Option Contents} {v : Value}
    (h : v.Within fun cell => look cell = look' cell) :
    contentsWith look v = contentsWith look' v := by
  induction v using Value.induction with
  | plain data => simp [contentsWith]
  | foreign payload => simp [contentsWith]
  | shared cell => simp [contentsWith, within_shared.mp h]
  | list items ih =>
    have hi := itemContents_congr fun v hv => ih v hv (within_list.mp h v hv)
    rw [contentsWith, contentsWith, hi]
  | map entries ih =>
    have he := entryContents_congr fun e he => ih e he (within_map.mp h e he)
    rw [contentsWith, contentsWith, he]

/-- Contents exist only if every named cell has some. -/
theorem within_of_contentsWith {look : Cell → Option Contents} {v : Value} {x : Contents}
    (h : contentsWith look v = some x) : v.Within fun cell => ∃ y, look cell = some y := by
  induction v using Value.induction generalizing x with
  | plain data => simp
  | foreign payload => simp
  | shared cell =>
    obtain ⟨y, hy, -⟩ := Option.map_eq_some_iff.mp (by simpa only [contentsWith] using h)
    exact within_shared.mpr ⟨y, hy⟩
  | list items ih =>
    obtain ⟨xs, hxs, -⟩ := Option.map_eq_some_iff.mp (by simpa only [contentsWith] using h)
    refine within_list.mpr fun v hv => ?_
    obtain ⟨i, hi, rfl⟩ := List.getElem_of_mem hv
    have hf := itemContents_eq_some_iff.mp hxs
    exact ih _ hv (hf.get hi (hf.length_eq ▸ hi))
  | map entries ih =>
    obtain ⟨xs, hxs, -⟩ := Option.map_eq_some_iff.mp (by simpa only [contentsWith] using h)
    refine within_map.mpr fun e he => ?_
    obtain ⟨i, hi, rfl⟩ := List.getElem_of_mem he
    have hf := entryContents_eq_some_iff.mp hxs
    exact ih _ he (hf.get hi (hf.length_eq ▸ hi)).2

/-- What a cell shows to a value at the given depth. -/
def lookWithin (h : Heap) : Nat → Cell → Option Contents
  | 0, _ => none
  | depth + 1, cell => (h.read? cell).bind (contentsWithin h depth)

/-- Contents up to a depth, by the contents of the cells. -/
theorem contentsWithin_eq (h : Heap) (depth : Nat) (v : Value) :
    contentsWithin h depth v = contentsWith (lookWithin h depth) v := by
  cases depth <;> rfl

/-! ## Footprints -/

/-- The cells on the paths that pass at most `depth` cells, inner ones first. -/
def footprintWithin (h : Heap) : Nat → Value → List Cell
  | 0, v => v.handles
  | depth + 1, v => v.handles.flatMap fun cell =>
      (h.read? cell).elim [] (footprintWithin h depth) ++ [cell]

/-- The cells on the paths of a value, inner ones first and once for every path. -/
def footprint (h : Heap) (v : Value) : List Cell := v.footprintWithin h h.size

/-- What a cell adds to a footprint. -/
def stepsWithin (h : Heap) : Nat → Cell → List Cell
  | 0, cell => [cell]
  | depth + 1, cell => (h.read? cell).elim [] (footprintWithin h depth) ++ [cell]

/-- Cells up to a depth, by the cells that are named. -/
theorem footprintWithin_eq (h : Heap) (depth : Nat) (v : Value) :
    footprintWithin h depth v = v.handles.flatMap (stepsWithin h depth) := by
  cases depth with
  | zero =>
    have hs : stepsWithin h 0 = fun cell => [cell] := rfl
    simp [footprintWithin, hs]
  | succ depth => rfl

/-- The named cells are among them. -/
theorem handles_subset_footprintWithin (h : Heap) (depth : Nat) (v : Value) :
    v.handles ⊆ footprintWithin h depth v := by
  intro cell hc
  rw [footprintWithin_eq]
  refine List.mem_flatMap.mpr ⟨cell, hc, ?_⟩
  cases depth <;> simp [stepsWithin]

/-- The footprint of a value in a closed region lies in the region. -/
theorem Within.footprintWithin {h : Heap} {region : Cell → Prop} (hclosed : h.Closed region)
    (depth : Nat) {v : Value} (hv : v.Within region) :
    ∀ cell ∈ v.footprintWithin h depth, region cell := by
  induction depth generalizing v with
  | zero => exact hv
  | succ depth ih =>
    intro cell hc
    obtain ⟨outer, ho, hs⟩ := List.mem_flatMap.mp hc
    rcases List.mem_append.mp hs with hin | hself
    · cases hr : h.read? outer with
      | none => simp [hr] at hin
      | some w =>
        rw [hr] at hin
        exact ih (hclosed outer w (hv outer ho) hr) cell hin
    · rw [List.mem_singleton.mp hself]
      exact hv outer ho

/-- A named cell with contents is a cell of the heap whose value has contents one level lower. -/
theorem read?_of_contentsWithin_succ {h : Heap} {depth : Nat} {v : Value} {x : Contents}
    (hx : v.contentsWithin h (depth + 1) = some x) {cell : Cell} (hc : cell ∈ v.handles) :
    ∃ w y, h.read? cell = some w ∧ w.contentsWithin h depth = some y ∧
      w.footprintWithin h depth ⊆ v.footprintWithin h (depth + 1) := by
  obtain ⟨y, hy⟩ := within_of_contentsWith (contentsWithin_eq h (depth + 1) v ▸ hx) cell hc
  obtain ⟨w, hw, hwy⟩ := Option.bind_eq_some_iff.mp hy
  refine ⟨w, y, hw, hwy, fun inner hi => List.mem_flatMap.mpr ⟨cell, hc, ?_⟩⟩
  simp [hw, hi]

/-- A value with contents at depth zero names no cell. -/
private theorem handles_of_contentsWithin_zero {h : Heap} {v : Value} {x : Contents}
    (hx : v.contentsWithin h 0 = some x) : v.handles = [] := by
  refine List.eq_nil_iff_forall_not_mem.mpr fun cell hc => ?_
  obtain ⟨y, hy⟩ := within_of_contentsWith (contentsWithin_eq h 0 v ▸ hx) cell hc
  cases hy

/-- The frame of a value with contents: a heap that agrees on the footprint shows the same contents
and footprint, at this depth and at every larger one. -/
theorem contentsWithin_frame {h h' : Heap} {depth : Nat} {v : Value} {x : Contents}
    (hx : v.contentsWithin h depth = some x)
    (hagree : ∀ cell ∈ v.footprintWithin h depth, h'.read? cell = h.read? cell)
    {larger : Nat} (hle : depth ≤ larger) :
    v.contentsWithin h' larger = some x ∧
      v.footprintWithin h' larger = v.footprintWithin h depth := by
  induction depth generalizing v x larger with
  | zero =>
    have hnil := handles_of_contentsWithin_zero hx
    constructor
    · rw [← hx, contentsWithin_eq, contentsWithin_eq]
      exact contentsWith_congr fun cell hc => by simp [hnil] at hc
    · simp [footprintWithin_eq, hnil]
  | succ depth ih =>
    obtain ⟨larger, rfl⟩ := Nat.exists_eq_add_of_le' (Nat.le_of_lt_succ (Nat.lt_succ_of_le hle))
    have hcell : ∀ cell ∈ v.handles,
        lookWithin h' (larger + (depth + 1)) cell = lookWithin h (depth + 1) cell ∧
        stepsWithin h' (larger + (depth + 1)) cell = stepsWithin h (depth + 1) cell := by
      intro cell hc
      obtain ⟨w, y, hw, hy, hsub⟩ := read?_of_contentsWithin_succ hx hc
      have hw' : h'.read? cell = some w :=
        (hagree cell (handles_subset_footprintWithin h (depth + 1) v hc)).trans hw
      obtain ⟨hy', hf'⟩ := ih hy (fun inner hi => hagree inner (hsub hi))
        (Nat.le_add_left depth larger)
      rw [← Nat.add_assoc]
      simp only [lookWithin, stepsWithin, hw, hw', Option.bind_some, Option.elim_some, hy, hy', hf',
        and_self]
    constructor
    · rw [← hx, contentsWithin_eq, contentsWithin_eq]
      exact contentsWith_congr fun cell hc => (hcell cell hc).1
    · rw [footprintWithin_eq, footprintWithin_eq]
      exact List.flatMap_congr fun cell hc => (hcell cell hc).2

/-- Contents at one depth are the contents at every larger one. -/
theorem contentsWithin_mono {h : Heap} {depth larger : Nat} {v : Value} {x : Contents}
    (hx : v.contentsWithin h depth = some x) (hle : depth ≤ larger) :
    v.contentsWithin h larger = some x :=
  (contentsWithin_frame hx (fun _ _ => rfl) hle).1

/-- The cells of the footprint of a value with contents are cells of the heap. -/
theorem has_of_mem_footprintWithin {h : Heap} {depth : Nat} {v : Value} {x : Contents}
    (hx : v.contentsWithin h depth = some x) :
    ∀ cell ∈ v.footprintWithin h depth, h.Has cell := by
  induction depth generalizing v x with
  | zero => simp [footprintWithin, handles_of_contentsWithin_zero hx]
  | succ depth ih =>
    intro cell hc
    obtain ⟨outer, ho, hs⟩ := List.mem_flatMap.mp hc
    obtain ⟨w, y, hw, hy, -⟩ := read?_of_contentsWithin_succ hx ho
    rw [hw, Option.elim_some] at hs
    rcases List.mem_append.mp hs with hin | hself
    · exact ih hy cell hin
    · exact List.mem_singleton.mp hself ▸ Heap.has_of_read? hw

/-- What the cells of a footprint hold names only cells of the footprint. -/
theorem closed_footprintWithin {h : Heap} {depth : Nat} {v : Value} {x : Contents}
    (hx : v.contentsWithin h depth = some x) :
    h.Closed (· ∈ v.footprintWithin h depth) := by
  induction depth generalizing v x with
  | zero => simp [Heap.Closed, footprintWithin, handles_of_contentsWithin_zero hx]
  | succ depth ih =>
    intro cell u hc hu
    obtain ⟨outer, ho, hs⟩ := List.mem_flatMap.mp hc
    obtain ⟨w, y, hw, hy, hsub⟩ := read?_of_contentsWithin_succ hx ho
    rw [hw, Option.elim_some] at hs
    rcases List.mem_append.mp hs with hin | hself
    · exact (ih hy cell u hin hu).mono fun inner hi => hsub hi
    · rw [List.mem_singleton.mp hself, hw] at hu
      rw [← Option.some.inj hu]
      exact fun inner hi => hsub (handles_subset_footprintWithin h depth w hi)

/-- The frame at full depth. -/
theorem contents?_frame {h h' : Heap} {v : Value} {x : Contents} (hx : v.contents? h = some x)
    (hagree : ∀ cell ∈ v.footprint h, h'.read? cell = h.read? cell) (hle : h.size ≤ h'.size) :
    v.contents? h' = some x ∧ v.footprint h' = v.footprint h :=
  contentsWithin_frame hx hagree hle

/-- A growing heap shows the same contents and footprint. -/
theorem contents?_of_le {h h' : Heap} {v : Value} {x : Contents} (hx : v.contents? h = some x)
    (hle : h ≤ h') : v.contents? h' = some x ∧ v.footprint h' = v.footprint h :=
  contents?_frame hx (fun cell hc => hle.2 cell (has_of_mem_footprintWithin hx cell hc)) hle.1

/-! ## Paths -/

/-- The footprint of a value with contents is made of the footprints of its parts and the cell that
the value itself is. -/
theorem footprintWithin_parts {h : Heap} {depth : Nat} {v : Value} {x : Contents}
    (hx : v.contentsWithin h depth = some x) :
    ∃ inner, (∀ part ∈ v.parts h, ∃ y, part.contentsWithin h inner = some y) ∧
      v.footprintWithin h depth =
        (v.parts h).flatMap (footprintWithin h inner) ++ v.cell?.toList := by
  cases v with
  | plain data => exact ⟨0, by simp [parts], by simp [footprintWithin_eq, parts, cell?]⟩
  | foreign payload => exact ⟨0, by simp [parts], by simp [footprintWithin_eq, parts, cell?]⟩
  | list items =>
    rw [contentsWithin_eq] at hx
    obtain ⟨xs, hxs, -⟩ := Option.map_eq_some_iff.mp (by simpa only [contentsWith] using hx)
    refine ⟨depth, fun part hp => ?_, ?_⟩
    · obtain ⟨i, hi, rfl⟩ := List.getElem_of_mem hp
      have hf := itemContents_eq_some_iff.mp hxs
      exact ⟨_, (contentsWithin_eq ..).trans (hf.get hi (hf.length_eq ▸ hi))⟩
    · have hf : footprintWithin h depth = fun v => v.handles.flatMap (stepsWithin h depth) :=
        funext (footprintWithin_eq h depth)
      simp [hf, parts, cell?, List.flatMap_assoc]
  | map entries =>
    rw [contentsWithin_eq] at hx
    obtain ⟨xs, hxs, -⟩ := Option.map_eq_some_iff.mp (by simpa only [contentsWith] using hx)
    refine ⟨depth, fun part hp => ?_, ?_⟩
    · obtain ⟨e, he, rfl⟩ := List.mem_map.mp hp
      obtain ⟨i, hi, rfl⟩ := List.getElem_of_mem he
      have hf := entryContents_eq_some_iff.mp hxs
      exact ⟨_, (contentsWithin_eq ..).trans (hf.get hi (hf.length_eq ▸ hi)).2⟩
    · have hf : footprintWithin h depth = fun v => v.handles.flatMap (stepsWithin h depth) :=
        funext (footprintWithin_eq h depth)
      simp [hf, parts, cell?, List.flatMap_assoc, List.flatMap_map]
  | shared cell =>
    cases depth with
    | zero => exact absurd (handles_of_contentsWithin_zero hx) (by simp)
    | succ depth =>
      obtain ⟨w, y, hw, hy, -⟩ := read?_of_contentsWithin_succ hx (by simp : cell ∈ _)
      exact ⟨depth, by simpa [parts, hw] using ⟨y, hy⟩, by simp [footprintWithin, parts, hw, cell?]⟩

/-- Every cell that a path leads to is in the footprint. -/
theorem LeadsTo.mem_footprintWithin {h : Heap} {path : List Nat} {depth : Nat} {v : Value}
    {x : Contents} (hx : v.contentsWithin h depth = some x) {cell : Cell}
    (hpath : v.LeadsTo h path cell) : cell ∈ v.footprintWithin h depth := by
  induction path generalizing v depth x with
  | nil =>
    have hv := leadsTo_nil.mp hpath
    exact handles_subset_footprintWithin h depth v (by simp [hv])
  | cons i path ih =>
    obtain ⟨part, hp, hrest⟩ := leadsTo_cons.mp hpath
    obtain ⟨inner, hparts, hfoot⟩ := footprintWithin_parts hx
    have hmem := List.mem_of_getElem? hp
    obtain ⟨y, hy⟩ := hparts part hmem
    rw [hfoot]
    exact List.mem_append_left _ (List.mem_flatMap.mpr ⟨part, hmem, ih hy hrest⟩)

/-- Distinct positions of a list contribute distinct parts to a concatenation without repetition. -/
private theorem getElem?_unique_of_nodup_flatMap {α β : Type} {f : α → List β} {as : List α}
    (hn : (as.flatMap f).Nodup) {i j : Nat} {a b : α} (hi : as[i]? = some a) (hj : as[j]? = some b)
    {c : β} (ha : c ∈ f a) (hb : c ∈ f b) : i = j := by
  by_contra hne
  obtain ⟨hil, rfl⟩ := List.getElem?_eq_some_iff.mp hi
  obtain ⟨hjl, rfl⟩ := List.getElem?_eq_some_iff.mp hj
  have hd := List.pairwise_iff_getElem.mp (List.nodup_flatMap.mp hn).2
  rcases Nat.lt_or_gt_of_ne hne with hlt | hlt
  · exact hd i j hil hjl hlt ha hb
  · exact hd j i hjl hil hlt hb ha

/-- A cell that a part of it leads back to is listed twice. -/
private theorem not_nodup_of_returns {h : Heap} {depth : Nat} {v : Value} {x : Contents}
    (hx : v.contentsWithin h depth = some x) {cell : Cell} (hv : v = .shared cell) {part : Value}
    (hp : part ∈ v.parts h) {path : List Nat} (hpath : part.LeadsTo h path cell) :
    ¬ (v.footprintWithin h depth).Nodup := by
  obtain ⟨inner, hparts, hfoot⟩ := footprintWithin_parts hx
  obtain ⟨y, hy⟩ := hparts part hp
  rw [hfoot, hv]
  intro hn
  exact (List.nodup_append.mp hn).2.2 cell
    (List.mem_flatMap.mpr ⟨part, hv ▸ hp, hpath.mem_footprintWithin hy⟩) cell (by simp [cell?]) rfl

/-- A footprint without repetition gives every cell exactly one path. -/
theorem LeadsTo.unique {h : Heap} {path other : List Nat} {depth : Nat} {v : Value} {x : Contents}
    (hx : v.contentsWithin h depth = some x) (hn : (v.footprintWithin h depth).Nodup) {cell : Cell}
    (hpath : v.LeadsTo h path cell) (hother : v.LeadsTo h other cell) : path = other := by
  induction path generalizing v depth x other with
  | nil =>
    have hv := leadsTo_nil.mp hpath
    cases other with
    | nil => rfl
    | cons j other =>
      obtain ⟨part, hp, hrest⟩ := leadsTo_cons.mp hother
      exact absurd hn (not_nodup_of_returns hx hv (List.mem_of_getElem? hp) hrest)
  | cons i path ih =>
    obtain ⟨part, hp, hrest⟩ := leadsTo_cons.mp hpath
    cases other with
    | nil =>
      have hv := leadsTo_nil.mp hother
      exact absurd hn (not_nodup_of_returns hx hv (List.mem_of_getElem? hp) hrest)
    | cons j other =>
      obtain ⟨part', hp', hrest'⟩ := leadsTo_cons.mp hother
      obtain ⟨inner, hparts, hfoot⟩ := footprintWithin_parts hx
      rw [hfoot] at hn
      have hparts_nodup := (List.nodup_append.mp hn).1
      obtain ⟨y, hy⟩ := hparts part (List.mem_of_getElem? hp)
      obtain ⟨y', hy'⟩ := hparts part' (List.mem_of_getElem? hp')
      have hij : i = j := getElem?_unique_of_nodup_flatMap hparts_nodup hp hp'
        (hrest.mem_footprintWithin hy) (hrest'.mem_footprintWithin hy')
      subst hij
      have hpart : part = part' := Option.some.inj (hp.symm.trans hp')
      subst hpart
      exact congrArg _ (ih hy ((List.nodup_flatMap.mp hparts_nodup).1 part
        (List.mem_of_getElem? hp)) hrest hrest')

end Value

end OverlayStore
