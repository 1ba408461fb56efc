import OverlayStore.Proofs.Cells.Depth

/-!
# Values without cycles

A value whose cells do not reach themselves has contents: its cells have levels, and what a cell
holds names cells of lower levels only. Copying a value with contents comes to an end, and so does
comparing it with any other value.
-/

namespace OverlayStore

/-- No cell reaches itself. -/
def Heap.Acyclic (h : Heap) : Prop :=
  ∀ cell v, h.read? cell = some v → ¬ v.Reaches h cell

namespace Value

/-- No cell that a value reaches reaches itself. -/
def Grounded (h : Heap) (v : Value) : Prop :=
  ∀ cell w, v.Reaches h cell → h.read? cell = some w → ¬ w.Reaches h cell

theorem grounded_of_acyclic {h : Heap} (hacyclic : h.Acyclic) (v : Value) : v.Grounded h :=
  fun cell w _ hw => hacyclic cell w hw

/-! ## Paths -/

/-- A path in two parts. -/
theorem follow_append (h : Heap) (v : Value) (path rest : List Nat) :
    v.follow h (path ++ rest) = (v.follow h path).bind fun w => w.follow h rest := by
  induction path generalizing v with
  | nil => rfl
  | cons i path ih =>
    rw [List.cons_append, follow, follow, Option.bind_assoc]
    simp only [ih]

/-- A part of a value is one step away. -/
theorem follow_of_getElem? {h : Heap} {v part w : Value} {i : Nat} {path : List Nat}
    (hpart : (v.parts h)[i]? = some part) (hpath : part.follow h path = some w) :
    v.follow h (i :: path) = some w := by
  rw [follow, hpart]
  exact hpath

/-- A value reaches every cell that it names. -/
theorem reaches_of_mem_handles {h : Heap} {v : Value} {cell : Cell} (hc : cell ∈ v.handles) :
    v.Reaches h cell := by
  induction v using Value.induction with
  | plain data => simp at hc
  | foreign payload => simp at hc
  | shared other =>
    rw [handles_shared, List.mem_singleton] at hc
    exact ⟨[], leadsTo_nil.mpr (congrArg _ hc.symm)⟩
  | list items ih =>
    rw [handles_list, List.mem_flatMap] at hc
    obtain ⟨item, hi, hc⟩ := hc
    obtain ⟨path, hpath⟩ := ih item hi hc
    obtain ⟨i, hget⟩ := List.mem_iff_getElem?.mp hi
    exact ⟨i :: path, follow_of_getElem? hget hpath⟩
  | map entries ih =>
    rw [handles_map, List.mem_flatMap] at hc
    obtain ⟨e, he, hc⟩ := hc
    obtain ⟨path, hpath⟩ := ih e he hc
    obtain ⟨i, hget⟩ := List.mem_iff_getElem?.mp (List.mem_map_of_mem he : e.2 ∈ entries.map _)
    exact ⟨i :: path, follow_of_getElem? hget hpath⟩

/-- What is reached from inside a reached cell is reached. -/
theorem Reaches.trans {h : Heap} {v w : Value} {cell inner : Cell} (hv : v.Reaches h cell)
    (hw : h.read? cell = some w) (hinner : w.Reaches h inner) : v.Reaches h inner := by
  obtain ⟨path, hpath⟩ := hv
  obtain ⟨rest, hrest⟩ := hinner
  have hpart : ((Value.shared cell).parts h)[0]? = some w := by rw [parts, hw]; rfl
  refine ⟨path ++ 0 :: rest, ?_⟩
  rw [LeadsTo, follow_append, hpath]
  exact follow_of_getElem? hpart hrest

end Value

/-- A heap in which every cell names only earlier cells has no cycle. -/
theorem Heap.acyclic_of_lt {h : Heap} (hlt : ∀ cell v, h.read? cell = some v →
    v.Within fun inner => inner.index < cell.index) : h.Acyclic := by
  intro cell v hr hreaches
  have hclosed : h.Closed fun inner => inner.index < cell.index := fun inner w hi hw =>
    (hlt inner w hw).mono fun deep hd => Nat.lt_trans hd hi
  exact Nat.lt_irrefl _ ((hlt cell v hr).reaches hclosed hreaches)

/-- Nor has it loose handles. -/
theorem Heap.closed_of_lt {h : Heap} (hlt : ∀ cell v, h.read? cell = some v →
    v.Within fun inner => inner.index < cell.index) : h.Closed h.Has :=
  fun cell v hc hr => (hlt cell v hr).mono fun _ hi => Nat.lt_trans hi hc

/-! ## Levels -/

/-- Levels of the cells of a region: what a cell holds names cells of the region on lower levels. -/
structure Heap.Levels (h : Heap) (region : Cell → Prop) (level : Cell → Nat) : Prop where
  /-- The cells are there. -/
  has : ∀ cell, region cell → h.Has cell
  /-- There are fewer levels than cells. -/
  lt_size : ∀ cell, region cell → level cell < h.size
  /-- What a cell holds lies lower. -/
  lower : ∀ cell w, region cell → h.read? cell = some w →
    w.Within fun inner => region inner ∧ level inner < level cell

namespace Value

/-- If no reached cell reaches itself, the number of cells that are reached from a cell is a level
of the cell. -/
theorem Grounded.exists_levels {h : Heap} (hclosed : h.Closed h.Has) {v : Value}
    (hv : v.Within h.Has) (hgrounded : v.Grounded h) :
    ∃ level, h.Levels (v.Reaches h) level := by
  classical
  let below (cell : Cell) : Finset Cell :=
    h.all.filter fun inner => ∃ w, h.read? cell = some w ∧ w.Reaches h inner
  have hmem : ∀ cell inner, inner ∈ below cell ↔
      h.Has inner ∧ ∃ w, h.read? cell = some w ∧ w.Reaches h inner := by
    intro cell inner
    rw [Finset.mem_filter, Heap.mem_all]
  have hhas : ∀ cell, v.Reaches h cell → h.Has cell := fun cell hc => hv.reaches hclosed hc
  have hself : ∀ cell, v.Reaches h cell → cell ∉ below cell := by
    intro cell hc hself
    obtain ⟨-, w, hw, hreaches⟩ := (hmem cell cell).mp hself
    exact hgrounded cell w hc hw hreaches
  refine ⟨fun cell => (below cell).card, hhas, fun cell hc => ?_, fun cell w hc hw inner hi => ?_⟩
  · rw [← h.card_all]
    refine Finset.card_lt_card (Finset.ssubset_iff_of_subset (Finset.filter_subset _ _) |>.mpr ?_)
    exact ⟨cell, Heap.mem_all.mpr (hhas cell hc), hself cell hc⟩
  · have hreached : w.Reaches h inner := reaches_of_mem_handles hi
    have hinner := hc.trans hw hreached
    refine ⟨hinner, Finset.card_lt_card (Finset.ssubset_iff_of_subset ?_ |>.mpr ?_)⟩
    · intro deep hd
      obtain ⟨hdeep, u, hu, hreaches⟩ := (hmem inner deep).mp hd
      exact (hmem cell deep).mpr ⟨hdeep, w, hw, hreached.trans hu hreaches⟩
    · exact ⟨inner, (hmem cell inner).mpr ⟨hhas inner hinner, w, hw, hreached⟩, hself inner hinner⟩

/-! ## Contents -/

private theorem exists_forall₂ {α γ : Type} {shows : α → γ → Prop} {as : List α}
    (h : ∀ a ∈ as, ∃ x, shows a x) : ∃ xs, List.Forall₂ shows as xs := by
  induction as with
  | nil => exact ⟨[], .nil⟩
  | cons a rest ih =>
    rw [List.forall_mem_cons] at h
    obtain ⟨x, hx⟩ := h.1
    obtain ⟨xs, hxs⟩ := ih h.2
    exact ⟨x :: xs, .cons hx hxs⟩

/-- Contents exist if every named cell has some. -/
theorem exists_contentsWith {look : Cell → Option Contents} {v : Value}
    (h : v.Within fun cell => ∃ y, look cell = some y) : ∃ x, contentsWith look v = some x := by
  induction v using Value.induction with
  | plain data => exact ⟨.plain data, by simp only [contentsWith]⟩
  | foreign payload => exact ⟨.foreign payload, by simp only [contentsWith]⟩
  | shared cell =>
    obtain ⟨y, hy⟩ := within_shared.mp h
    exact ⟨.cell y, by simp only [contentsWith, hy, Option.map_some]⟩
  | list items ih =>
    obtain ⟨xs, hxs⟩ := exists_forall₂ fun v hv => ih v hv (within_list.mp h v hv)
    exact ⟨.list xs, by simp only [contentsWith, itemContents_eq_some_iff.mpr hxs, Option.map_some]⟩
  | map entries ih =>
    have hentries : ∀ e ∈ entries, ∃ x : String × Contents,
        e.1 = x.1 ∧ contentsWith look e.2 = some x.2 := by
      intro e he
      obtain ⟨x, hx⟩ := ih e he (within_map.mp h e he)
      exact ⟨(e.1, x), rfl, hx⟩
    obtain ⟨xs, hxs⟩ := exists_forall₂ hentries
    exact ⟨.map xs, by simp only [contentsWith, entryContents_eq_some_iff.mpr hxs, Option.map_some]⟩

/-- A value over cells of low levels has contents. -/
theorem exists_contentsWithin {h : Heap} {region : Cell → Prop} {level : Cell → Nat}
    (hlevels : h.Levels region level) {depth : Nat} {v : Value}
    (hv : v.Within fun cell => region cell ∧ level cell < depth) :
    ∃ x, v.contentsWithin h depth = some x := by
  induction depth generalizing v with
  | zero =>
    rw [contentsWithin_eq]
    exact exists_contentsWith (hv.mono fun cell hc => absurd hc.2 (Nat.not_lt_zero _))
  | succ depth ih =>
    rw [contentsWithin_eq]
    refine exists_contentsWith (hv.mono fun cell hc => ?_)
    obtain ⟨w, hw⟩ := Heap.exists_read?_of_has (hlevels.has cell hc.1)
    rw [lookWithin, hw]
    exact ih ((hlevels.lower cell w hc.1 hw).mono fun inner hi =>
      ⟨hi.1, Nat.lt_of_lt_of_le hi.2 (Nat.le_of_lt_succ hc.2)⟩)

/-- A value whose cells do not reach themselves has contents. -/
theorem Grounded.exists_contents {h : Heap} (hclosed : h.Closed h.Has) {v : Value}
    (hv : v.Within h.Has) (hgrounded : v.Grounded h) : ∃ x, v.contents? h = some x := by
  obtain ⟨level, hlevels⟩ := hgrounded.exists_levels hclosed hv
  exact exists_contentsWithin hlevels fun cell hc =>
    have hreached := reaches_of_mem_handles hc
    ⟨hreached, hlevels.lt_size cell hreached⟩

/-! ## Coming to an end -/

/-- If a value runs around a cycle when it is copied, then so does a cell that it names. -/
theorem exists_endless_of_obstacleWith {cells : Cell → Option CopyError} {v : Value}
    (h : obstacleWith cells v = some .endless) :
    ∃ cell ∈ v.handles, cells cell = some .endless := by
  induction v using Value.induction with
  | plain data => simp [obstacleWith] at h
  | foreign payload => simp [obstacleWith] at h
  | shared cell =>
    rw [obstacleWith] at h
    exact ⟨cell, by simp, h⟩
  | list items ih =>
    rw [obstacleWith_list] at h
    obtain ⟨item, hi, hitem⟩ := List.exists_of_findSome?_eq_some h
    obtain ⟨cell, hc, hcell⟩ := ih item hi hitem
    exact ⟨cell, by rw [handles_list]; exact List.mem_flatMap.mpr ⟨item, hi, hc⟩, hcell⟩
  | map entries ih =>
    rw [obstacleWith_map] at h
    obtain ⟨e, he, hentry⟩ := List.exists_of_findSome?_eq_some h
    obtain ⟨cell, hc, hcell⟩ := ih e he hentry
    exact ⟨cell, by rw [handles_map]; exact List.mem_flatMap.mpr ⟨e, he, hc⟩, hcell⟩

/-- Copying a value with contents does not run around a cycle. -/
theorem obstacle_ne_endless {h : Heap} {depth : Nat} {v : Value} {x : Contents}
    (hx : v.contentsWithin h depth = some x) :
    obstacleWith (obstacleCell h depth) v ≠ some .endless := by
  induction depth generalizing v x with
  | zero =>
    intro hendless
    obtain ⟨cell, hc, -⟩ := exists_endless_of_obstacleWith hendless
    obtain ⟨y, hy⟩ := within_of_contentsWith (contentsWithin_eq h 0 v ▸ hx) cell hc
    cases hy
  | succ depth ih =>
    intro hendless
    obtain ⟨cell, hc, hcell⟩ := exists_endless_of_obstacleWith hendless
    obtain ⟨y, hy⟩ := within_of_contentsWith (contentsWithin_eq h (depth + 1) v ▸ hx) cell hc
    obtain ⟨w, hw, hwy⟩ := Option.bind_eq_some_iff.mp hy
    rw [obstacleCell, hw] at hcell
    exact ih hwy hcell

section

variable {cells : Cell → Cell → Option Bool}

private theorem exists_none_of_sameItems {as bs : List Value} (h : sameItems cells as bs = none) :
    ∃ a ∈ as, ∃ b ∈ bs, sameWith cells a b = none := by
  induction as generalizing bs with
  | nil => cases bs <;> cases h
  | cons a as ih =>
    cases bs with
    | nil => cases h
    | cons b bs =>
      rw [sameItems] at h
      split at h
      next =>
        obtain ⟨a', ha, b', hb, hnone⟩ := ih h
        exact ⟨a', List.mem_cons_of_mem _ ha, b', List.mem_cons_of_mem _ hb, hnone⟩
      next => exact ⟨a, List.mem_cons_self, b, List.mem_cons_self, h⟩

private theorem exists_none_of_sameEntries {as bs : List (String × Value)}
    (h : sameEntries cells as bs = none) :
    ∃ a ∈ as, ∃ b ∈ bs, sameWith cells a.2 b.2 = none := by
  induction as generalizing bs with
  | nil => cases bs <;> cases h
  | cons a as ih =>
    cases bs with
    | nil => cases h
    | cons b bs =>
      rw [sameEntries] at h
      split at h
      next =>
        split at h
        next =>
          obtain ⟨a', ha, b', hb, hnone⟩ := ih h
          exact ⟨a', List.mem_cons_of_mem _ ha, b', List.mem_cons_of_mem _ hb, hnone⟩
        next => exact ⟨a, List.mem_cons_self, b, List.mem_cons_self, h⟩
      next => cases h

/-- If the comparison of two values does not end, then neither does that of two cells that they
name. -/
theorem exists_none_of_sameWith {a b : Value} (h : sameWith cells a b = none) :
    ∃ c ∈ a.handles, ∃ d ∈ b.handles, cells c d = none := by
  induction a using Value.induction generalizing b with
  | plain data => cases b <;> simp [sameWith] at h
  | foreign payload => cases b <;> simp [sameWith] at h
  | shared c =>
    cases b with
    | shared d => exact ⟨c, by simp, d, by simp, h⟩
    | plain | list | map | foreign => cases h
  | list items ih =>
    cases b with
    | list others =>
      rw [sameWith] at h
      split at h
      next =>
        obtain ⟨v, hv, w, hw, hnone⟩ := exists_none_of_sameItems h
        obtain ⟨c, hc, d, hd, hcells⟩ := ih v hv hnone
        refine ⟨c, ?_, d, ?_, hcells⟩ <;> rw [handles_list, List.mem_flatMap]
        · exact ⟨v, hv, hc⟩
        · exact ⟨w, hw, hd⟩
      next => cases h
    | plain | map | shared | foreign => cases h
  | map entries ih =>
    cases b with
    | map others =>
      rw [sameWith] at h
      split at h
      next =>
        obtain ⟨e, he, f, hf, hnone⟩ := exists_none_of_sameEntries h
        obtain ⟨c, hc, d, hd, hcells⟩ := ih e he hnone
        refine ⟨c, ?_, d, ?_, hcells⟩ <;> rw [handles_map, List.mem_flatMap]
        · exact ⟨e, he, hc⟩
        · exact ⟨f, hf, hd⟩
      next => cases h
    | plain | list | shared | foreign => cases h

end

/-- Comparing a value with contents does not run around a cycle. -/
theorem sameWithin_ne_none {h : Heap} (hclosed : h.Closed h.Has) {depth : Nat} {a b : Value}
    {x : Contents} (hx : a.contentsWithin h depth = some x) (hb : b.Within h.Has) :
    sameWithin h depth a b ≠ none := by
  induction depth generalizing a b x with
  | zero =>
    intro hnone
    obtain ⟨c, hc, -⟩ := exists_none_of_sameWith hnone
    obtain ⟨y, hy⟩ := within_of_contentsWith (contentsWithin_eq h 0 a ▸ hx) c hc
    cases hy
  | succ depth ih =>
    intro hnone
    obtain ⟨c, hc, d, hd, hcells⟩ := exists_none_of_sameWith hnone
    obtain ⟨y, hy⟩ := within_of_contentsWith (contentsWithin_eq h (depth + 1) a ▸ hx) c hc
    obtain ⟨v, hv, hvy⟩ := Option.bind_eq_some_iff.mp hy
    obtain ⟨w, hw⟩ := Heap.exists_read?_of_has (hb d hd)
    rw [sameCell, hv, hw] at hcells
    split at hcells
    next => cases hcells
    next => exact ih hvy (hclosed d w (hb d hd) hw) hcells

/-- A value that runs around no cycle can be compared with every value. -/
theorem Grounded.same?_ne_none {h : Heap} (hclosed : h.Closed h.Has) {a b : Value}
    (ha : a.Within h.Has) (hgrounded : a.Grounded h) (hb : b.Within h.Has) :
    a.same? h b ≠ none := by
  obtain ⟨x, hx⟩ := hgrounded.exists_contents hclosed ha
  exact sameWithin_ne_none hclosed (contentsWithin_mono hx (Nat.le_mul_self h.size)) hb

end Value

end OverlayStore
