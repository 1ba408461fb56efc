import OverlayStore.Proofs.Cells.Detached

/-!
# Heaps without cycles

Where no cell reaches itself, every way from cells to cells comes to an end, so copying and
comparing do. A heap stays without cycles when cells are made: a new cell around a value from before
is reached by nothing that it holds, and the cells of a copy have contents. A write makes a cycle
exactly if the value that is written reaches the cell.
-/

namespace OverlayStore

namespace Value

/-! ## Contents rule out cycles -/

/-- The cells that a value with contents leads to have contents. -/
theorem contentsWithin_of_mem_footprint {h : Heap} {depth : Nat} {v : Value} {x : Contents}
    (hx : v.contentsWithin h depth = some x) {cell : Cell}
    (hc : cell ∈ v.footprintWithin h depth) :
    ∃ y, (shared cell).contentsWithin h depth = some y := by
  induction depth generalizing v x with
  | zero =>
    obtain ⟨y, hy⟩ := within_of_contentsWith (contentsWithin_eq h 0 v ▸ hx) cell hc
    cases hy
  | succ depth ih =>
    obtain ⟨outer, ho, hs⟩ := List.mem_flatMap.mp hc
    obtain ⟨w, y, hw, hy, -⟩ := read?_of_contentsWithin_succ hx ho
    rw [hw, Option.elim_some] at hs
    rcases List.mem_append.mp hs with hin | hself
    · obtain ⟨z, hz⟩ := ih hy hin
      exact ⟨z, contentsWithin_mono hz (Nat.le_succ depth)⟩
    · rw [List.mem_singleton.mp hself]
      exact ⟨.cell y, by simp [contentsWithin, contentsWith, hw, hy]⟩

/-- A cell with contents does not reach itself. -/
theorem not_reaches_of_contents {h : Heap} {depth : Nat} {cell : Cell} {x : Contents}
    (hx : (shared cell).contentsWithin h depth = some x) {w : Value}
    (hw : h.read? cell = some w) : ¬ w.Reaches h cell := by
  induction depth generalizing x with
  | zero =>
    simp [contentsWithin, contentsWith] at hx
  | succ depth ih =>
    rintro ⟨path, hpath⟩
    -- What the cell holds has contents one level lower, and so has the cell that it leads back to.
    have hself : cell ∈ (shared cell).handles := by simp
    obtain ⟨w', y, hw', hy, -⟩ := read?_of_contentsWithin_succ hx hself
    cases hw.symm.trans hw'
    obtain ⟨z, hz⟩ := contentsWithin_of_mem_footprint hy (hpath.mem_footprintWithin hy)
    exact ih hz ⟨path, hpath⟩

end Value

namespace Heap

variable {h h' : Heap}

/-! ## New cells -/

/-- A heap that grows stays without cycles if no new cell reaches itself. -/
theorem Acyclic.of_le (hacyclic : h.Acyclic) (hclosed : h.Closed h.Has) (hle : h ≤ h')
    (hnew : ∀ cell w, ¬ h.Has cell → h'.read? cell = some w → ¬ w.Reaches h' cell) :
    h'.Acyclic := by
  intro cell w hr
  by_cases hold : h.Has cell
  · rw [hle.2 cell hold] at hr
    rintro ⟨path, hpath⟩
    have hpath' : w.follow h' path = some (.shared cell) := hpath
    rw [(hclosed cell w hold hr).follow_frame hclosed hle.2] at hpath'
    exact hacyclic cell w hr ⟨path, hpath'⟩
  · exact hnew cell w hold hr

/-- A new cell around a value from before. -/
theorem Acyclic.alloc (hacyclic : h.Acyclic) (hclosed : h.Closed h.Has) {v : Value}
    (hv : v.Within h.Has) : (h.alloc v).2.Acyclic := by
  have hle := h.le_alloc v
  refine hacyclic.of_le hclosed hle fun cell w hold hr hreaches => ?_
  have hcell : cell ∈ h.fresh (h.alloc v).2 :=
    mem_fresh.mpr ⟨Nat.le_of_not_lt hold, has_of_read? hr⟩
  rw [fresh_alloc, List.mem_singleton] at hcell
  rw [hcell, read?_alloc_self] at hr
  rw [← Option.some.inj hr] at hreaches
  exact hold (hv.reaches (hclosed.of_le (fun _ hc => hc) hle) hreaches)

/-- The cells of copies. -/
theorem Acyclic.copies (hacyclic : h.Acyclic) (hclosed : h.Closed h.Has) {vs : List Value}
    (hcopies : Copies h h' vs) : h'.Acyclic := by
  refine hacyclic.of_le hclosed hcopies.le fun cell w hold hr => ?_
  have hcell : cell ∈ h.fresh h' := mem_fresh.mpr ⟨Nat.le_of_not_lt hold, has_of_read? hr⟩
  rw [← hcopies.footprint] at hcell
  obtain ⟨v, hm, hcell⟩ := List.mem_flatMap.mp hcell
  obtain ⟨x, hx, -⟩ := hcopies.contents v hm
  obtain ⟨y, hy⟩ := Value.contentsWithin_of_mem_footprint hx hcell
  exact Value.not_reaches_of_contents hy hr

/-! ## Writes -/

/-- A write changes what one cell consists of. -/
theorem parts_write_of_ne {cell : Cell} {v w : Value} (hne : w ≠ .shared cell) :
    w.parts (h.write cell v) = w.parts h := by
  cases w with
  | shared other =>
    rw [Value.parts, Value.parts, read?_write_of_ne v fun heq => hne (congrArg _ heq.symm)]
  | plain | list | map | foreign => rfl

/-- A path to a cell is still there after a write to this cell, at least up to the cell. -/
theorem reaches_write {cell : Cell} {v w : Value} (hw : w.Reaches h cell) :
    w.Reaches (h.write cell v) cell := by
  obtain ⟨path, hpath⟩ := hw
  induction path generalizing w with
  | nil => exact ⟨[], hpath⟩
  | cons i path ih =>
    by_cases heq : w = .shared cell
    · exact ⟨[], Value.leadsTo_nil.mpr heq⟩
    · obtain ⟨part, hpart, hrest⟩ := Value.leadsTo_cons.mp hpath
      obtain ⟨path', hpath'⟩ := ih hrest
      rw [← parts_write_of_ne (v := v) heq] at hpart
      exact ⟨i :: path', Value.leadsTo_cons.mpr ⟨part, hpart, hpath'⟩⟩

/-- A cell is not reached from another one. -/
def Misses (h : Heap) (cell inner : Cell) : Prop := ¬ (Value.shared inner).Reaches h cell

theorem ne_of_misses {cell inner : Cell} (hm : h.Misses cell inner) : cell ≠ inner := by
  rintro rfl
  exact hm ⟨[], Value.leadsTo_nil.mpr rfl⟩

theorem within_misses {cell : Cell} {v : Value} (hv : ¬ v.Reaches h cell) :
    v.Within (h.Misses cell) :=
  fun _ hi hreaches => hv (Value.reaches_of_handle hi hreaches)

/-- From cells that miss a cell one comes to such cells only. -/
theorem closed_misses (h : Heap) (cell : Cell) : h.Closed (h.Misses cell) := by
  intro outer w ho hr
  refine within_misses fun hreaches => ho ?_
  exact Value.Reaches.trans ⟨[], Value.leadsTo_nil.mpr rfl⟩ hr hreaches

/-- That is so also after a write to the cell. -/
theorem closed_misses_write (h : Heap) (cell : Cell) (v : Value) :
    (h.write cell v).Closed (h.Misses cell) := by
  intro outer w ho hr
  rw [read?_write_of_ne v (ne_of_misses ho)] at hr
  exact closed_misses h cell outer w ho hr

/-- If the written value misses the cell, then a path that ends outside of what misses the cell does
not pass through it. -/
theorem leadsTo_of_write {cell target : Cell} (hcell : h.Has cell) {v w : Value}
    (hv : ¬ v.Reaches h cell) (htarget : ¬ h.Misses cell target) {path : List Nat}
    (hpath : w.LeadsTo (h.write cell v) path target) : w.LeadsTo h path target := by
  induction path generalizing w with
  | nil => exact hpath
  | cons i path ih =>
    obtain ⟨part, hpart, hrest⟩ := Value.leadsTo_cons.mp hpath
    by_cases heq : w = .shared cell
    · subst heq
      have hmem := List.mem_of_getElem? hpart
      rw [Value.parts, read?_write_self v hcell, Option.toList_some, List.mem_singleton] at hmem
      rw [hmem] at hrest
      exact absurd ((within_misses hv).reaches (closed_misses_write h cell v) ⟨path, hrest⟩) htarget
    · rw [parts_write_of_ne heq] at hpart
      exact Value.leadsTo_cons.mpr ⟨part, hpart, ih hrest⟩

/-- A write makes a cycle if and only if the value that is written reaches the cell. -/
theorem Acyclic.write_iff (hacyclic : h.Acyclic) {cell : Cell} (hcell : h.Has cell) (v : Value) :
    (h.write cell v).Acyclic ↔ ¬ v.Reaches h cell := by
  constructor
  · intro hwritten hreaches
    exact hwritten cell v (read?_write_self v hcell) (reaches_write hreaches)
  · intro hv other w hr hreaches
    have hclosed := closed_misses_write h cell v
    by_cases heq : cell = other
    · -- What the written value reaches misses the cell, so the cell itself is not among it.
      subst heq
      rw [read?_write_self v hcell] at hr
      cases hr
      exact ne_of_misses ((within_misses hv).reaches hclosed hreaches) rfl
    rw [read?_write_of_ne v heq] at hr
    obtain ⟨path, hpath⟩ := hreaches
    refine hacyclic other w hr ⟨path, ?_⟩
    by_cases hother : h.Misses cell other
    · have hw := closed_misses h cell other w hother hr
      have hframe := hw.follow_frame (closed_misses h cell)
        (fun inner hi => read?_write_of_ne v (ne_of_misses hi)) path
      exact hframe.symm.trans hpath
    · exact leadsTo_of_write hcell hv hother hpath

end Heap

/-! ## Recursion comes to an end -/

namespace Value

/-- The comparison of two cells that ends ends alike with more depth. -/
theorem sameCellWithin_mono {h : Heap} {depth larger : Nat} (hle : depth ≤ larger) {c d : Cell}
    (hne : sameCellWithin h depth c d ≠ none) :
    sameCellWithin h larger c d = sameCellWithin h depth c d := by
  induction larger, hle using Nat.le_induction with
  | base => rfl
  | succ larger hle ih =>
    rw [← ih] at hne
    rw [sameCellWithin_stays h hne, ih]

/-- The comparison of two values that ends ends alike with more depth. -/
theorem sameWithin_mono {h : Heap} {depth larger : Nat} (hle : depth ≤ larger) {a b : Value}
    (hne : sameWithin h depth a b ≠ none) : sameWithin h larger a b = sameWithin h depth a b := by
  rw [sameWithin_eq_sameWith] at hne ⊢
  rw [sameWithin_eq_sameWith]
  exact sameWith_stays (fun _ _ => sameCellWithin_mono hle) hne

/-- Where no cell reaches itself, as much depth as there are cells compares alike. -/
theorem Grounded.sameWithin_eq {h : Heap} (hclosed : h.Closed h.Has) {a b : Value}
    (ha : a.Within h.Has) (hgrounded : a.Grounded h) (hb : b.Within h.Has) {depth : Nat}
    (hd : h.size ≤ depth) : sameWithin h depth a b = same? h a b := by
  obtain ⟨x, hx⟩ := hgrounded.exists_contents hclosed ha
  have hne := sameWithin_ne_none hclosed (contentsWithin_mono hx hd) hb
  rw [← sameWithin_mono (Nat.le_max_left depth (h.size * h.size)) hne]
  exact sameWithin_stable (Nat.le_max_right _ _) a b

/-- A copy of a value whose cells do not reach themselves comes to an end. -/
theorem Grounded.copy_ne_endless {h : Heap} (hclosed : h.Closed h.Has) {v : Value}
    (hv : v.Within h.Has) (hgrounded : v.Grounded h) : v.copy h ≠ .error .endless := by
  intro hcopy
  have hends := copyResult_copy hclosed hv
  rw [hcopy] at hends
  cases hends with
  | endless hw hcycle => exact hcycle (hw ▸ hgrounded)

/-- So do the copies of entries, also if they are made later. -/
theorem copyEntries_ne_endless {h later : Heap} (hacyclic : h.Acyclic) (hclosed : h.Closed h.Has)
    {entries : List (String × Value)} (hentries : ∀ e ∈ entries, e.2.Within h.Has)
    (hle : h ≤ later) : Copyable.copyEntries later entries ≠ .error .endless := by
  intro hcopy
  have hends := copyResult_of_meets hclosed hentries (meets_copyEntries hclosed hentries hle)
  rw [hcopy] at hends
  cases hends with
  | endless _ hcycle => exact hcycle (grounded_of_acyclic hacyclic _)

end Value

namespace Heap

/-- What a cell holds names another one. -/
def Names (h : Heap) (inner cell : Cell) : Prop :=
  ∃ v, h.read? cell = some v ∧ inner ∈ v.handles

/-- A way through cells with levels goes down, so it comes to an end. -/
theorem Levels.acc {h : Heap} {region : Cell → Prop} {level : Cell → Nat}
    (hlevels : h.Levels region level) {cell : Cell} (hcell : region cell) :
    Acc h.Names cell := by
  induction hn : level cell using Nat.strong_induction_on generalizing cell with
  | _ n ih =>
    subst hn
    refine ⟨cell, fun inner ⟨w, hw, hi⟩ => ?_⟩
    obtain ⟨hinner, hlower⟩ := hlevels.lower cell w hcell hw inner hi
    exact ih (level inner) hlower hinner rfl

/-- Every way from cells to cells that they name comes to an end. -/
theorem Acyclic.wellFounded {h : Heap} (hacyclic : h.Acyclic) (hclosed : h.Closed h.Has) :
    WellFounded h.Names := by
  refine ⟨fun cell => ?_⟩
  by_cases hcell : h.Has cell
  · have hwithin : (Value.shared cell).Within h.Has := Value.within_shared.mpr hcell
    obtain ⟨level, hlevels⟩ :=
      (Value.grounded_of_acyclic hacyclic (.shared cell)).exists_levels hclosed hwithin
    exact hlevels.acc ⟨[], Value.leadsTo_nil.mpr rfl⟩
  · refine ⟨cell, fun inner ⟨w, hw, _⟩ => ?_⟩
    exact absurd (has_of_read? hw) hcell

/-- Recursion through the cells of a heap comes to an end. -/
structure Ends (h : Heap) : Prop where
  /-- So does every way from cells to cells that they name. -/
  names : WellFounded h.Names
  /-- So does every copy: as many cells on a path as there are cells are enough for it. -/
  copy : ∀ v : Value, v.Within h.Has → v.copy h ≠ .error .endless ∧
    ∀ depth, h.size ≤ depth → Value.copyWithin depth v h = v.copy h
  /-- So does every comparison, for which as many pairs of cells are enough. -/
  same : ∀ a b : Value, a.Within h.Has → b.Within h.Has → a.same? h b ≠ none ∧
    ∀ depth, h.size ≤ depth → Value.sameWithin h depth a b = a.same? h b

/-- In a heap without cycles it does. -/
theorem Acyclic.ends {h : Heap} (hacyclic : h.Acyclic) (hclosed : h.Closed h.Has) : h.Ends where
  names := hacyclic.wellFounded hclosed
  copy v hv := ⟨(Value.grounded_of_acyclic hacyclic v).copy_ne_endless hclosed hv,
    fun _ hd => Value.copyWithin_stable hclosed hv hd⟩
  same a _ ha hb := ⟨(Value.grounded_of_acyclic hacyclic a).same?_ne_none hclosed ha hb,
    fun _ hd => (Value.grounded_of_acyclic hacyclic a).sameWithin_eq hclosed ha hb hd⟩

end Heap

end OverlayStore
