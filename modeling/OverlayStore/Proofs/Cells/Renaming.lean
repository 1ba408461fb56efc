import Mathlib.Data.Nat.Count
import OverlayStore.Proofs.Cells.Depth

/-!
# Heaps without some of their cells

Some cells of a heap are hidden, and another heap has the other cells only. A cell that shows is
found there at its rank, its place among the cells that show, and holds the same value with the
handles renamed. Both heaps can take in a new cell, a write and a payload alike, and the larger one
can make and write to hidden cells on its own.
-/

namespace OverlayStore

/-! ## Renamed handles -/

namespace Value

mutual

/-- A value with other cells behind its handles. -/
def rename (ρ : Cell → Cell) : Value → Value
  | .plain data => .plain data
  | .list items => .list (renameItems ρ items)
  | .map entries => .map (renameEntries ρ entries)
  | .shared cell => .shared (ρ cell)
  | .foreign payload => .foreign payload

/-- The items of a list with other cells behind their handles. -/
def renameItems (ρ : Cell → Cell) : List Value → List Value
  | [] => []
  | item :: rest => rename ρ item :: renameItems ρ rest

/-- The entries of a map with other cells behind their handles. -/
def renameEntries (ρ : Cell → Cell) : List (String × Value) → List (String × Value)
  | [] => []
  | (key, value) :: rest => (key, rename ρ value) :: renameEntries ρ rest

end

variable (ρ : Cell → Cell)

@[simp] theorem rename_plain (data : Plain) : (plain data).rename ρ = .plain data := by
  simp only [rename]

@[simp] theorem rename_foreign (payload : Foreign) :
    (foreign payload).rename ρ = .foreign payload := by
  simp only [rename]

@[simp] theorem rename_shared (cell : Cell) : (shared cell).rename ρ = .shared (ρ cell) := by
  simp only [rename]

@[simp] theorem rename_list (items : List Value) :
    (list items).rename ρ = .list (items.map (rename ρ)) := by
  rw [rename]
  congr 1
  induction items with
  | nil => rfl
  | cons item rest ih => rw [renameItems, ih, List.map_cons]

@[simp] theorem rename_map (entries : List (String × Value)) :
    (map entries).rename ρ = .map (entries.map (Prod.map id (rename ρ))) := by
  rw [rename]
  congr 1
  induction entries with
  | nil => rfl
  | cons e rest ih => rw [renameEntries, ih, List.map_cons, Prod.map_apply, id]

/-- The handles are renamed one by one. -/
theorem handles_rename (v : Value) : (v.rename ρ).handles = v.handles.map ρ := by
  induction v using Value.induction with
  | plain data => simp
  | foreign payload => simp
  | shared cell => simp
  | list items ih =>
    rw [rename_list, handles_list, handles_list, List.flatMap_map, List.map_flatMap]
    exact List.flatMap_congr ih
  | map entries ih =>
    rw [rename_map, handles_map, handles_map, List.flatMap_map, List.map_flatMap]
    exact List.flatMap_congr ih

/-- Only the cells behind the handles count. -/
theorem rename_congr {ρ σ : Cell → Cell} {v : Value} (h : ∀ cell ∈ v.handles, ρ cell = σ cell) :
    v.rename ρ = v.rename σ := by
  induction v using Value.induction with
  | plain data => simp
  | foreign payload => simp
  | shared cell => simpa using h
  | list items ih =>
    rw [rename_list, rename_list, List.map_congr_left fun item hi => ih item hi fun cell hc => ?_]
    exact h cell (by simpa using ⟨item, hi, hc⟩)
  | map entries ih =>
    have hentries : ∀ e ∈ entries, Prod.map id (rename ρ) e = Prod.map id (rename σ) e := by
      rintro ⟨key, v⟩ he
      rw [Prod.map_apply, Prod.map_apply, ih (key, v) he fun cell hc => ?_]
      exact h cell (by simpa using ⟨key, v, he, hc⟩)
    rw [rename_map, rename_map, List.map_congr_left hentries]

@[simp] theorem kind_rename (v : Value) : (v.rename ρ).kind = v.kind := by
  cases v <;> simp [kind]

@[simp] theorem number?_rename (v : Value) : (v.rename ρ).number? = v.number? := by
  cases v <;> simp [number?]

@[simp] theorem shape_rename (v : Value) : (v.rename ρ).shape = v.shape := by
  cases v <;> simp [shape]

@[simp] theorem rename_ofNumber (n : Number) : (ofNumber n).rename ρ = ofNumber n :=
  rename_plain ρ _

end Value

/-! ## Ranks -/

namespace Cell

/-- The place of a cell among those that are not hidden. -/
def rank (hidden : List Cell) (cell : Cell) : Cell :=
  ⟨Nat.count (fun i => ⟨i⟩ ∉ hidden) cell.index⟩

variable {hidden fresh : List Cell} {c d : Cell}

/-- Cells that are not hidden have different ranks. -/
theorem rank_inj (hc : c ∉ hidden) (hd : d ∉ hidden) : rank hidden c = rank hidden d ↔ c = d := by
  refine ⟨fun heq => ?_, congrArg _⟩
  have hcount : (rank hidden c).index = (rank hidden d).index := congrArg index heq
  have hindex : c.index = d.index :=
    Nat.count_injective (p := fun i => (⟨i⟩ : Cell) ∉ hidden) hc hd hcount
  cases c
  cases d
  exact congrArg Cell.mk hindex

/-- The rank of a cell does not depend on what happens to later ones. -/
theorem rank_append (hnew : ∀ d ∈ fresh, c.index ≤ d.index) :
    rank (hidden ++ fresh) c = rank hidden c := by
  refine congrArg Cell.mk (le_antisymm ?_ ?_)
  · exact Nat.count_mono_left fun i hi hnot hm => hnot (List.mem_append_left _ hm)
  · refine Nat.count_mono_left fun i hi hnot hm => ?_
    rcases List.mem_append.mp hm with hold | hfresh
    · exact hnot hold
    · exact absurd hi (Nat.not_lt_of_le (hnew ⟨i⟩ hfresh))

/-- No cell is counted up. -/
theorem rank_le (hidden : List Cell) (c : Cell) : (rank hidden c).index ≤ c.index :=
  Nat.count_le _

/-- The cell behind one that is not hidden has the next rank. -/
theorem rank_succ {i : Nat} (hi : ⟨i⟩ ∉ hidden) :
    rank hidden ⟨i + 1⟩ = ⟨(rank hidden ⟨i⟩).index + 1⟩ := by
  rw [rank, Nat.count_succ, if_pos hi]
  rfl

/-- Hidden cells take no rank. -/
theorem rank_hidden {i : Nat} (hi : ⟨i⟩ ∈ hidden) : rank hidden ⟨i + 1⟩ = rank hidden ⟨i⟩ := by
  rw [rank, Nat.count_succ, if_neg (not_not_intro hi)]
  rfl

/-- Every rank below that of a cell is taken by an earlier cell that is not hidden. -/
theorem exists_rank {n : Nat} (hc : c.index < (rank hidden ⟨n⟩).index) :
    ∃ d, d.index < n ∧ d ∉ hidden ∧ rank hidden d = c := by
  induction n with
  | zero => exact absurd hc (Nat.not_lt_of_le (rank_le hidden _ |>.trans (Nat.zero_le _)))
  | succ n ih =>
    by_cases hn : ⟨n⟩ ∈ hidden
    · rw [rank_hidden hn] at hc
      obtain ⟨d, hd, hrest⟩ := ih hc
      exact ⟨d, Nat.lt_succ_of_lt hd, hrest⟩
    · rw [rank_succ hn] at hc
      rcases Nat.lt_or_eq_of_le (Nat.le_of_lt_succ hc) with hlt | heq
      · obtain ⟨d, hd, hrest⟩ := ih hlt
        exact ⟨d, Nat.lt_succ_of_lt hd, hrest⟩
      · refine ⟨⟨n⟩, Nat.lt_succ_self n, hn, ?_⟩
        cases c
        exact congrArg Cell.mk heq.symm

end Cell

/-! ## Heaps that mirror each other -/

namespace Heap

/-- A cell is there and is not hidden. -/
def Shows (h : Heap) (hidden : List Cell) (cell : Cell) : Prop := h.Has cell ∧ cell ∉ hidden

/-- The other heap has the cells that are not hidden, each at its rank. -/
structure Mirrors (hidden : List Cell) (h h' : Heap) : Prop where
  /-- The hidden cells are there. -/
  has : ∀ cell ∈ hidden, h.Has cell
  /-- New cells are made at the same rank. -/
  next : Cell.rank hidden ⟨h.size⟩ = ⟨h'.size⟩
  /-- A cell holds the same, with the handles renamed. -/
  read : ∀ cell v, cell ∉ hidden → h.read? cell = some v →
    h'.read? (Cell.rank hidden cell) = some (v.rename (Cell.rank hidden))
  /-- No cell that shows names one that does not. -/
  closed : h.Closed (h.Shows hidden)
  /-- As many payloads were taken in. -/
  payloads : h'.payloads = h.payloads

variable {hidden : List Cell} {h h' g : Heap} {cell : Cell} {v : Value}

/-- Growth hides nothing. -/
theorem Shows.mono (hc : h.Shows hidden cell) (hle : h ≤ g) : g.Shows hidden cell :=
  ⟨hc.1.mono hle, hc.2⟩

namespace Mirrors

/-- Without cells there is nothing to hide. -/
theorem empty : Mirrors [] empty empty where
  has _ hc := by cases hc
  next := rfl
  read cell v _ hr := by
    rw [read?_eq_none_iff.mpr (Nat.zero_le _)] at hr
    cases hr
  closed cell v hc := absurd hc.1 (Nat.not_lt_zero _)
  payloads := rfl

/-- The ranks of cells that show are cells. -/
theorem has_rank (hm : Mirrors hidden h h') (hc : h.Shows hidden cell) :
    h'.Has (Cell.rank hidden cell) := by
  obtain ⟨v, hv⟩ := exists_read?_of_has hc.1
  exact has_of_read? (hm.read cell v hc.2 hv)

/-- A renamed value names cells of the other side. -/
theorem within_rename (hm : Mirrors hidden h h') (hv : v.Within (h.Shows hidden)) :
    (v.rename (Cell.rank hidden)).Within h'.Has := by
  intro c hc
  rw [Value.handles_rename, List.mem_map] at hc
  obtain ⟨d, hd, rfl⟩ := hc
  exact hm.has_rank (hv d hd)

/-- The other heap has no loose handles. -/
theorem closed_has (hm : Mirrors hidden h h') : h'.Closed h'.Has := by
  intro c w hc hr
  have hlt : c.index < (Cell.rank hidden ⟨h.size⟩).index := by
    rw [hm.next]
    exact hc
  obtain ⟨d, hd, hshown, rfl⟩ := Cell.exists_rank hlt
  obtain ⟨v, hv⟩ := exists_read?_of_has (h := h) hd
  rw [hm.read d v hshown hv] at hr
  cases hr
  exact hm.within_rename (hm.closed d v ⟨hd, hshown⟩ hv)

/-- The other side has no more cells. -/
theorem size_le (hm : Mirrors hidden h h') : h'.size ≤ h.size := by
  have hle := Cell.rank_le hidden ⟨h.size⟩
  rwa [hm.next] at hle

/-- A new cell on both sides. -/
theorem alloc (hm : Mirrors hidden h h') (hv : v.Within (h.Shows hidden)) :
    Mirrors hidden (h.alloc v).2 (h'.alloc (v.rename (Cell.rank hidden))).2 ∧
      (h.alloc v).2.Shows hidden (h.alloc v).1 ∧
      Cell.rank hidden (h.alloc v).1 = (h'.alloc (v.rename (Cell.rank hidden))).1 := by
  have hle := h.le_alloc v
  have hnew : (⟨h.size⟩ : Cell) ∉ hidden := fun hc => Nat.lt_irrefl _ (hm.has _ hc)
  have hshows : (h.alloc v).2.Shows hidden (h.alloc v).1 := by
    refine ⟨?_, hnew⟩
    rw [Has, size_alloc]
    exact Nat.lt_succ_self _
  -- Every cell is an old one or the new one.
  have hread : ∀ c w, (h.alloc v).2.read? c = some w →
      h.read? c = some w ∨ c = (h.alloc v).1 ∧ w = v := by
    intro c w hr
    by_cases hc : h.Has c
    · exact .inl ((hle.2 c hc).symm.trans hr)
    · have hhas := has_of_read? hr
      rw [Has, size_alloc] at hhas
      have heq : c = (h.alloc v).1 := by
        cases c
        exact congrArg Cell.mk (Nat.le_antisymm (Nat.le_of_lt_succ hhas) (Nat.le_of_not_lt hc))
      rw [heq, read?_alloc_self] at hr
      exact .inr ⟨heq, (Option.some.inj hr).symm⟩
  refine ⟨⟨fun c hc => (hm.has c hc).mono hle, ?_, ?_, ?_, hm.payloads⟩, hshows, hm.next⟩
  · rw [size_alloc, size_alloc, Cell.rank_succ hnew, hm.next]
  · intro c w hc hr
    rcases hread c w hr with hold | ⟨rfl, rfl⟩
    · exact read?_of_le (h'.le_alloc _) (hm.read c w hc hold)
    · have hnext : Cell.rank hidden (h.alloc w).1 = (h'.alloc (w.rename (Cell.rank hidden))).1 :=
        hm.next
      rw [hnext, read?_alloc_self]
  · intro c w hc hr
    rcases hread c w hr with hold | ⟨-, rfl⟩
    · exact (hm.closed c w ⟨has_of_read? hold, hc.2⟩ hold).mono fun d hd => hd.mono hle
    · exact hv.mono fun d hd => hd.mono hle

/-- A write to a cell that shows, on both sides. -/
theorem write (hm : Mirrors hidden h h') (hc : h.Shows hidden cell)
    (hv : v.Within (h.Shows hidden)) :
    Mirrors hidden (h.write cell v)
      (h'.write (Cell.rank hidden cell) (v.rename (Cell.rank hidden))) := by
  have hhas : ∀ c, (h.write cell v).Has c ↔ h.Has c := fun c => by rw [Has, Has, size_write]
  have hread : ∀ c w, (h.write cell v).read? c = some w →
      c = cell ∧ w = v ∨ c ≠ cell ∧ h.read? c = some w := by
    intro c w hr
    by_cases heq : c = cell
    · rw [heq, read?_write_self v hc.1] at hr
      exact .inl ⟨heq, (Option.some.inj hr).symm⟩
    · rw [read?_write_of_ne v (Ne.symm heq)] at hr
      exact .inr ⟨heq, hr⟩
  refine ⟨fun c hh => (hhas c).mpr (hm.has c hh), ?_, ?_, ?_, hm.payloads⟩
  · rw [size_write, size_write, hm.next]
  · intro c w hshown hr
    rcases hread c w hr with ⟨rfl, rfl⟩ | ⟨hne, hold⟩
    · exact read?_write_self _ (hm.has_rank hc)
    · rw [read?_write_of_ne _ fun heq => hne ((Cell.rank_inj hshown hc.2).mp heq.symm)]
      exact hm.read c w hshown hold
  · intro c w hshown hr
    have hcell : (h.write cell v).Shows hidden = h.Shows hidden := by
      funext c
      rw [Shows, hhas, Shows]
    rw [hcell] at hshown ⊢
    rcases hread c w hr with ⟨-, rfl⟩ | ⟨-, hold⟩
    · exact hv
    · exact hm.closed c w hshown hold

/-- A payload on both sides. -/
theorem adopt (hm : Mirrors hidden h h') (typeName : String) :
    Mirrors hidden (h.adopt typeName).2 (h'.adopt typeName).2 ∧
      (h.adopt typeName).1 = (h'.adopt typeName).1 := by
  refine ⟨⟨hm.has, hm.next, hm.read, hm.closed, congrArg (· + 1) hm.payloads⟩, ?_⟩
  rw [Heap.adopt, Heap.adopt, hm.payloads]

/-- A write to a hidden cell is not seen on the other side. -/
theorem write_hidden (hm : Mirrors hidden h h') (hc : cell ∈ hidden) (v : Value) :
    Mirrors hidden (h.write cell v) h' := by
  have hhas : ∀ c, (h.write cell v).Has c ↔ h.Has c := fun c => by rw [Has, Has, size_write]
  have hread : ∀ c, c ∉ hidden → (h.write cell v).read? c = h.read? c := by
    rintro c hshown
    exact read?_write_of_ne v fun heq => hshown (heq ▸ hc)
  have hcell : (h.write cell v).Shows hidden = h.Shows hidden := by
    funext c
    rw [Shows, hhas, Shows]
  refine ⟨fun c hh => (hhas c).mpr (hm.has c hh), ?_, ?_, ?_, hm.payloads⟩
  · rw [size_write, hm.next]
  · intro c w hshown hr
    exact hm.read c w hshown ((hread c hshown).symm.trans hr)
  · intro c w hshown hr
    rw [hcell] at hshown ⊢
    exact hm.closed c w hshown ((hread c hshown.2).symm.trans hr)

end Mirrors

/-! ## Growth on one side -/

/-- A rank does not depend on cells that are made later. -/
theorem rank_append_fresh (hc : h.Has cell) (g : Heap) :
    Cell.rank (hidden ++ h.fresh g) cell = Cell.rank hidden cell :=
  Cell.rank_append fun _ hd => Nat.le_of_lt (Nat.lt_of_lt_of_le hc (mem_fresh.mp hd).1)

/-- Nor does a renamed value. -/
theorem rename_append_fresh (hv : v.Within h.Has) (g : Heap) :
    v.rename (Cell.rank (hidden ++ h.fresh g)) = v.rename (Cell.rank hidden) :=
  Value.rename_congr fun c hc => rank_append_fresh (hv c hc) g

/-- Old cells show as before, and new ones do not show. -/
theorem shows_append_fresh (hle : h ≤ g) :
    g.Shows (hidden ++ h.fresh g) cell ↔ h.Shows hidden cell := by
  rw [Shows, Shows, List.mem_append, not_or, mem_fresh]
  constructor
  · rintro ⟨hg, hold, hnew⟩
    refine ⟨?_, hold⟩
    by_contra hnot
    exact hnew ⟨Nat.le_of_not_lt hnot, hg⟩
  · rintro ⟨hh, hold⟩
    exact ⟨hh.mono hle, hold, fun hnew => Nat.not_lt_of_le hnew.1 hh⟩

/-- All cells from the old size on are hidden, so the rank stands still there. -/
theorem Mirrors.rank_append_fresh_of_le (hm : Mirrors hidden h h') {n : Nat} (hlow : h.size ≤ n)
    (hhigh : n ≤ g.size) : Cell.rank (hidden ++ h.fresh g) ⟨n⟩ = ⟨h'.size⟩ := by
  induction n, hlow using Nat.le_induction with
  | base =>
    rw [← hm.next]
    exact Cell.rank_append fun d hd => (mem_fresh.mp hd).1
  | succ n hlow ih =>
    have hn : (⟨n⟩ : Cell) ∈ hidden ++ h.fresh g :=
      List.mem_append_right _ (mem_fresh.mpr ⟨hlow, hhigh⟩)
    rw [Cell.rank_hidden hn, ih (Nat.le_of_lt hhigh)]

/-- Hidden growth is not seen on the other side. -/
theorem Mirrors.grow (hm : Mirrors hidden h h') (hle : h ≤ g)
    (hpayloads : g.payloads = h.payloads) : Mirrors (hidden ++ h.fresh g) g h' := by
  have hread : ∀ c v, g.Shows (hidden ++ h.fresh g) c → g.read? c = some v →
      h.read? c = some v := fun c v hc hr =>
    (hle.2 c ((shows_append_fresh hle).mp hc).1).symm.trans hr
  have hclosed : ∀ c v, h.Shows hidden c → h.read? c = some v → v.Within (h.Shows hidden) :=
    hm.closed
  refine ⟨fun c hc => ?_, hm.rank_append_fresh_of_le hle.1 (le_refl _), fun c v hc hr => ?_,
    fun c v hc hr => ?_, hm.payloads.trans hpayloads.symm⟩
  · rcases List.mem_append.mp hc with hold | hnew
    · exact (hm.has c hold).mono hle
    · exact (mem_fresh.mp hnew).2
  · have hshows : g.Shows (hidden ++ h.fresh g) c := ⟨has_of_read? hr, hc⟩
    have hold := (shows_append_fresh hle).mp hshows
    have hr' := hread c v hshows hr
    rw [rank_append_fresh hold.1, hm.read c v hold.2 hr',
      rename_append_fresh fun d hd => (hclosed c v hold hr' d hd).1]
  · have hold := (shows_append_fresh hle).mp hc
    exact (hclosed c v hold (hread c v hc hr)).mono fun d hd => (shows_append_fresh hle).mpr hd

end Heap

end OverlayStore
