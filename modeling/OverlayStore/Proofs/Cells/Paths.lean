import Mathlib.Order.Nat
import Mathlib.Tactic.ByContra
import OverlayStore.Value.Heap

/-!
# Handles, paths and regions

A value names cells by its handles, and a path leads from it through lists, maps and cells. A region
of cells is closed if what its cells hold names no cell outside, and then no path leaves it. Heaps
are ordered by growth: a larger one has the cells of the smaller one as they are.
-/

namespace OverlayStore

/-- Induction on a value through the items of lists and the values of maps. -/
theorem Value.induction {motive : Value → Prop}
    (plain : ∀ data, motive (.plain data))
    (list : ∀ items, (∀ v ∈ items, motive v) → motive (.list items))
    (map : ∀ entries, (∀ e ∈ entries, motive e.2) → motive (.map entries))
    (shared : ∀ cell, motive (.shared cell))
    (foreign : ∀ payload, motive (.foreign payload)) (v : Value) : motive v :=
  @Value.rec motive (fun items => ∀ v ∈ items, motive v)
    (fun entries => ∀ e ∈ entries, motive e.2) (fun e => motive e.2)
    plain list map shared foreign (by simp)
    (fun _ _ hv hrest => List.forall_mem_cons.mpr ⟨hv, hrest⟩) (by simp)
    (fun _ _ he hrest => List.forall_mem_cons.mpr ⟨he, hrest⟩) (fun _ _ hv => hv) v

namespace Value

mutual

/-- The cells that a value names, in order and as often as it names them. -/
def handles : Value → List Cell
  | .plain _ | .foreign _ => []
  | .list items => itemHandles items
  | .map entries => entryHandles entries
  | .shared cell => [cell]

/-- The cells that the items of a list name. -/
def itemHandles : List Value → List Cell
  | [] => []
  | item :: rest => handles item ++ itemHandles rest

/-- The cells that the entries of a map name. -/
def entryHandles : List (String × Value) → List Cell
  | [] => []
  | (_, value) :: rest => handles value ++ entryHandles rest

end

/-- Plain data name no cell. -/
@[simp] theorem handles_plain (data : Plain) : (plain data).handles = [] := by simp [handles]

/-- A handle names its cell. -/
@[simp] theorem handles_shared (cell : Cell) : (shared cell).handles = [cell] := by simp [handles]

/-- A payload names no cell. -/
@[simp] theorem handles_foreign (payload : Foreign) : (foreign payload).handles = [] := by
  simp [handles]

/-- A list names what its items name. -/
@[simp] theorem handles_list (items : List Value) :
    (list items).handles = items.flatMap handles := by
  rw [handles]
  induction items with
  | nil => simp [itemHandles]
  | cons item rest ih => simp [itemHandles, ih]

/-- A map names what its values name. -/
@[simp] theorem handles_map (entries : List (String × Value)) :
    (map entries).handles = entries.flatMap fun e => e.2.handles := by
  rw [handles]
  induction entries with
  | nil => simp [entryHandles]
  | cons e rest ih => simp [entryHandles, ih]

/-- What one step of a path leads to: the items of a list, the values of a map in the order of the
keys, or what a cell holds. -/
def parts (h : Heap) : Value → List Value
  | .plain _ | .foreign _ => []
  | .list items => items
  | .map entries => entries.map Prod.snd
  | .shared cell => (h.read? cell).toList

/-- Where a path leads, each step given by its position among the parts. -/
def follow (h : Heap) : Value → List Nat → Option Value
  | v, [] => some v
  | v, i :: path => (v.parts h)[i]?.bind fun part => part.follow h path

/-- A path leads from a value to a cell. -/
def LeadsTo (h : Heap) (v : Value) (path : List Nat) (cell : Cell) : Prop :=
  v.follow h path = some (.shared cell)

/-- The empty path leads from a handle to its cell. -/
@[simp] theorem leadsTo_nil {h : Heap} {v : Value} {cell : Cell} :
    v.LeadsTo h [] cell ↔ v = .shared cell := by
  simp [LeadsTo, follow]

/-- A path leads through one of the parts. -/
theorem leadsTo_cons {h : Heap} {v : Value} {i : Nat} {path : List Nat} {cell : Cell} :
    v.LeadsTo h (i :: path) cell ↔
      ∃ part, (v.parts h)[i]? = some part ∧ part.LeadsTo h path cell :=
  Option.bind_eq_some_iff

/-- Some path leads from a value to a cell. -/
def Reaches (h : Heap) (v : Value) (cell : Cell) : Prop := ∃ path, v.LeadsTo h path cell

/-- Every cell that a value names lies in a region. -/
def Within (v : Value) (region : Cell → Prop) : Prop := ∀ cell ∈ v.handles, region cell

/-- Plain data lie in every region. -/
@[simp] theorem within_plain (data : Plain) (region : Cell → Prop) :
    (plain data).Within region := by simp [Within]

/-- So do payloads. -/
@[simp] theorem within_foreign (payload : Foreign) (region : Cell → Prop) :
    (foreign payload).Within region := by simp [Within]

/-- A handle lies where its cell does. -/
@[simp] theorem within_shared {cell : Cell} {region : Cell → Prop} :
    (shared cell).Within region ↔ region cell := by simp [Within]

/-- A list lies where its items do. -/
@[simp] theorem within_list {items : List Value} {region : Cell → Prop} :
    (list items).Within region ↔ ∀ item ∈ items, item.Within region := by
  simp only [Within, handles_list, List.mem_flatMap]
  exact ⟨fun h item hi cell hc => h cell ⟨item, hi, hc⟩,
    fun h cell ⟨item, hi, hc⟩ => h item hi cell hc⟩

/-- A map lies where its values do. -/
@[simp] theorem within_map {entries : List (String × Value)} {region : Cell → Prop} :
    (map entries).Within region ↔ ∀ e ∈ entries, e.2.Within region := by
  simp only [Within, handles_map, List.mem_flatMap]
  exact ⟨fun h e he cell hc => h cell ⟨e, he, hc⟩, fun h cell ⟨e, he, hc⟩ => h e he cell hc⟩

/-- A value stays in a larger region. -/
theorem Within.mono {v : Value} {region larger : Cell → Prop} (hv : v.Within region)
    (hsub : ∀ cell, region cell → larger cell) : v.Within larger :=
  fun cell hc => hsub cell (hv cell hc)

end Value

namespace Heap

/-- A region that the contents of its own cells do not lead out of. -/
def Closed (h : Heap) (region : Cell → Prop) : Prop :=
  ∀ cell v, region cell → h.read? cell = some v → v.Within region

/-- The cells that a heap has. -/
def Has (h : Heap) (cell : Cell) : Prop := cell.index < h.size

/-- A cell that can be read is there. -/
theorem has_of_read? {h : Heap} {cell : Cell} {v : Value} (hr : h.read? cell = some v) :
    h.Has cell := by
  by_contra hlt
  rw [read?_eq_none_iff.mpr (Nat.le_of_not_lt hlt)] at hr
  cases hr

/-- A cell that is there can be read. -/
theorem exists_read?_of_has {h : Heap} {cell : Cell} (hc : h.Has cell) :
    ∃ v, h.read? cell = some v := by
  cases hr : h.read? cell with
  | none => exact absurd (read?_eq_none_iff.mp hr) (Nat.not_le_of_lt hc)
  | some v => exact ⟨v, rfl⟩

/-- Growth: no cell is lost or changed. -/
instance : Preorder Heap where
  le h h' := h.size ≤ h'.size ∧ ∀ cell, h.Has cell → h'.read? cell = h.read? cell
  le_refl h := ⟨le_refl h.size, fun _ _ => rfl⟩
  le_trans h₁ h₂ h₃ h12 h23 := ⟨h12.1.trans h23.1, fun cell hc =>
    (h23.2 cell (Nat.lt_of_lt_of_le hc h12.1)).trans (h12.2 cell hc)⟩

/-- Growth keeps what a cell holds. -/
theorem read?_of_le {h h' : Heap} (hle : h ≤ h') {cell : Cell} {v : Value}
    (hr : h.read? cell = some v) : h'.read? cell = some v :=
  (hle.2 cell (has_of_read? hr)).trans hr

/-- Growth keeps the cells. -/
theorem Has.mono {h h' : Heap} {cell : Cell} (hc : h.Has cell) (hle : h ≤ h') : h'.Has cell :=
  Nat.lt_of_lt_of_le hc hle.1

/-- Growth keeps a region of old cells closed. -/
theorem Closed.of_le {h h' : Heap} {region : Cell → Prop} (hclosed : h.Closed region)
    (hhas : ∀ cell, region cell → h.Has cell) (hle : h ≤ h') : h'.Closed region :=
  fun cell v hc hr => hclosed cell v hc ((hle.2 cell (hhas cell hc)).symm.trans hr)

/-- A heap grows by a new cell. -/
theorem le_alloc (h : Heap) (v : Value) : h ≤ (h.alloc v).2 := by
  refine ⟨?_, fun cell hc => read?_alloc_of_lt v hc⟩
  rw [size_alloc]
  exact Nat.le_succ _

/-- A heap grows by taking in a payload, since no cell is concerned. -/
theorem le_adopt (h : Heap) (typeName : String) : h ≤ (h.adopt typeName).2 :=
  ⟨le_refl h.size, fun _ _ => rfl⟩

end Heap

namespace Value

/-- The parts of a value in a closed region lie in it. -/
theorem Within.parts {h : Heap} {region : Cell → Prop} (hclosed : h.Closed region) {v : Value}
    (hv : v.Within region) {part : Value} (hp : part ∈ v.parts h) : part.Within region := by
  cases v with
  | plain data => simp [Value.parts] at hp
  | foreign payload => simp [Value.parts] at hp
  | list items => exact within_list.mp hv part hp
  | map entries =>
    obtain ⟨e, he, rfl⟩ := List.mem_map.mp hp
    exact within_map.mp hv e he
  | shared cell =>
    exact hclosed cell part (within_shared.mp hv) (Option.mem_toList.mp hp)

/-- No path leaves a closed region. -/
theorem Within.follow {h : Heap} {region : Cell → Prop} (hclosed : h.Closed region) {v w : Value}
    (hv : v.Within region) {path : List Nat} (hw : v.follow h path = some w) :
    w.Within region := by
  induction path generalizing v with
  | nil => exact Option.some.inj hw ▸ hv
  | cons i path ih =>
    obtain ⟨part, hp, hrest⟩ := Option.bind_eq_some_iff.mp hw
    exact ih (hv.parts hclosed (List.mem_of_getElem? hp)) hrest

/-- A cell that is reached from a closed region lies in it. -/
theorem Within.reaches {h : Heap} {region : Cell → Prop} (hclosed : h.Closed region) {v : Value}
    (hv : v.Within region) {cell : Cell} (hr : v.Reaches h cell) : region cell := by
  obtain ⟨path, hpath⟩ := hr
  exact within_shared.mp (hv.follow hclosed hpath)

end Value

end OverlayStore
