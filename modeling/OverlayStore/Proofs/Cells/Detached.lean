import OverlayStore.Proofs.Cells.Faithful
import OverlayStore.Proofs.Cells.Ownership

/-!
# Detached copies

A deep copy has cells of its own, each on one path. Nothing else leads to them, and as long as
nobody stores a value that does, nothing else ever will: writes through handles from elsewhere do
not change what the copy holds, and writes through the copy do not change its source.
-/

namespace OverlayStore

/-- Something that is done to cells from outside. -/
inductive CellCall where
  /-- A new cell is made around a value. -/
  | make (value : Value)
  /-- The contents of a cell are replaced. -/
  | write (cell : Cell) (value : Value)

namespace Heap

/-- The heap after one call. -/
def callCell (h : Heap) : CellCall → Heap
  | .make value => (h.alloc value).2
  | .write cell value => h.write cell value

/-- The heap after calls. -/
def callCells (h : Heap) (calls : List CellCall) : Heap := calls.foldl callCell h

theorem size_le_callCell (h : Heap) (call : CellCall) : h.size ≤ (h.callCell call).size := by
  cases call with
  | make value => exact (h.le_alloc value).1
  | write cell value => exact (h.size_write cell value).ge

end Heap

/-- The value that a call stores. -/
def CellCall.stored : CellCall → Value
  | .make value | .write _ value => value

/-- After a call, a cell holds what it held before or what the call stored. -/
theorem Heap.read?_callCell {h : Heap} {call : CellCall} {cell : Cell} {v : Value}
    (hr : (h.callCell call).read? cell = some v) : h.read? cell = some v ∨ v = call.stored := by
  cases call with
  | make value =>
    rw [callCell] at hr
    by_cases hold : h.Has cell
    · rw [read?_alloc_of_lt value hold] at hr
      exact .inl hr
    · have hnew : cell ∈ h.fresh (h.alloc value).2 :=
        mem_fresh.mpr ⟨Nat.le_of_not_lt hold, has_of_read? hr⟩
      rw [fresh_alloc, List.mem_singleton] at hnew
      rw [hnew, read?_alloc_self] at hr
      exact .inr (Option.some.inj hr).symm
  | write target value =>
    rw [callCell] at hr
    by_cases heq : target = cell
    · subst heq
      have hin : target.index < h.size := by
        have hlt := has_of_read? hr
        rwa [Has, size_write] at hlt
      rw [read?_write_self value hin] at hr
      exact .inr (Option.some.inj hr).symm
    · rw [read?_write_of_ne value heq] at hr
      exact .inl hr

namespace Value

/-! ## What a value reaches -/

/-- No path leaves a closed region, so paths do not depend on the cells outside of it. -/
theorem Within.follow_frame {h h' : Heap} {region : Cell → Prop} (hclosed : h.Closed region)
    (hagree : ∀ cell, region cell → h'.read? cell = h.read? cell) {v : Value}
    (hv : v.Within region) (path : List Nat) : v.follow h' path = v.follow h path := by
  induction path generalizing v with
  | nil => rfl
  | cons i path ih =>
    have hparts : v.parts h' = v.parts h := by
      cases v with
      | shared cell => rw [Value.parts, Value.parts, hagree cell (within_shared.mp hv)]
      | plain | list | map | foreign => rfl
    rw [Value.follow, Value.follow, hparts]
    refine Option.bind_congr fun part hp => ?_
    exact ih (hv.parts hclosed (List.mem_of_getElem? hp))

/-- A named cell leads on to what it reaches. -/
theorem reaches_of_handle {h : Heap} {v : Value} {outer cell : Cell} (ho : outer ∈ v.handles)
    (hc : (shared outer).Reaches h cell) : v.Reaches h cell := by
  obtain ⟨path, hpath⟩ := reaches_of_mem_handles (h := h) ho
  obtain ⟨rest, hrest⟩ := hc
  refine ⟨path ++ rest, ?_⟩
  rw [LeadsTo, follow_append, hpath]
  exact hrest

/-- A value lies within the cells that it reaches. -/
theorem within_reaches (h : Heap) (v : Value) : v.Within (v.Reaches h) :=
  fun _ hc => reaches_of_mem_handles hc

/-- The cells that a value reaches are a closed region. -/
theorem closed_reaches (h : Heap) (v : Value) : h.Closed (v.Reaches h) :=
  fun _ _ hc hr _ hi => hc.trans hr (reaches_of_mem_handles hi)

/-- Two values have no cell in common. -/
def Apart (h : Heap) (v w : Value) : Prop := ∀ cell, v.Reaches h cell → ¬ w.Reaches h cell

/-- The cells from which no path leads to a cell of a value are a closed region. -/
theorem closed_apart (h : Heap) (kept : Value) :
    h.Closed fun cell => (shared cell).Apart h kept := by
  intro cell w hc hr inner hi deep hd
  have hself : (shared cell).Reaches h cell := ⟨[], leadsTo_nil.mpr rfl⟩
  exact hc deep (hself.trans hr (reaches_of_handle hi hd))

/-- A value is apart from another one if the cells that it names are. -/
theorem apart_iff_within {h : Heap} {w kept : Value} :
    w.Apart h kept ↔ w.Within fun cell => (shared cell).Apart h kept := by
  constructor
  · exact fun ha outer ho cell hc => ha cell (reaches_of_handle ho hc)
  · intro hw cell hc
    exact hw.reaches (closed_apart h kept) hc cell ⟨[], leadsTo_nil.mpr rfl⟩

end Value

/-! ## Calls elsewhere -/

/-- A call goes through a handle of something that is apart from a value, and stores something that
is apart from it. -/
def CellCall.Avoids (kept : Value) (h : Heap) : CellCall → Prop
  | .make value => value.Apart h kept
  | .write cell value => (∃ w : Value, w.Apart h kept ∧ w.Reaches h cell) ∧ value.Apart h kept

theorem CellCall.Avoids.stored {kept : Value} {h : Heap} {call : CellCall}
    (ha : call.Avoids kept h) : call.stored.Apart h kept := by
  cases call with
  | make value => exact ha
  | write cell value => exact ha.2

/-- Each of some calls goes elsewhere than to a value. -/
def Heap.Avoids (kept : Value) : Heap → List CellCall → Prop
  | _, [] => True
  | h, call :: rest => call.Avoids kept h ∧ Avoids kept (h.callCell call) rest

/-- A value is as it was, with the cells that it had and apart from what it was apart from. -/
structure Value.Stays (kept : Value) (h h' : Heap) : Prop where
  /-- The contents are the same. -/
  contents : kept.contents? h' = kept.contents? h
  /-- No cell is reached that was not. -/
  reaches : ∀ cell, kept.Reaches h' cell ↔ kept.Reaches h cell
  /-- What was apart is still apart. -/
  apart : ∀ w : Value, w.Apart h kept → w.Apart h' kept

namespace Value.Stays

variable {h h' h'' : Heap} {kept : Value}

theorem refl (kept : Value) (h : Heap) : kept.Stays h h := ⟨rfl, fun _ => .rfl, fun _ ha => ha⟩

theorem trans (hs : kept.Stays h h') (hs' : kept.Stays h' h'') : kept.Stays h h'' where
  contents := hs'.contents.trans hs.contents
  reaches cell := (hs'.reaches cell).trans (hs.reaches cell)
  apart w ha := hs'.apart w (hs.apart w ha)

/-- The step: a value with contents stays when a call goes elsewhere. -/
theorem callCell {x : Contents} (hx : kept.contents? h = some x) {call : CellCall}
    (ha : call.Avoids kept h) : kept.Stays h (h.callCell call) := by
  have hwithin := kept.within_reaches h
  have hclosed := kept.closed_reaches h
  have hagree : ∀ cell, kept.Reaches h cell →
      (h.callCell call).read? cell = h.read? cell := by
    intro cell hc
    cases call with
    | make value =>
      obtain ⟨path, hpath⟩ := hc
      exact Heap.read?_alloc_of_lt value
        (has_of_mem_footprintWithin hx cell (hpath.mem_footprintWithin hx))
    | write target value =>
      obtain ⟨⟨w, hw, htarget⟩, -⟩ := ha
      exact Heap.read?_write_of_ne value fun heq => hw cell (heq ▸ htarget) hc
  have hreaches : ∀ cell, kept.Reaches (h.callCell call) cell ↔ kept.Reaches h cell := by
    intro cell
    simp only [Reaches, LeadsTo, hwithin.follow_frame hclosed hagree]
  refine ⟨?_, hreaches, fun w hw cell hcell hkept => ?_⟩
  · rw [hx]
    refine (contents?_frame hx (fun cell hc => hagree cell ?_) (h.size_le_callCell call)).1
    exact hwithin.footprintWithin hclosed h.size cell hc
  · -- What is apart lies in a region that the stored value does not lead out of.
    have hregion : (h.callCell call).Closed fun cell => (shared cell).Apart h kept := by
      intro outer u ho hr
      rcases Heap.read?_callCell hr with hold | rfl
      · exact closed_apart h kept outer u ho hold
      · exact apart_iff_within.mp ha.stored
    have hin := (apart_iff_within.mp hw).reaches hregion hcell
    exact hin cell ⟨[], leadsTo_nil.mpr rfl⟩ ((hreaches cell).mp hkept)

/-- The run: any number of calls that go elsewhere. -/
theorem callCells {x : Contents} (hx : kept.contents? h = some x) {calls : List CellCall}
    (ha : h.Avoids kept calls) : kept.Stays h (h.callCells calls) := by
  induction calls generalizing h with
  | nil => exact .refl kept h
  | cons call rest ih =>
    have hstep := callCell hx ha.1
    exact hstep.trans (ih (hstep.contents.trans hx) ha.2)

end Value.Stays

/-! ## Copies -/

namespace Value

/-- A copy is detached from all that was there before. -/
structure Detached (h h' : Heap) (v copy : Value) : Prop where
  /-- Every cell of the copy is new, and on one path. -/
  fresh : ∀ cell, copy.Reaches h' cell → ¬ h.Has cell ∧ ∃! path, copy.LeadsTo h' path cell
  /-- Every cell that was there holds what it held. -/
  le : h ≤ h'
  /-- What was there has no cell in common with the copy. -/
  apart : ∀ w : Value, w.Within h.Has → w.Apart h' copy
  /-- The copy has the contents that its source had and still has. -/
  contents : ∃ x, v.contents? h = some x ∧ v.contents? h' = some x ∧ copy.contents? h' = some x
  /-- The copy stays when calls go elsewhere. -/
  copy_stays : ∀ calls, h'.Avoids copy calls → copy.Stays h' (h'.callCells calls)
  /-- The source stays when calls go elsewhere, to the copy for instance. -/
  source_stays : ∀ calls, h'.Avoids v calls → v.Stays h' (h'.callCells calls)

theorem detached_of_copy {h h' : Heap} (hclosed : h.Closed h.Has) {v copy : Value}
    (hv : v.Within h.Has) (hok : v.copy h = .ok (copy, h')) : Detached h h' v copy := by
  obtain ⟨x, hx, -, hle, hcopy, -⟩ := copy_eq_ok hclosed hv hok
  have hcopies := copies_of_copy hclosed hv hok
  have hm := List.mem_singleton_self copy
  have hlater := (contents?_of_le hx hle).1
  have hnew : ∀ cell, copy.Reaches h' cell → ¬ h.Has cell := fun cell hc =>
    Heap.not_has_of_mem_fresh ((hcopies.within hm).reaches hcopies.closed_fresh hc)
  refine ⟨fun cell hc => ⟨hnew cell hc, ?_⟩, hle, fun w hw cell hc hcopied => ?_,
    ⟨x, hx, hlater, hcopy⟩, fun calls => .callCells hcopy, fun calls => .callCells hlater⟩
  · obtain ⟨path, hpath⟩ := hc
    exact ⟨path, hpath, fun other hother => (hcopies.isTree hm).leadsTo_unique hother hpath⟩
  · exact hnew cell hcopied (hw.reaches (hclosed.of_le (fun _ hi => hi) hle) hc)

end Value

/-- In a heap without cycles and loose handles, a value that holds no payload has a copy, and the
copy is detached. -/
theorem Heap.Acyclic.copies_detached {h : Heap} (hacyclic : h.Acyclic) (hclosed : h.Closed h.Has)
    {v : Value} (hv : v.Within h.Has) (hnone : ∀ payload, ¬ v.Holds h payload) :
    ∃ copy h', v.copy h = .ok (copy, h') ∧ v.Detached h h' copy := by
  have hends := Value.copyResult_copy hclosed hv
  cases hcopy : v.copy h with
  | ok result => exact ⟨result.1, result.2, rfl, Value.detached_of_copy hclosed hv hcopy⟩
  | error e =>
    rw [hcopy] at hends
    cases hends with
    | payload hw hfirst =>
      subst hw
      exact absurd hfirst.holds (hnone _)
    | endless hw hcycle =>
      subst hw
      exact absurd (Value.grounded_of_acyclic hacyclic _) hcycle

/-- A heap with one cell. -/
def Heap.single : Heap := ⟨#[.plain (.int 1)], 0⟩

/-- A list that names the cell twice. -/
def Value.twice : Value := .list [.shared ⟨0⟩, .shared ⟨0⟩]

/-- The copy of the list has two cells, and holds what it held when the cell of the list does not
any more. -/
theorem Heap.copies_detached_twice :
    single.Acyclic ∧ single.Closed single.Has ∧ Value.twice.Within single.Has ∧
      (∀ payload, ¬ Value.twice.Holds single payload) ∧
      ∃ copy h', Value.twice.copy single = .ok (copy, h') ∧ Value.twice.Detached single h' copy ∧
        copy.LeadsTo h' [0] ⟨1⟩ ∧ copy.LeadsTo h' [1] ⟨2⟩ ∧
        h'.Avoids copy [.write ⟨0⟩ (.plain (.int 2)), .make (.shared ⟨0⟩)] ∧
        copy.contents? (h'.callCells [.write ⟨0⟩ (.plain (.int 2)), .make (.shared ⟨0⟩)]) =
          some (.list [.cell (.plain (.int 1)), .cell (.plain (.int 1))]) ∧
        Value.twice.contents?
            (h'.callCells [.write ⟨0⟩ (.plain (.int 2)), .make (.shared ⟨0⟩)]) =
          some (.list [.cell (.plain (.int 2)), .cell (.plain (.int 2))]) := by
  have hlt : ∀ cell v, single.read? cell = some v →
      v.Within fun inner => inner.index < cell.index := by
    rintro ⟨_ | i⟩ v hr <;> cases hr
    simp [single]
  have hacyclic : single.Acyclic := acyclic_of_lt hlt
  have hclosed : single.Closed single.Has := closed_of_lt hlt
  have hzero : (Value.shared ⟨0⟩).Within single.Has := by simp [Has, single, size]
  have hwithin : Value.twice.Within single.Has := by
    simp [Value.twice, Has, single, size]
  have hnone : ∀ payload, ¬ Value.twice.Holds single payload :=
    Value.not_holds_of_obstacle (rfl : Value.twice.obstacle single = none)
  obtain ⟨copy, h', hcopy, hdetached⟩ := hacyclic.copies_detached hclosed hwithin hnone
  have hplain : (Value.plain (.int 2)).Apart h' copy := by
    refine Value.apart_iff_within.mpr ?_
    simp
  have hwrite : (CellCall.write ⟨0⟩ (.plain (.int 2))).Avoids copy h' :=
    ⟨⟨_, hdetached.apart _ hzero, [], rfl⟩, hplain⟩
  have hcalls : h'.Avoids copy [.write ⟨0⟩ (.plain (.int 2)), .make (.shared ⟨0⟩)] :=
    ⟨hwrite, (hdetached.copy_stays [_] ⟨hwrite, trivial⟩).apart _ (hdetached.apart _ hzero),
      trivial⟩
  have hstays := (hdetached.copy_stays _ hcalls).contents
  cases hcopy
  exact ⟨hacyclic, hclosed, hwithin, hnone, _, _, rfl, hdetached, rfl, rfl, hcalls, hstays, rfl⟩

end OverlayStore
