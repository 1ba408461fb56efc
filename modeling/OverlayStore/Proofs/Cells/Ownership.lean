import OverlayStore.Proofs.Cells.Copy

/-!
# Ownership of cells

Every cell is open or belongs to one slot, that is to one key of one transaction. What a cell holds
belongs where the cell does, the values that can be seen from outside are open, and the value of a
slot is a tree of cells of the slot. Copying, writing through open handles and giving up slots keep
this, so no path from outside ever enters a slot.
-/

namespace OverlayStore

/-- Where a value is held: the place of a transaction and one of its keys. -/
abbrev Slot : Type := Nat × String

/-- A value that can be copied and that reaches every cell by one path. -/
structure Value.IsTree (h : Heap) (v : Value) : Prop where
  /-- The value has contents, and they reach no foreign payload. -/
  contents : ∃ x, v.contents? h = some x ∧ x.PayloadFree
  /-- No cell is listed twice. -/
  nodup : (v.footprint h).Nodup

namespace Value.IsTree

variable {h h' : Heap} {v : Value}

/-- A tree stays what it is in a heap that agrees on its cells. -/
theorem frame (ht : v.IsTree h) (hagree : ∀ cell ∈ v.footprint h, h'.read? cell = h.read? cell)
    (hle : h.size ≤ h'.size) : v.IsTree h' := by
  obtain ⟨x, hx, hfree⟩ := ht.contents
  obtain ⟨hx', hfoot⟩ := contents?_frame hx hagree hle
  exact ⟨⟨x, hx', hfree⟩, hfoot ▸ ht.nodup⟩

theorem mono (ht : v.IsTree h) (hle : h ≤ h') : v.IsTree h' := by
  obtain ⟨x, hx, -⟩ := ht.contents
  exact ht.frame (fun cell hc => hle.2 cell (has_of_mem_footprintWithin hx cell hc)) hle.1

/-- One path leads to every cell of a tree. -/
theorem leadsTo_unique (ht : v.IsTree h) {path other : List Nat} {cell : Cell}
    (hpath : v.LeadsTo h path cell) (hother : v.LeadsTo h other cell) : path = other := by
  obtain ⟨x, hx, -⟩ := ht.contents
  exact LeadsTo.unique hx ht.nodup hpath hother

end Value.IsTree

/-- Every copy is a tree. -/
theorem Copies.isTree {h h' : Heap} {vs : List Value} (hc : Copies h h' vs) {v : Value}
    (hm : v ∈ vs) : v.IsTree h' := ⟨hc.contents v hm, hc.nodup hm⟩

/-- The values outside the slots, the values of the slots, and who owns which cell. -/
structure Ownership (h : Heap) (roots : Value → Prop) (held : Slot → Option Value)
    (owner : Cell → Option Slot) : Prop where
  /-- An owned cell is a cell of the heap. -/
  has : ∀ cell slot, owner cell = some slot → h.Has cell
  /-- What a cell holds belongs where the cell does. -/
  inside : ∀ cell v, h.read? cell = some v →
    v.Within fun inner => h.Has inner ∧ owner inner = owner cell
  /-- What can be seen from outside is open. -/
  root : ∀ v, roots v → v.Within fun cell => h.Has cell ∧ owner cell = none
  /-- What a slot holds belongs to the slot. -/
  slot : ∀ slot v, held slot = some v → v.Within fun cell => h.Has cell ∧ owner cell = some slot
  /-- What a slot holds is a tree. -/
  tree : ∀ slot v, held slot = some v → v.IsTree h

namespace Ownership

variable {h h' : Heap} {roots roots' : Value → Prop} {held held' : Slot → Option Value}
  {owner : Cell → Option Slot} {slot : Slot} {v w : Value} {cell : Cell}

/-! ## What ownership tells about paths -/

/-- The cells of one owner are a closed region. -/
theorem closed_owner (ho : Ownership h roots held owner) (who : Option Slot) :
    h.Closed fun cell => h.Has cell ∧ owner cell = who := by
  intro cell v hc hr
  exact (ho.inside cell v hr).mono fun inner hi => ⟨hi.1, hi.2.trans hc.2⟩

/-- There are no loose handles. -/
theorem closed_has (ho : Ownership h roots held owner) : h.Closed h.Has :=
  fun cell v _ hr => (ho.inside cell v hr).mono fun _ hi => hi.1

theorem has_of_held (ho : Ownership h roots held owner) (hv : held slot = some v) :
    v.Within h.Has :=
  (ho.slot slot v hv).mono fun _ hi => hi.1

/-- Every path from outside stays in the open. -/
theorem owner_of_root_reaches (ho : Ownership h roots held owner) (hv : roots v)
    (hr : v.Reaches h cell) : owner cell = none :=
  ((ho.root v hv).reaches (ho.closed_owner none) hr).2

/-- Every path from a slot stays in the slot. -/
theorem owner_of_held_reaches (ho : Ownership h roots held owner) (hv : held slot = some v)
    (hr : v.Reaches h cell) : owner cell = some slot :=
  ((ho.slot slot v hv).reaches (ho.closed_owner (some slot)) hr).2

/-- The cells of a tree in a slot belong to the slot. -/
theorem owner_of_mem_footprint (ho : Ownership h roots held owner) (hv : held slot = some v)
    (hc : cell ∈ v.footprint h) : owner cell = some slot :=
  ((ho.slot slot v hv).footprintWithin (ho.closed_owner (some slot)) h.size cell hc).2

/-- No owned cell is lost or changed. -/
def Spares (owner : Cell → Option Slot) (h h' : Heap) : Prop :=
  h.size ≤ h'.size ∧ ∀ cell slot, owner cell = some slot → h'.read? cell = h.read? cell

/-- Growth spares what is owned. -/
theorem spares_of_le (ho : Ownership h roots held owner) (hle : h ≤ h') : Spares owner h h' :=
  ⟨hle.1, fun cell slot hc => hle.2 cell (ho.has cell slot hc)⟩

/-- Every slot shows the same contents as long as the owned cells are spared. -/
theorem contents_held (ho : Ownership h roots held owner) (hv : held slot = some v)
    (hspares : Spares owner h h') {x : Contents} (hx : v.contents? h = some x) :
    v.contents? h' = some x :=
  (Value.contents?_frame hx
    (fun cell hc => hspares.2 cell slot (ho.owner_of_mem_footprint hv hc)) hspares.1).1

/-! ## Moves that keep ownership -/

/-- A cell that the heap has not is open. -/
theorem owner_of_not_has (ho : Ownership h roots held owner) (hc : ¬ h.Has cell) :
    owner cell = none :=
  Option.eq_none_iff_forall_ne_some.mpr fun slot hs => hc (ho.has cell slot hs)

/-- The cells that are open as soon as slots are given up. -/
def OpenAfter (h : Heap) (owner : Cell → Option Slot) (given : Slot → Bool) (cell : Cell) : Prop :=
  h.Has cell ∧ ∀ slot, owner cell = some slot → given slot = true

theorem openAfter_of_root (ho : Ownership h roots held owner) (hv : roots v)
    (given : Slot → Bool) : v.Within (OpenAfter h owner given) :=
  (ho.root v hv).mono fun cell hi => ⟨hi.1, fun slot hs => by rw [hi.2] at hs; cases hs⟩

theorem openAfter_of_held (ho : Ownership h roots held owner) (hv : held slot = some v)
    {given : Slot → Bool} (hgiven : given slot = true) : v.Within (OpenAfter h owner given) := by
  refine (ho.slot slot v hv).mono fun cell hi => ⟨hi.1, fun other hs => ?_⟩
  rw [hi.2] at hs
  exact Option.some.inj hs ▸ hgiven

/-- Slots are given up: what they held may be seen from outside from now on. -/
theorem release (ho : Ownership h roots held owner) (given : Slot → Bool)
    (hroots : ∀ v, roots' v → v.Within (OpenAfter h owner given))
    (hheld : ∀ slot v, held' slot = some v → given slot = false ∧ held slot = some v) :
    Ownership h roots' held' fun cell => (owner cell).filter fun slot => !given slot where
  has cell slot hc := ho.has cell slot (Option.filter_eq_some_iff.mp hc).1
  inside cell v hr := (ho.inside cell v hr).mono fun inner hi => ⟨hi.1, by rw [hi.2]⟩
  root v hv := by
    refine (hroots v hv).mono fun cell hi => ⟨hi.1, ?_⟩
    rw [Option.filter_eq_none_iff]
    intro slot hs
    simp [hi.2 slot hs]
  slot slot v hv := by
    obtain ⟨hkept, hv⟩ := hheld slot v hv
    exact (ho.slot slot v hv).mono fun cell hi => ⟨hi.1, by simp [hi.2, hkept]⟩
  tree slot v hv := ho.tree slot v (hheld slot v hv).2

/-- Values over open cells may be seen from outside, and slots may be forgotten. -/
theorem weaken (ho : Ownership h roots held owner)
    (hroots : ∀ v, roots' v → v.Within fun cell => h.Has cell ∧ owner cell = none)
    (hheld : ∀ slot v, held' slot = some v → held slot = some v) :
    Ownership h roots' held' owner where
  has := ho.has
  inside := ho.inside
  root := hroots
  slot slot v hv := ho.slot slot v (hheld slot v hv)
  tree slot v hv := ho.tree slot v (hheld slot v hv)

/-- The heap grows, and its new cells are open. -/
theorem grow (ho : Ownership h roots held owner) (hle : h ≤ h')
    (hnew : ∀ cell v, ¬ h.Has cell → h'.read? cell = some v →
      v.Within fun inner => h'.Has inner ∧ owner inner = none) :
    Ownership h' roots held owner where
  has cell slot hc := (ho.has cell slot hc).mono hle
  inside cell v hr := by
    by_cases hold : h.Has cell
    · exact (ho.inside cell v ((hle.2 cell hold).symm.trans hr)).mono fun inner hi =>
        ⟨hi.1.mono hle, hi.2⟩
    · rw [ho.owner_of_not_has hold]
      exact hnew cell v hold hr
  root v hv := (ho.root v hv).mono fun cell hi => ⟨hi.1.mono hle, hi.2⟩
  slot slot v hv := (ho.slot slot v hv).mono fun cell hi => ⟨hi.1.mono hle, hi.2⟩
  tree slot v hv := (ho.tree slot v hv).mono hle

/-- Copies are handed out. -/
theorem handOut (ho : Ownership h roots held owner) {vs : List Value} (hc : Copies h h' vs) :
    Ownership h' (fun v => v ∈ vs ∨ roots v) held owner := by
  have hopen : ∀ cell ∈ h.fresh h', h'.Has cell ∧ owner cell = none := fun cell hm =>
    ⟨(Heap.mem_fresh.mp hm).2, ho.owner_of_not_has (Heap.not_has_of_mem_fresh hm)⟩
  have hgrown : Ownership h' roots held owner := by
    refine ho.grow hc.le fun cell v hold hr => ?_
    have hm : cell ∈ h.fresh h' :=
      Heap.mem_fresh.mpr ⟨Nat.le_of_not_lt hold, Heap.has_of_read? hr⟩
    exact (hc.closed_fresh cell v hm hr).mono hopen
  refine hgrown.weaken (fun v hv => ?_) fun _ _ hv => hv
  rcases hv with hv | hv
  · exact (hc.within hv).mono hopen
  · exact hgrown.root v hv

/-- A copy is put into a slot, whose former value is gone. -/
theorem hold (ho : Ownership h roots held owner) (hc : Copies h h' [w]) (slot : Slot)
    (hheld : ∀ s v, held' s = some v → s = slot ∧ v = w ∨ held s = some v) :
    Ownership h' roots held' fun cell => if cell ∈ h.fresh h' then some slot else owner cell := by
  have hkept : ∀ cell who, h.Has cell ∧ owner cell = who →
      h'.Has cell ∧ (if cell ∈ h.fresh h' then some slot else owner cell) = who := by
    intro cell who hi
    have hm : cell ∉ h.fresh h' := fun hm => Heap.not_has_of_mem_fresh hm hi.1
    rw [if_neg hm]
    exact ⟨hi.1.mono hc.le, hi.2⟩
  have hfresh : ∀ cell ∈ h.fresh h',
      h'.Has cell ∧ (if cell ∈ h.fresh h' then some slot else owner cell) = some slot :=
    fun cell hm => ⟨(Heap.mem_fresh.mp hm).2, if_pos hm⟩
  refine ⟨fun cell s hs => ?_, fun cell v hr => ?_, fun v hv => ?_, fun s v hv => ?_,
    fun s v hv => ?_⟩
  · split at hs
    next hm => exact (hfresh cell hm).1
    next => exact (ho.has cell s hs).mono hc.le
  · by_cases hm : cell ∈ h.fresh h'
    · rw [if_pos hm]
      exact (hc.closed_fresh cell v hm hr).mono hfresh
    · have hold : h.Has cell := by
        by_contra hnot
        exact hm (Heap.mem_fresh.mpr ⟨Nat.le_of_not_lt hnot, Heap.has_of_read? hr⟩)
      rw [if_neg hm]
      exact (ho.inside cell v ((hc.le.2 cell hold).symm.trans hr)).mono fun inner hi =>
        hkept inner (owner cell) hi
  · exact (ho.root v hv).mono fun cell hi => hkept cell none hi
  · rcases hheld s v hv with ⟨rfl, rfl⟩ | hv
    · exact (hc.within (List.mem_singleton_self v)).mono hfresh
    · exact (ho.slot s v hv).mono fun cell hi => hkept cell (some s) hi
  · rcases hheld s v hv with ⟨rfl, rfl⟩ | hv
    · exact hc.isTree (List.mem_singleton_self v)
    · exact (ho.tree s v hv).mono hc.le

/-- An open value is written to an open cell. -/
theorem write (ho : Ownership h roots held owner) (hcell : owner cell = none)
    (hv : v.Within fun inner => h.Has inner ∧ owner inner = none) :
    Ownership (h.write cell v) roots held owner := by
  have hhas : ∀ inner, h.Has inner → (h.write cell v).Has inner := fun inner hi => by
    rw [Heap.Has, Heap.size_write]
    exact hi
  refine ⟨fun inner s hs => hhas inner (ho.has inner s hs), fun outer w hr => ?_,
    fun w hw => (ho.root w hw).mono fun inner hi => ⟨hhas inner hi.1, hi.2⟩,
    fun s w hw => (ho.slot s w hw).mono fun inner hi => ⟨hhas inner hi.1, hi.2⟩,
    fun s w hw => ?_⟩
  · by_cases heq : cell = outer
    · subst heq
      have hin : cell.index < h.size := by
        have hlt := Heap.has_of_read? hr
        rwa [Heap.Has, Heap.size_write] at hlt
      rw [Heap.read?_write_self v hin] at hr
      cases hr
      rw [hcell]
      exact hv.mono fun inner hi => ⟨hhas inner hi.1, hi.2⟩
    · rw [Heap.read?_write_of_ne v heq] at hr
      exact (ho.inside outer w hr).mono fun inner hi => ⟨hhas inner hi.1, hi.2⟩
  · refine (ho.tree s w hw).frame (fun inner hi => Heap.read?_write_of_ne v ?_) ?_
    · rintro rfl
      have howned := ho.owner_of_mem_footprint hw hi
      rw [hcell] at howned
      cases howned
    · rw [Heap.size_write]

end Ownership

end OverlayStore
