import OverlayStore.Proofs.Cells.Payloads

/-!
# Faithful copies

A deep copy has the contents of its source at every depth, and can be copied again. It has only new
cells, so the short cut by which a cell equals itself is never taken between a copy and its source:
they are equal if and only if no float that is reached differs from itself.
-/

namespace OverlayStore

namespace Value

/-! ## Copies made later -/

/-- A value stands for another one of an earlier heap, which has a copy: their contents are the
same. -/
def IsCopy (base h : Heap) (copy v : Value) : Prop :=
  ∃ x, v.contents? base = some x ∧ x.PayloadFree ∧ copy.contents? h = some x

theorem IsCopy.mono {base h h' : Heap} {copy v : Value} (hc : IsCopy base h copy v) (hle : h ≤ h') :
    IsCopy base h' copy v := by
  obtain ⟨x, hx, hfree, hcopy⟩ := hc
  exact ⟨x, hx, hfree, (contents?_of_le hcopy hle).1⟩

/-- A value has a copy as soon as it has one after the heap has grown. -/
theorem exists_copy_of_le {base h : Heap} (hclosed : base.Closed base.Has) {v : Value}
    (hv : v.Within base.Has) (hle : base ≤ h) {result : Value × Heap}
    (hok : v.copy h = .ok result) : ∃ result', v.copy base = .ok result' := by
  have hnow := meets_copy hclosed hv (le_refl base)
  have hlater := meets_copy hclosed hv hle
  rw [hok] at hlater
  -- Whether there is an obstacle does not depend on the heap.
  generalize v.obstacle base = obstacle at hnow hlater
  cases hlater with
  | ok =>
    generalize v.copy base = now at hnow
    cases hnow with
    | ok => exact ⟨_, rfl⟩

/-- A copy of a value of an earlier heap, out of new cells. -/
structure Made (base h : Heap) (copy v : Value) : Prop where
  /-- The contents are the same. -/
  isCopy : IsCopy base h copy v
  /-- The cells were not there before. -/
  fresh : ∀ cell ∈ copy.footprint h, ¬ base.Has cell

theorem Made.mono {base h h' : Heap} {copy v : Value} (hm : Made base h copy v) (hle : h ≤ h') :
    Made base h' copy v := by
  obtain ⟨x, -, -, hcopy⟩ := hm.isCopy
  refine ⟨hm.isCopy.mono hle, ?_⟩
  rw [(contents?_of_le hcopy hle).2]
  exact hm.fresh

theorem made_of_copy {base h h' : Heap} (hclosed : base.Closed base.Has) {v copy : Value}
    (hv : v.Within base.Has) (hle : base ≤ h) (hok : v.copy h = .ok (copy, h')) :
    h ≤ h' ∧ Made base h' copy v := by
  obtain ⟨⟨first, h₁⟩, hfirst⟩ := exists_copy_of_le hclosed hv hle hok
  obtain ⟨x, hx, hfree, -, -, -⟩ := copy_eq_ok hclosed hv hfirst
  obtain ⟨second, h₂, hsecond, hle₂, hcontents, hfoot⟩ :=
    exists_copy (contents?_of_le hx hle).1 hfree
  rw [hok] at hsecond
  cases hsecond
  refine ⟨hle₂, ⟨x, hx, hfree, hcontents⟩, fun cell hc hold => ?_⟩
  rw [hfoot] at hc
  exact Heap.not_has_of_mem_fresh hc (hold.mono hle)

/-! ## Leaves and paths -/

/-- Plain data or a payload as a value. -/
def ofLeaf : Plain ⊕ Foreign → Value := Sum.elim .plain .foreign

theorem ofLeaf_injective : Function.Injective ofLeaf := by
  rintro (a | a) (b | b) heq <;> cases heq <;> rfl

/-- A path to something else goes through a part. -/
private theorem exists_follow_iff {h : Heap} {v w : Value} (hne : v ≠ w) :
    (∃ path, v.follow h path = some w) ↔
      ∃ part ∈ v.parts h, ∃ path, part.follow h path = some w := by
  constructor
  · rintro ⟨_ | ⟨i, path⟩, hpath⟩
    · exact absurd (Option.some.inj hpath) hne
    · obtain ⟨part, hpart, hrest⟩ := Option.bind_eq_some_iff.mp hpath
      exact ⟨part, List.mem_of_getElem? hpart, path, hrest⟩
  · rintro ⟨part, hpart, path, hpath⟩
    obtain ⟨i, hget⟩ := List.mem_iff_getElem?.mp hpart
    exact ⟨i :: path, follow_of_getElem? hget hpath⟩

private theorem exists_mem_iff_of_forall₂ {α γ : Type} {shows : α → γ → Prop} {p : α → Prop}
    {q : γ → Prop} {as : List α} {xs : List γ} (hf : List.Forall₂ shows as xs)
    (hpq : ∀ a ∈ as, ∀ x, shows a x → (q x ↔ p a)) : (∃ x ∈ xs, q x) ↔ ∃ a ∈ as, p a := by
  induction hf with
  | nil => simp
  | cons hx hrest ih =>
    rw [List.forall_mem_cons] at hpq
    rw [List.exists_mem_cons_iff, List.exists_mem_cons_iff, hpq.1 _ hx, ih hpq.2]

/-- A leaf leads to itself and to nothing else. -/
private theorem exists_follow_ofLeaf_iff {h : Heap} {leaf other : Plain ⊕ Foreign} :
    (∃ path, (ofLeaf leaf).follow h path = some (ofLeaf other)) ↔ other = leaf := by
  constructor
  · rintro ⟨_ | ⟨i, path⟩, hpath⟩
    · exact (ofLeaf_injective (Option.some.inj hpath)).symm
    · cases leaf <;> cases hpath
  · rintro rfl
    exact ⟨[], rfl⟩

/-- If the leaves of what cells show are what paths from there lead to, then so are the leaves of
what values show. -/
private theorem mem_leaves_iff_of_cells {h : Heap} {look : Cell → Option Contents}
    (hlook : ∀ cell y, look cell = some y → ∃ w, h.read? cell = some w ∧
      ∀ leaf, leaf ∈ y.leaves ↔ ∃ path, w.follow h path = some (ofLeaf leaf))
    {v : Value} {x : Contents} (hx : contentsWith look v = some x) (leaf : Plain ⊕ Foreign) :
    leaf ∈ x.leaves ↔ ∃ path, v.follow h path = some (ofLeaf leaf) := by
  induction v using Value.induction generalizing x with
  | plain data =>
    have hxp : x = .plain data := by simpa [contentsWith, eq_comm] using hx
    have hself : (plain data) = ofLeaf (.inl data) := rfl
    rw [hxp, Contents.leaves_plain, List.mem_singleton, hself, exists_follow_ofLeaf_iff]
  | foreign payload =>
    have hxp : x = .foreign payload := by simpa [contentsWith, eq_comm] using hx
    have hself : (foreign payload) = ofLeaf (.inr payload) := rfl
    rw [hxp, Contents.leaves_foreign, List.mem_singleton, hself, exists_follow_ofLeaf_iff]
  | shared cell =>
    obtain ⟨y, hy, rfl⟩ := Option.map_eq_some_iff.mp (by simpa only [contentsWith] using hx)
    obtain ⟨w, hw, hleaves⟩ := hlook cell y hy
    have hne : shared cell ≠ ofLeaf leaf := by cases leaf <;> simp [ofLeaf]
    rw [Contents.leaves_cell, hleaves, exists_follow_iff hne, parts, hw]
    simp
  | list items ih =>
    obtain ⟨xs, hxs, rfl⟩ := Option.map_eq_some_iff.mp (by simpa only [contentsWith] using hx)
    have hne : list items ≠ ofLeaf leaf := by cases leaf <;> simp [ofLeaf]
    rw [Contents.leaves_list, List.mem_flatMap, exists_follow_iff hne, parts]
    exact exists_mem_iff_of_forall₂ (itemContents_eq_some_iff.mp hxs) fun v hv y hy => ih v hv hy
  | map entries ih =>
    obtain ⟨xs, hxs, rfl⟩ := Option.map_eq_some_iff.mp (by simpa only [contentsWith] using hx)
    have hne : map entries ≠ ofLeaf leaf := by cases leaf <;> simp [ofLeaf]
    rw [Contents.leaves_map, List.mem_flatMap, exists_follow_iff hne, parts]
    simp only [List.mem_map, exists_exists_and_eq_and]
    exact exists_mem_iff_of_forall₂ (entryContents_eq_some_iff.mp hxs) fun e he y hy => ih e he hy.2

/-- The leaves of the contents of a value are what its paths lead to. -/
theorem mem_leaves_iff {h : Heap} {depth : Nat} {v : Value} {x : Contents}
    (hx : v.contentsWithin h depth = some x) (leaf : Plain ⊕ Foreign) :
    leaf ∈ x.leaves ↔ ∃ path, v.follow h path = some (ofLeaf leaf) := by
  induction depth generalizing v x leaf with
  | zero =>
    refine mem_leaves_iff_of_cells (fun cell y hy => ?_) (contentsWithin_eq h 0 v ▸ hx) leaf
    cases hy
  | succ depth ih =>
    refine mem_leaves_iff_of_cells (fun cell y hy => ?_)
      (contentsWithin_eq h (depth + 1) v ▸ hx) leaf
    obtain ⟨w, hw, hwy⟩ := Option.bind_eq_some_iff.mp hy
    exact ⟨w, hw, ih hwy⟩

/-- Contents equal themselves if and only if all plain data that paths lead to do. -/
theorem alike_self_iff_follow {h : Heap} {depth : Nat} {v : Value} {x : Contents}
    (hx : v.contentsWithin h depth = some x) :
    x.alike x = true ↔
      ∀ path data, v.follow h path = some (.plain data) → data.same data = true := by
  rw [Contents.alike_self_iff]
  constructor
  · intro hfree path data hpath
    rw [Plain.same_self, hfree data ((mem_leaves_iff hx (.inl data)).mpr ⟨path, hpath⟩)]
    rfl
  · intro hself data hmem
    obtain ⟨path, hpath⟩ := (mem_leaves_iff hx (.inl data)).mp hmem
    have hsame := hself path data hpath
    rwa [Plain.same_self, Bool.not_eq_true'] at hsame

/-! ## Faithful copies -/

/-- A copy does what its source did. -/
structure Faithful (h h' : Heap) (v copy : Value) : Prop where
  /-- It has the contents of its source at every depth, and the source keeps them. -/
  contents : ∃ x, v.contents? h = some x ∧ v.contents? h' = some x ∧ copy.contents? h' = some x
  /-- It can be copied again, with the same contents. -/
  again : ∃ next h'' x, copy.copy h' = .ok (next, h'') ∧ v.contents? h = some x ∧
    next.contents? h'' = some x
  /-- It can be compared with its source, and equals it unless a float is reached that differs from
  itself. -/
  equal : ∃ same, copy.same? h' v = some same ∧ (same = true ↔
    ∀ path data, v.follow h path = some (.plain data) → data.same data = true)

theorem Made.faithful {h h' : Heap} {v copy : Value} (hm : Made h h' copy v) (hle : h ≤ h') :
    Faithful h h' v copy := by
  obtain ⟨x, hx, hfree, hcopy⟩ := hm.isCopy
  obtain ⟨hlater, hfoot⟩ := contents?_of_le hx hle
  obtain ⟨next, h'', hnext, -, hcontents, -⟩ := exists_copy hcopy hfree
  refine ⟨⟨x, hx, hlater, hcopy⟩, ⟨next, h'', x, hnext, hx, hcontents⟩, x.alike x, ?_,
    alike_self_iff_follow hx⟩
  refine same?_eq_of_common hcopy hlater fun cell hnew hold => ?_
  rw [hfoot] at hold
  exact absurd (has_of_mem_footprintWithin hx cell hold) (hm.fresh cell hnew)

/-- How a value is copied: up to the first payload, or faithfully. -/
structure DeepCopy (h : Heap) (v : Value) : Prop where
  /-- It has no copy if and only if it holds a payload. -/
  fails : (∃ e, v.copy h = .error e) ↔ ∃ payload, v.Holds h payload
  /-- The error names the type of the first payload. -/
  first : ∀ e, v.copy h = .error e →
    ∃ payload, v.HoldsFirst h payload ∧ e = .foreign payload.typeName
  /-- A copy is faithful, and nothing that was there changes. -/
  faithful : ∀ copy h', v.copy h = .ok (copy, h') → h ≤ h' ∧ Faithful h h' v copy

theorem Grounded.deepCopy {h : Heap} (hclosed : h.Closed h.Has) {v : Value} (hv : v.Within h.Has)
    (hgrounded : v.Grounded h) : DeepCopy h v := by
  have hmade : ∀ copy h', v.copy h = .ok (copy, h') → h ≤ h' ∧ Faithful h h' v copy := by
    intro copy h' hok
    obtain ⟨hle, hmade⟩ := made_of_copy hclosed hv (le_refl h) hok
    exact ⟨hle, hmade.faithful hle⟩
  have hends := copyResult_copy hclosed hv
  generalize hresult : v.copy h = result at hends
  cases hends with
  | ok copied hnone =>
    refine ⟨iff_of_false ?_ fun ⟨payload, hp⟩ => hnone v payload rfl hp, ?_, hmade⟩
    · rintro ⟨e, he⟩
      cases hresult.symm.trans he
    · intro e he
      cases hresult.symm.trans he
  | @payload _ payload hv hfirst =>
    cases hv
    refine ⟨iff_of_true ⟨_, hresult⟩ ⟨payload, hfirst.holds⟩, fun e he => ?_, hmade⟩
    cases hresult.symm.trans he
    exact ⟨payload, hfirst, rfl⟩
  | endless hv hcycle =>
    cases hv
    exact absurd hgrounded hcycle

/-! ## Lists of optional values -/

/-- How a list of optional values is copied: up to the first payload of the first value that holds
any, or faithfully value by value. -/
structure DeepCopies (h : Heap) (items : List (Option Value)) : Prop where
  /-- The list has no copy if and only if one of the values holds a payload. -/
  fails : (∃ e, Copyable.copy h items = .error e) ↔
    ∃ v payload, some v ∈ items ∧ v.Holds h payload
  /-- The error names the type of the first payload. -/
  first : ∀ e, Copyable.copy h items = .error e → ∃ before v after payload,
    items = before ++ some v :: after ∧ (∀ w q, some w ∈ before → ¬ w.Holds h q) ∧
      v.HoldsFirst h payload ∧ e = .foreign payload.typeName
  /-- A copy is faithful value by value, and nothing that was there changes. -/
  faithful : ∀ copies h', Copyable.copy h items = .ok (copies, h') →
    h ≤ h' ∧ List.Forall₂ (Option.Rel (Faithful h h')) items copies

theorem copyOption_eq_map {α : Type} [Copyable α] (h : Heap) (a : α) :
    Copyable.copyOption h (some a) = (Copyable.copy h a).map (Prod.map some id) := by
  rw [Copyable.copyOption]
  cases Copyable.copy h a <;> rfl

variable {h : Heap} {items : List (Option Value)}

/-- A list of optional values fails on the obstacle of the first value that has one. -/
private theorem meets_copyOptions (hclosed : h.Closed h.Has)
    (hitems : ∀ v, some v ∈ items → v.Within h.Has) :
    Meets h (items.findSome? fun item => item.bind (obstacle h)) (Copyable.copy h items) := by
  have hlist : Copyable.copy h items =
      copyEach (fun item h => Copyable.copyOption h item) items h := Copyable.copyList_eq h items
  rw [hlist]
  refine meets_copyEach (fun item hi later hle => ?_) (le_refl h)
  cases item with
  | none => exact .ok hle
  | some v =>
    rw [copyOption_eq_map]
    exact (meets_copy hclosed (hitems v hi) hle).map some

private theorem forall₂_faithful (hclosed : h.Closed h.Has)
    (hitems : ∀ v, some v ∈ items → v.Within h.Has) {copies : List (Option Value)} {h' : Heap}
    (hok : Copyable.copy h items = .ok (copies, h')) :
    h ≤ h' ∧ List.Forall₂ (Option.Rel (Faithful h h')) items copies := by
  have hlist : copyEach (fun item h => Copyable.copyOption h item) items h = .ok (copies, h') :=
    (Copyable.copyList_eq h items).symm.trans hok
  have hmono : ∀ h₁ h₂ copy item, h₁ ≤ h₂ → Option.Rel (Made h h₁) copy item →
      Option.Rel (Made h h₂) copy item := by
    intro h₁ h₂ copy item hle hm
    cases hm with
    | none => exact .none
    | some hm => exact .some (hm.mono hle)
  have hmember : ∀ item ∈ items, ∀ h₁ copy h₂, h ≤ h₁ →
      Copyable.copyOption h₁ item = .ok (copy, h₂) →
      h₁ ≤ h₂ ∧ Option.Rel (Made h h₂) copy item := by
    intro item hi h₁ copy h₂ hle hcopy
    cases item with
    | none =>
      cases hcopy
      exact ⟨le_refl _, .none⟩
    | some v =>
      rw [copyOption_eq_map, built_eq_ok_iff] at hcopy
      obtain ⟨made, hok, rfl⟩ := hcopy
      obtain ⟨hle', hm⟩ := made_of_copy hclosed (hitems v hi) hle hok
      exact ⟨hle', .some hm⟩
  obtain ⟨hle, hmade⟩ := copyEach_forall₂ (fun h' => Option.Rel (Made h h')) hmono hmember
    (le_refl h) hlist
  refine ⟨hle, hmade.flip.imp fun item copy hm => ?_⟩
  cases hm with
  | none => exact .none
  | some hm => exact .some (hm.faithful hle)

theorem deepCopies (hclosed : h.Closed h.Has) (hitems : ∀ v, some v ∈ items → v.Within h.Has)
    (hgrounded : ∀ v, some v ∈ items → v.Grounded h) : DeepCopies h items := by
  have hmade : ∀ copies h', Copyable.copy h items = .ok (copies, h') → _ :=
    fun _ _ => forall₂_faithful hclosed hitems
  have hmeets := meets_copyOptions hclosed hitems
  cases hfind : items.findSome? fun item => item.bind (obstacle h) with
  | none =>
    rw [hfind] at hmeets
    generalize hresult : Copyable.copy h items = result at hmeets
    rw [List.findSome?_eq_none_iff] at hfind
    cases hmeets with
    | ok =>
      refine ⟨iff_of_false ?_ ?_, ?_, hmade⟩
      · rintro ⟨e, he⟩
        cases hresult.symm.trans he
      · rintro ⟨v, payload, hv, hp⟩
        exact not_holds_of_obstacle (hfind (some v) hv) payload hp
      · intro e he
        cases hresult.symm.trans he
  | some e =>
    rw [hfind] at hmeets
    generalize hresult : Copyable.copy h items = result at hmeets
    obtain ⟨before, item, after, rfl, hitem, hbefore⟩ := List.findSome?_eq_some_iff.mp hfind
    obtain ⟨v, rfl, hv⟩ := Option.bind_eq_some_iff.mp hitem
    have hm : some v ∈ before ++ some v :: after := by simp
    have hobstructs := obstructs_obstacle hclosed (hitems v hm)
    rw [hv] at hobstructs
    cases hobstructs with
    | endless hcycle => exact absurd (hgrounded v hm) hcycle
    | @payload payload hfirst =>
      cases hmeets with
      | error =>
        refine ⟨iff_of_true ⟨_, hresult⟩ ⟨v, payload, hm, hfirst.holds⟩, fun e he => ?_, hmade⟩
        cases hresult.symm.trans he
        exact ⟨before, v, after, payload, rfl,
          fun w q hw => not_holds_of_obstacle (hbefore (some w) hw) q, hfirst, rfl⟩

end Value

/-- In a heap without cycles and loose handles, values and lists of optional values are copied up to
the first payload, or faithfully. -/
theorem Heap.Acyclic.copies_faithfully {h : Heap} (hacyclic : h.Acyclic)
    (hclosed : h.Closed h.Has) :
    (∀ v : Value, v.Within h.Has → v.DeepCopy h) ∧
      ∀ items : List (Option Value), (∀ v, some v ∈ items → v.Within h.Has) →
        Value.DeepCopies h items :=
  ⟨fun v hv => (Value.grounded_of_acyclic hacyclic v).deepCopy hclosed hv,
    fun _ hitems => Value.deepCopies hclosed hitems fun v _ => Value.grounded_of_acyclic hacyclic v⟩

/-- A heap with a float that is no number in a cell, and with a list around this cell in another
one. -/
def Heap.nested : Heap := ⟨#[.plain (.double ⟨0x7ff8000000000000⟩), .list [.shared ⟨0⟩]], 1⟩

/-- A map around the list. -/
def Value.framed : Value := .map [("a", .shared ⟨1⟩)]

/-- The map equals itself but not its copy, and a list of it and a payload has no copy. -/
theorem Heap.copies_faithfully_nested :
    nested.Acyclic ∧ nested.Closed nested.Has ∧ Value.framed.DeepCopy nested ∧
      Value.DeepCopies nested [some .framed, none, some (.foreign ⟨0, "Socket"⟩)] ∧
      Value.framed.same? nested .framed = some true ∧
      (∃ copy h', Value.framed.copy nested = .ok (copy, h') ∧
        copy.same? h' .framed = some false) ∧
      Copyable.copy nested [some Value.framed, none, some (.foreign ⟨0, "Socket"⟩)] =
        .error (.foreign "Socket") := by
  have hlt : ∀ cell v, nested.read? cell = some v →
      v.Within fun inner => inner.index < cell.index := by
    rintro ⟨_ | _ | i⟩ v hr <;> cases hr <;> simp [nested]
  have hacyclic : nested.Acyclic := acyclic_of_lt hlt
  have hclosed : nested.Closed nested.Has := closed_of_lt hlt
  have hframed : Value.framed.Within nested.Has := by simp [Value.framed, Has, nested, size]
  obtain ⟨hvalue, hlist⟩ := hacyclic.copies_faithfully hclosed
  refine ⟨hacyclic, hclosed, hvalue _ hframed, hlist _ fun v hv => ?_, rfl, ⟨_, _, rfl, rfl⟩, rfl⟩
  simp only [List.mem_cons, Option.some.injEq, reduceCtorEq, List.not_mem_nil, or_false,
    false_or] at hv
  rcases hv with rfl | rfl
  · exact hframed
  · simp

end OverlayStore
