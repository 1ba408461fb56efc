import OverlayStore.Proofs.Cells.Renaming

/-!
# Copying and comparing past hidden cells

In two heaps of which one has only the cells of the other that show, a value and the renamed value
are copied alike and compared alike. The depths to which the two heaps are searched differ, but both
are large enough.
-/

namespace OverlayStore

/-- Two results of copying that are the same up to the names of cells: the same error, or copies
that name cells that show, in heaps that grew alike. -/
inductive Mirrored {ε α : Type} (hidden : List Cell) (h : Heap) (rename : α → α)
    (cells : α → List Cell) : Except ε (α × Heap) → Except ε (α × Heap) → Prop
  /-- Both are copies. -/
  | ok {a : α} {g g' : Heap} (hm : g.Mirrors hidden g') (hle : h ≤ g)
    (hcells : ∀ cell ∈ cells a, g.Shows hidden cell) :
    Mirrored hidden h rename cells (.ok (a, g)) (.ok (rename a, g'))
  /-- Both are errors. -/
  | error (e : ε) : Mirrored hidden h rename cells (.error e) (.error e)

section

variable {ε α β : Type} {hidden : List Cell} {h h' : Heap} {rename : α → α} {cells : α → List Cell}

/-- What is built from such results is such a pair of results. -/
theorem Mirrored.map {result result' : Except ε (α × Heap)}
    (hr : Mirrored hidden h rename cells result result') {renameβ : β → β} {cellsβ : β → List Cell}
    {build build' : α → β} (hrename : ∀ a, renameβ (build a) = build' (rename a))
    (hcells : ∀ a, cellsβ (build a) ⊆ cells a) :
    Mirrored hidden h renameβ cellsβ (result.map (Prod.map build id))
      (result'.map (Prod.map build' id)) := by
  cases hr with
  | error e => exact .error e
  | @ok a g g' hm hle hshows =>
    have hbuilt : (Except.ok (rename a, g') : Except ε _).map (Prod.map build' id) =
        .ok (renameβ (build a), g') := by
      rw [hrename]
      rfl
    rw [hbuilt]
    exact .ok hm hle fun cell hc => hshows cell (hcells a hc)

/-- Members that are copied alike make lists that are copied alike. -/
theorem mirrored_copyEach {copy : α → Heap → Except CopyError (α × Heap)} (as : List α)
    (hcopy : ∀ a ∈ as, ∀ {h h'}, h.Mirrors hidden h' → (∀ cell ∈ cells a, h.Shows hidden cell) →
      Mirrored hidden h rename cells (copy a h) (copy (rename a) h'))
    (hm : h.Mirrors hidden h') (hshows : ∀ a ∈ as, ∀ cell ∈ cells a, h.Shows hidden cell) :
    Mirrored hidden h (List.map rename) (List.flatMap cells) (copyEach copy as h)
      (copyEach copy (as.map rename) h') := by
  induction as generalizing h h' with
  | nil => exact .ok hm (le_refl h) fun cell hc => absurd hc List.not_mem_nil
  | cons a rest ih =>
    rw [List.forall_mem_cons] at hcopy hshows
    rw [List.map_cons, copyEach_cons, copyEach_cons]
    have hhead := hcopy.1 hm hshows.1
    generalize copy a h = result at hhead
    generalize copy (rename a) h' = result' at hhead
    cases hhead with
    | error e => exact .error e
    | @ok b g g' hm hle hb =>
      have hrest := ih hcopy.2 hm fun a ha cell hc => (hshows.2 a ha cell hc).mono hle
      simp only [Except.bind]
      generalize copyEach copy rest g = results at hrest
      generalize copyEach copy (rest.map rename) g' = results' at hrest
      cases hrest with
      | error e => exact .error e
      | @ok bs g₁ g₁' hm hle₁ hbs =>
        have hall : ∀ cell ∈ (b :: bs).flatMap cells, g₁.Shows hidden cell := by
          intro cell hc
          rw [List.flatMap_cons, List.mem_append] at hc
          exact hc.elim (fun hc => (hb cell hc).mono hle₁) (hbs cell)
        exact .ok hm (hle.trans hle₁) hall

end

namespace Value

variable {hidden : List Cell} {h h' : Heap}

/-! ## Copies -/

/-- If cells are copied alike then so are values over them. -/
theorem mirrored_copyWith {cells : Cell → Heap → Except CopyError (Cell × Heap)}
    (hcells : ∀ {cell h h'}, h.Mirrors hidden h' → h.Shows hidden cell →
      Mirrored hidden h (Cell.rank hidden) ([·]) (cells cell h) (cells (Cell.rank hidden cell) h'))
    {v : Value} (hm : h.Mirrors hidden h') (hv : v.Within (h.Shows hidden)) :
    Mirrored hidden h (rename (Cell.rank hidden)) handles (copyWith cells v h)
      (copyWith cells (v.rename (Cell.rank hidden)) h') := by
  induction v using Value.induction generalizing h h' with
  | plain data =>
    rw [rename_plain, copyWith, copyWith, ← rename_plain (Cell.rank hidden)]
    exact .ok hm (le_refl h) hv
  | foreign payload =>
    rw [rename_foreign, copyWith, copyWith]
    exact .error _
  | shared cell =>
    rw [rename_shared, copyWith_shared, copyWith_shared]
    refine (hcells hm (within_shared.mp hv)).map (rename_shared _) fun cell => ?_
    rw [handles_shared]
    exact List.Subset.refl _
  | list items ih =>
    rw [rename_list, copyWith_list, copyWith_list]
    refine (mirrored_copyEach items (fun item hi h h' hm hv => ih item hi hm hv) hm
      (within_list.mp hv)).map (rename_list _) fun items => ?_
    rw [handles_list]
    exact List.Subset.refl _
  | map entries ih =>
    have hentry : ∀ e ∈ entries, ∀ {h h' : Heap}, h.Mirrors hidden h' →
        (∀ cell ∈ e.2.handles, h.Shows hidden cell) →
        Mirrored hidden h (Prod.map id (rename (Cell.rank hidden))) (fun e => e.2.handles)
          (copyUnderKey (copyWith cells) e h)
          (copyUnderKey (copyWith cells) (Prod.map id (rename (Cell.rank hidden)) e) h') := by
      intro e he h h' hm hv
      rw [copyUnderKey_eq_map, copyUnderKey_eq_map]
      exact (ih e he hm hv).map (fun v => rfl) fun v => List.Subset.refl _
    rw [rename_map, copyWith_map, copyWith_map]
    refine (mirrored_copyEach entries hentry hm (within_map.mp hv)).map (rename_map _)
      fun entries => ?_
    rw [handles_map]
    exact List.Subset.refl _

/-- Values are copied alike through the same number of cells. -/
theorem mirrored_copyWithin (depth : Nat) {v : Value} (hm : h.Mirrors hidden h')
    (hv : v.Within (h.Shows hidden)) :
    Mirrored hidden h (rename (Cell.rank hidden)) handles (copyWithin depth v h)
      (copyWithin depth (v.rename (Cell.rank hidden)) h') := by
  induction depth generalizing v h h' with
  | zero => exact mirrored_copyWith (fun _ _ => .error _) hm hv
  | succ depth ih =>
    -- The contents of a cell are copied alike, and then a cell is made on both sides.
    refine mirrored_copyWith (fun {cell h h'} hm hc => ?_) hm hv
    obtain ⟨w, hw⟩ := Heap.exists_read?_of_has hc.1
    have hinside := ih hm (hm.closed cell w hc hw)
    rw [copyCell, copyCell, hw, hm.read cell w hc.2 hw]
    simp only
    generalize copyWithin depth w h = result at hinside
    generalize copyWithin depth (w.rename (Cell.rank hidden)) h' = result' at hinside
    cases hinside with
    | error e => exact .error e
    | @ok w' g g' hm hle hw' =>
      obtain ⟨hm', hshows, hrank⟩ := hm.alloc hw'
      have hnew : (Except.ok (g'.alloc (w'.rename (Cell.rank hidden))) : Except CopyError _) =
          .ok (Cell.rank hidden (g.alloc w').1, (g'.alloc (w'.rename (Cell.rank hidden))).2) := by
        rw [hrank]
      simp only [hnew]
      refine .ok hm' (hle.trans (g.le_alloc w')) fun cell hc => ?_
      rw [List.mem_singleton.mp hc]
      exact hshows

/-- Values are copied alike. -/
theorem mirrored_copy {v : Value} (hm : h.Mirrors hidden h') (hv : v.Within (h.Shows hidden)) :
    Mirrored hidden h (rename (Cell.rank hidden)) handles (v.copy h)
      ((v.rename (Cell.rank hidden)).copy h') := by
  -- The smaller heap is searched as deep as the larger one, which changes nothing.
  rw [← copyWithin_stable hm.closed_has (hm.within_rename hv) hm.size_le]
  exact mirrored_copyWithin h.size hm hv

/-! ## Comparisons -/

section

variable {ρ : Cell → Cell} {cells cells' : Cell → Cell → Option Bool}

private theorem sameItems_rename {as bs : List Value}
    (hsame : ∀ a ∈ as, ∀ b ∈ bs, sameWith cells' (a.rename ρ) (b.rename ρ) = sameWith cells a b) :
    sameItems cells' (as.map (rename ρ)) (bs.map (rename ρ)) = sameItems cells as bs := by
  induction as generalizing bs with
  | nil => cases bs <;> simp only [List.map_nil, List.map_cons, sameItems]
  | cons a as ih =>
    cases bs with
    | nil => simp only [List.map_nil, List.map_cons, sameItems]
    | cons b bs =>
      rw [List.map_cons, List.map_cons, sameItems, sameItems,
        hsame a List.mem_cons_self b List.mem_cons_self, ih fun a ha b hb =>
          hsame a (List.mem_cons_of_mem _ ha) b (List.mem_cons_of_mem _ hb)]

private theorem sameEntries_rename {as bs : List (String × Value)}
    (hsame : ∀ a ∈ as, ∀ b ∈ bs,
      sameWith cells' (a.2.rename ρ) (b.2.rename ρ) = sameWith cells a.2 b.2) :
    sameEntries cells' (as.map (Prod.map id (rename ρ))) (bs.map (Prod.map id (rename ρ))) =
      sameEntries cells as bs := by
  induction as generalizing bs with
  | nil => cases bs <;> simp only [List.map_nil, List.map_cons, sameEntries]
  | cons a as ih =>
    cases bs with
    | nil => simp only [List.map_nil, List.map_cons, sameEntries]
    | cons b bs =>
      have hhead := hsame a List.mem_cons_self b List.mem_cons_self
      have hrest := ih fun a ha b hb =>
        hsame a (List.mem_cons_of_mem _ ha) b (List.mem_cons_of_mem _ hb)
      obtain ⟨j, a⟩ := a
      obtain ⟨k, b⟩ := b
      rw [List.map_cons, List.map_cons, Prod.map_apply, Prod.map_apply, sameEntries, sameEntries,
        hhead, hrest]
      rfl

/-- If renamed cells compare alike then so do renamed values. -/
theorem sameWith_rename {a b : Value}
    (hcells : ∀ c ∈ a.handles, ∀ d ∈ b.handles, cells' (ρ c) (ρ d) = cells c d) :
    sameWith cells' (a.rename ρ) (b.rename ρ) = sameWith cells a b := by
  by_cases hshape : a.shape = b.shape
  -- Values of different shapes differ before any cell is looked at, here and in the parts below.
  · induction a using Value.induction generalizing b with
    | plain data =>
      cases b with
      | plain other => simp only [rename_plain, sameWith]
      | list | map | shared | foreign => cases hshape
    | foreign payload =>
      cases b with
      | foreign other => simp only [rename_foreign, sameWith]
      | plain | list | map | shared => cases hshape
    | shared c =>
      cases b with
      | shared d => simpa [sameWith] using hcells
      | plain | list | map | foreign => cases hshape
    | list items ih =>
      cases b with
      | list others =>
        rw [rename_list, rename_list, sameWith, sameWith, List.length_map, List.length_map,
          sameItems_rename fun a ha b hb => ?_]
        by_cases hshape : a.shape = b.shape
        · exact ih a ha (fun c hc d hd => hcells c (by simpa using ⟨a, ha, hc⟩) d
            (by simpa using ⟨b, hb, hd⟩)) hshape
        · rw [sameWith_of_shape_ne hshape, sameWith_of_shape_ne (by simpa using hshape)]
      | plain | map | shared | foreign => cases hshape
    | map entries ih =>
      cases b with
      | map others =>
        rw [rename_map, rename_map, sameWith, sameWith, List.length_map, List.length_map,
          sameEntries_rename fun a ha b hb => ?_]
        by_cases hshape : a.2.shape = b.2.shape
        · exact ih a ha (fun c hc d hd => hcells c (by simpa using ⟨a.1, a.2, ha, hc⟩) d
            (by simpa using ⟨b.1, b.2, hb, hd⟩)) hshape
        · rw [sameWith_of_shape_ne hshape, sameWith_of_shape_ne (by simpa using hshape)]
      | plain | list | shared | foreign => cases hshape
  · rw [sameWith_of_shape_ne hshape, sameWith_of_shape_ne (by simpa using hshape)]

end

/-- Cells that show are compared alike if what they hold is. -/
theorem sameCell_rank {inside inside' : Value → Value → Option Bool} (hm : h.Mirrors hidden h')
    (hinside : ∀ v w, v.Within (h.Shows hidden) → w.Within (h.Shows hidden) →
      inside' (v.rename (Cell.rank hidden)) (w.rename (Cell.rank hidden)) = inside v w)
    {c d : Cell} (hc : h.Shows hidden c) (hd : h.Shows hidden d) :
    sameCell h' inside' (Cell.rank hidden c) (Cell.rank hidden d) = sameCell h inside c d := by
  obtain ⟨v, hv⟩ := Heap.exists_read?_of_has hc.1
  obtain ⟨w, hw⟩ := Heap.exists_read?_of_has hd.1
  rw [sameCell, sameCell, hv, hw, hm.read c v hc.2 hv, hm.read d w hd.2 hw]
  simp only [Cell.rank_inj hc.2 hd.2, hinside v w (hm.closed c v hc hv) (hm.closed d w hd hw)]

/-- Values are compared alike through the same number of pairs of cells. -/
theorem sameWithin_rename (hm : h.Mirrors hidden h') (depth : Nat) {a b : Value}
    (ha : a.Within (h.Shows hidden)) (hb : b.Within (h.Shows hidden)) :
    sameWithin h' depth (a.rename (Cell.rank hidden)) (b.rename (Cell.rank hidden)) =
      sameWithin h depth a b := by
  induction depth generalizing a b with
  | zero =>
    exact sameWith_rename fun c hc d hd =>
      sameCell_rank hm (fun _ _ _ _ => rfl) (ha c hc) (hb d hd)
  | succ depth ih =>
    exact sameWith_rename fun c hc d hd =>
      sameCell_rank hm (fun _ _ hv hw => ih hv hw) (ha c hc) (hb d hd)

/-- Values are compared alike. -/
theorem same?_rename (hm : h.Mirrors hidden h') {a b : Value} (ha : a.Within (h.Shows hidden))
    (hb : b.Within (h.Shows hidden)) :
    same? h' (a.rename (Cell.rank hidden)) (b.rename (Cell.rank hidden)) = same? h a b := by
  rw [← sameWithin_stable (Nat.mul_le_mul hm.size_le hm.size_le)]
  exact sameWithin_rename hm (h.size * h.size) ha hb

end Value

/-! ## What copying leaves alone -/

/-- A heap with more cells and no more payloads. -/
structure Heap.Extends (h g : Heap) : Prop where
  /-- Every cell is there as it was. -/
  le : h ≤ g
  /-- No payload was taken in. -/
  payloads : g.payloads = h.payloads

namespace Heap.Extends

variable {h g i : Heap}

theorem refl (h : Heap) : h.Extends h := ⟨le_refl h, rfl⟩

theorem trans (hg : h.Extends g) (hi : g.Extends i) : h.Extends i :=
  ⟨hg.le.trans hi.le, hi.payloads.trans hg.payloads⟩

theorem alloc (h : Heap) (v : Value) : h.Extends (h.alloc v).2 := ⟨h.le_alloc v, rfl⟩

end Heap.Extends

/-- A list is copied into more cells if its members are. -/
theorem extends_copyEach {α : Type} {copy : α → Heap → Except CopyError (α × Heap)} {as bs : List α}
    {h g : Heap} (hcopy : ∀ a ∈ as, ∀ {h b g}, copy a h = .ok (b, g) → h.Extends g)
    (hok : copyEach copy as h = .ok (bs, g)) : h.Extends g :=
  (copyEach_eq_ok h.Extends (fun _ (_ : Unit) => True)
    (fun a ha _ _ _ hle hb => ⟨hle.trans (hcopy a ha hb), (), trivial⟩) (.refl h) hok).1

namespace Value

theorem extends_copyWith {cells : Cell → Heap → Except CopyError (Cell × Heap)}
    (hcells : ∀ {cell h c g}, cells cell h = .ok (c, g) → h.Extends g) {v v' : Value} {h g : Heap}
    (hok : copyWith cells v h = .ok (v', g)) : h.Extends g := by
  induction v using Value.induction generalizing v' h g with
  | plain data =>
    cases hok
    exact .refl h
  | foreign payload => cases hok
  | shared cell =>
    rw [copyWith_shared, built_eq_ok_iff] at hok
    obtain ⟨c, hc, rfl⟩ := hok
    exact hcells hc
  | list items ih =>
    rw [copyWith_list, built_eq_ok_iff] at hok
    obtain ⟨items', hitems, rfl⟩ := hok
    exact extends_copyEach (fun item hi _ _ _ hb => ih item hi hb) hitems
  | map entries ih =>
    rw [copyWith_map, built_eq_ok_iff] at hok
    obtain ⟨entries', hentries, rfl⟩ := hok
    exact extends_copyEach
      (fun e he _ _ _ hb => ih e he (copyUnderKey_eq_ok_iff.mp hb).2) hentries

/-- A copy is made of new cells. -/
theorem extends_copyWithin {depth : Nat} {v v' : Value} {h g : Heap}
    (hok : copyWithin depth v h = .ok (v', g)) : h.Extends g := by
  induction depth generalizing v v' h g with
  | zero => exact extends_copyWith (fun hc => by cases hc) hok
  | succ depth ih =>
    refine extends_copyWith (fun {cell h c g} hc => ?_) hok
    obtain ⟨w, w', h₁, -, hin, halloc⟩ := copyCell_eq_ok_iff.mp hc
    cases halloc
    exact (ih hin).trans (.alloc h₁ w')

theorem extends_copy {v v' : Value} {h g : Heap} (hok : v.copy h = .ok (v', g)) : h.Extends g :=
  extends_copyWithin hok

end Value

end OverlayStore
