import OverlayStore.Value.Equality
import OverlayStore.Proofs.Cells.Contents

/-!
# Equality of values with contents

Values that have contents compare as their contents do, as long as the cells that both of them lead
to equal themselves. Only a float that is no number differs from itself, so contents equal
themselves if and only if they are without one, and values without one compare by their contents
alone.
-/

namespace OverlayStore

namespace Contents

mutual

/-- Whether contents are equal; floats compare as numbers. -/
def alike : Contents → Contents → Bool
  | .plain a, .plain b => a.same b
  | .list a, .list b => a.length == b.length && alikeItems a b
  | .map a, .map b => a.length == b.length && alikeEntries a b
  | .cell a, .cell b => alike a b
  | .foreign a, .foreign b => a.same b
  | _, _ => false

/-- Whether lists are equal item by item. -/
def alikeItems : List Contents → List Contents → Bool
  | [], [] => true
  | a :: as, b :: bs => alike a b && alikeItems as bs
  | _, _ => false

/-- Whether maps are equal entry by entry. -/
def alikeEntries : List (String × Contents) → List (String × Contents) → Bool
  | [], [] => true
  | (j, a) :: as, (k, b) :: bs => j == k && alike a b && alikeEntries as bs
  | _, _ => false

end

/-- The outermost constructor, as a number. -/
def shape : Contents → Nat
  | .plain _ => 0
  | .list _ => 1
  | .map _ => 2
  | .cell _ => 3
  | .foreign _ => 4

/-- Contents of different shapes differ. -/
theorem alike_of_shape_ne {x y : Contents} (hne : x.shape ≠ y.shape) : x.alike y = false := by
  cases x <;> cases y <;> simp_all [shape, alike]

private theorem alikeItems_self_iff {items : List Contents} :
    alikeItems items items = true ↔ ∀ x ∈ items, x.alike x = true := by
  induction items with
  | nil => simp [alikeItems]
  | cons x rest ih => rw [alikeItems, Bool.and_eq_true, ih, List.forall_mem_cons]

private theorem alikeEntries_self_iff {entries : List (String × Contents)} :
    alikeEntries entries entries = true ↔ ∀ e ∈ entries, e.2.alike e.2 = true := by
  induction entries with
  | nil => simp [alikeEntries]
  | cons e rest ih =>
    rw [alikeEntries, Bool.and_eq_true, Bool.and_eq_true, ih, List.forall_mem_cons, beq_iff_eq]
    simp only [true_and]

/-- Contents equal themselves unless they reach a float that is no number. -/
theorem alike_self_iff {x : Contents} : x.alike x = true ↔ x.NaNFree := by
  induction x using Contents.induction with
  | plain data => rw [alike, Plain.same_self, naNFree_plain, Bool.not_eq_true']
  | list items ih =>
    rw [alike, beq_self_eq_true, Bool.true_and, alikeItems_self_iff, naNFree_list]
    exact forall₂_congr ih
  | map entries ih =>
    rw [alike, beq_self_eq_true, Bool.true_and, alikeEntries_self_iff, naNFree_map]
    exact forall₂_congr ih
  | cell inside ih => rw [alike, ih, naNFree_cell]
  | foreign payload => simp [alike, Foreign.same, NaNFree]

end Contents

namespace Value

/-- The outermost constructor, as a number. -/
def shape : Value → Nat
  | .plain _ => 0
  | .list _ => 1
  | .map _ => 2
  | .shared _ => 3
  | .foreign _ => 4

theorem shape_of_contentsWith {look : Cell → Option Contents} {v : Value} {x : Contents}
    (hx : contentsWith look v = some x) : x.shape = v.shape := by
  cases v with
  | plain | foreign =>
    simp only [contentsWith, Option.some.injEq] at hx
    subst hx
    rfl
  | list | map | shared =>
    simp only [contentsWith, Option.map_eq_some_iff] at hx
    obtain ⟨y, -, rfl⟩ := hx
    rfl

section

variable {cells : Cell → Cell → Option Bool} {look : Cell → Option Contents}

private theorem sameItems_eq {as bs : List Value} {xs ys : List Contents}
    (hx : List.Forall₂ (fun v x => contentsWith look v = some x) as xs)
    (hy : List.Forall₂ (fun v x => contentsWith look v = some x) bs ys)
    (ih : ∀ a ∈ as, ∀ b ∈ bs, ∀ x y, contentsWith look a = some x → contentsWith look b = some y →
      sameWith cells a b = some (x.alike y)) :
    sameItems cells as bs = some (Contents.alikeItems xs ys) := by
  induction hx generalizing bs ys with
  | nil =>
    cases hy with
    | nil => rfl
    | cons => rfl
  | cons ha hrest ihrest =>
    rw [List.forall_mem_cons] at ih
    cases hy with
    | nil => rfl
    | cons hb hys =>
      have hhead := ih.1 _ List.mem_cons_self _ _ ha hb
      have htail := ihrest hys fun a ha b hb => ih.2 a ha b (List.mem_cons_of_mem _ hb)
      rw [sameItems, hhead, Contents.alikeItems]
      cases Contents.alike _ _ with
      | true => simpa using htail
      | false => rfl

private theorem sameEntries_eq {as bs : List (String × Value)} {xs ys : List (String × Contents)}
    (hx : List.Forall₂ (fun e x => e.1 = x.1 ∧ contentsWith look e.2 = some x.2) as xs)
    (hy : List.Forall₂ (fun e x => e.1 = x.1 ∧ contentsWith look e.2 = some x.2) bs ys)
    (ih : ∀ a ∈ as, ∀ b ∈ bs, ∀ x y, contentsWith look a.2 = some x →
      contentsWith look b.2 = some y → sameWith cells a.2 b.2 = some (x.alike y)) :
    sameEntries cells as bs = some (Contents.alikeEntries xs ys) := by
  induction hx generalizing bs ys with
  | nil =>
    cases hy with
    | nil => rfl
    | cons => rfl
  | @cons a x as xs ha hrest ihrest =>
    rw [List.forall_mem_cons] at ih
    cases hy with
    | nil => rfl
    | @cons b y bs ys hb hys =>
      obtain ⟨j, a⟩ := a
      obtain ⟨k, b⟩ := b
      obtain ⟨j', x⟩ := x
      obtain ⟨k', y⟩ := y
      obtain ⟨rfl, ha⟩ := ha
      obtain ⟨rfl, hb⟩ := hb
      have hhead := ih.1 _ List.mem_cons_self _ _ ha hb
      have htail := ihrest hys fun a ha b hb => ih.2 a ha b (List.mem_cons_of_mem _ hb)
      simp only at hhead
      rw [sameEntries, Contents.alikeEntries, hhead]
      by_cases hkey : j = k
      · rw [if_pos hkey]
        cases Contents.alike _ _ with
        | true => simpa [hkey] using htail
        | false => simp
      · rw [if_neg hkey]
        simp [hkey]

/-- Values of different shapes differ. -/
theorem sameWith_of_shape_ne {a b : Value} (hne : a.shape ≠ b.shape) :
    sameWith cells a b = some false := by
  cases a <;> cases b <;> simp_all [shape, sameWith]

private theorem sameWith_eq_of_shape_ne {a b : Value} {x y : Contents}
    (hx : contentsWith look a = some x) (hy : contentsWith look b = some y)
    (hne : a.shape ≠ b.shape) : sameWith cells a b = some (x.alike y) := by
  rw [← shape_of_contentsWith hx, ← shape_of_contentsWith hy] at hne
  rw [Contents.alike_of_shape_ne hne, sameWith_of_shape_ne]
  rwa [← shape_of_contentsWith hx, ← shape_of_contentsWith hy]

/-- If the cells that two values name compare as what they show, then so do the values. -/
theorem sameWith_eq {a b : Value}
    (hcells : ∀ c ∈ a.handles, ∀ d ∈ b.handles, ∀ x y, look c = some x → look d = some y →
      cells c d = some (x.alike y))
    {x y : Contents} (hx : contentsWith look a = some x) (hy : contentsWith look b = some y) :
    sameWith cells a b = some (x.alike y) := by
  induction a using Value.induction generalizing b x y with
  | plain data =>
    cases b with
    | plain other =>
      simp only [contentsWith, Option.some.injEq] at hx hy
      subst hx hy
      simp [sameWith, Contents.alike]
    | list | map | shared | foreign => exact sameWith_eq_of_shape_ne hx hy (by simp [shape])
  | foreign payload =>
    cases b with
    | foreign other =>
      simp only [contentsWith, Option.some.injEq] at hx hy
      subst hx hy
      simp [sameWith, Contents.alike]
    | plain | list | map | shared => exact sameWith_eq_of_shape_ne hx hy (by simp [shape])
  | shared cell =>
    cases b with
    | shared other =>
      simp only [contentsWith, Option.map_eq_some_iff] at hx hy
      obtain ⟨u, hu, rfl⟩ := hx
      obtain ⟨w, hw, rfl⟩ := hy
      rw [sameWith, Contents.alike]
      exact hcells cell (by simp) other (by simp) u w hu hw
    | plain | list | map | foreign => exact sameWith_eq_of_shape_ne hx hy (by simp [shape])
  | list items ih =>
    cases b with
    | list others =>
      simp only [contentsWith, Option.map_eq_some_iff] at hx hy
      obtain ⟨xs, hxs, rfl⟩ := hx
      obtain ⟨ys, hys, rfl⟩ := hy
      have hleft := itemContents_eq_some_iff.mp hxs
      have hright := itemContents_eq_some_iff.mp hys
      simp only [handles_list, List.mem_flatMap] at hcells
      have hitems := sameItems_eq hleft hright fun v hv w hw x y hx hy =>
        ih v hv (fun c hc d hd => hcells c ⟨v, hv, hc⟩ d ⟨w, hw, hd⟩) hx hy
      rw [sameWith, Contents.alike, hleft.length_eq, hright.length_eq]
      by_cases hlength : xs.length = ys.length <;> simp [hlength, hitems]
    | plain | map | shared | foreign => exact sameWith_eq_of_shape_ne hx hy (by simp [shape])
  | map entries ih =>
    cases b with
    | map others =>
      simp only [contentsWith, Option.map_eq_some_iff] at hx hy
      obtain ⟨xs, hxs, rfl⟩ := hx
      obtain ⟨ys, hys, rfl⟩ := hy
      have hleft := entryContents_eq_some_iff.mp hxs
      have hright := entryContents_eq_some_iff.mp hys
      simp only [handles_map, List.mem_flatMap] at hcells
      have hentries := sameEntries_eq hleft hright fun e he f hf x y hx hy =>
        ih e he (fun c hc d hd => hcells c ⟨e, he, hc⟩ d ⟨f, hf, hd⟩) hx hy
      rw [sameWith, Contents.alike, hleft.length_eq, hright.length_eq]
      by_cases hlength : xs.length = ys.length <;> simp [hlength, hentries]
    | plain | list | shared | foreign => exact sameWith_eq_of_shape_ne hx hy (by simp [shape])

end

/-- How cells are compared through at most `depth` pairs of cells on a path. -/
def sameCellWithin (h : Heap) : Nat → Cell → Cell → Option Bool
  | 0 => sameCell h fun _ _ => none
  | depth + 1 => sameCell h (sameWithin h depth)

theorem sameWithin_eq_sameWith (h : Heap) (depth : Nat) (a b : Value) :
    sameWithin h depth a b = sameWith (sameCellWithin h depth) a b := by
  cases depth <;> rfl

/-- A cell shows contents that equal themselves, if it shows any. -/
def EqualsItself (h : Heap) (cell : Cell) : Prop :=
  ∀ depth x, lookWithin h depth cell = some x → x.alike x = true

/-- Values with contents at some depth compare at this depth as their contents do, if the cells that
both of them lead to equal themselves. -/
theorem sameWithin_eq {h : Heap} {depth : Nat} {a b : Value} {x y : Contents}
    (hx : a.contentsWithin h depth = some x) (hy : b.contentsWithin h depth = some y)
    (hcommon : ∀ cell ∈ a.footprintWithin h depth, cell ∈ b.footprintWithin h depth →
      EqualsItself h cell) : sameWithin h depth a b = some (x.alike y) := by
  induction depth generalizing a b x y with
  | zero =>
    rw [contentsWithin_eq] at hx hy
    rw [sameWithin_eq_sameWith]
    exact sameWith_eq (fun c _ d _ x y hc _ => by cases hc) hx hy
  | succ depth ih =>
    rw [sameWithin_eq_sameWith]
    refine sameWith_eq (fun c hc d hd u v hcu hdv => ?_) (contentsWithin_eq h (depth + 1) a ▸ hx)
      (contentsWithin_eq h (depth + 1) b ▸ hy)
    rw [sameCellWithin, sameCell]
    by_cases hcd : c = d
    · subst hcd
      have hself := hcommon c (handles_subset_footprintWithin h _ a hc)
        (handles_subset_footprintWithin h _ b hd) (depth + 1) u hcu
      rw [if_pos rfl, ← Option.some.inj (hcu.symm.trans hdv), hself]
    · obtain ⟨p, -, hp, -, hpsub⟩ := read?_of_contentsWithin_succ hx hc
      obtain ⟨q, -, hq, -, hqsub⟩ := read?_of_contentsWithin_succ hy hd
      rw [lookWithin, hp] at hcu
      rw [lookWithin, hq] at hdv
      rw [if_neg hcd, hp, hq]
      exact ih hcu hdv fun cell hl hr => hcommon cell (hpsub hl) (hqsub hr)

/-- Values with contents compare as their contents do, if the cells that both of them lead to equal
themselves. -/
theorem same?_eq_of_common {h : Heap} {a b : Value} {x y : Contents} (hx : a.contents? h = some x)
    (hy : b.contents? h = some y)
    (hcommon : ∀ cell ∈ a.footprint h, cell ∈ b.footprint h → EqualsItself h cell) :
    same? h a b = some (x.alike y) := by
  have hdepth : h.size ≤ h.size * h.size := Nat.le_mul_self h.size
  obtain ⟨hx', hfx⟩ := contentsWithin_frame hx (fun _ _ => rfl) hdepth
  obtain ⟨hy', hfy⟩ := contentsWithin_frame hy (fun _ _ => rfl) hdepth
  refine sameWithin_eq hx' hy' ?_
  rw [hfx, hfy]
  exact hcommon

/-! ## Without a float that is no number -/

/-- If no float that is no number is reached, then none is reached through a named cell. -/
private theorem within_naNFree {look : Cell → Option Contents} {v : Value} {x : Contents}
    (hx : contentsWith look v = some x) (hfree : x.NaNFree) :
    v.Within fun cell => ∀ y, look cell = some y → y.NaNFree := by
  induction v using Value.induction generalizing x with
  | plain data => simp
  | foreign payload => simp
  | shared cell =>
    obtain ⟨u, hu, rfl⟩ := Option.map_eq_some_iff.mp (by simpa only [contentsWith] using hx)
    refine within_shared.mpr fun y hy => ?_
    rw [← Option.some.inj (hu.symm.trans hy)]
    exact Contents.naNFree_cell.mp hfree
  | list items ih =>
    obtain ⟨xs, hxs, rfl⟩ := Option.map_eq_some_iff.mp (by simpa only [contentsWith] using hx)
    refine within_list.mpr fun v hv => ?_
    obtain ⟨i, hi, rfl⟩ := List.getElem_of_mem hv
    have hf := itemContents_eq_some_iff.mp hxs
    have hi' := hf.length_eq ▸ hi
    exact ih _ hv (hf.get hi hi') (Contents.naNFree_list.mp hfree _ (List.getElem_mem hi'))
  | map entries ih =>
    obtain ⟨xs, hxs, rfl⟩ := Option.map_eq_some_iff.mp (by simpa only [contentsWith] using hx)
    refine within_map.mpr fun e he => ?_
    obtain ⟨i, hi, rfl⟩ := List.getElem_of_mem he
    have hf := entryContents_eq_some_iff.mp hxs
    have hi' := hf.length_eq ▸ hi
    exact ih _ he (hf.get hi hi').2 (Contents.naNFree_map.mp hfree _ (List.getElem_mem hi'))

/-- If no float that is no number is reached, then the cells on the paths equal themselves. -/
theorem equalsItself_of_naNFree {h : Heap} {depth : Nat} {v : Value} {x : Contents}
    (hx : v.contentsWithin h depth = some x) (hfree : x.NaNFree) :
    ∀ cell ∈ v.footprintWithin h depth, EqualsItself h cell := by
  induction depth generalizing v x with
  | zero =>
    intro cell hc
    obtain ⟨y, hy⟩ := within_of_contentsWith (contentsWithin_eq h 0 v ▸ hx) cell hc
    cases hy
  | succ depth ih =>
    intro cell hc
    obtain ⟨outer, ho, hs⟩ := List.mem_flatMap.mp hc
    obtain ⟨w, y, hw, hy, -⟩ := read?_of_contentsWithin_succ hx ho
    have hshown : lookWithin h (depth + 1) outer = some y := by
      rw [lookWithin, hw]
      exact hy
    have hyfree := within_naNFree (contentsWithin_eq h (depth + 1) v ▸ hx) hfree outer ho y hshown
    rw [hw, Option.elim_some] at hs
    rcases List.mem_append.mp hs with hin | hself
    · exact ih hy hyfree cell hin
    · -- What the cell shows does not depend on the depth.
      rw [List.mem_singleton.mp hself]
      intro larger u hu
      cases larger with
      | zero => cases hu
      | succ larger =>
        rw [lookWithin, hw] at hu
        have heq := (contentsWithin_mono hu (Nat.le_max_left larger depth)).symm.trans
          (contentsWithin_mono hy (Nat.le_max_right larger depth))
        rw [Option.some.inj heq]
        exact Contents.alike_self_iff.mpr hyfree

/-- Values without a float that is no number compare as their contents do. -/
theorem same?_eq {h : Heap} {a b : Value} {x y : Contents} (hx : a.contents? h = some x)
    (hy : b.contents? h = some y) (hfree : x.NaNFree) : same? h a b = some (x.alike y) :=
  same?_eq_of_common hx hy fun cell hc _ => equalsItself_of_naNFree hx hfree cell hc

end Value

end OverlayStore
