import Mathlib.Data.Finset.Card
import Mathlib.Data.Finset.Prod
import Mathlib.Order.Monotone.Basic
import OverlayStore.Proofs.Cells.Copy
import OverlayStore.Proofs.Cells.Equality

/-!
# The depth is large enough

Copying and comparing go through a bounded number of cells on a path. The bounds lose nothing: the
result for a cell stays as soon as it is not "endless", and a depth at which no cell gets a result
is the last one at which any does. So it is enough to count the cells, or the pairs of cells.
What is in the way of a copy is told by the heap as it was before the copying.
-/

namespace OverlayStore

/-! ## Counting -/

section

variable {ι β : Type} {f : Nat → ι → β}

/-- Results that are found step by step are all found after as many steps as there are places for
them: what is not `bot` stays, and a step that finds nothing is followed by none that does. -/
theorem eq_of_card_le (domain : Finset ι) (bot : β)
    (hstays : ∀ d i, f d i ≠ bot → f (d + 1) i = f d i)
    (houtside : ∀ d i, i ∉ domain → f (d + 1) i = f d i)
    (hlast : ∀ d, f d = f (d + 1) → f (d + 1) = f (d + 2)) {d : Nat} (hd : domain.card ≤ d) :
    f d = f domain.card := by
  classical
  let found (d : Nat) : Finset ι := domain.filter (f d · ≠ bot)
  have hsubset : ∀ d, found d ⊆ found (d + 1) := by
    intro d i hi
    rw [Finset.mem_filter] at hi ⊢
    exact ⟨hi.1, (hstays d i hi.2).symm ▸ hi.2⟩
  have hsame : ∀ d, (found d).card = (found (d + 1)).card → f d = f (d + 1) := by
    intro d hcard
    have heq : found d = found (d + 1) := Finset.eq_of_subset_of_card_le (hsubset d) hcard.ge
    funext i
    by_cases hi : i ∈ domain
    · by_cases hbot : f d i = bot
      · by_contra hne
        have hnew : i ∈ found (d + 1) :=
          Finset.mem_filter.mpr ⟨hi, fun h => hne (hbot.trans h.symm)⟩
        rw [← heq] at hnew
        exact (Finset.mem_filter.mp hnew).2 hbot
      · exact (hstays d i hbot).symm
    · exact (houtside d i hi).symm
  have hcard : ∀ {d}, domain.card ≤ d → (found d).card = (found domain.card).card := by
    have hmono : Monotone fun d => (found d).card :=
      monotone_nat_of_le_succ fun d => Finset.card_le_card (hsubset d)
    intro d hd
    refine Nat.stabilises_of_monotone hmono (fun d => Finset.card_filter_le _ _)
      (fun d heq => ?_) hd
    have hnext := hlast d (hsame d heq)
    simp only [found, hnext]
  induction d, hd using Nat.le_induction with
  | base => rfl
  | succ d hd ih =>
    rw [← ih, hsame d ((hcard hd).trans (hcard (Nat.le_succ_of_le hd)).symm)]

end

/-- The cells of a heap. -/
def Heap.all (h : Heap) : Finset Cell := (Finset.range h.size).map ⟨Cell.mk, fun _ _ => Cell.mk.inj⟩

theorem Heap.card_all (h : Heap) : h.all.card = h.size := by
  rw [all, Finset.card_map, Finset.card_range]

theorem Heap.mem_all {h : Heap} {cell : Cell} : cell ∈ h.all ↔ h.Has cell := by
  rw [all, Finset.mem_map]
  constructor
  · rintro ⟨i, hi, rfl⟩
    exact Finset.mem_range.mp hi
  · intro hc
    exact ⟨cell.index, Finset.mem_range.mpr hc, rfl⟩

namespace Value

/-! ## What a copy fails on -/

mutual

/-- The first thing in a value that cannot be copied, given that of its cells. -/
def obstacleWith (cells : Cell → Option CopyError) : Value → Option CopyError
  | .plain _ => none
  | .list items => itemObstacle cells items
  | .map entries => entryObstacle cells entries
  | .shared cell => cells cell
  | .foreign payload => some (.foreign payload.typeName)

/-- The first thing in the items of a list that cannot be copied. -/
def itemObstacle (cells : Cell → Option CopyError) : List Value → Option CopyError
  | [] => none
  | item :: rest => (obstacleWith cells item).or (itemObstacle cells rest)

/-- The first thing in the entries of a map that cannot be copied. -/
def entryObstacle (cells : Cell → Option CopyError) : List (String × Value) → Option CopyError
  | [] => none
  | (_, value) :: rest => (obstacleWith cells value).or (entryObstacle cells rest)

end

section

variable {cells cells' : Cell → Option CopyError}

@[simp] theorem obstacleWith_list (items : List Value) :
    obstacleWith cells (.list items) = items.findSome? (obstacleWith cells) := by
  rw [obstacleWith]
  induction items with
  | nil => rw [itemObstacle, List.findSome?_nil]
  | cons item rest ih =>
    rw [itemObstacle, List.findSome?_cons, ih]
    cases obstacleWith cells item <;> rfl

@[simp] theorem obstacleWith_map (entries : List (String × Value)) :
    obstacleWith cells (.map entries) = entries.findSome? fun e => obstacleWith cells e.2 := by
  rw [obstacleWith]
  induction entries with
  | nil => rw [entryObstacle, List.findSome?_nil]
  | cons e rest ih =>
    rw [entryObstacle, List.findSome?_cons, ih]
    cases obstacleWith cells e.2 <;> rfl

private theorem findSome?_stays {α : Type} {as : List α} {p q : α → Option CopyError}
    (hstays : ∀ a ∈ as, p a ≠ some .endless → q a = p a)
    (hne : as.findSome? p ≠ some .endless) : as.findSome? q = as.findSome? p := by
  induction as with
  | nil => rfl
  | cons a rest ih =>
    rw [List.forall_mem_cons] at hstays
    rw [List.findSome?_cons] at hne ⊢
    rw [List.findSome?_cons]
    cases hp : p a with
    | none =>
      rw [hstays.1 (by rw [hp]; nofun), hp]
      rw [hp] at hne
      exact ih hstays.2 hne
    | some e =>
      rw [hp] at hne
      rw [hstays.1 (by rw [hp]; exact hne), hp]

/-- If what cells fail on stays unless it is endless, then so does what values fail on. -/
theorem obstacleWith_stays (hstays : ∀ cell, cells cell ≠ some .endless → cells' cell = cells cell)
    {v : Value} (hne : obstacleWith cells v ≠ some .endless) :
    obstacleWith cells' v = obstacleWith cells v := by
  induction v using Value.induction with
  | plain data => simp only [obstacleWith]
  | foreign payload => simp only [obstacleWith]
  | shared cell =>
    rw [obstacleWith] at hne ⊢
    rw [obstacleWith, hstays cell hne]
  | list items ih =>
    rw [obstacleWith_list] at hne ⊢
    rw [obstacleWith_list]
    exact findSome?_stays ih hne
  | map entries ih =>
    rw [obstacleWith_map] at hne ⊢
    rw [obstacleWith_map]
    exact findSome?_stays ih hne

end

/-- What copying a cell fails on, through at most `depth` cells on a path. -/
def obstacleCell (h : Heap) : Nat → Cell → Option CopyError
  | 0, _ => some .endless
  | depth + 1, cell => (h.read? cell).elim (some .endless) (obstacleWith (obstacleCell h depth))

/-- More depth than there are cells changes nothing. -/
theorem obstacleCell_stable (h : Heap) {depth : Nat} (hd : h.size ≤ depth) :
    obstacleCell h depth = obstacleCell h h.size := by
  rw [← h.card_all] at hd ⊢
  refine eq_of_card_le h.all (some .endless) (fun d cell hne => ?_) (fun d cell hc => ?_)
    (fun d heq => ?_) hd
  · induction d generalizing cell with
    | zero => exact absurd rfl hne
    | succ d ih =>
      rw [obstacleCell] at hne ⊢
      rw [obstacleCell]
      cases hr : h.read? cell with
      | none => rfl
      | some v =>
        rw [hr] at hne
        exact obstacleWith_stays ih hne
  · have hr : h.read? cell = none :=
      Heap.read?_eq_none_iff.mpr (Nat.le_of_not_lt fun hlt => hc (Heap.mem_all.mpr hlt))
    cases d <;> simp [obstacleCell, hr]
  · funext cell
    rw [obstacleCell, obstacleCell, heq]

end Value

/-- A result of copying that grew a heap, or failed on an obstacle. -/
inductive Meets {α : Type} (base : Heap) :
    Option CopyError → Except CopyError (α × Heap) → Prop
  /-- There is no obstacle. -/
  | ok {a : α} {h : Heap} (hle : base ≤ h) : Meets base none (.ok (a, h))
  /-- There is one. -/
  | error (e : CopyError) : Meets base (some e) (.error e)

section

variable {α β : Type} {base : Heap} {copy copy' : α → Heap → Except CopyError (α × Heap)}

/-- What is built from a result fails on the same obstacle. -/
theorem Meets.map {obstacle : Option CopyError} {result : Except CopyError (α × Heap)}
    (hmeets : Meets base obstacle result) (build : α → β) :
    Meets base obstacle (result.map (Prod.map build id)) := by
  cases hmeets with
  | ok hle => exact .ok hle
  | error e => exact .error e

/-- A list fails on the first of its members that does. -/
theorem meets_copyEach {as : List α} {obstacle : α → Option CopyError}
    (hcopy : ∀ a ∈ as, ∀ h, base ≤ h → Meets base (obstacle a) (copy a h)) {h : Heap}
    (hle : base ≤ h) : Meets base (as.findSome? obstacle) (copyEach copy as h) := by
  induction as generalizing h with
  | nil => exact .ok hle
  | cons a rest ih =>
    rw [List.forall_mem_cons] at hcopy
    rw [copyEach_cons, List.findSome?_cons]
    have hhead := hcopy.1 h hle
    generalize obstacle a = o at hhead
    generalize copy a h = result at hhead
    cases hhead with
    | error e => exact .error e
    | @ok b h₁ hle₁ => exact (ih hcopy.2 hle₁).map (b :: ·)

/-- What was copied is copied alike by whatever copies the members alike. -/
theorem copyEach_mono {as bs : List α} {h h' : Heap}
    (hcopy : ∀ a ∈ as, ∀ h b h', copy a h = .ok (b, h') → copy' a h = .ok (b, h'))
    (hok : copyEach copy as h = .ok (bs, h')) : copyEach copy' as h = .ok (bs, h') := by
  induction as generalizing h bs with
  | nil => exact hok
  | cons a rest ih =>
    rw [List.forall_mem_cons] at hcopy
    obtain ⟨b, h₁, tail, hhead, htail, rfl⟩ := copyEach_cons_eq_ok_iff.mp hok
    exact copyEach_cons_eq_ok_iff.mpr ⟨b, h₁, tail, hcopy.1 _ _ _ hhead, ih hcopy.2 htail, rfl⟩

end

namespace Value

/-! ## How far a copy goes -/

section

variable {base : Heap} {cells cells' : Cell → Heap → Except CopyError (Cell × Heap)}
  {obstacle : Cell → Option CopyError}

/-- If cells fail on their obstacles then so do values over them. -/
theorem meets_copyWith
    (hcells : ∀ cell h, base.Has cell → base ≤ h → Meets base (obstacle cell) (cells cell h))
    {v : Value} (hv : v.Within base.Has) {h : Heap} (hle : base ≤ h) :
    Meets base (obstacleWith obstacle v) (copyWith cells v h) := by
  induction v using Value.induction generalizing h with
  | plain data =>
    rw [obstacleWith, copyWith]
    exact .ok hle
  | foreign payload =>
    rw [obstacleWith, copyWith]
    exact .error _
  | shared cell =>
    rw [obstacleWith, copyWith_shared]
    exact (hcells cell h (within_shared.mp hv) hle).map Value.shared
  | list items ih =>
    have hitems : Meets base _ (copyEach (copyWith cells) items h) :=
      meets_copyEach (fun item hi h hle => ih item hi (within_list.mp hv item hi) hle) hle
    rw [obstacleWith_list, copyWith_list]
    exact hitems.map Value.list
  | map entries ih =>
    have hentries : Meets base (entries.findSome? fun e => obstacleWith obstacle e.2)
        (copyEach (copyUnderKey (copyWith cells)) entries h) :=
      meets_copyEach (fun e he h hle => by
        rw [copyUnderKey_eq_map]
        exact (ih e he (within_map.mp hv e he) hle).map (e.1, ·)) hle
    rw [obstacleWith_map, copyWith_map]
    exact hentries.map Value.map

/-- What was copied is copied alike by whatever copies the cells alike. -/
theorem copyWith_mono
    (hcells : ∀ cell h c h', cells cell h = .ok (c, h') → cells' cell h = .ok (c, h'))
    {v v' : Value} {h h' : Heap} (hok : copyWith cells v h = .ok (v', h')) :
    copyWith cells' v h = .ok (v', h') := by
  induction v using Value.induction generalizing h v' h' with
  | plain data => exact hok
  | foreign payload => cases hok
  | shared cell =>
    rw [copyWith_shared, built_eq_ok_iff] at hok ⊢
    obtain ⟨c, hc, rfl⟩ := hok
    exact ⟨c, hcells cell h c h' hc, rfl⟩
  | list items ih =>
    rw [copyWith_list, built_eq_ok_iff] at hok ⊢
    obtain ⟨items', hitems, rfl⟩ := hok
    exact ⟨items', copyEach_mono (fun item hi h b h' => ih item hi) hitems, rfl⟩
  | map entries ih =>
    rw [copyWith_map, built_eq_ok_iff] at hok ⊢
    obtain ⟨entries', hentries, rfl⟩ := hok
    refine ⟨entries', copyEach_mono (fun e he h b h' hb => ?_) hentries, rfl⟩
    rw [copyUnderKey_eq_ok_iff] at hb ⊢
    exact ⟨hb.1, ih e he hb.2⟩

end

/-- Copying fails on the first obstacle in the order of the value, and on nothing else. -/
theorem meets_copyWithin {base : Heap} (hclosed : base.Closed base.Has) {depth : Nat} {v : Value}
    (hv : v.Within base.Has) {h : Heap} (hle : base ≤ h) :
    Meets base (obstacleWith (obstacleCell base depth) v) (copyWithin depth v h) := by
  induction depth generalizing v h with
  | zero => exact meets_copyWith (fun cell h _ _ => .error _) hv hle
  | succ depth ih =>
    refine meets_copyWith (fun cell h hhas hle => ?_) hv hle
    obtain ⟨w, hw⟩ := Heap.exists_read?_of_has hhas
    rw [obstacleCell, hw, Option.elim_some, copyCell, Heap.read?_of_le hle hw]
    have hinside := ih (hclosed cell w hhas hw) hle
    generalize obstacleWith (obstacleCell base depth) w = o at hinside
    simp only
    generalize copyWithin depth w h = result at hinside
    cases hinside with
    | error e => exact .error e
    | @ok w' h₁ hle₁ => exact .ok (hle₁.trans (h₁.le_alloc w'))

/-- What was copied is copied alike with more depth. -/
theorem copyWithin_mono {depth larger : Nat} (hle : depth ≤ larger) {v v' : Value} {h h' : Heap}
    (hok : copyWithin depth v h = .ok (v', h')) : copyWithin larger v h = .ok (v', h') := by
  induction depth generalizing larger v v' h h' with
  | zero => cases larger <;> exact copyWith_mono (fun cell h c h' hc => by cases hc) hok
  | succ depth ih =>
    obtain ⟨larger, rfl⟩ := Nat.exists_eq_add_of_le' hle
    refine copyWith_mono (fun cell h c h' hc => ?_) hok
    obtain ⟨w, w', h₁, hw, hin, halloc⟩ := copyCell_eq_ok_iff.mp hc
    exact copyCell_eq_ok_iff.mpr ⟨w, w', h₁, hw, ih (Nat.le_add_left depth larger) hin, halloc⟩

/-- What a deep copy fails on. -/
def obstacle (h : Heap) (v : Value) : Option CopyError := obstacleWith (obstacleCell h h.size) v

/-- With more depth than there are cells, and however much the heap has grown, copying fails on the
obstacle of the value, and on nothing else. -/
theorem meets_obstacle {base : Heap} (hclosed : base.Closed base.Has) {v : Value}
    (hv : v.Within base.Has) {h : Heap} (hle : base ≤ h) {depth : Nat} (hd : base.size ≤ depth) :
    Meets base (v.obstacle base) (copyWithin depth v h) := by
  rw [obstacle, ← obstacleCell_stable base hd]
  exact meets_copyWithin hclosed hv hle

/-- A deep copy that is made later fails on the same obstacle. -/
theorem meets_copy {base : Heap} (hclosed : base.Closed base.Has) {v : Value}
    (hv : v.Within base.Has) {h : Heap} (hle : base ≤ h) :
    Meets base (v.obstacle base) (v.copy h) :=
  meets_obstacle hclosed hv hle hle.1

/-- More depth than there are cells copies alike. -/
theorem copyWithin_stable {h : Heap} (hclosed : h.Closed h.Has) {v : Value} (hv : v.Within h.Has)
    {depth : Nat} (hd : h.size ≤ depth) : copyWithin depth v h = v.copy h := by
  have hfull := meets_copy hclosed hv (le_refl h)
  have hmore := meets_obstacle hclosed hv (le_refl h) hd
  cases hcopy : v.copy h with
  | ok result => exact copyWithin_mono hd hcopy
  | error e =>
    rw [hcopy] at hfull
    generalize v.obstacle h = o at hfull hmore
    generalize copyWithin depth v h = result at hmore
    cases hfull
    cases hmore
    rfl

/-! ## How far a comparison goes -/

section

variable {cells cells' : Cell → Cell → Option Bool}

private theorem sameItems_stays {as bs : List Value}
    (hstays : ∀ a ∈ as, ∀ b, sameWith cells a b ≠ none → sameWith cells' a b = sameWith cells a b)
    (hne : sameItems cells as bs ≠ none) : sameItems cells' as bs = sameItems cells as bs := by
  induction as generalizing bs with
  | nil => cases bs <;> simp only [sameItems]
  | cons a as ih =>
    rw [List.forall_mem_cons] at hstays
    cases bs with
    | nil => simp only [sameItems]
    | cons b bs =>
      rw [sameItems] at hne ⊢
      rw [sameItems]
      cases hsame : sameWith cells a b with
      | none => simp [hsame] at hne
      | some r =>
        rw [hstays.1 b (by rw [hsame]; exact Option.some_ne_none r), hsame]
        rw [hsame] at hne
        cases r with
        | true => exact ih hstays.2 hne
        | false => rfl

private theorem sameEntries_stays {as bs : List (String × Value)}
    (hstays : ∀ a ∈ as, ∀ b, sameWith cells a.2 b ≠ none →
      sameWith cells' a.2 b = sameWith cells a.2 b)
    (hne : sameEntries cells as bs ≠ none) :
    sameEntries cells' as bs = sameEntries cells as bs := by
  induction as generalizing bs with
  | nil => cases bs <;> simp only [sameEntries]
  | cons a as ih =>
    rw [List.forall_mem_cons] at hstays
    obtain ⟨j, a⟩ := a
    cases bs with
    | nil => simp only [sameEntries]
    | cons b bs =>
      obtain ⟨k, b⟩ := b
      rw [sameEntries] at hne ⊢
      rw [sameEntries]
      by_cases hkey : j = k
      · rw [if_pos hkey] at hne ⊢
        rw [if_pos hkey]
        cases hsame : sameWith cells a b with
        | none => simp [hsame] at hne
        | some r =>
          rw [hstays.1 b (by rw [hsame]; exact Option.some_ne_none r), hsame]
          rw [hsame] at hne
          cases r with
          | true => exact ih hstays.2 hne
          | false => rfl
      · rw [if_neg hkey, if_neg hkey]

/-- If the comparison of cells stays where it ends, then so does that of values. -/
theorem sameWith_stays (hstays : ∀ c d, cells c d ≠ none → cells' c d = cells c d) {a b : Value}
    (hne : sameWith cells a b ≠ none) : sameWith cells' a b = sameWith cells a b := by
  by_cases hshape : a.shape = b.shape
  · induction a using Value.induction generalizing b with
    | plain data => cases b <;> simp only [sameWith]
    | foreign payload => cases b <;> simp only [sameWith]
    | shared c =>
      cases b with
      | shared d => exact hstays c d hne
      | plain | list | map | foreign => cases hshape
    | list items ih =>
      cases b with
      | list others =>
        rw [sameWith] at hne ⊢
        rw [sameWith]
        split
        next hlength =>
          rw [if_pos hlength] at hne
          refine sameItems_stays (fun v hv b hne => ?_) hne
          by_cases hshape : v.shape = b.shape
          · exact ih v hv hne hshape
          · rw [sameWith_of_shape_ne hshape, sameWith_of_shape_ne hshape]
        next => rfl
      | plain | map | shared | foreign => cases hshape
    | map entries ih =>
      cases b with
      | map others =>
        rw [sameWith] at hne ⊢
        rw [sameWith]
        split
        next hlength =>
          rw [if_pos hlength] at hne
          refine sameEntries_stays (fun e he b hne => ?_) hne
          by_cases hshape : e.2.shape = b.shape
          · exact ih e he hne hshape
          · rw [sameWith_of_shape_ne hshape, sameWith_of_shape_ne hshape]
        next => rfl
      | plain | list | shared | foreign => cases hshape
  · rw [sameWith_of_shape_ne hshape, sameWith_of_shape_ne hshape]

end

/-- The comparison of two cells stays where it ends. -/
theorem sameCellWithin_stays (h : Heap) {depth : Nat} {c d : Cell}
    (hne : sameCellWithin h depth c d ≠ none) :
    sameCellWithin h (depth + 1) c d = sameCellWithin h depth c d := by
  induction depth generalizing c d with
  | zero =>
    rw [sameCellWithin, sameCell] at hne ⊢
    rw [sameCellWithin, sameCell]
    split
    next => rfl
    next hcd =>
      rw [if_neg hcd] at hne
      split at hne <;> exact absurd rfl hne
  | succ depth ih =>
    rw [sameCellWithin, sameCell] at hne ⊢
    rw [sameCellWithin, sameCell]
    split
    next => rfl
    next hcd =>
      rw [if_neg hcd] at hne
      split at hne
      next v w hv hw =>
        rw [sameWithin_eq_sameWith] at hne ⊢
        rw [sameWithin_eq_sameWith]
        exact sameWith_stays (fun c d => ih) hne
      next => exact absurd rfl hne

/-- More depth than there are pairs of cells compares cells alike. -/
theorem sameCellWithin_stable (h : Heap) {depth : Nat} (hd : h.size * h.size ≤ depth) :
    sameCellWithin h depth = sameCellWithin h (h.size * h.size) := by
  have hcard : (h.all ×ˢ h.all).card = h.size * h.size := by
    rw [Finset.card_product, h.card_all]
  rw [← hcard] at hd ⊢
  have hpairs := eq_of_card_le (f := fun depth (pair : Cell × Cell) =>
    sameCellWithin h depth pair.1 pair.2) (h.all ×ˢ h.all) none
    (fun depth pair hne => sameCellWithin_stays h hne) (fun depth pair hpair => ?_)
    (fun depth heq => ?_) hd
  · funext c d
    exact congrFun hpairs (c, d)
  · -- One of the two cells is missing, so nothing is compared but their identity.
    have hmissing : h.read? pair.1 = none ∨ h.read? pair.2 = none := by
      rw [Finset.mem_product, Heap.mem_all, Heap.mem_all, not_and_or] at hpair
      exact hpair.imp (fun hc => Heap.read?_eq_none_iff.mpr (Nat.le_of_not_lt hc))
        fun hc => Heap.read?_eq_none_iff.mpr (Nat.le_of_not_lt hc)
    have hinside : ∀ inside, sameCell h inside pair.1 pair.2 =
        if pair.1 = pair.2 then some true else none := by
      intro inside
      rw [sameCell]
      rcases hmissing with hr | hr
      · rw [hr]
      · rw [hr]
        cases h.read? pair.1 <;> rfl
    cases depth <;> simp only [sameCellWithin, hinside]
  · funext pair
    have hcells : sameCellWithin h depth = sameCellWithin h (depth + 1) := by
      funext c d
      exact congrFun heq (c, d)
    have hvalues : sameWithin h depth = sameWithin h (depth + 1) := by
      funext a b
      rw [sameWithin_eq_sameWith, sameWithin_eq_sameWith, hcells]
    simp only [sameCellWithin, hvalues]

/-- More depth than there are pairs of cells compares values alike. -/
theorem sameWithin_stable {h : Heap} {depth : Nat} (hd : h.size * h.size ≤ depth) (a b : Value) :
    sameWithin h depth a b = same? h a b := by
  rw [same?, sameWithin_eq_sameWith, sameWithin_eq_sameWith, sameCellWithin_stable h hd]

end Value

end OverlayStore
