import OverlayStore.Proofs.Cells.Faithful

/-!
# Laws of equality

Equality of values is symmetric and transitive, although a cell is equal to another one either by
being the same one or by what it holds. A value equals itself unless it shows a float that is no
number outside of all cells. Without such a float anywhere, equality is that of contents, and then
it makes no difference which cells are the same one.
-/

namespace OverlayStore

/-! ## Plain data -/

/-- The pattern of one of the two zeros. -/
def Single.IsZero (x : Single) : Prop := x.bits = 0 ∨ x.bits = 0x80000000

/-- The pattern of one of the two zeros. -/
def Double.IsZero (x : Double) : Prop := x.bits = 0 ∨ x.bits = 0x8000000000000000

theorem Single.magnitude_eq_zero_iff {x : Single} : x.magnitude = 0 ↔ x.IsZero := by
  have hlt := x.bits.toNat_lt
  simp only [IsZero, magnitude, ← UInt32.toNat_inj, UInt32.toNat_and, UInt32.reduceToNat]
  rw [Nat.and_two_pow_sub_one_eq_mod x.bits.toNat 31]
  omega

theorem Double.magnitude_eq_zero_iff {x : Double} : x.magnitude = 0 ↔ x.IsZero := by
  have hlt := x.bits.toNat_lt
  simp only [IsZero, magnitude, ← UInt64.toNat_inj, UInt64.toNat_and, UInt64.reduceToNat]
  rw [Nat.and_two_pow_sub_one_eq_mod x.bits.toNat 63]
  omega

/-- The same plain data, or two zeros of the same width. -/
inductive Plain.Agrees : Plain → Plain → Prop
  /-- Identical data. -/
  | refl (data : Plain) : Agrees data data
  /-- Two zeros of 32 bits. -/
  | floats {x y : Single} (hx : x.IsZero) (hy : y.IsZero) : Agrees (.float x) (.float y)
  /-- Two zeros of 64 bits. -/
  | doubles {x y : Double} (hx : x.IsZero) (hy : y.IsZero) : Agrees (.double x) (.double y)

/-- A float with the pattern of a zero is a number. -/
theorem Single.IsZero.isNaN_eq {x : Single} (hx : x.IsZero) : x.isNaN = false := by
  rw [isNaN, magnitude_eq_zero_iff.mpr hx]
  rfl

/-- A float with the pattern of a zero is a number. -/
theorem Double.IsZero.isNaN_eq {x : Double} (hx : x.IsZero) : x.isNaN = false := by
  rw [isNaN, magnitude_eq_zero_iff.mpr hx]
  rfl

/-- A single equals the same bits and, if it is a zero, every zero, unless it is not a number. -/
theorem Single.same_eq_true_iff {x y : Single} :
    x.same y = true ↔ x.isNaN = false ∧ (x = y ∨ x.IsZero ∧ y.IsZero) := by
  obtain ⟨m⟩ := x
  obtain ⟨n⟩ := y
  simp only [same, Bool.and_eq_true, Bool.not_eq_true', Bool.or_eq_true, beq_iff_eq,
    magnitude_eq_zero_iff, Single.mk.injEq]
  constructor
  · exact fun h => ⟨h.1.1, h.2⟩
  · rintro ⟨hm, rfl | hzeros⟩
    · exact ⟨⟨hm, hm⟩, .inl rfl⟩
    · exact ⟨⟨hm, hzeros.2.isNaN_eq⟩, .inr hzeros⟩

/-- A double equals the same bits and, if it is a zero, every zero, unless it is not a number. -/
theorem Double.same_eq_true_iff {x y : Double} :
    x.same y = true ↔ x.isNaN = false ∧ (x = y ∨ x.IsZero ∧ y.IsZero) := by
  obtain ⟨m⟩ := x
  obtain ⟨n⟩ := y
  simp only [same, Bool.and_eq_true, Bool.not_eq_true', Bool.or_eq_true, beq_iff_eq,
    magnitude_eq_zero_iff, Double.mk.injEq]
  constructor
  · exact fun h => ⟨h.1.1, h.2⟩
  · rintro ⟨hm, rfl | hzeros⟩
    · exact ⟨⟨hm, hm⟩, .inl rfl⟩
    · exact ⟨⟨hm, hzeros.2.isNaN_eq⟩, .inr hzeros⟩

namespace Plain

/-- Plain data is equal if it is the same up to the sign of a zero, and a number if it is a
float. -/
theorem same_eq_true_iff {a b : Plain} : a.same b = true ↔ a.isNaN = false ∧ a.Agrees b := by
  constructor
  · intro hsame
    cases a with
    | float x =>
      cases b with
      | float y =>
        obtain ⟨hnumber, rfl | ⟨hx, hy⟩⟩ := Single.same_eq_true_iff.mp hsame
        · exact ⟨hnumber, .refl _⟩
        · exact ⟨hnumber, .floats hx hy⟩
      | _ => cases hsame
    | double x =>
      cases b with
      | double y =>
        obtain ⟨hnumber, rfl | ⟨hx, hy⟩⟩ := Double.same_eq_true_iff.mp hsame
        · exact ⟨hnumber, .refl _⟩
        · exact ⟨hnumber, .doubles hx hy⟩
      | _ => cases hsame
    | _ =>
      cases b <;> simp only [same, beq_iff_eq, reduceCtorEq] at hsame
      rw [hsame]
      exact ⟨rfl, .refl _⟩
  · rintro ⟨hnumber, hagrees⟩
    cases hagrees with
    | refl => rw [same_self, hnumber]; rfl
    | floats hx hy => exact Single.same_eq_true_iff.mpr ⟨hnumber, .inr ⟨hx, hy⟩⟩
    | doubles hx hy => exact Double.same_eq_true_iff.mpr ⟨hnumber, .inr ⟨hx, hy⟩⟩

theorem Agrees.trans {a b c : Plain} (hab : a.Agrees b) (hbc : b.Agrees c) : a.Agrees c := by
  cases hab with
  | refl => exact hbc
  | floats hx hy =>
    cases hbc with
    | refl => exact .floats hx hy
    | floats _ hz => exact .floats hx hz
  | doubles hx hy =>
    cases hbc with
    | refl => exact .doubles hx hy
    | doubles _ hz => exact .doubles hx hz

theorem same_symm {a b : Plain} (h : a.same b = true) : b.same a = true := by
  cases a <;> cases b <;> simp_all [same, Single.same_comm, Double.same_comm]

theorem same_trans {a b c : Plain} (hab : a.same b = true) (hbc : b.same c = true) :
    a.same c = true := by
  rw [same_eq_true_iff] at *
  exact ⟨hab.1, hab.2.trans hbc.2⟩

end Plain

/-- Payloads are equal by identity. -/
theorem Foreign.same_eq_true_iff {a b : Foreign} : a.same b = true ↔ a.serial = b.serial :=
  beq_iff_eq

theorem Foreign.same_symm {a b : Foreign} (h : a.same b = true) : b.same a = true :=
  same_eq_true_iff.mpr (same_eq_true_iff.mp h).symm

theorem Foreign.same_trans {a b c : Foreign} (hab : a.same b = true) (hbc : b.same c = true) :
    a.same c = true :=
  same_eq_true_iff.mpr ((same_eq_true_iff.mp hab).trans (same_eq_true_iff.mp hbc))

/-! ## One comparison -/

private theorem forall₂_trans {α : Type} {p : α → Prop} {R S T : α → α → Prop}
    {as bs cs : List α} (hab : List.Forall₂ R as bs) (hbc : List.Forall₂ S bs cs)
    (hp : ∀ a ∈ as, p a) (h : ∀ a b c, p a → R a b → S b c → T a c) : List.Forall₂ T as cs := by
  induction hab generalizing cs with
  | nil =>
    cases hbc
    exact .nil
  | cons ha hrest ih =>
    rw [List.forall_mem_cons] at hp
    cases hbc with
    | cons hb hrest' => exact .cons (h _ _ _ hp.1 ha hb) (ih hrest' hp.2)

namespace Value

section

variable {cells : Cell → Cell → Option Bool}

/-- Equal lists are equal one by one. -/
theorem sameItems_eq_true_iff {as bs : List Value} : sameItems cells as bs = some true ↔
    List.Forall₂ (fun a b => sameWith cells a b = some true) as bs := by
  induction as generalizing bs with
  | nil => cases bs <;> simp [sameItems]
  | cons a as ih =>
    cases bs with
    | nil => simp [sameItems]
    | cons b bs =>
      rw [sameItems, List.forall₂_cons, ← ih]
      split
      next hsame => rw [hsame]; simp
      next hother => exact ⟨fun h => absurd h hother, fun h => absurd h.1 hother⟩

/-- Equal entries have equal values under the same keys. -/
theorem sameEntries_eq_true_iff {as bs : List (String × Value)} :
    sameEntries cells as bs = some true ↔
      List.Forall₂ (fun a b => a.1 = b.1 ∧ sameWith cells a.2 b.2 = some true) as bs := by
  induction as generalizing bs with
  | nil => cases bs <;> simp [sameEntries]
  | cons a as ih =>
    obtain ⟨j, a⟩ := a
    cases bs with
    | nil => simp [sameEntries]
    | cons b bs =>
      obtain ⟨k, b⟩ := b
      rw [sameEntries, List.forall₂_cons, ← ih]
      by_cases hkey : j = k
      · rw [if_pos hkey]
        split
        next hsame => rw [hsame]; simp [hkey]
        next hother => exact ⟨fun h => absurd h hother, fun h => absurd h.1.2 hother⟩
      · simp [hkey]

/-- Lists are equal if they are item by item. -/
theorem sameWith_list_iff {as bs : List Value} :
    sameWith cells (.list as) (.list bs) = some true ↔
      List.Forall₂ (fun a b => sameWith cells a b = some true) as bs := by
  rw [sameWith, ← sameItems_eq_true_iff]
  split
  next => rfl
  next hne =>
    have hnot : sameItems cells as bs ≠ some true := fun h =>
      hne (sameItems_eq_true_iff.mp h).length_eq
    simpa using hnot

/-- Maps are equal if they are entry by entry. -/
theorem sameWith_map_iff {as bs : List (String × Value)} :
    sameWith cells (.map as) (.map bs) = some true ↔
      List.Forall₂ (fun a b => a.1 = b.1 ∧ sameWith cells a.2 b.2 = some true) as bs := by
  rw [sameWith, ← sameEntries_eq_true_iff]
  split
  next => rfl
  next hne =>
    have hnot : sameEntries cells as bs ≠ some true := fun h =>
      hne (sameEntries_eq_true_iff.mp h).length_eq
    simpa using hnot

/-- If equality of cells is symmetric, then so is that of values. -/
theorem sameWith_symm (hcells : ∀ c d, cells c d = some true → cells d c = some true)
    {a b : Value} (hab : sameWith cells a b = some true) : sameWith cells b a = some true := by
  induction a using Value.induction generalizing b with
  | plain data =>
    cases b with
    | plain other => exact congrArg some (Plain.same_symm (Option.some.inj hab))
    | list | map | shared | foreign => cases hab
  | foreign payload =>
    cases b with
    | foreign other => exact congrArg some (Foreign.same_symm (Option.some.inj hab))
    | plain | list | map | shared => cases hab
  | shared c =>
    cases b with
    | shared d => exact hcells c d hab
    | plain | list | map | foreign => cases hab
  | list items ih =>
    cases b with
    | list others =>
      rw [sameWith_list_iff] at hab ⊢
      have hitems := (List.forall₂_and_left _ _).mpr ⟨ih, hab⟩
      exact (hitems.imp fun a b h => h.1 h.2).flip
    | plain | map | shared | foreign => cases hab
  | map entries ih =>
    cases b with
    | map others =>
      rw [sameWith_map_iff] at hab ⊢
      have hentries := (List.forall₂_and_left _ _).mpr ⟨ih, hab⟩
      exact (hentries.imp fun a b h => ⟨h.2.1.symm, h.1 h.2.2⟩).flip
    | plain | list | shared | foreign => cases hab

/-- If equality of cells is transitive, then so is that of values. -/
theorem sameWith_trans
    (hcells : ∀ c d e, cells c d = some true → cells d e = some true → cells c e = some true)
    {a b c : Value} (hab : sameWith cells a b = some true) (hbc : sameWith cells b c = some true) :
    sameWith cells a c = some true := by
  induction a using Value.induction generalizing b c with
  | plain data =>
    cases b with
    | plain other =>
      cases c with
      | plain last =>
        exact congrArg some (Plain.same_trans (Option.some.inj hab) (Option.some.inj hbc))
      | list | map | shared | foreign => cases hbc
    | list | map | shared | foreign => cases hab
  | foreign payload =>
    cases b with
    | foreign other =>
      cases c with
      | foreign last =>
        exact congrArg some (Foreign.same_trans (Option.some.inj hab) (Option.some.inj hbc))
      | plain | list | map | shared => cases hbc
    | plain | list | map | shared => cases hab
  | shared cell =>
    cases b with
    | shared other =>
      cases c with
      | shared last => exact hcells cell other last hab hbc
      | plain | list | map | foreign => cases hbc
    | plain | list | map | foreign => cases hab
  | list items ih =>
    cases b with
    | list others =>
      cases c with
      | list last =>
        rw [sameWith_list_iff] at hab hbc ⊢
        exact forall₂_trans hab hbc ih fun u v w ih huv hvw => ih huv hvw
      | plain | map | shared | foreign => cases hbc
    | plain | map | shared | foreign => cases hab
  | map entries ih =>
    cases b with
    | map others =>
      cases c with
      | map last =>
        rw [sameWith_map_iff] at hab hbc ⊢
        exact forall₂_trans hab hbc ih fun e f g ih hef hfg =>
          ⟨hef.1.trans hfg.1, ih hef.2 hfg.2⟩
      | plain | list | shared | foreign => cases hbc
    | plain | list | shared | foreign => cases hab

end

/-- Cells are equal if they are the same one or hold equal values. -/
theorem sameCell_eq_true_iff {h : Heap} {inside : Value → Value → Option Bool} {c d : Cell} :
    sameCell h inside c d = some true ↔
      c = d ∨ ∃ v w, h.read? c = some v ∧ h.read? d = some w ∧ inside v w = some true := by
  rw [sameCell]
  split
  next heq => simp [heq]
  next hne =>
    rw [or_iff_right hne]
    split
    next v w hv hw => simp [hv, hw]
    next hnone =>
      refine iff_of_false (Option.some_ne_none true).symm ?_
      rintro ⟨v, w, hv, hw, -⟩
      exact hnone v w hv hw

section

variable {h : Heap} {inside : Value → Value → Option Bool}

/-- If equality of what cells hold is symmetric, then so is that of cells. -/
theorem sameCell_symm (hinside : ∀ v w, inside v w = some true → inside w v = some true)
    (c d : Cell) (hcd : sameCell h inside c d = some true) :
    sameCell h inside d c = some true := by
  rw [sameCell_eq_true_iff] at hcd ⊢
  obtain heq | ⟨v, w, hv, hw, hvw⟩ := hcd
  · exact .inl heq.symm
  · exact .inr ⟨w, v, hw, hv, hinside v w hvw⟩

/-- If equality of what cells hold is transitive, then so is that of cells. -/
theorem sameCell_trans
    (hinside : ∀ u v w, inside u v = some true → inside v w = some true → inside u w = some true)
    (c d e : Cell) (hcd : sameCell h inside c d = some true)
    (hde : sameCell h inside d e = some true) : sameCell h inside c e = some true := by
  rw [sameCell_eq_true_iff] at hcd
  obtain rfl | ⟨u, v, hu, hv, huv⟩ := hcd
  · exact hde
  rw [sameCell_eq_true_iff] at hde ⊢
  obtain rfl | ⟨v', w, hv', hw, hvw⟩ := hde
  · exact .inr ⟨u, v, hu, hv, huv⟩
  · cases hv.symm.trans hv'
    exact .inr ⟨u, w, hu, hw, hinside u v w huv hvw⟩

end

/-! ## Equality -/

/-- Equality at every depth is symmetric. -/
theorem sameWithin_symm {h : Heap} {depth : Nat} {a b : Value}
    (hab : sameWithin h depth a b = some true) : sameWithin h depth b a = some true := by
  induction depth generalizing a b with
  | zero =>
    refine sameWith_symm (sameCell_symm ?_) hab
    nofun
  | succ depth ih =>
    refine sameWith_symm (sameCell_symm ?_) hab
    exact fun _ _ => ih

/-- Equality at every depth is transitive. -/
theorem sameWithin_trans {h : Heap} {depth : Nat} {a b c : Value}
    (hab : sameWithin h depth a b = some true) (hbc : sameWithin h depth b c = some true) :
    sameWithin h depth a c = some true := by
  induction depth generalizing a b c with
  | zero =>
    refine sameWith_trans (sameCell_trans ?_) hab hbc
    nofun
  | succ depth ih =>
    refine sameWith_trans (sameCell_trans ?_) hab hbc
    exact fun _ _ _ => ih

theorem same?_symm {h : Heap} {a b : Value} (hab : same? h a b = some true) :
    same? h b a = some true :=
  sameWithin_symm hab

theorem same?_trans {h : Heap} {a b c : Value} (hab : same? h a b = some true)
    (hbc : same? h b c = some true) : same? h a c = some true :=
  sameWithin_trans hab hbc

/-- What two cells compare to stays when the heap grows. -/
theorem sameCellWithin_of_le {h h' : Heap} (hle : h ≤ h') {depth : Nat} {c d : Cell}
    (hne : sameCellWithin h depth c d ≠ none) :
    sameCellWithin h' depth c d = sameCellWithin h depth c d := by
  have hcell : ∀ {inside inside' : Value → Value → Option Bool},
      (∀ v w, inside v w ≠ none → inside' v w = inside v w) → ∀ {c d},
        sameCell h inside c d ≠ none → sameCell h' inside' c d = sameCell h inside c d := by
    intro inside inside' hinside c d hne
    rw [sameCell] at hne ⊢
    rw [sameCell]
    split
    next => rfl
    next hcd =>
      rw [if_neg hcd] at hne
      split at hne
      next v w hv hw =>
        rw [Heap.read?_of_le hle hv, Heap.read?_of_le hle hw]
        exact hinside v w hne
      next => exact absurd rfl hne
  induction depth generalizing c d with
  | zero => exact hcell (fun _ _ hne => absurd rfl hne) hne
  | succ depth ih =>
    refine hcell (fun v w hne => ?_) hne
    rw [sameWithin_eq_sameWith] at hne ⊢
    rw [sameWithin_eq_sameWith]
    exact sameWith_stays (fun _ _ => ih) hne

/-- What two values compare to stays when the heap grows. -/
theorem same?_of_le {h h' : Heap} (hle : h ≤ h') {a b : Value} {r : Bool}
    (hr : same? h a b = some r) : same? h' a b = some r := by
  have hsize : h.size * h.size ≤ h'.size * h'.size := Nat.mul_le_mul hle.1 hle.1
  rw [← sameWithin_stable hsize, sameWithin_eq_sameWith] at hr
  rw [same?, sameWithin_eq_sameWith, ← hr]
  refine sameWith_stays (fun _ _ => sameCellWithin_of_le hle) ?_
  rw [hr]
  exact Option.some_ne_none r

/-- Every float that is no number and that a path leads to lies beneath a cell on this path. -/
def NaNsInCells (h : Heap) (v : Value) : Prop :=
  ∀ path data, v.follow h path = some (.plain data) → data.isNaN = true →
    ∃ outer cell, outer <+: path ∧ v.LeadsTo h outer cell

/-- A handle has no data outside of cells. -/
theorem naNsInCells_shared (h : Heap) (cell : Cell) : (shared cell).NaNsInCells h :=
  fun path _ _ _ => ⟨[], cell, path.nil_prefix, leadsTo_nil.mpr rfl⟩

theorem naNsInCells_plain {h : Heap} {data : Plain} :
    (plain data).NaNsInCells h ↔ data.isNaN = false := by
  constructor
  · intro hcells
    by_contra hnan
    obtain ⟨outer, cell, hprefix, hcell⟩ := hcells [] data rfl (by simpa using hnan)
    rw [List.prefix_nil.mp hprefix] at hcell
    cases leadsTo_nil.mp hcell
  · rintro hnumber (_ | ⟨i, path⟩) other hpath hnan
    · cases hpath
      rw [hnumber] at hnan
      cases hnan
    · cases hpath

/-- What is neither plain data nor a cell hides what its parts hide. -/
theorem naNsInCells_iff_parts {h : Heap} {v : Value} (hcell : ∀ cell, v ≠ .shared cell)
    (hplain : ∀ data, v ≠ .plain data) :
    v.NaNsInCells h ↔ ∀ part ∈ v.parts h, part.NaNsInCells h := by
  constructor
  · intro hcells part hp path data hpath hnan
    obtain ⟨i, hget⟩ := List.mem_iff_getElem?.mp hp
    obtain ⟨outer, cell, hprefix, houter⟩ :=
      hcells (i :: path) data (follow_of_getElem? hget hpath) hnan
    cases outer with
    | nil => exact absurd (leadsTo_nil.mp houter) (hcell cell)
    | cons j outer =>
      obtain ⟨rfl, hbelow⟩ := List.cons_prefix_cons.mp hprefix
      obtain ⟨part', hget', hrest⟩ := leadsTo_cons.mp houter
      cases hget.symm.trans hget'
      exact ⟨outer, cell, hbelow, hrest⟩
  · rintro hcells (_ | ⟨i, path⟩) data hpath hnan
    · exact absurd (Option.some.inj hpath) (hplain data)
    · obtain ⟨part, hget, hrest⟩ := Option.bind_eq_some_iff.mp hpath
      obtain ⟨outer, cell, hprefix, houter⟩ :=
        hcells part (List.mem_of_getElem? hget) path data hrest hnan
      exact ⟨i :: outer, cell, List.cons_prefix_cons.mpr ⟨rfl, hprefix⟩,
        leadsTo_cons.mpr ⟨part, hget, houter⟩⟩

/-- If cells equal themselves, then a value does unless it shows a float that is no number outside
of them. -/
theorem sameWith_self_iff (h : Heap) {cells : Cell → Cell → Option Bool}
    (hcells : ∀ c, cells c c = some true) {a : Value} :
    sameWith cells a a = some true ↔ a.NaNsInCells h := by
  induction a using Value.induction with
  | plain data => rw [sameWith, Plain.same_self, naNsInCells_plain]; simp
  | foreign payload =>
    rw [sameWith, naNsInCells_iff_parts (v := .foreign payload) (by simp) (by simp)]
    simp [Foreign.same, parts]
  | shared cell => exact iff_of_true (hcells cell) (naNsInCells_shared h cell)
  | list items ih =>
    rw [sameWith_list_iff, List.forall₂_same,
      naNsInCells_iff_parts (v := .list items) (by simp) (by simp), parts]
    exact forall₂_congr ih
  | map entries ih =>
    rw [sameWith_map_iff, List.forall₂_same,
      naNsInCells_iff_parts (v := .map entries) (by simp) (by simp), parts]
    simp only [true_and, List.forall_mem_map]
    exact forall₂_congr ih

/-- A value equals itself unless it shows a float that is no number outside of all cells. -/
theorem same?_self_iff {h : Heap} {a : Value} : same? h a a = some true ↔ a.NaNsInCells h := by
  rw [same?, sameWithin_eq_sameWith]
  refine sameWith_self_iff h fun c => ?_
  cases h.size * h.size <;> exact sameCell_eq_true_iff.mpr (.inl rfl)

end Value

/-! ## Contents -/

/-- The same contents: up to the sign of zeros, and with the identical payloads. -/
inductive Contents.Same : Contents → Contents → Prop
  /-- The same plain data. -/
  | plain {a b : Plain} (h : a.Agrees b) : Same (.plain a) (.plain b)
  /-- Lists of the same items. -/
  | list {xs ys : List Contents} (h : List.Forall₂ Same xs ys) : Same (.list xs) (.list ys)
  /-- Maps of the same values under the same keys. -/
  | map {xs ys : List (String × Contents)} (hkeys : xs.map Prod.fst = ys.map Prod.fst)
    (hvalues : List.Forall₂ Same (xs.map Prod.snd) (ys.map Prod.snd)) : Same (.map xs) (.map ys)
  /-- Cells around the same, whether they are one cell or two. -/
  | cell {x y : Contents} (h : Same x y) : Same (.cell x) (.cell y)
  /-- One payload. -/
  | foreign {p q : Foreign} (h : p.serial = q.serial) : Same (.foreign p) (.foreign q)

namespace Contents

theorem alikeItems_eq_true_iff {xs ys : List Contents} :
    alikeItems xs ys = true ↔ List.Forall₂ (fun x y => x.alike y = true) xs ys := by
  induction xs generalizing ys with
  | nil => cases ys <;> simp [alikeItems]
  | cons x xs ih => cases ys <;> simp [alikeItems, ih]

theorem alikeEntries_eq_true_iff {xs ys : List (String × Contents)} :
    alikeEntries xs ys = true ↔ xs.map Prod.fst = ys.map Prod.fst ∧
      List.Forall₂ (fun x y => x.alike y = true) (xs.map Prod.snd) (ys.map Prod.snd) := by
  induction xs generalizing ys with
  | nil => cases ys <;> simp [alikeEntries]
  | cons x xs ih =>
    cases ys with
    | nil => simp [alikeEntries]
    | cons y ys =>
      simp only [alikeEntries, Bool.and_eq_true, beq_iff_eq, ih, List.map_cons, List.cons.injEq,
        List.forall₂_cons]
      exact and_and_and_comm

private theorem forall₂_congr_of_mem {α : Type} {R S : α → α → Prop} {as bs : List α}
    (h : ∀ a ∈ as, ∀ b, R a b ↔ S a b) : List.Forall₂ R as bs ↔ List.Forall₂ S as bs := by
  induction as generalizing bs with
  | nil => simp
  | cons a as ih =>
    rw [List.forall_mem_cons] at h
    cases bs with
    | nil => simp
    | cons b bs => rw [List.forall₂_cons, List.forall₂_cons, h.1 b, ih h.2]

theorem same_plain_iff {a b : Plain} : Same (.plain a) (.plain b) ↔ a.Agrees b := by
  refine ⟨fun hsame => ?_, .plain⟩
  cases hsame with
  | plain h => exact h

theorem same_foreign_iff {p q : Foreign} :
    Same (.foreign p) (.foreign q) ↔ p.serial = q.serial := by
  refine ⟨fun hsame => ?_, .foreign⟩
  cases hsame with
  | foreign h => exact h

/-- Cells are the same if what they hold is. -/
theorem same_cell_iff {x y : Contents} : Same (.cell x) (.cell y) ↔ x.Same y := by
  refine ⟨fun hsame => ?_, .cell⟩
  cases hsame with
  | cell h => exact h

theorem same_list_iff {xs ys : List Contents} :
    Same (.list xs) (.list ys) ↔ List.Forall₂ Same xs ys := by
  refine ⟨fun hsame => ?_, .list⟩
  cases hsame with
  | list h => exact h

/-- Maps are the same if they have the same keys with the same values under them. -/
theorem same_map_iff {xs ys : List (String × Contents)} :
    Same (.map xs) (.map ys) ↔ xs.map Prod.fst = ys.map Prod.fst ∧
      List.Forall₂ Same (xs.map Prod.snd) (ys.map Prod.snd) := by
  refine ⟨fun hsame => ?_, fun h => .map h.1 h.2⟩
  cases hsame with
  | map hkeys h => exact ⟨hkeys, h⟩

/-- Contents in which every float is a number are equal if they are the same. -/
theorem alike_eq_true_iff {x y : Contents} (hfree : x.NaNFree) : x.alike y = true ↔ x.Same y := by
  induction x using Contents.induction generalizing y with
  | plain data =>
    cases y with
    | plain other =>
      rw [alike, Plain.same_eq_true_iff, and_iff_right (naNFree_plain.mp hfree), same_plain_iff]
    | list | map | cell | foreign =>
      refine iff_of_false Bool.false_ne_true ?_
      rintro ⟨⟩
  | foreign payload =>
    cases y with
    | foreign other => rw [alike, Foreign.same_eq_true_iff, same_foreign_iff]
    | plain | list | map | cell =>
      refine iff_of_false Bool.false_ne_true ?_
      rintro ⟨⟩
  | cell inside ih =>
    cases y with
    | cell other => rw [alike, ih (naNFree_cell.mp hfree), same_cell_iff]
    | plain | list | map | foreign =>
      refine iff_of_false Bool.false_ne_true ?_
      rintro ⟨⟩
  | list items ih =>
    cases y with
    | list others =>
      have hitems : alikeItems items others = true ↔ List.Forall₂ Same items others := by
        rw [alikeItems_eq_true_iff]
        exact forall₂_congr_of_mem fun x hx y => ih x hx (naNFree_list.mp hfree x hx)
      rw [alike, Bool.and_eq_true, hitems, beq_iff_eq, same_list_iff]
      exact and_iff_right_of_imp List.Forall₂.length_eq
    | plain | map | cell | foreign =>
      refine iff_of_false Bool.false_ne_true ?_
      rintro ⟨⟩
  | map entries ih =>
    cases y with
    | map others =>
      have hentries : alikeEntries entries others = true ↔
          entries.map Prod.fst = others.map Prod.fst ∧
            List.Forall₂ Same (entries.map Prod.snd) (others.map Prod.snd) := by
        rw [alikeEntries_eq_true_iff]
        refine and_congr_right fun _ => forall₂_congr_of_mem (List.forall_mem_map.mpr ?_)
        exact fun e he y => ih e he (naNFree_map.mp hfree e he)
      have hlength :
          entries.map Prod.fst = others.map Prod.fst → entries.length = others.length := by
        intro hkeys
        simpa only [List.length_map] using congrArg List.length hkeys
      rw [alike, Bool.and_eq_true, hentries, beq_iff_eq, same_map_iff]
      exact and_iff_right_of_imp fun h => hlength h.1
    | plain | list | cell | foreign =>
      refine iff_of_false Bool.false_ne_true ?_
      rintro ⟨⟩

end Contents

namespace Value

/-- Every float that is reached is a number. -/
def NaNFree (h : Heap) (v : Value) : Prop :=
  ∀ path data, v.follow h path = some (.plain data) → data.isNaN = false

/-- A value that reaches nothing that is not a number has such contents. -/
theorem NaNFree.contents {h : Heap} {v : Value} (hfree : v.NaNFree h) {x : Contents}
    (hx : v.contents? h = some x) : x.NaNFree := by
  intro data hmem
  obtain ⟨path, hpath⟩ := (mem_leaves_iff hx (.inl data)).mp hmem
  exact hfree path data hpath

end Value

/-! ## The laws -/

/-- What equality of the values over a heap is like. -/
structure Heap.EqualityLaws (h : Heap) : Prop where
  /-- Every comparison has an answer. -/
  answers : ∀ a b : Value, a.Within h.Has → b.Within h.Has → ∃ r, a.same? h b = some r
  /-- Equality is symmetric. -/
  symm : ∀ a b : Value, a.same? h b = some true → b.same? h a = some true
  /-- Equality is transitive. -/
  trans : ∀ a b c : Value, a.same? h b = some true → b.same? h c = some true →
    a.same? h c = some true
  /-- A value equals itself exactly if every float in it that is no number lies beneath a cell. -/
  self : ∀ a : Value, a.same? h a = some true ↔ a.NaNsInCells h
  /-- A value without such a float equals exactly the values with the same contents. -/
  contents : ∀ a b : Value, a.Within h.Has → b.Within h.Has → a.NaNFree h →
    ∃ x y, a.contents? h = some x ∧ b.contents? h = some y ∧
      (a.same? h b = some true ↔ x.Same y)
  /-- Values with the same contents compare alike, whichever of their cells are the same one. -/
  aliasing : ∀ (h' : Heap) (a b a' b' : Value) (x y : Contents), a.NaNFree h →
    a.contents? h = some x → b.contents? h = some y →
    a'.contents? h' = some x → b'.contents? h' = some y → a'.same? h' b' = a.same? h b

/-- Without cycles and loose handles, equality is a partial equivalence, and that of contents where
every float is a number. -/
theorem Heap.Acyclic.equality_laws {h : Heap} (hacyclic : h.Acyclic) (hclosed : h.Closed h.Has) :
    h.EqualityLaws where
  answers a b ha hb := by
    have hends := (Value.grounded_of_acyclic hacyclic a).same?_ne_none hclosed ha hb
    exact Option.ne_none_iff_exists'.mp hends
  symm _ _ := Value.same?_symm
  trans _ _ _ := Value.same?_trans
  self _ := Value.same?_self_iff
  contents a b ha hb hfree := by
    obtain ⟨x, hx⟩ := (Value.grounded_of_acyclic hacyclic a).exists_contents hclosed ha
    obtain ⟨y, hy⟩ := (Value.grounded_of_acyclic hacyclic b).exists_contents hclosed hb
    have hnumbers := hfree.contents hx
    refine ⟨x, y, hx, hy, ?_⟩
    rw [Value.same?_eq hx hy hnumbers, Option.some.injEq, Contents.alike_eq_true_iff hnumbers]
  aliasing h' a b a' b' x y hfree hx hy hx' hy' := by
    have hnumbers := hfree.contents hx
    rw [Value.same?_eq hx hy hnumbers, Value.same?_eq hx' hy' hnumbers]

/-- A heap with the two zeros and a float that is no number in cells. -/
def Heap.zeros : Heap :=
  ⟨#[.plain (.double ⟨0⟩), .plain (.double ⟨0x8000000000000000⟩),
    .plain (.double ⟨0x7ff8000000000000⟩)], 0⟩

/-- Two names of one zero equal names of both zeros, and what is no number equals itself in its cell
but not outside of it. -/
theorem Heap.equality_laws_zeros :
    zeros.Acyclic ∧ zeros.Closed zeros.Has ∧ zeros.EqualityLaws ∧
      (Value.list [.shared ⟨0⟩, .shared ⟨0⟩]).same? zeros (.list [.shared ⟨1⟩, .shared ⟨0⟩]) =
        some true ∧
      (Value.shared ⟨2⟩).same? zeros (.shared ⟨2⟩) = some true ∧
      (Value.list [.shared ⟨2⟩, .plain (.double ⟨0x7ff8000000000000⟩)]).same? zeros
        (.list [.shared ⟨2⟩, .plain (.double ⟨0x7ff8000000000000⟩)]) = some false := by
  have hlt : ∀ cell v, zeros.read? cell = some v →
      v.Within fun inner => inner.index < cell.index := by
    rintro ⟨_ | _ | _ | i⟩ v hr <;> cases hr <;> simp [zeros]
  have hacyclic : zeros.Acyclic := acyclic_of_lt hlt
  have hclosed : zeros.Closed zeros.Has := closed_of_lt hlt
  exact ⟨hacyclic, hclosed, hacyclic.equality_laws hclosed, rfl, rfl, rfl⟩

end OverlayStore
