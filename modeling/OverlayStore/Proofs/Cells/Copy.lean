import OverlayStore.Value.Copy
import OverlayStore.Proofs.Cells.Contents

/-!
# Deep copies

A value has a copy if it has contents without a foreign payload, and in a heap without loose handles
only then. The copy has the contents of its source, the heap only grows, and the footprint of the
copy lists the new cells in the order of their making, so every one of them is reached by one path.
-/

namespace OverlayStore

/-! ## New cells -/

namespace Heap

/-- The cells made between two heaps, in the order of their making. -/
def fresh (h h' : Heap) : List Cell := (List.range' h.size (h'.size - h.size)).map Cell.mk

/-- Nothing is new where nothing happened. -/
@[simp] theorem fresh_self (h : Heap) : h.fresh h = [] := by simp [fresh]

/-- New cells lie between the two sizes. -/
theorem mem_fresh {h h' : Heap} {cell : Cell} :
    cell ∈ h.fresh h' ↔ h.size ≤ cell.index ∧ cell.index < h'.size := by
  simp only [fresh, List.mem_map, List.mem_range'_1]
  constructor
  · rintro ⟨i, hi, rfl⟩
    show h.size ≤ i ∧ i < h'.size
    omega
  · intro hc
    exact ⟨cell.index, by omega, rfl⟩

/-- No cell is new twice. -/
theorem nodup_fresh (h h' : Heap) : (h.fresh h').Nodup :=
  List.Nodup.map (fun _ _ he => congrArg Cell.index he) List.nodup_range'

/-- Cells made in two stages. -/
theorem fresh_append {h₁ h₂ h₃ : Heap} (h12 : h₁ ≤ h₂) (h23 : h₂ ≤ h₃) :
    h₁.fresh h₂ ++ h₂.fresh h₃ = h₁.fresh h₃ := by
  have hl := h12.1
  have hr := h23.1
  rw [fresh, fresh, fresh, ← List.map_append]
  congr 1
  have hs : h₂.size = h₁.size + (h₂.size - h₁.size) := by omega
  have ht : h₃.size - h₁.size = (h₂.size - h₁.size) + (h₃.size - h₂.size) := by omega
  rw [ht, ← List.range'_append_1, ← hs]

/-- One new cell is made at a time. -/
@[simp] theorem fresh_alloc (h : Heap) (v : Value) : h.fresh (h.alloc v).2 = [(h.alloc v).1] := by
  simp [fresh, alloc, size]

/-- A new cell was not there before. -/
theorem not_has_of_mem_fresh {h h' : Heap} {cell : Cell} (hc : cell ∈ h.fresh h') : ¬ h.Has cell :=
  Nat.not_lt_of_le (mem_fresh.mp hc).1

end Heap

/-! ## Copying one after the other -/

/-- What is built from a result is built if there is one. -/
theorem built_eq_ok_iff {α β : Type} {result : Except CopyError (α × Heap)} {build : α → β} {b : β}
    {h : Heap} :
    result.map (Prod.map build id) = .ok (b, h) ↔ ∃ a, result = .ok (a, h) ∧ build a = b := by
  constructor
  · intro hok
    cases result with
    | error e => cases hok
    | ok made =>
      cases hok
      exact ⟨made.1, rfl, rfl⟩
  · rintro ⟨a, rfl, rfl⟩
    rfl

/-- Copy the members of a list from first to last, each into the heap that the last one left. -/
def copyEach {α : Type} (copy : α → Heap → Except CopyError (α × Heap)) :
    List α → Heap → Except CopyError (List α × Heap)
  | [], h => .ok ([], h)
  | a :: rest, h =>
    match copy a h with
    | .ok (a, h) =>
      match copyEach copy rest h with
      | .ok (rest, h) => .ok (a :: rest, h)
      | .error e => .error e
    | .error e => .error e

theorem copyEach_cons {α : Type} (copy : α → Heap → Except CopyError (α × Heap)) (a : α)
    (rest : List α) (h : Heap) : copyEach copy (a :: rest) h =
      (copy a h).bind fun (b, h) => (copyEach copy rest h).map (Prod.map (b :: ·) id) := by
  rw [copyEach]
  cases copy a h with
  | error e => rfl
  | ok result =>
    simp only [Except.bind]
    cases copyEach copy rest result.2 <;> rfl

/-- Copy the value of an entry and keep its key. -/
def copyUnderKey {α : Type} (copy : α → Heap → Except CopyError (α × Heap))
    (entry : String × α) (h : Heap) : Except CopyError ((String × α) × Heap) :=
  match copy entry.2 h with
  | .ok (value, h) => .ok ((entry.1, value), h)
  | .error e => .error e

/-- An entry is copied by its value. -/
theorem copyUnderKey_eq_map {α : Type} (copy : α → Heap → Except CopyError (α × Heap))
    (e : String × α) (h : Heap) :
    copyUnderKey copy e h = (copy e.2 h).map (Prod.map (e.1, ·) id) := by
  rw [copyUnderKey]
  cases copy e.2 h <;> rfl

/-- A copied entry has its key and a copy of its value. -/
theorem copyUnderKey_eq_ok_iff {α : Type} {copy : α → Heap → Except CopyError (α × Heap)}
    {entry result : String × α} {h h' : Heap} :
    copyUnderKey copy entry h = .ok (result, h') ↔
      result.1 = entry.1 ∧ copy entry.2 h = .ok (result.2, h') := by
  obtain ⟨key, value⟩ := result
  rw [copyUnderKey_eq_map, built_eq_ok_iff]
  simp [eq_comm (a := key), and_comm]

private theorem forall₂_and_right {α γ : Type} {shown : α → γ → Prop} {p : γ → Prop}
    {as : List α} {xs : List γ} : List.Forall₂ (fun a x => p x ∧ shown a x) as xs ↔
      (∀ x ∈ xs, p x) ∧ List.Forall₂ shown as xs := by
  induction as generalizing xs with
  | nil => cases xs <;> simp
  | cons a rest ih =>
    cases xs with
    | nil => simp
    | cons x xs =>
      rw [List.forall₂_cons, List.forall₂_cons, ih, List.forall_mem_cons]
      exact and_and_and_comm

section

variable {α γ : Type} {copy : α → Heap → Except CopyError (α × Heap)}

/-- A list was copied if its first member was and then its rest. -/
theorem copyEach_cons_eq_ok_iff {a : α} {rest bs : List α} {h h' : Heap} :
    copyEach copy (a :: rest) h = .ok (bs, h') ↔ ∃ b h₁ tail,
      copy a h = .ok (b, h₁) ∧ copyEach copy rest h₁ = .ok (tail, h') ∧ bs = b :: tail := by
  rw [copyEach]
  constructor
  · intro hok
    split at hok
    next b h₁ hhead =>
      split at hok
      next tail h₂ htail =>
        cases hok
        exact ⟨b, h₁, tail, hhead, htail, rfl⟩
      next => cases hok
    next => cases hok
  · rintro ⟨b, h₁, tail, hhead, htail, rfl⟩
    simp only [hhead, htail]

/-- A list is copied in two parts. -/
theorem copyEach_append {as bs as' bs' : List α} {h h₁ h₂ : Heap}
    (has : copyEach copy as h = .ok (as', h₁)) (hbs : copyEach copy bs h₁ = .ok (bs', h₂)) :
    copyEach copy (as ++ bs) h = .ok (as' ++ bs', h₂) := by
  induction as generalizing h as' with
  | nil =>
    cases has
    exact hbs
  | cons a rest ih =>
    obtain ⟨b, h', tail, hhead, htail, rfl⟩ := copyEach_cons_eq_ok_iff.mp has
    exact copyEach_cons_eq_ok_iff.mpr ⟨b, h', tail ++ bs', hhead, ih htail, rfl⟩

/-- If every member is copied out of new cells then so is the list, whatever it is that the copies
show and growth keeps. -/
theorem copyEach_spec (shows : Heap → α → γ → Prop) (steps : Heap → α → List Cell)
    (hgrow : ∀ h h' a x, h ≤ h' → shows h a x → shows h' a x ∧ steps h' a = steps h a)
    {as : List α}
    (hcopy : ∀ a ∈ as, ∀ h x, shows h a x → ∃ b h', copy a h = .ok (b, h') ∧ h ≤ h' ∧
      shows h' b x ∧ steps h' b = h.fresh h')
    {h : Heap} {xs : List γ} (hxs : List.Forall₂ (shows h) as xs) :
    ∃ bs h', copyEach copy as h = .ok (bs, h') ∧ h ≤ h' ∧ List.Forall₂ (shows h') bs xs ∧
      bs.flatMap (steps h') = h.fresh h' := by
  induction as generalizing h xs with
  | nil =>
    cases hxs
    exact ⟨[], h, rfl, le_refl h, .nil, by simp⟩
  | cons a rest ih =>
    obtain - | ⟨hx, hrest⟩ := hxs
    rw [List.forall_mem_cons] at hcopy
    obtain ⟨b, h₁, hb, h01, hbx, hbs⟩ := hcopy.1 h _ hx
    obtain ⟨bs, h₂, hbs', h12, hbxs, hsteps⟩ :=
      ih hcopy.2 (hrest.imp fun a x ha => (hgrow _ _ _ _ h01 ha).1)
    obtain ⟨hbx', hbs₂⟩ := hgrow _ _ _ _ h12 hbx
    refine ⟨b :: bs, h₂, by simp [copyEach, hb, hbs'], h01.trans h12, .cons hbx' hbxs, ?_⟩
    rw [List.flatMap_cons, hbs₂, hbs, hsteps, Heap.fresh_append h01 h12]

/-- If a list was copied then every member was, from heaps that kept what copying keeps. -/
theorem copyEach_eq_ok (kept : Heap → Prop) (shown : α → γ → Prop) {as : List α}
    (hcopy : ∀ a ∈ as, ∀ h b h', kept h → copy a h = .ok (b, h') → kept h' ∧ ∃ x, shown a x)
    {h h' : Heap} {bs : List α} (hk : kept h) (heq : copyEach copy as h = .ok (bs, h')) :
    kept h' ∧ ∃ xs, List.Forall₂ shown as xs := by
  induction as generalizing h bs with
  | nil =>
    cases heq
    exact ⟨hk, [], .nil⟩
  | cons a rest ih =>
    rw [List.forall_mem_cons] at hcopy
    obtain ⟨b, h₁, tail, hhead, htail, rfl⟩ := copyEach_cons_eq_ok_iff.mp heq
    obtain ⟨hk₁, x, hx⟩ := hcopy.1 _ _ _ hk hhead
    obtain ⟨hk₂, xs, hxs⟩ := ih hcopy.2 hk₁ htail
    exact ⟨hk₂, x :: xs, .cons hx hxs⟩

/-- If a list was copied then every copy was made out of its member, if growth keeps that. -/
theorem copyEach_forall₂ {base : Heap} (made : Heap → α → α → Prop)
    (hmono : ∀ h h' b a, h ≤ h' → made h b a → made h' b a) {as : List α}
    (hcopy : ∀ a ∈ as, ∀ h b h', base ≤ h → copy a h = .ok (b, h') → h ≤ h' ∧ made h' b a)
    {h h' : Heap} {bs : List α} (hle : base ≤ h) (hok : copyEach copy as h = .ok (bs, h')) :
    h ≤ h' ∧ List.Forall₂ (made h') bs as := by
  induction as generalizing h bs with
  | nil =>
    cases hok
    exact ⟨le_refl _, .nil⟩
  | cons a rest ih =>
    rw [List.forall_mem_cons] at hcopy
    obtain ⟨b, h₁, tail, hhead, htail, rfl⟩ := copyEach_cons_eq_ok_iff.mp hok
    obtain ⟨hle₁, hmade⟩ := hcopy.1 _ _ _ hle hhead
    obtain ⟨hle₂, hrest⟩ := ih hcopy.2 (hle.trans hle₁) htail
    exact ⟨hle₁.trans hle₂, .cons (hmono _ _ _ _ hle₂ hmade) hrest⟩

end

namespace Copyable

variable {α : Type} [Copyable α]

/-- Lists are copied one member after the other. -/
theorem copyList_eq (h : Heap) (as : List α) :
    copyList h as = copyEach (fun a h => copy h a) as h := by
  induction as generalizing h with
  | nil => rfl
  | cons a rest ih =>
    simp only [copyList, copyEach]
    cases copy h a with
    | error e => rfl
    | ok result =>
      have hrest := ih result.2
      cases hcopied : copyEach (fun a h => copy h a) rest result.2 <;> simp only [hrest, hcopied]

/-- Entries are copied one after the other. -/
theorem copyEntries_eq (h : Heap) (entries : List (String × α)) :
    copyEntries h entries = copyEach (copyUnderKey fun a h => copy h a) entries h := by
  induction entries generalizing h with
  | nil => rfl
  | cons e rest ih =>
    obtain ⟨key, a⟩ := e
    simp only [copyEntries, copyEach, copyUnderKey]
    cases copy h a with
    | error e => rfl
    | ok result =>
      simp only [ih]
      cases copyEach _ rest result.2 <;> rfl

end Copyable

namespace Value

/-- The items of a list are copied one after the other. -/
theorem copyItems_eq (cells : Cell → Heap → Except CopyError (Cell × Heap)) (items : List Value)
    (h : Heap) : copyItems cells items h = copyEach (copyWith cells) items h := by
  induction items generalizing h with
  | nil => simp [copyItems, copyEach]
  | cons v rest ih =>
    simp only [copyItems, copyEach]
    cases copyWith cells v h with
    | error e => rfl
    | ok result =>
      simp only [ih]
      cases copyEach _ rest result.2 <;> rfl

/-- So are the entries of a map. -/
theorem copyEntries_eq (cells : Cell → Heap → Except CopyError (Cell × Heap))
    (entries : List (String × Value)) (h : Heap) :
    copyEntries cells entries h = copyEach (copyUnderKey (copyWith cells)) entries h := by
  induction entries generalizing h with
  | nil => simp [copyEntries, copyEach]
  | cons e rest ih =>
    obtain ⟨key, v⟩ := e
    simp only [copyEntries, copyEach, copyUnderKey]
    cases copyWith cells v h with
    | error e => rfl
    | ok result =>
      simp only [ih]
      cases copyEach _ rest result.2 <;> rfl

/-- A handle is copied by its cell. -/
theorem copyWith_shared (cells : Cell → Heap → Except CopyError (Cell × Heap)) (cell : Cell)
    (h : Heap) : copyWith cells (.shared cell) h = (cells cell h).map (Prod.map .shared id) := by
  rw [copyWith]
  cases cells cell h <;> rfl

/-- A list is copied by its items. -/
theorem copyWith_list (cells : Cell → Heap → Except CopyError (Cell × Heap)) (items : List Value)
    (h : Heap) : copyWith cells (.list items) h =
      (copyEach (copyWith cells) items h).map (Prod.map .list id) := by
  rw [copyWith, copyItems_eq]
  cases copyEach (copyWith cells) items h <;> rfl

/-- A map is copied by its entries. -/
theorem copyWith_map (cells : Cell → Heap → Except CopyError (Cell × Heap))
    (entries : List (String × Value)) (h : Heap) : copyWith cells (.map entries) h =
      (copyEach (copyUnderKey (copyWith cells)) entries h).map (Prod.map .map id) := by
  rw [copyWith, copyEntries_eq]
  cases copyEach (copyUnderKey (copyWith cells)) entries h <;> rfl

/-- A cell is copied if what it holds is, into a new cell. -/
theorem copyCell_eq_ok_iff {inside : Value → Heap → Except CopyError (Value × Heap)}
    {cell copied : Cell} {h h' : Heap} : copyCell inside cell h = .ok (copied, h') ↔
      ∃ w w' h₁, h.read? cell = some w ∧ inside w h = .ok (w', h₁) ∧
        h₁.alloc w' = (copied, h') := by
  rw [copyCell]
  constructor
  · intro hok
    split at hok
    next => cases hok
    next w hw =>
      split at hok
      next w' h₁ hin => exact ⟨w, w', h₁, hw, hin, Except.ok.inj hok⟩
      next => cases hok
  · rintro ⟨w, w', h₁, hw, hin, halloc⟩
    simp only [hw, hin, halloc]

/-! ## A value with contents is copied -/

section

variable {cells : Cell → Heap → Except CopyError (Cell × Heap)}
  {look : Heap → Cell → Option Contents} {steps : Heap → Cell → List Cell}

/-- What cells keep while the heap grows, values over them keep. -/
private theorem contentsWith_grow
    (hgrow : ∀ h h' cell x, h ≤ h' → look h cell = some x →
      look h' cell = some x ∧ steps h' cell = steps h cell)
    {h h' : Heap} (hle : h ≤ h') {v : Value} {x : Contents}
    (hx : contentsWith (look h) v = some x) :
    contentsWith (look h') v = some x ∧
      v.handles.flatMap (steps h') = v.handles.flatMap (steps h) := by
  have hcell := within_of_contentsWith hx
  constructor
  · rw [← hx]
    refine contentsWith_congr fun cell hc => ?_
    obtain ⟨y, hy⟩ := hcell cell hc
    rw [hy, (hgrow _ _ _ _ hle hy).1]
  · refine List.flatMap_congr fun cell hc => ?_
    obtain ⟨y, hy⟩ := hcell cell hc
    exact (hgrow _ _ _ _ hle hy).2

/-- If cells with contents are copied out of new cells then so are values over them. -/
theorem copyWith_spec
    (hgrow : ∀ h h' cell x, h ≤ h' → look h cell = some x →
      look h' cell = some x ∧ steps h' cell = steps h cell)
    (hcell : ∀ h cell x, look h cell = some x → x.PayloadFree →
      ∃ cell' h', cells cell h = .ok (cell', h') ∧ h ≤ h' ∧ look h' cell' = some x ∧
        steps h' cell' = h.fresh h')
    {h : Heap} {v : Value} {x : Contents} (hx : contentsWith (look h) v = some x)
    (hfree : x.PayloadFree) :
    ∃ v' h', copyWith cells v h = .ok (v', h') ∧ h ≤ h' ∧ contentsWith (look h') v' = some x ∧
      v'.handles.flatMap (steps h') = h.fresh h' := by
  induction v using Value.induction generalizing h x with
  | plain data =>
    exact ⟨.plain data, h, by simp [copyWith], le_refl h, by simpa [contentsWith] using hx, by simp⟩
  | foreign payload =>
    have hxp : x = .foreign payload := by simpa [contentsWith, eq_comm] using hx
    exact absurd (hxp ▸ hfree) (Contents.not_payloadFree_foreign payload)
  | shared cell =>
    obtain ⟨y, hy, rfl⟩ := Option.map_eq_some_iff.mp (by simpa only [contentsWith] using hx)
    obtain ⟨cell', h', hok, hle, hlook, hsteps⟩ :=
      hcell h cell y hy (Contents.payloadFree_cell.mp hfree)
    exact ⟨.shared cell', h', by simp [copyWith, hok], hle, by simp [contentsWith, hlook],
      by simpa using hsteps⟩
  | list items ih =>
    obtain ⟨xs, hxs, rfl⟩ := Option.map_eq_some_iff.mp (by simpa only [contentsWith] using hx)
    have hall := forall₂_and_right.mpr ⟨Contents.payloadFree_list.mp hfree,
      itemContents_eq_some_iff.mp hxs⟩
    obtain ⟨items', h', hok, hle, hshow, hfoot⟩ := copyEach_spec
      (fun h v x => x.PayloadFree ∧ contentsWith (look h) v = some x)
      (fun h v => v.handles.flatMap (steps h))
      (fun h h' v x hle hs => ⟨⟨hs.1, (contentsWith_grow hgrow hle hs.2).1⟩,
        (contentsWith_grow hgrow hle hs.2).2⟩)
      (fun v hv h x hs => by
        obtain ⟨v', h', hok, hle, hx', hfoot⟩ := ih v hv hs.2 hs.1
        exact ⟨v', h', hok, hle, ⟨hs.1, hx'⟩, hfoot⟩) hall
    have hitems := itemContents_eq_some_iff.mpr (hshow.imp fun v x hs => hs.2)
    exact ⟨.list items', h', by simp [copyWith, copyItems_eq, hok], hle,
      by simp [contentsWith, hitems], by simpa [List.flatMap_assoc] using hfoot⟩
  | map entries ih =>
    obtain ⟨xs, hxs, rfl⟩ := Option.map_eq_some_iff.mp (by simpa only [contentsWith] using hx)
    have hall := forall₂_and_right.mpr ⟨Contents.payloadFree_map.mp hfree,
      entryContents_eq_some_iff.mp hxs⟩
    obtain ⟨entries', h', hok, hle, hshow, hfoot⟩ := copyEach_spec
      (fun h (e : String × Value) (x : String × Contents) =>
        x.2.PayloadFree ∧ e.1 = x.1 ∧ contentsWith (look h) e.2 = some x.2)
      (fun h e => e.2.handles.flatMap (steps h))
      (fun h h' e x hle hs => ⟨⟨hs.1, hs.2.1, (contentsWith_grow hgrow hle hs.2.2).1⟩,
        (contentsWith_grow hgrow hle hs.2.2).2⟩)
      (fun e he h x hs => by
        obtain ⟨v', h', hok, hle, hx', hfoot⟩ := ih e he hs.2.2 hs.1
        exact ⟨(e.1, v'), h', copyUnderKey_eq_ok_iff.mpr ⟨rfl, hok⟩, hle,
          ⟨hs.1, hs.2.1, hx'⟩, hfoot⟩) hall
    have hentries := entryContents_eq_some_iff.mpr (hshow.imp fun e x hs => hs.2)
    exact ⟨.map entries', h', by simp [copyWith, copyEntries_eq, hok], hle,
      by simp [contentsWith, hentries], by simpa [List.flatMap_assoc] using hfoot⟩

end

/-- How cells are copied through at most `depth` cells on a path. -/
def copyCellWithin : Nat → Cell → Heap → Except CopyError (Cell × Heap)
  | 0 => fun _ _ => .error .endless
  | depth + 1 => copyCell (copyWithin depth)

/-- What a cell shows, and the cells it leads to, stay while the heap grows. -/
private theorem lookWithin_grow (depth : Nat) (h h' : Heap) (cell : Cell) (x : Contents)
    (hle : h ≤ h') (hx : lookWithin h depth cell = some x) :
    lookWithin h' depth cell = some x ∧ stepsWithin h' depth cell = stepsWithin h depth cell := by
  cases depth with
  | zero => cases hx
  | succ depth =>
    obtain ⟨w, hw, hwx⟩ := Option.bind_eq_some_iff.mp hx
    obtain ⟨hwx', hfoot⟩ := contentsWithin_frame hwx
      (fun inner hi => hle.2 inner (has_of_mem_footprintWithin hwx inner hi)) (le_refl depth)
    have hw' := Heap.read?_of_le hle hw
    simp only [lookWithin, stepsWithin, hw, hw', Option.bind_some, Option.elim_some, hwx', hfoot,
      and_self]

/-- A value with contents that reach no foreign payload has a copy: the heap grows, the copy has the
same contents, and its footprint is what is new. -/
theorem copyWithin_spec {depth : Nat} {h : Heap} {v : Value} {x : Contents}
    (hx : v.contentsWithin h depth = some x) (hfree : x.PayloadFree) :
    ∃ v' h', copyWithin depth v h = .ok (v', h') ∧ h ≤ h' ∧
      v'.contentsWithin h' depth = some x ∧ v'.footprintWithin h' depth = h.fresh h' := by
  induction depth generalizing h v x with
  | zero =>
    obtain ⟨v', h', hok, hle, hx', hfoot⟩ := copyWith_spec (lookWithin_grow 0)
      (fun h cell x hl _ => by cases hl) (contentsWithin_eq h 0 v ▸ hx) hfree
    exact ⟨v', h', hok, hle, (contentsWithin_eq h' 0 v').trans hx',
      (footprintWithin_eq h' 0 v').trans hfoot⟩
  | succ depth ih =>
    have hcell : ∀ h cell x, lookWithin h (depth + 1) cell = some x → x.PayloadFree →
        ∃ cell' h', copyCellWithin (depth + 1) cell h = .ok (cell', h') ∧ h ≤ h' ∧
          lookWithin h' (depth + 1) cell' = some x ∧
          stepsWithin h' (depth + 1) cell' = h.fresh h' := by
      intro h cell x hl hfree
      obtain ⟨w, hw, hwx⟩ := Option.bind_eq_some_iff.mp hl
      obtain ⟨w', h', hok, hle, hwx', hfoot⟩ := ih hwx hfree
      have hgrow := h'.le_alloc w'
      obtain ⟨hwx₂, hfoot₂⟩ := contentsWithin_frame hwx'
        (fun inner hi => hgrow.2 inner (has_of_mem_footprintWithin hwx' inner hi)) (le_refl depth)
      refine ⟨(h'.alloc w').1, (h'.alloc w').2, by simp [copyCellWithin, copyCell, hw, hok],
        hle.trans hgrow, by simp [lookWithin, hwx₂], ?_⟩
      rw [← Heap.fresh_append hle hgrow, Heap.fresh_alloc, ← hfoot, ← hfoot₂, stepsWithin,
        Heap.read?_alloc_self, Option.elim_some]
    obtain ⟨v', h', hok, hle, hx', hfoot⟩ := copyWith_spec (lookWithin_grow (depth + 1)) hcell
      (contentsWithin_eq h (depth + 1) v ▸ hx) hfree
    exact ⟨v', h', hok, hle, (contentsWithin_eq h' (depth + 1) v').trans hx',
      (footprintWithin_eq h' (depth + 1) v').trans hfoot⟩

/-! ## A copied value has contents -/

/-- If only cells with contents are copied then only values with contents are. -/
theorem copyWith_eq_ok {cells : Cell → Heap → Except CopyError (Cell × Heap)} {base : Heap}
    {look : Cell → Option Contents}
    (hcell : ∀ cell h cell' h', base.Has cell → base ≤ h → cells cell h = .ok (cell', h') →
      base ≤ h' ∧ ∃ x, look cell = some x ∧ x.PayloadFree)
    {v : Value} (hv : v.Within base.Has) {h h' : Heap} {v' : Value} (hle : base ≤ h)
    (hok : copyWith cells v h = .ok (v', h')) :
    base ≤ h' ∧ ∃ x, contentsWith look v = some x ∧ x.PayloadFree := by
  induction v using Value.induction generalizing h h' v' with
  | plain data =>
    cases hok
    exact ⟨hle, .plain data, by simp [contentsWith], by simp⟩
  | foreign payload => cases hok
  | shared cell =>
    rw [copyWith_shared, built_eq_ok_iff] at hok
    obtain ⟨cell', hc, rfl⟩ := hok
    obtain ⟨hle', x, hx, hfree⟩ := hcell cell h cell' _ (within_shared.mp hv) hle hc
    exact ⟨hle', .cell x, by simp [contentsWith, hx], Contents.payloadFree_cell.mpr hfree⟩
  | list items ih =>
    rw [copyWith_list, built_eq_ok_iff] at hok
    obtain ⟨items', hitems, rfl⟩ := hok
    obtain ⟨hle', xs, hxs⟩ := copyEach_eq_ok (base ≤ ·)
      (fun v x => x.PayloadFree ∧ contentsWith look v = some x)
      (fun v hm h v' h' hle hok => by
        obtain ⟨hle', x, hx, hfree⟩ := ih v hm (within_list.mp hv v hm) hle hok
        exact ⟨hle', x, hfree, hx⟩) hle hitems
    rw [forall₂_and_right] at hxs
    exact ⟨hle', .list xs, by simp [contentsWith, itemContents_eq_some_iff.mpr hxs.2],
      Contents.payloadFree_list.mpr hxs.1⟩
  | map entries ih =>
    rw [copyWith_map, built_eq_ok_iff] at hok
    obtain ⟨entries', hentries, rfl⟩ := hok
    obtain ⟨hle', xs, hxs⟩ := copyEach_eq_ok (base ≤ ·)
      (fun (e : String × Value) (x : String × Contents) =>
        x.2.PayloadFree ∧ e.1 = x.1 ∧ contentsWith look e.2 = some x.2)
      (fun e hm h e' h' hle hok => by
        obtain ⟨hle', x, hx, hfree⟩ :=
          ih e hm (within_map.mp hv e hm) hle (copyUnderKey_eq_ok_iff.mp hok).2
        exact ⟨hle', (e.1, x), hfree, rfl, hx⟩) hle hentries
    rw [forall₂_and_right] at hxs
    exact ⟨hle', .map xs, by simp [contentsWith, entryContents_eq_some_iff.mpr hxs.2],
      Contents.payloadFree_map.mpr hxs.1⟩

/-- In a heap without loose handles only values with contents that reach no foreign payload have a
copy. -/
theorem copyWithin_eq_ok {base : Heap} (hclosed : base.Closed base.Has) {depth : Nat} {v : Value}
    (hv : v.Within base.Has) {h h' : Heap} {v' : Value} (hle : base ≤ h)
    (hok : copyWithin depth v h = .ok (v', h')) :
    base ≤ h' ∧ ∃ x, v.contentsWithin base depth = some x ∧ x.PayloadFree := by
  induction depth generalizing v h h' v' with
  | zero => exact copyWith_eq_ok (fun cell h cell' h' _ _ hc => by cases hc) hv hle hok
  | succ depth ih =>
    refine copyWith_eq_ok (fun cell h cell' h' hhas hle hc => ?_) hv hle hok
    obtain ⟨w, hw⟩ := Heap.exists_read?_of_has hhas
    obtain ⟨u, w', h₁, hu, hin, halloc⟩ := copyCell_eq_ok_iff.mp hc
    cases (Heap.read?_of_le hle hw).symm.trans hu
    cases halloc
    obtain ⟨hle₁, x, hx, hfree⟩ := ih (hclosed cell w hhas hw) hle hin
    exact ⟨hle₁.trans (h₁.le_alloc w'), x, by simp [hw, hx], hfree⟩

/-! ## The copy of a value -/

/-- Every value with contents that reach no foreign payload has a copy. -/
theorem exists_copy {h : Heap} {v : Value} {x : Contents} (hx : v.contents? h = some x)
    (hfree : x.PayloadFree) :
    ∃ v' h', v.copy h = .ok (v', h') ∧ h ≤ h' ∧ v'.contents? h' = some x ∧
      v'.footprint h' = h.fresh h' := by
  obtain ⟨v', h', hok, hle, hx', hfoot⟩ := copyWithin_spec hx hfree
  obtain ⟨hx₂, hfoot₂⟩ := contentsWithin_frame hx' (fun _ _ => rfl) hle.1
  exact ⟨v', h', hok, hle, hx₂, hfoot₂.trans hfoot⟩

/-- What a copy that was made tells about its source and itself. -/
theorem copy_eq_ok {h h' : Heap} (hclosed : h.Closed h.Has) {v v' : Value} (hv : v.Within h.Has)
    (hok : v.copy h = .ok (v', h')) :
    ∃ x, v.contents? h = some x ∧ x.PayloadFree ∧ h ≤ h' ∧ v'.contents? h' = some x ∧
      v'.footprint h' = h.fresh h' := by
  obtain ⟨-, x, hx, hfree⟩ := copyWithin_eq_ok hclosed hv (le_refl h) hok
  obtain ⟨v₂, h₂, hok₂, hle, hx', hfoot⟩ := exists_copy hx hfree
  cases hok.symm.trans hok₂
  exact ⟨x, hx, hfree, hle, hx', hfoot⟩

end Value

/-! ## Copies and their cells -/

/-- Values that were copied between two heaps: what is new are the cells of the copies, each reached
by one path from one of them. -/
structure Copies (h h' : Heap) (vs : List Value) : Prop where
  /-- Nothing that was there is lost or changed. -/
  le : h ≤ h'
  /-- Every copy has contents and can be copied again. -/
  contents : ∀ v ∈ vs, ∃ x, v.contents? h' = some x ∧ x.PayloadFree
  /-- The cells of the copies, one copy after the other, are the new ones. -/
  footprint : vs.flatMap (Value.footprint h') = h.fresh h'

namespace Copies

variable {h h' h₁ h₂ : Heap} {vs ws : List Value} {v : Value}

/-- Nothing was copied. -/
theorem nil (h : Heap) : Copies h h [] := ⟨le_refl h, by simp, by simp⟩

/-- Copies made one after the other. -/
theorem append (hv : Copies h h₁ vs) (hw : Copies h₁ h₂ ws) : Copies h h₂ (vs ++ ws) where
  le := hv.le.trans hw.le
  contents v hm := by
    rcases List.mem_append.mp hm with hm | hm
    · obtain ⟨x, hx, hfree⟩ := hv.contents v hm
      exact ⟨x, (Value.contents?_of_le hx hw.le).1, hfree⟩
    · exact hw.contents v hm
  footprint := by
    have hstay : vs.flatMap (Value.footprint h₂) = vs.flatMap (Value.footprint h₁) := by
      refine List.flatMap_congr fun v hm => ?_
      obtain ⟨x, hx, -⟩ := hv.contents v hm
      exact (Value.contents?_of_le hx hw.le).2
    rw [List.flatMap_append, hstay, hv.footprint, hw.footprint, Heap.fresh_append hv.le hw.le]

/-- The cells of a copy are new. -/
theorem footprint_subset (hc : Copies h h' vs) (hm : v ∈ vs) : v.footprint h' ⊆ h.fresh h' :=
  fun _ hcell => hc.footprint ▸ List.mem_flatMap.mpr ⟨v, hm, hcell⟩

/-- A copy names new cells only. -/
theorem within (hc : Copies h h' vs) (hm : v ∈ vs) : v.Within (· ∈ h.fresh h') :=
  fun _ hcell => hc.footprint_subset hm (Value.handles_subset_footprintWithin h' h'.size v hcell)

/-- Every cell of a copy is reached by one path. -/
theorem nodup (hc : Copies h h' vs) (hm : v ∈ vs) : (v.footprint h').Nodup := by
  have hn := h.nodup_fresh h'
  rw [← hc.footprint] at hn
  exact (List.nodup_flatMap.mp hn).1 v hm

/-- What new cells hold names new cells only. -/
theorem closed_fresh (hc : Copies h h' vs) : h'.Closed (· ∈ h.fresh h') := by
  intro cell w hcell hr
  rw [← hc.footprint] at hcell
  obtain ⟨v, hm, hcell⟩ := List.mem_flatMap.mp hcell
  obtain ⟨x, hx, -⟩ := hc.contents v hm
  exact (Value.closed_footprintWithin hx cell w hcell hr).mono fun _ hi =>
    hc.footprint_subset hm hi

/-- Copying leaves no loose handles. -/
theorem closed_has (hc : Copies h h' vs) (hclosed : h.Closed h.Has) : h'.Closed h'.Has := by
  intro cell w hcell hr
  by_cases hold : h.Has cell
  · exact (hclosed cell w hold ((hc.le.2 cell hold).symm.trans hr)).mono fun _ hi => hi.mono hc.le
  · have hnew : cell ∈ h.fresh h' := Heap.mem_fresh.mpr ⟨Nat.le_of_not_lt hold, hcell⟩
    exact (hc.closed_fresh cell w hnew hr).mono fun _ hi => (Heap.mem_fresh.mp hi).2

end Copies

/-- The copy of one value. -/
theorem Value.copies_of_copy {h h' : Heap} (hclosed : h.Closed h.Has) {v v' : Value}
    (hv : v.Within h.Has) (hok : v.copy h = .ok (v', h')) : Copies h h' [v'] := by
  obtain ⟨x, -, hfree, hle, hx', hfoot⟩ := copy_eq_ok hclosed hv hok
  exact ⟨hle, by simpa using ⟨x, hx', hfree⟩, by simpa using hfoot⟩

/-- Copied entries have the keys of their sources. -/
theorem Copyable.copies_of_copyEntries {h h' : Heap} (hclosed : h.Closed h.Has)
    {entries copied : List (String × Value)} (hv : ∀ e ∈ entries, e.2.Within h.Has)
    (hok : Copyable.copyEntries h entries = .ok (copied, h')) :
    Copies h h' (copied.map Prod.snd) := by
  rw [Copyable.copyEntries_eq] at hok
  induction entries generalizing h copied with
  | nil =>
    cases hok
    exact .nil _
  | cons e rest ih =>
    rw [List.forall_mem_cons] at hv
    obtain ⟨copy, h₁, tail, hhead, htail, rfl⟩ := copyEach_cons_eq_ok_iff.mp hok
    have hfirst := Value.copies_of_copy hclosed hv.1 (copyUnderKey_eq_ok_iff.mp hhead).2
    exact hfirst.append (ih (hfirst.closed_has hclosed)
      (fun e he => (hv.2 e he).mono fun _ hi => hi.mono hfirst.le) htail)

end OverlayStore
