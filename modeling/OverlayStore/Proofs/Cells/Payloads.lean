import OverlayStore.Proofs.Cells.Acyclic

/-!
# The first payload of a value

The paths of a value are ordered like the entries of a dictionary, which is the order in which a
value is copied: by the positions in a list, by the keys of a map, and through a cell before what
comes after it. A copy that comes to an end fails if some path leads to a foreign payload, and then
it fails on the payload with the first path.
-/

namespace OverlayStore

namespace Value

/-- Some path leads from a value to a foreign payload. -/
def Holds (h : Heap) (v : Value) (payload : Foreign) : Prop :=
  ∃ path, v.follow h path = some (.foreign payload)

/-- A path leads to a foreign payload, and no path to any payload comes before it. -/
def HoldsFirst (h : Heap) (v : Value) (payload : Foreign) : Prop :=
  ∃ path, v.follow h path = some (.foreign payload) ∧
    ∀ other q, v.follow h other = some (.foreign q) → ¬ List.Lex (· < ·) other path

theorem HoldsFirst.holds {h : Heap} {v : Value} {payload : Foreign}
    (hf : v.HoldsFirst h payload) : v.Holds h payload := by
  obtain ⟨path, hpath, -⟩ := hf
  exact ⟨path, hpath⟩

/-! ## No payload -/

/-- If a value can be copied through some depth, then so can its parts, and it is no payload. -/
private theorem obstacle_parts {h : Heap} {depth : Nat} {v : Value}
    (hnone : obstacleWith (obstacleCell h depth) v = none) :
    (∀ payload, v ≠ .foreign payload) ∧
      ∃ inner, ∀ part ∈ v.parts h, obstacleWith (obstacleCell h inner) part = none := by
  cases v with
  | plain data => exact ⟨by simp, 0, by simp [parts]⟩
  | foreign payload => simp [obstacleWith] at hnone
  | list items =>
    rw [obstacleWith_list, List.findSome?_eq_none_iff] at hnone
    exact ⟨by simp, depth, hnone⟩
  | map entries =>
    rw [obstacleWith_map, List.findSome?_eq_none_iff] at hnone
    refine ⟨by simp, depth, fun part hp => ?_⟩
    obtain ⟨e, he, rfl⟩ := List.mem_map.mp hp
    exact hnone e he
  | shared cell =>
    rw [obstacleWith] at hnone
    cases depth with
    | zero => cases hnone
    | succ depth =>
      rw [obstacleCell] at hnone
      cases hr : h.read? cell with
      | none =>
        rw [hr] at hnone
        cases hnone
      | some w =>
        rw [hr] at hnone
        refine ⟨by simp, depth, fun part hp => ?_⟩
        rw [parts, hr, Option.toList_some, List.mem_singleton] at hp
        exact hp ▸ hnone

/-- A value that can be copied holds no payload. -/
theorem not_holds_of_obstacle {h : Heap} {depth : Nat} {v : Value}
    (hnone : obstacleWith (obstacleCell h depth) v = none) (payload : Foreign) :
    ¬ v.Holds h payload := by
  rintro ⟨path, hpath⟩
  induction path generalizing v depth with
  | nil => exact (obstacle_parts hnone).1 payload (Option.some.inj hpath)
  | cons i path ih =>
    obtain ⟨part, hpart, hrest⟩ := Option.bind_eq_some_iff.mp hpath
    obtain ⟨-, inner, hparts⟩ := obstacle_parts hnone
    exact ih (hparts part (List.mem_of_getElem? hpart)) hrest

/-! ## The first payload -/

/-- The first payload of a value is the first one of the first part that holds any. -/
private theorem holdsFirst_of_parts {h : Heap} {v part : Value} {before after : List Value}
    (hparts : v.parts h = before ++ part :: after) {payload : Foreign}
    (hfirst : part.HoldsFirst h payload)
    (hbefore : ∀ w ∈ before, ∀ q, ¬ w.Holds h q) : v.HoldsFirst h payload := by
  obtain ⟨path, hpath, hleast⟩ := hfirst
  have hget : (v.parts h)[before.length]? = some part := by
    rw [hparts, List.getElem?_append_right (Nat.le_refl _), Nat.sub_self]
    rfl
  refine ⟨before.length :: path, follow_of_getElem? hget hpath, fun other q hother => ?_⟩
  cases other with
  | nil =>
    -- A payload has no parts.
    rw [Option.some.inj hother] at hparts
    simp [parts] at hparts
  | cons i rest =>
    obtain ⟨w, hw, hrest⟩ := Option.bind_eq_some_iff.mp hother
    rw [List.cons_lex_cons_iff]
    rintro (hlt | ⟨rfl, hlt⟩)
    · rw [hparts, List.getElem?_append_left hlt] at hw
      exact hbefore w (List.mem_of_getElem? hw) q ⟨rest, hrest⟩
    · rw [hget] at hw
      cases hw
      exact hleast rest q hrest hlt

/-- The same where the parts are searched one after the other. -/
private theorem holdsFirst_of_findSome? {h : Heap} {v : Value} {typeName : String}
    {obstacle : Value → Option CopyError}
    (hsome : (v.parts h).findSome? obstacle = some (.foreign typeName))
    (hnone : ∀ part, obstacle part = none → ∀ payload, ¬ part.Holds h payload)
    (hparts : ∀ part ∈ v.parts h, obstacle part = some (.foreign typeName) →
      ∃ payload, part.HoldsFirst h payload ∧ payload.typeName = typeName) :
    ∃ payload, v.HoldsFirst h payload ∧ payload.typeName = typeName := by
  obtain ⟨before, part, after, heq, hpart, hbefore⟩ := List.findSome?_eq_some_iff.mp hsome
  obtain ⟨payload, hfirst, hname⟩ := hparts part (by simp [heq]) hpart
  exact ⟨payload, holdsFirst_of_parts heq hfirst fun w hw => hnone w (hbefore w hw), hname⟩

/-- If cells fail on their first payloads, then so do values over them. -/
private theorem exists_holdsFirst_of_cells {h : Heap} {cells : Cell → Option CopyError}
    {typeName : String} (hnone : ∀ part, obstacleWith cells part = none →
      ∀ payload, ¬ part.Holds h payload)
    (hcells : ∀ cell, cells cell = some (.foreign typeName) →
      ∃ payload, (shared cell).HoldsFirst h payload ∧ payload.typeName = typeName)
    {v : Value} (hsome : obstacleWith cells v = some (.foreign typeName)) :
    ∃ payload, v.HoldsFirst h payload ∧ payload.typeName = typeName := by
  induction v using Value.induction with
  | plain data => simp [obstacleWith] at hsome
  | foreign payload =>
    rw [obstacleWith] at hsome
    cases hsome
    exact ⟨payload, ⟨[], rfl, fun other q _ => List.not_lex_nil⟩, rfl⟩
  | shared cell =>
    rw [obstacleWith] at hsome
    exact hcells cell hsome
  | list items ih =>
    rw [obstacleWith_list] at hsome
    exact holdsFirst_of_findSome? hsome hnone ih
  | map entries ih =>
    rw [obstacleWith_map] at hsome
    have hparts : ((map entries).parts h).findSome? (obstacleWith cells) =
        some (.foreign typeName) := by
      rw [parts, List.findSome?_map]
      exact hsome
    refine holdsFirst_of_findSome? hparts hnone fun part hp => ?_
    obtain ⟨e, he, rfl⟩ := List.mem_map.mp hp
    exact ih e he

/-- A copy that meets a payload meets the first one of the value. -/
theorem exists_holdsFirst {h : Heap} {depth : Nat} {v : Value} {typeName : String}
    (hsome : obstacleWith (obstacleCell h depth) v = some (.foreign typeName)) :
    ∃ payload, v.HoldsFirst h payload ∧ payload.typeName = typeName := by
  induction depth generalizing v with
  | zero =>
    refine exists_holdsFirst_of_cells (fun _ => not_holds_of_obstacle) (fun cell hcell => ?_) hsome
    cases hcell
  | succ depth ih =>
    refine exists_holdsFirst_of_cells (fun _ => not_holds_of_obstacle) (fun cell hcell => ?_) hsome
    rw [obstacleCell] at hcell
    cases hr : h.read? cell with
    | none =>
      rw [hr] at hcell
      cases hcell
    | some w =>
      rw [hr] at hcell
      have hparts : ((shared cell).parts h).findSome? (obstacleWith (obstacleCell h depth)) =
          some (.foreign typeName) := by
        rw [parts, hr, Option.toList_some, List.findSome?_singleton]
        exact hcell
      exact holdsFirst_of_findSome? hparts (fun _ => not_holds_of_obstacle) fun _ _ => ih

/-! ## What a copy fails on -/

/-- What copying a value may fail on. -/
inductive Obstructs (h : Heap) (v : Value) : Option CopyError → Prop
  /-- There is no payload. -/
  | clear (hnone : ∀ payload, ¬ v.Holds h payload) : Obstructs h v none
  /-- There is a first one. -/
  | payload {payload : Foreign} (hfirst : v.HoldsFirst h payload) :
    Obstructs h v (some (.foreign payload.typeName))
  /-- Some cell reaches itself. -/
  | endless (hcycle : ¬ v.Grounded h) : Obstructs h v (some .endless)

theorem obstructs_obstacle {h : Heap} (hclosed : h.Closed h.Has) {v : Value}
    (hv : v.Within h.Has) : v.Obstructs h (v.obstacle h) := by
  cases hobstacle : v.obstacle h with
  | none => exact .clear (not_holds_of_obstacle hobstacle)
  | some e =>
    cases e with
    | foreign typeName =>
      obtain ⟨payload, hfirst, rfl⟩ := exists_holdsFirst hobstacle
      exact .payload hfirst
    | endless =>
      refine .endless fun hgrounded => ?_
      obtain ⟨x, hx⟩ := hgrounded.exists_contents hclosed hv
      exact obstacle_ne_endless hx hobstacle

/-- Nothing is in the way of a value with contents without a payload. -/
theorem obstacle_of_payloadFree {h : Heap} (hclosed : h.Closed h.Has) {v : Value}
    (hv : v.Within h.Has) {x : Contents} (hx : v.contents? h = some x) (hfree : x.PayloadFree) :
    v.obstacle h = none := by
  obtain ⟨copy, h', hok, -⟩ := exists_copy hx hfree
  have hmeets := meets_copy hclosed hv (le_refl h)
  rw [hok] at hmeets
  generalize v.obstacle h = obstacle at hmeets
  cases hmeets
  rfl

/-- How copying some values can end. -/
inductive CopyResult {α : Type} (h : Heap) (copied : Value → Prop) : Except CopyError α → Prop
  /-- None of them holds a payload. -/
  | ok (a : α) (hnone : ∀ v payload, copied v → ¬ v.Holds h payload) : CopyResult h copied (.ok a)
  /-- The first payload of one of them is met. -/
  | payload {v : Value} {payload : Foreign} (hv : copied v) (hfirst : v.HoldsFirst h payload) :
    CopyResult h copied (.error (.foreign payload.typeName))
  /-- A cell of one of them reaches itself. -/
  | endless {v : Value} (hv : copied v) (hcycle : ¬ v.Grounded h) :
    CopyResult h copied (.error .endless)

/-- Copying values one after the other ends with the first of them that cannot be copied. -/
theorem copyResult_of_meets {α β : Type} {h : Heap} (hclosed : h.Closed h.Has) {as : List β}
    {value : β → Value} (has : ∀ a ∈ as, (value a).Within h.Has)
    {result : Except CopyError (α × Heap)}
    (hmeets : Meets h (as.findSome? fun a => (value a).obstacle h) result) :
    CopyResult h (fun v => ∃ a ∈ as, value a = v) result := by
  cases hfind : as.findSome? fun a => (value a).obstacle h with
  | none =>
    rw [hfind] at hmeets
    rw [List.findSome?_eq_none_iff] at hfind
    cases hmeets with
    | ok =>
      refine .ok _ ?_
      rintro v payload ⟨a, ha, rfl⟩
      exact not_holds_of_obstacle (hfind a ha) payload
  | some e =>
    rw [hfind] at hmeets
    obtain ⟨a, ha, hobstacle⟩ := List.exists_of_findSome?_eq_some hfind
    have hobstructs := obstructs_obstacle hclosed (has a ha)
    rw [hobstacle] at hobstructs
    cases hmeets with
    | error =>
      cases hobstructs with
      | payload hfirst => exact .payload ⟨a, ha, rfl⟩ hfirst
      | endless hcycle => exact .endless ⟨a, ha, rfl⟩ hcycle

/-- How copying one value ends. -/
theorem copyResult_copy {h : Heap} (hclosed : h.Closed h.Has) {v : Value} (hv : v.Within h.Has) :
    CopyResult h (fun w => v = w) (v.copy h) := by
  have hmeets : Meets h ([v].findSome? fun w => w.obstacle h) (v.copy h) := by
    rw [List.findSome?_singleton]
    exact meets_copy hclosed hv (le_refl h)
  have hresult := copyResult_of_meets hclosed (by simpa using hv) hmeets
  simpa only [List.mem_singleton, exists_eq_left] using hresult

/-- Entries fail on the obstacle of the first value that has one, also if they are copied later. -/
theorem meets_copyEntries {h later : Heap} (hclosed : h.Closed h.Has)
    {entries : List (String × Value)} (hentries : ∀ e ∈ entries, e.2.Within h.Has)
    (hle : h ≤ later) : Meets h (entries.findSome? fun e => e.2.obstacle h)
      (Copyable.copyEntries later entries) := by
  rw [Copyable.copyEntries_eq]
  refine meets_copyEach (fun e he later hle => ?_) hle
  rw [copyUnderKey_eq_map]
  exact (meets_copy hclosed (hentries e he) hle).map (e.1, ·)

/-- How copying entries ends. -/
theorem copyResult_copyEntries {h : Heap} (hclosed : h.Closed h.Has)
    {entries : List (String × Value)} (hentries : ∀ e ∈ entries, e.2.Within h.Has) :
    CopyResult h (fun v => ∃ e ∈ entries, e.2 = v) (Copyable.copyEntries h entries) :=
  copyResult_of_meets hclosed hentries (meets_copyEntries hclosed hentries (le_refl h))

/-- Entries without an obstacle are copied, now or later. -/
theorem exists_copyEntries {h later : Heap} (hclosed : h.Closed h.Has)
    {entries : List (String × Value)} (hentries : ∀ e ∈ entries, e.2.Within h.Has)
    (hnone : ∀ e ∈ entries, e.2.obstacle h = none) (hle : h ≤ later) :
    ∃ result, Copyable.copyEntries later entries = .ok result := by
  have hmeets := meets_copyEntries hclosed hentries hle
  rw [List.findSome?_eq_none_iff.mpr hnone] at hmeets
  generalize Copyable.copyEntries later entries = result at hmeets
  cases hmeets with
  | ok => exact ⟨_, rfl⟩

end Value

end OverlayStore
