import OverlayStore.Proofs.Session.Ownership

/-!
# Separation of cells

Whatever callers do, a cell on a path from a value that an active transaction holds is reached by
this path only: from no other value that is held, not from the store, and from nothing that callers
ever saw. What a transaction answers shares no cell with the store or with what is held.
-/

namespace OverlayStore

/-- What a call on an overlay answers shares no cell with the store below. -/
theorem Ownership.overlayCall_apart {h : Heap} {roots : Value → Prop} {held : Slot → Option Value}
    {owner : Cell → Option Slot} (ho : Ownership h roots held owner) {o : Overlay Value}
    {base : GuardedStore Value} {place : Nat}
    (hbase : base.store.Within fun cell => h.Has cell ∧ owner cell = none)
    (hheld : ∀ key, held (place, key) = o.held? key) {call : StoreCall Value}
    (hcall : ∀ v ∈ call.values, v.Within h.Has) {v : Value}
    (hv : v ∈ answerValues (o.call h base call).answer) {cell : Cell}
    (hcell : v.Reaches (o.call h base call).heap cell) {key : String} {u : Value}
    (hu : base.store.get? key = some u) : ¬ u.Reaches (o.call h base call).heap cell := by
  have heffect := Overlay.call_effect ho.closed_has (hbase.mono fun _ hi => hi.1)
    (fun key v hv => ho.has_of_held ((hheld key).trans hv)) call
  generalize o.call h base call = outcome at heffect hv hcell
  have hopen : ∀ h', h ≤ h' → u.Reaches h' cell → h.Has cell ∧ owner cell = none :=
    fun h' hle hr =>
      (hbase key u hu).reaches ((ho.closed_owner none).of_le (fun _ hi => hi.1) hle) hr
  have howned : ∀ h' slot, h ≤ h' → held slot = some v → v.Reaches h' cell →
      owner cell = some slot := fun h' slot hle hs hr =>
    ((ho.slot slot v hs).reaches ((ho.closed_owner (some slot)).of_le (fun _ hi => hi.1) hle) hr).2
  intro hr
  cases heffect with
  | @kept call answer h' vs _ hcopies hvalues =>
    have hfresh := (hcopies.within (hvalues hv)).reaches hcopies.closed_fresh hcell
    exact Heap.not_has_of_mem_fresh hfresh (hopen h' hcopies.le hr).1
  | @set call reply key value copy h' hsets hcopy hvalues =>
    have hcopies := Value.copies_of_copy ho.closed_has (hcall value hsets.mem_values) hcopy
    have hslot := howned h' (place, key) hcopies.le ((hheld key).trans (hvalues v hv)) hcell
    rw [(hopen h' hcopies.le hr).2] at hslot
    cases hslot
  | removed key =>
    have hkey := (hheld key).trans (Option.mem_toList.mp hv)
    have hslot := howned h (place, key) (le_refl h) hkey hcell
    rw [(hopen h (le_refl h) hr).2] at hslot
    cases hslot
  | @cleared answer o' hvalues hnone =>
    rw [hvalues] at hv
    cases hv

namespace Session

variable {s : Session}

/-- Every session that callers can bring about has owners for its cells. -/
theorem Reachable.owned (hs : s.Reachable) : ∃ owner, s.Owned owner := by
  induction hs with
  | start => exact ⟨_, owned_start⟩
  | step hs hp ih =>
    obtain ⟨owner, ho⟩ := ih
    exact (ho.after hp).2

/-- What a command answers shares no cell with the store or with what is held afterwards. -/
def AnswersApart (s : Session) (command : Command Value) : Prop :=
  ∀ v ∈ (s.answer command).values, ∀ cell, v.Reaches (s.after command).db.heap cell →
    (∀ key u, (s.after command).db.base.store.get? key = some u →
      ¬ u.Reaches (s.after command).db.heap cell) ∧
    ∀ slot u, (s.after command).db.held? slot = some u → ¬ u.Reaches (s.after command).db.heap cell

/-- What callers saw reaches nothing that is held. -/
theorem Owned.seen_apart {owner : Cell → Option Slot} (ho : s.Owned owner) {v : Value}
    (hv : v ∈ s.seen) {cell : Cell} (hcell : v.Reaches s.db.heap cell) {slot : Slot} {u : Value}
    (hu : s.db.held? slot = some u) : ¬ u.Reaches s.db.heap cell := by
  intro hr
  have hopen := Ownership.owner_of_root_reaches ho (.inl hv) hcell
  rw [Ownership.owner_of_held_reaches ho hu hr] at hopen
  cases hopen

/-- What a call through the view of a transaction answers shares no cell with the store. -/
theorem Owned.viewCall_apart {owner : Cell → Option Slot} (ho : s.Owned owner) {place : Nat}
    {t : Transaction Value} (ht : s.db.transaction? place = some t) {call : StoreCall Value}
    (hcall : ∀ v ∈ call.values, v.Within s.db.heap.Has) {v : Value}
    (hv : v ∈ answerValues (t.viewCall s.db.heap s.db.base call).answer) {cell : Cell}
    (hcell : v.Reaches (t.viewCall s.db.heap s.db.base call).heap cell) {key : String} {u : Value}
    (hu : s.db.base.store.get? key = some u) :
    ¬ u.Reaches (t.viewCall s.db.heap s.db.base call).heap cell := by
  by_cases hactive : t.phase = .active
  · have hheld : ∀ key, s.db.held? (place, key) = t.overlay.held? key := fun key => by
      rw [Database.held?, ht]
      exact Transaction.held?_of_active hactive key
    rw [Transaction.viewCall_of_active hactive] at hv hcell ⊢
    exact Ownership.overlayCall_apart ho ho.base hheld hcall hv hcell hu
  · rw [Transaction.viewCall_of_final (Phase.isFinal_eq_true_iff.mpr hactive)] at hv
    cases hv

/-- A command that answers no more than a call through the view, and leaves the heap of that call
and the store, answers values that are apart. -/
theorem Owned.answersApart_of_viewCall {owner : Cell → Option Slot} (ho : s.Owned owner)
    {command : Command Value} (hp : s.Permits command) {place : Nat} {t : Transaction Value}
    (ht : s.db.transaction? place = some t) {call : StoreCall Value}
    (hcall : call.values = command.values)
    (hanswer : (s.answer command).values ⊆
      answerValues (t.viewCall s.db.heap s.db.base call).answer)
    (hheap : (s.after command).db.heap = (t.viewCall s.db.heap s.db.base call).heap)
    (hbase : (s.after command).db.base = s.db.base) : s.AnswersApart command := by
  intro v hv cell hcell
  constructor
  · intro key u hu
    rw [hbase] at hu
    rw [hheap] at hcell ⊢
    have hhas : ∀ v ∈ call.values, v.Within s.db.heap.Has := by
      intro w hw
      rw [hcall] at hw
      exact (ho.permitted hp w hw).mono fun _ hi => hi.1
    exact ho.viewCall_apart ht hhas (hanswer hv) hcell hu
  · intro slot u hu
    obtain ⟨-, owner', ho'⟩ := ho.after hp
    exact ho'.seen_apart (List.mem_append_left _ hv) hcell hu

/-- The answers of a transaction are apart, whichever way it is called. -/
theorem Owned.answersApart {owner : Cell → Option Slot} (ho : s.Owned owner) (place : Nat) :
    (∀ call, s.Permits (.own place call) → s.AnswersApart (.own place call)) ∧
      ∀ call, s.Permits (.view place call) → s.AnswersApart (.view place call) := by
  cases ht : s.db.transaction? place with
  | none =>
    constructor <;> intro call _ v hv <;>
      simp [Session.answer, Database.step, Database.onTransaction, ht, Answer.values] at hv
  | some t =>
    constructor
    · intro call hp
      have hstep := Database.step_own ht call
      refine ho.answersApart_of_viewCall hp ht rfl ?_ ?_ ?_
      · rw [Session.answer, hstep, Answer.values_ofTransaction]
        exact t.values_ownCall _ _ call
      · rw [Session.after, hstep]
        rfl
      · rw [Session.after, hstep]
        rfl
    · intro call hp
      have hstep := Database.step_view ht call
      refine ho.answersApart_of_viewCall hp ht rfl ?_ ?_ ?_
      · rw [Session.answer, hstep, Answer.values_ofTransaction]
        exact List.Subset.refl _
      · rw [Session.after, hstep]
        rfl
      · rw [Session.after, hstep]
        rfl

/-- In every reachable session a cell that is reached from a held value is reached by one path from
one slot, and neither from the store nor from what callers saw. What is answered through a
transaction shares no cell with the store or with what is held. -/
theorem Reachable.separated (hs : s.Reachable) :
    (∀ slot w, s.db.held? slot = some w → ∀ cell, w.Reaches s.db.heap cell →
      (∃! path, w.LeadsTo s.db.heap path cell) ∧
      (∀ other u, s.db.held? other = some u → u.Reaches s.db.heap cell → other = slot) ∧
      (∀ key u, s.db.base.store.get? key = some u → ¬ u.Reaches s.db.heap cell) ∧
      ∀ u ∈ s.seen, ¬ u.Reaches s.db.heap cell) ∧
    ∀ place, (∀ call, s.Permits (.own place call) → s.AnswersApart (.own place call)) ∧
      ∀ call, s.Permits (.view place call) → s.AnswersApart (.view place call) := by
  obtain ⟨owner, ho⟩ := hs.owned
  refine ⟨fun slot w hw cell hcell => ?_, ho.answersApart⟩
  have hslot := Ownership.owner_of_held_reaches ho hw hcell
  have hopen : ∀ u, s.roots u → ¬ u.Reaches s.db.heap cell := by
    intro u hu hr
    rw [Ownership.owner_of_root_reaches ho hu hr] at hslot
    cases hslot
  refine ⟨?_, fun other u hu hr => ?_, fun key u hu => hopen u (.inr ⟨key, hu⟩),
    fun u hu => hopen u (.inl hu)⟩
  · obtain ⟨path, hpath⟩ := hcell
    exact ⟨path, hpath, fun other hother => (ho.tree slot w hw).leadsTo_unique hother hpath⟩
  · have hother := Ownership.owner_of_held_reaches ho hu hr
    rw [hslot] at hother
    exact (Option.some.inj hother).symm

/-- A session in which a list that names its cell twice was put. -/
def nested : Session :=
  ((start.after (.newCell (.plain (.int 1)))).after (.begin 0)).after
    (.own 0 (.put "k" (.list [.shared ⟨0⟩, .shared ⟨0⟩])))

theorem reachable_nested : nested.Reachable := by
  refine .step (.step (.step .start ?_) ?_) ?_
  · simp [Permits, Command.values]
  · simp [Permits, Command.values]
  · have hseen : Value.shared ⟨0⟩ ∈
        ((start.after (.newCell (.plain (.int 1)))).after (.begin 0)).seen := List.mem_cons_self
    simpa [Permits, Command.values, KeyCall.toStoreCall, StoreCall.values] using
      ⟨_, hseen, by simp⟩

/-- What is held for the list has two cells of its own, one for each handle. -/
theorem separated_nested :
    nested.Reachable ∧ nested.db.held? (0, "k") = some (.list [.shared ⟨1⟩, .shared ⟨2⟩]) ∧
      (∃! path, (Value.list [.shared ⟨1⟩, .shared ⟨2⟩]).LeadsTo nested.db.heap path ⟨2⟩) ∧
      (∀ u ∈ nested.seen, ¬ u.Reaches nested.db.heap ⟨2⟩) ∧
      nested.AnswersApart (.own 0 (.get "k")) := by
  have hheld : nested.db.held? (0, "k") = some (.list [.shared ⟨1⟩, .shared ⟨2⟩]) := rfl
  have hpath : (Value.list [.shared ⟨1⟩, .shared ⟨2⟩]).LeadsTo nested.db.heap [1] ⟨2⟩ := rfl
  obtain ⟨hcells, hanswers⟩ := reachable_nested.separated
  obtain ⟨hunique, -, -, hseen⟩ := hcells _ _ hheld _ ⟨_, hpath⟩
  have hpermits : nested.Permits (.own 0 (.get "k")) := by
    simp [Permits, Command.values, KeyCall.toStoreCall, StoreCall.values]
  exact ⟨reachable_nested, hheld, hunique, hseen, (hanswers 0).1 _ hpermits⟩

end Session

end OverlayStore
