import OverlayStore.Proofs.Session.Basic
import OverlayStore.Proofs.Transaction.Commit

/-!
# Ownership is kept

Every command that a caller may give leaves the cells of a session owned: a call on a transaction
holds copies and hands out copies or what it gives up, the end of a transaction gives up all its
slots at once, and callers write only to open cells. No command changes a cell that is owned.
-/

namespace OverlayStore

/-- What a call sets, it was given. -/
theorem StoreCall.Sets.mem_values {key : String} {value : V} {call : StoreCall V} {reply : Reply V}
    (hs : call.Sets key value reply) : value ∈ call.values := by
  cases hs <;> simp [StoreCall.values]

namespace Ownership

variable {h : Heap} {roots : Value → Prop} {held held' : Slot → Option Value}
  {owner : Cell → Option Slot} {place : Nat}

/-- One slot is given up: what it held may be seen from outside from now on. -/
theorem giveUp (ho : Ownership h roots held owner) (slot : Slot) {given : Value → Prop}
    (hgiven : ∀ v, given v → held slot = some v) :
    ∃ owner', Ownership h (fun v => given v ∨ roots v)
      (fun other => if other = slot then none else held other) owner' := by
  refine ⟨_, ho.release (fun other => other == slot) (fun v hv => ?_) fun other v hv => ?_⟩
  · rcases hv with hv | hv
    · exact ho.openAfter_of_held (hgiven v hv) (by simp)
    · exact ho.openAfter_of_root hv _
  · by_cases heq : other = slot
    · simp [heq] at hv
    · simpa [heq] using hv

/-- All slots of a transaction are given up. -/
theorem giveUpAll (ho : Ownership h roots held owner) {roots' : Value → Prop}
    (hroots : ∀ v, roots' v → v.Within (OpenAfter h owner fun slot => slot.1 == place))
    (hheld : ∀ slot, held' slot = if slot.1 = place then none else held slot) :
    ∃ owner', Ownership h roots' held' owner' := by
  refine ⟨_, ho.release (fun slot => slot.1 == place) hroots fun slot v hv => ?_⟩
  rw [hheld] at hv
  by_cases hp : slot.1 = place
  · simp [hp] at hv
  · simpa [hp] using hv

/-- An edit of one key of an overlay is a change of one slot. -/
private theorem held_edit {o : Overlay Value} (hheld : ∀ key, held (place, key) = o.held? key)
    (key : String) (x : Option Value) (slot : Slot) :
    (if slot.1 = place then if slot.2 = key then x else o.held? slot.2 else held slot) =
      if slot = (place, key) then x else held slot := by
  obtain ⟨p, k⟩ := slot
  by_cases hp : p = place
  · by_cases hk : k = key
    · simp [hp, hk]
    · simp [hp, hk, hheld]
  · simp [hp]

/-- A call on an overlay keeps ownership: what it answers may be seen from outside afterwards. -/
theorem overlayCall (ho : Ownership h roots held owner) {o : Overlay Value}
    {base : GuardedStore Value} (hbase : base.store.Within h.Has)
    (hheld : ∀ key, held (place, key) = o.held? key) {call : StoreCall Value}
    (hcall : ∀ v ∈ call.values, v.Within h.Has)
    (hheld' : ∀ slot, held' slot =
      if slot.1 = place then (o.call h base call).state.held? slot.2 else held slot) :
    h ≤ (o.call h base call).heap ∧ ∃ owner', Ownership (o.call h base call).heap
      (fun v => v ∈ answerValues (o.call h base call).answer ∨ roots v) held' owner' := by
  have ho' : o.Within h.Has := fun key v hv => ho.has_of_held ((hheld key).trans hv)
  have heffect := Overlay.call_effect ho.closed_has hbase ho' call
  generalize o.call h base call = outcome at heffect hheld'
  cases heffect with
  | @kept call answer h' vs _ hcopies hvalues =>
    have hsame : held' = held := by
      funext slot
      rw [hheld' slot]
      split
      next heq =>
        subst heq
        exact (hheld slot.2).symm
      next => rfl
    subst hsame
    refine ⟨hcopies.le, owner, (ho.handOut hcopies).weaken (fun v hv => ?_) fun _ _ hv => hv⟩
    exact (ho.handOut hcopies).root v (hv.imp_left fun hm => hvalues hm)
  | @set call reply key value copy h' hsets hcopy hvalues =>
    have hcopies := Value.copies_of_copy ho.closed_has (hcall value hsets.mem_values) hcopy
    -- The slot is given up with its former value, and then takes the copy.
    obtain ⟨owner', hgiven⟩ := ho.giveUp (place, key) fun v hm => (hheld key).trans (hvalues v hm)
    refine ⟨hcopies.le, _, hgiven.hold hcopies (place, key) fun slot v hv => ?_⟩
    rw [hheld', Overlay.held?_insert_set, held_edit hheld] at hv
    by_cases heq : slot = (place, key)
    · rw [if_pos heq] at hv
      exact .inl ⟨heq, (Option.some.inj hv).symm⟩
    · rw [if_neg heq] at hv
      exact .inr ((if_neg heq).trans hv)
  | removed key =>
    obtain ⟨owner', hgiven⟩ := ho.giveUp (place, key) fun v hm =>
      (hheld key).trans (Option.mem_toList.mp hm)
    refine ⟨le_refl h, owner', hgiven.weaken hgiven.root fun slot v hv => ?_⟩
    rw [hheld', Overlay.held?_insert_remove, held_edit hheld] at hv
    exact hv
  | @cleared answer o' hvalues hnone =>
    have hempty : ∀ slot, held' slot = if slot.1 = place then none else held slot := by
      intro slot
      rw [hheld', hnone]
    refine ⟨le_refl h, ho.giveUpAll (fun v hv => ?_) hempty⟩
    rw [hvalues] at hv
    exact ho.openAfter_of_root (hv.resolve_left List.not_mem_nil) _

end Ownership

/-! ## Transactions -/

namespace Transaction

/-- A call of the transaction itself hands out nothing that its view would not. -/
theorem values_ownCall (t : Transaction Value) (h : Heap) (base : GuardedStore Value)
    (call : KeyCall Value) :
    answerValues (t.ownCall h base call).answer ⊆
      answerValues (t.viewCall h base call.toStoreCall).answer := by
  have hpass : ∀ reply : Reply Value, (call.passOn reply).values ⊆ reply.values := by
    intro reply
    cases call <;> simp [KeyCall.passOn, Reply.values]
  rw [ownCall]
  cases (t.viewCall h base call.toStoreCall).answer with
  | error e => simp [Except.map]
  | ok reply => exact hpass reply

/-- A commit moves to the store what the transaction held, and nothing else. -/
theorem commit_all {t : Transaction V} {order : KeyOrder} {base : GuardedStore V} {p : V → Prop}
    (hbase : base.store.All p) (ht : ∀ key v, t.held? key = some v → p v) :
    (t.commit order base).base.store.All p := by
  have hheld : t.phase = .active → ∀ e ∈ EditList.assignments (t.overlay.toListIn order),
      p e.2 := fun hactive e he =>
    ht e.1 e.2 ((held?_of_active hactive e.1).trans (Overlay.mem_assignments_toListIn_iff.mp he))
  have hresult := t.commit_result order base
  generalize t.commit order base = settled at hresult
  cases hresult with
  | ended => exact hbase
  | @committed base' hactive happly | @refused base' _ hactive happly =>
    have hstore := EditList.apply_all hbase (hheld hactive)
    rw [happly] at hstore
    exact hstore

/-- After a commit nothing is held, however it ended. -/
theorem held?_commit (t : Transaction V) (order : KeyOrder) (base : GuardedStore V)
    (key : String) : (t.commit order base).transaction.held? key = none :=
  held?_of_final (Phase.isFinal_eq_true_iff.mp (t.isFinal_commit order base)) key

/-- After a rollback nothing is held. -/
theorem held?_rollback (t : Transaction V) (key : String) : t.rollback.held? key = none :=
  held?_of_final (Phase.isFinal_eq_true_iff.mp t.isFinal_rollback) key

/-- However a managed execution ends, at most what the transaction held moves to the store. -/
theorem conclude_all {t : Transaction V} {order : KeyOrder} {base : GuardedStore V} {p : V → Prop}
    (hbase : base.store.All p) (ht : ∀ key v, t.held? key = some v → p v) {α : Type}
    (ending : Ending α) : (t.conclude order base ending).base.store.All p := by
  cases ending with
  | returned value =>
    simp only [conclude]
    split <;> exact commit_all hbase ht
  | failed cause => exact hbase
  | aborted text => exact hbase

end Transaction

namespace Session

/-- What a command has to do to keep ownership. -/
def Keeps (s : Session) (owner : Cell → Option Slot) (answer : Answer Value)
    (db : Database Value) : Prop :=
  Ownership.Spares owner s.db.heap db.heap ∧ ∃ owner', Ownership db.heap
    (fun v => v ∈ answer.values ∨ v ∈ s.seen ∨ ∃ key, db.base.store.get? key = some v)
    db.held? owner'

namespace Owned

variable {s : Session} {owner : Cell → Option Slot} {answer : Answer Value} {db : Database Value}
  {place : Nat} {t : Transaction Value}

/-- A command without cells: values move between callers and the store, and slots are forgotten. -/
theorem keeps_of_heap_eq (ho : s.Owned owner) (hheap : db.heap = s.db.heap)
    (hvalues : ∀ v ∈ answer.values, v.Within fun cell => s.db.heap.Has cell ∧ owner cell = none)
    (hbase : db.base.store.Within fun cell => s.db.heap.Has cell ∧ owner cell = none)
    (hheld : ∀ slot v, db.held? slot = some v → s.db.held? slot = some v) :
    s.Keeps owner answer db := by
  rw [Keeps, hheap]
  refine ⟨ho.spares_of_le (le_refl _), owner, ho.weaken (fun v hv => ?_) hheld⟩
  rcases hv with hv | hv | ⟨key, hv⟩
  · exact hvalues v hv
  · exact ho.root v (.inl hv)
  · exact hbase key v hv

/-- A command that moves no value. -/
theorem keeps_silent (ho : s.Owned owner) (hvalues : answer.values = [])
    (hheap : db.heap = s.db.heap) (hstore : db.base.store = s.db.base.store)
    (hheld : db.held? = s.db.held?) : s.Keeps owner answer db := by
  refine ho.keeps_of_heap_eq hheap (fun v hv => ?_) (hstore ▸ ho.base) fun slot v hv => ?_
  · rw [hvalues] at hv
    cases hv
  · rw [← hheld]
    exact hv

/-- A call on the store. -/
theorem keeps_storeCall (ho : s.Owned owner) {call : StoreCall Value}
    (hcall : ∀ v ∈ call.values, v.Within fun cell => s.db.heap.Has cell ∧ owner cell = none)
    {refused : StoreError → Answer Value} (hrefused : ∀ e, (refused e).values = []) :
    s.Keeps owner (s.db.storeCall call refused).1 (s.db.storeCall call refused).2 := by
  rw [Database.storeCall]
  cases hok : s.db.base.call s.db.heap call with
  | ok result =>
    obtain ⟨hstore, hreply⟩ := GuardedStore.call_within ho.base hcall hok
    exact ho.keeps_of_heap_eq rfl hreply hstore fun _ _ hv => hv
  | error e =>
    exact ho.keeps_silent (hrefused e) rfl rfl rfl

/-- A call through the view of a transaction, of whose answer not more is passed on. -/
theorem keeps_viewCall (ho : s.Owned owner) (ht : s.db.transaction? place = some t)
    {call : StoreCall Value}
    (hcall : ∀ v ∈ call.values, v.Within fun cell => s.db.heap.Has cell ∧ owner cell = none)
    (hvalues : answer.values ⊆ answerValues (t.viewCall s.db.heap s.db.base call).answer) :
    s.Keeps owner answer
      ({ s.db with heap := (t.viewCall s.db.heap s.db.base call).heap }.setTransaction place
        (t.viewCall s.db.heap s.db.base call).state) := by
  by_cases hactive : t.phase = .active
  · have hheld : ∀ key, s.db.held? (place, key) = t.overlay.held? key := fun key => by
      rw [Database.held?, ht]
      exact Transaction.held?_of_active hactive key
    rw [Transaction.viewCall_of_active hactive] at hvalues ⊢
    obtain ⟨hle, owner', ho'⟩ := Ownership.overlayCall ho (ho.base.mono fun _ hi => hi.1) hheld
      (fun v hv => (hcall v hv).mono fun _ hi => hi.1)
      (Database.held?_setOverlay ht hactive _ _)
    refine ⟨ho.spares_of_le hle, owner', ho'.weaken (fun v hv => ?_) fun _ _ hv => hv⟩
    exact ho'.root v (hv.imp (fun hm => hvalues hm) id)
  · have hfinal := Transaction.viewCall_of_final (Phase.isFinal_eq_true_iff.mpr hactive)
    rw [hfinal] at hvalues ⊢
    refine ho.keeps_of_heap_eq rfl (fun v hv => absurd (hvalues hv) List.not_mem_nil) ho.base
      fun slot v hv => ?_
    rw [Database.held?_setTransaction ht] at hv
    split at hv
    next heq =>
      rw [Transaction.held?_of_final hactive] at hv
      cases hv
    next => exact hv

/-- The end of a transaction. -/
theorem keeps_of_end (ho : s.Owned owner) (hheap : db.heap = s.db.heap)
    (hvalues : answer.values = [])
    (hbase : db.base.store.Within
      (Ownership.OpenAfter s.db.heap owner fun slot => slot.1 == place))
    (hheld : ∀ slot, db.held? slot = if slot.1 = place then none else s.db.held? slot) :
    s.Keeps owner answer db := by
  rw [Keeps, hheap]
  refine ⟨ho.spares_of_le (le_refl _), Ownership.giveUpAll ho (fun v hv => ?_) hheld⟩
  rcases hv with hv | hv | ⟨key, hv⟩
  · rw [hvalues] at hv
    cases hv
  · exact ho.openAfter_of_root (.inl hv) _
  · exact hbase key v hv

/-- A commit, a rollback or the conclusion of a managed execution. -/
theorem keeps_settled (ho : s.Owned owner) (ht : s.db.transaction? place = some t)
    {base : GuardedStore Value} {t' : Transaction Value}
    (hbase : ∀ region, s.db.base.store.Within region →
      (∀ key v, t.held? key = some v → v.Within region) → base.store.Within region)
    (hheld : ∀ key, t'.held? key = none) (hvalues : answer.values = []) :
    s.Keeps owner answer ({ s.db with base }.setTransaction place t') := by
  have ht' : { s.db with base }.transaction? place = some t := ht
  have hslot : ∀ key v, t.held? key = some v → s.db.held? (place, key) = some v := by
    intro key v hv
    rw [Database.held?, ht]
    exact hv
  have hopen := hbase (Ownership.OpenAfter s.db.heap owner fun slot => slot.1 == place)
    (fun key v hv => ho.openAfter_of_root (.inr ⟨key, hv⟩) _)
    (fun key v hv => ho.openAfter_of_held (hslot key v hv) (by simp))
  refine ho.keeps_of_end rfl hvalues hopen fun slot => ?_
  rw [Database.held?_setTransaction ht', hheld]
  rfl

/-- The heap grows by cells that hold open values. -/
theorem keeps_of_growth (ho : s.Owned owner) {heap : Heap} (hle : s.db.heap ≤ heap)
    (hnew : ∀ cell v, ¬ s.db.heap.Has cell → heap.read? cell = some v →
      v.Within fun inner => heap.Has inner ∧ owner inner = none)
    (hvalues : ∀ v ∈ answer.values, v.Within fun cell => heap.Has cell ∧ owner cell = none) :
    s.Keeps owner answer { s.db with heap } := by
  have hgrown := Ownership.grow ho hle hnew
  refine ⟨ho.spares_of_le hle, owner, hgrown.weaken (fun v hv => ?_) fun _ _ hv => hv⟩
  rcases hv with hv | hv
  · exact hvalues v hv
  · exact hgrown.root v hv

/-- A new cell around an open value. -/
theorem keeps_alloc (ho : s.Owned owner) {value : Value}
    (hvalue : value.Within fun cell => s.db.heap.Has cell ∧ owner cell = none) :
    s.Keeps owner (.cell (s.db.heap.alloc value).1)
      { s.db with heap := (s.db.heap.alloc value).2 } := by
  have hle := s.db.heap.le_alloc value
  have hnew : ∀ cell, ¬ s.db.heap.Has cell → (s.db.heap.alloc value).2.Has cell →
      cell = (s.db.heap.alloc value).1 := by
    intro cell hold hin
    have hm : cell ∈ s.db.heap.fresh (s.db.heap.alloc value).2 :=
      Heap.mem_fresh.mpr ⟨Nat.le_of_not_lt hold, hin⟩
    rw [Heap.fresh_alloc] at hm
    exact List.mem_singleton.mp hm
  refine ho.keeps_of_growth hle (fun cell v hold hr => ?_) fun v hv => ?_
  · rw [hnew cell hold (Heap.has_of_read? hr), Heap.read?_alloc_self] at hr
    rw [← Option.some.inj hr]
    exact hvalue.mono fun inner hi => ⟨hi.1.mono hle, hi.2⟩
  · rw [List.mem_singleton.mp hv, Value.within_shared]
    exact ⟨Heap.has_of_read? (Heap.read?_alloc_self _ _),
      Ownership.owner_of_not_has ho (Nat.lt_irrefl _)⟩

/-- What an open cell holds is open. -/
theorem within_of_read? (ho : s.Owned owner) {cell : Cell} {v : Value}
    (hr : s.db.heap.read? cell = some v)
    (hcell : (Value.shared cell).Within fun c => s.db.heap.Has c ∧ owner c = none) :
    v.Within fun c => s.db.heap.Has c ∧ owner c = none :=
  Ownership.closed_owner ho none cell v (Value.within_shared.mp hcell) hr

/-- A write of an open value to an open cell; what the cell held before is answered. -/
theorem keeps_write (ho : s.Owned owner) {cell : Cell} {old value : Value}
    (hr : s.db.heap.read? cell = some old)
    (hcell : (Value.shared cell).Within fun c => s.db.heap.Has c ∧ owner c = none)
    (hvalue : value.Within fun c => s.db.heap.Has c ∧ owner c = none) :
    s.Keeps owner (.value old) { s.db with heap := s.db.heap.write cell value } := by
  have hopen := (Value.within_shared.mp hcell).2
  have hsize := s.db.heap.size_write cell value
  have hwritten := Ownership.write ho hopen hvalue
  refine ⟨⟨le_of_eq hsize.symm, fun other slot hs => Heap.read?_write_of_ne value ?_⟩, owner,
    hwritten.weaken (fun v hv => ?_) fun _ _ hv => hv⟩
  · rintro rfl
    rw [hopen] at hs
    cases hs
  · rcases hv with hv | hv
    · rw [List.mem_singleton.mp hv]
      refine (ho.within_of_read? hr hcell).mono fun c hc => ⟨?_, hc.2⟩
      rw [Heap.Has, hsize]
      exact hc.1
    · exact hwritten.root v hv

/-- A command that is given to a transaction. -/
theorem keeps_ofTransaction (ho : s.Owned owner) {command : Command Value}
    (hplace : command.place? = some place)
    (hcommand : ∀ v ∈ command.values, v.Within fun cell => s.db.heap.Has cell ∧ owner cell = none) :
    s.Keeps owner (s.answer command) (s.db.step command).2 := by
  rw [Session.answer]
  cases ht : s.db.transaction? place with
  | none =>
    rw [Database.step_of_none hplace ht]
    exact ho.keeps_silent rfl rfl rfl rfl
  | some t =>
    cases command with
    | own other call =>
      cases hplace
      rw [Database.step_own ht]
      refine ho.keeps_viewCall ht hcommand ?_
      rw [Answer.values_ofTransaction]
      exact t.values_ownCall s.db.heap s.db.base call
    | view other call =>
      cases hplace
      rw [Database.step_view ht]
      refine ho.keeps_viewCall ht hcommand ?_
      rw [Answer.values_ofTransaction]
      exact List.Subset.refl _
    | commit other order =>
      cases hplace
      simp only [Database.step, ht]
      refine ho.keeps_settled ht (fun region hb hv => Transaction.commit_all hb hv)
        (t.held?_commit order s.db.base) ?_
      rw [Answer.values_ofTransaction]
      cases (t.commit order s.db.base).answer <;> rfl
    | rollback other =>
      cases hplace
      simp only [Database.step, ht]
      exact ho.keeps_settled ht (fun region hb _ => hb) t.held?_rollback rfl
    | conclude other ending order =>
      cases hplace
      simp only [Database.step, Database.conclude, ht]
      exact ho.keeps_settled ht (fun region hb hv => Transaction.conclude_all hb hv ending)
        (Transaction.held?_rollback _) (Answer.values_ofConclusion _)
    | _ => cases hplace

/-- Every command that a caller may give keeps ownership. -/
theorem keeps_step (ho : s.Owned owner) {command : Command Value} (hp : s.Permits command) :
    s.Keeps owner (s.answer command) (s.db.step command).2 := by
  have hpermitted := ho.permitted hp
  have hbase := ho.base
  rw [Session.answer]
  cases command with
  | store call => exact ho.keeps_storeCall hpermitted fun _ => rfl
  | direct call => exact ho.keeps_storeCall hpermitted fun _ => rfl
  | getD key fallback =>
    refine ho.keeps_of_heap_eq rfl (fun v hv => ?_) hbase fun _ _ hv => hv
    have hgetD : v = (s.db.base.store.get? key).getD fallback :=
      (Option.some.inj (Option.mem_toList.mp hv)).symm
    rw [hgetD]
    cases hget : s.db.base.store.get? key with
    | none => exact hpermitted fallback List.mem_cons_self
    | some old => exact hbase key old hget
  | putNew key value =>
    have hvalue := hpermitted value List.mem_cons_self
    simp only [Database.step, Store.putNew]
    cases hget : s.db.base.store.get? key with
    | none =>
      exact ho.keeps_of_heap_eq rfl (fun v hv => absurd hv List.not_mem_nil)
        (hbase.insert key hvalue) fun _ _ hv => hv
    | some old =>
      refine ho.keeps_of_heap_eq rfl (fun v hv => ?_) hbase fun _ _ hv => hv
      rw [List.mem_singleton.mp hv]
      exact hbase key old hget
  | begin nonce =>
    refine ho.keeps_silent rfl rfl rfl (funext fun slot => ?_)
    apply s.db.held?_step_of_ne
    intro hplace
    cases hplace
  | own place | view place | commit place | rollback place | conclude place =>
    exact ho.keeps_ofTransaction rfl hpermitted
  | lookup id => exact ho.keeps_silent rfl rfl rfl rfl
  | deregister id => exact ho.keeps_silent rfl rfl rfl rfl
  | registered => exact ho.keeps_silent rfl rfl rfl rfl
  | refuse refusals => exact ho.keeps_silent rfl rfl rfl rfl
  | newCell value => exact ho.keeps_alloc (hpermitted value List.mem_cons_self)
  | readCell cell =>
    simp only [Database.step]
    cases hr : s.db.heap.read? cell with
    | none => exact ho.keeps_silent rfl rfl rfl rfl
    | some old =>
      refine ho.keeps_of_heap_eq rfl (fun v hv => ?_) hbase fun _ _ hv => hv
      rw [List.mem_singleton.mp hv]
      exact ho.within_of_read? hr (hpermitted _ List.mem_cons_self)
  | writeCell cell value =>
    simp only [Database.step]
    cases hr : s.db.heap.read? cell with
    | none => exact ho.keeps_silent rfl rfl rfl rfl
    | some old =>
      exact ho.keeps_write hr (hpermitted _ List.mem_cons_self)
        (hpermitted value (List.mem_cons_of_mem _ List.mem_cons_self))
  | copy value =>
    simp only [Database.step]
    cases hcopy : value.copy s.db.heap with
    | error e => exact ho.keeps_silent rfl rfl rfl rfl
    | ok result =>
      have hcopies := Value.copies_of_copy (Ownership.closed_has ho)
        ((hpermitted value List.mem_cons_self).mono fun _ hi => hi.1) hcopy
      exact ⟨Ownership.spares_of_le ho hcopies.le, owner, Ownership.handOut ho hcopies⟩
  | adopt typeName =>
    have hle := s.db.heap.le_adopt typeName
    refine ho.keeps_of_growth hle (fun cell v hold hr => ?_) fun v hv => ?_
    · exact absurd (Heap.has_of_read? hr) hold
    · rw [List.mem_singleton.mp hv]
      exact Value.within_foreign _ _

/-- The step of the invariant: ownership goes on, and the cells that were owned are spared. -/
theorem after (ho : s.Owned owner) {command : Command Value} (hp : s.Permits command) :
    Ownership.Spares owner s.db.heap (s.after command).db.heap ∧
      ∃ owner', (s.after command).Owned owner' := by
  obtain ⟨hspares, owner', ho'⟩ := ho.keeps_step hp
  refine ⟨hspares, owner', ho'.weaken (fun v hv => ?_) fun _ _ hv => hv⟩
  rcases hv with hv | hv
  · rcases List.mem_append.mp hv with hv | hv
    · exact ho'.root v (.inl hv)
    · rcases List.mem_append.mp hv with hv | hv
      · intro cell hc
        obtain ⟨w, hw, hcell⟩ := hp v hv cell hc
        exact ho'.root w (.inr (.inl hw)) cell hcell
      · exact ho'.root v (.inr (.inl hv))
  · exact ho'.root v (.inr (.inr hv))

end Owned

end Session

end OverlayStore
