import OverlayStore.Proofs.Database.Commits
import OverlayStore.Proofs.Session.Separation

/-!
# Buffered values are snapshots

A transaction that buffers a value keeps its contents: whatever anybody does in between, it reads
them back until it writes to the key again, and they are what the store has after its commit. The
invariant is that the slot holds a value with these contents, which only commands of the transaction
itself can disturb.
-/

namespace OverlayStore

/-! ## Commands that concern a slot -/

/-- A command buffers a value, and its answer says so. -/
inductive Command.Buffers (place : Nat) (key : String) (value : V) : Command V → Answer V → Prop
  /-- The transaction puts the value. -/
  | own (reply : Reply V) : Buffers place key value (.own place (.put key value)) (.reply reply)
  /-- The view puts it, updates a key that is visible, or swaps it for what was expected. -/
  | view {call : StoreCall V} {reply : Reply V} (hs : call.Sets key value reply) :
    Buffers place key value (.view place call) (.reply reply)

/-- A command writes to a slot, or ends its transaction. -/
inductive Command.Disturbs (place : Nat) (key : String) : Command V → Answer V → Prop
  /-- A value is buffered. -/
  | buffer {value : V} {command : Command V} {answer : Answer V}
    (hb : command.Buffers place key value answer) : Disturbs place key command answer
  /-- The transaction deletes the key. -/
  | ownDelete (reply : Reply V) : Disturbs place key (.own place (.delete key)) (.reply reply)
  /-- The view deletes the key. -/
  | viewDelete (reply : Reply V) : Disturbs place key (.view place (.delete key)) (.reply reply)
  /-- The view is cleared. -/
  | clear (answer : Answer V) : Disturbs place key (.view place .clear) answer
  /-- The transaction is committed. -/
  | commit (order : KeyOrder) (answer : Answer V) : Disturbs place key (.commit place order) answer
  /-- The transaction is rolled back. -/
  | rollback (answer : Answer V) : Disturbs place key (.rollback place) answer
  /-- The managed execution of the transaction is concluded. -/
  | conclude (ending : Ending Unit) (order : KeyOrder) (answer : Answer V) :
    Disturbs place key (.conclude place ending order) answer

/-- What a call sets is told by the call. -/
theorem StoreCall.Sets.unique {key k : String} {value v : V} {call : StoreCall V}
    {reply r : Reply V} (hs : call.Sets key value reply) (hs' : call.Sets k v r) :
    k = key ∧ v = value := by
  cases hs <;> cases hs' <;> exact ⟨rfl, rfl⟩

/-- A write through the view disturbs the slot. -/
theorem StoreCall.Writes.disturbs {place : Nat} {key : String} {call : StoreCall V}
    {answer : Except TransactionError (Reply V)} (hw : call.Writes key answer) :
    (Command.view place call).Disturbs place key (.ofTransaction answer) := by
  cases hw with
  | set hs => exact .buffer (.view hs)
  | delete reply => exact .viewDelete reply
  | clear answer => exact .clear _

/-- A write of the transaction itself disturbs the slot. -/
theorem StoreCall.Writes.disturbs_own {place : Nat} {key : String} {call : KeyCall V}
    {answer : Except TransactionError (Reply V)} (hw : call.toStoreCall.Writes key answer) :
    (Command.own place call).Disturbs place key (.ofTransaction (answer.map call.passOn)) := by
  cases call with
  | put k value =>
    obtain ⟨⟨⟩⟩ | _ | _ := hw
    exact .buffer (.own _)
  | get k => obtain ⟨⟨⟩⟩ | _ | _ := hw
  | delete k =>
    obtain ⟨⟨⟩⟩ | ⟨reply⟩ | _ := hw
    exact .ownDelete _

namespace Session

variable {s : Session} {owner : Cell → Option Slot} {place : Nat} {key : String}

/-- A slot holds a value with the given contents. -/
def Holds (s : Session) (place : Nat) (key : String) (x : Contents) : Prop :=
  ∃ w, s.db.held? (place, key) = some w ∧ w.contents? s.db.heap = some x

/-- A command reads the given contents. -/
def Reads (s : Session) (command : Command Value) (x : Contents) : Prop :=
  ∃ w, s.answer command = .reply (.value (some w)) ∧
    w.contents? (s.after command).db.heap = some x

/-- Runs of commands that callers may give and that do not disturb a slot. -/
inductive Undisturbed (place : Nat) (key : String) (s : Session) : Session → Prop
  /-- Nothing happens. -/
  | refl : Undisturbed place key s s
  /-- One more command is carried out. -/
  | step {s' : Session} (hrun : Undisturbed place key s s') {command : Command Value}
    (hp : s'.Permits command) (hd : ¬ command.Disturbs place key (s'.answer command)) :
    Undisturbed place key s (s'.after command)

theorem Undisturbed.reachable {s' : Session} (hrun : Undisturbed place key s s')
    (hs : s.Reachable) : s'.Reachable := by
  induction hrun with
  | refl => exact hs
  | step _ hp _ ih => exact .step ih hp

/-! ## One step -/

namespace Owned

variable {t : Transaction Value} {call : StoreCall Value}

/-- What a call through the view of an active transaction does to its overlay. -/
theorem effect (ho : s.Owned owner) (ht : s.db.transaction? place = some t)
    (hactive : t.phase = .active) (call : StoreCall Value) :
    t.overlay.Effect s.db.heap call (t.overlay.call s.db.heap s.db.base call) := by
  refine Overlay.call_effect (Ownership.closed_has ho) (ho.base.mono fun _ hi => hi.1)
    (fun key v hv => ?_) call
  have hslot : s.db.held? (place, key) = some v :=
    Database.held?_eq_some_iff.mpr ⟨t, ht, hactive, hv⟩
  exact Ownership.has_of_held ho hslot

/-- A call that does not write to a key leaves what is held for it. -/
theorem held?_viewCall (ho : s.Owned owner) (ht : s.db.transaction? place = some t)
    (hwrites : ¬ call.Writes key (t.viewCall s.db.heap s.db.base call).answer) :
    (t.viewCall s.db.heap s.db.base call).state.held? key = t.held? key := by
  by_cases hactive : t.phase = .active
  · rw [Transaction.viewCall_of_active hactive] at hwrites ⊢
    simp only at hwrites
    rw [Transaction.held?_of_active hactive, Transaction.held?_setOverlay hactive]
    have heffect := ho.effect ht hactive call
    generalize t.overlay.call s.db.heap s.db.base call = outcome at heffect hwrites
    cases heffect with
    | kept => rfl
    | @set call reply k value copy h' hsets =>
      have hne : key ≠ k := by
        rintro rfl
        exact hwrites (.set hsets)
      rw [Overlay.held?_insert_set, if_neg hne]
    | removed k =>
      have hne : key ≠ k := by
        rintro rfl
        exact hwrites (.delete _)
      rw [Overlay.held?_insert_remove, if_neg hne]
    | cleared => exact absurd (.clear _) hwrites
  · rw [Transaction.viewCall_of_final (Phase.isFinal_eq_true_iff.mpr hactive)]

/-- The same for the slots of a database. -/
theorem held?_call (ho : s.Owned owner) (ht : s.db.transaction? place = some t)
    (hwrites : ¬ call.Writes key (t.viewCall s.db.heap s.db.base call).answer) :
    ({ s.db with heap := (t.viewCall s.db.heap s.db.base call).heap }.setTransaction place
      (t.viewCall s.db.heap s.db.base call).state).held? (place, key) =
      s.db.held? (place, key) := by
  have ht' : ∀ heap, { s.db with heap }.transaction? place = some t := fun _ => ht
  rw [Database.held?_setTransaction (ht' _), if_pos rfl, ho.held?_viewCall ht hwrites,
    Database.held?, ht]
  rfl

/-- A command that does not disturb a slot leaves what it holds. -/
theorem held?_after (ho : s.Owned owner) {command : Command Value}
    (hd : ¬ command.Disturbs place key (s.answer command)) :
    (s.after command).db.held? (place, key) = s.db.held? (place, key) := by
  rw [Session.after]
  rw [Session.answer] at hd
  by_cases hplace : command.place? = some place
  · cases command with
    | own p call =>
      cases hplace
      cases ht : s.db.transaction? place with
      | none => simp only [Database.step, Database.onTransaction, ht]
      | some t =>
        rw [Database.step_own ht] at hd ⊢
        exact ho.held?_call ht fun hwrites => hd hwrites.disturbs_own
    | view p call =>
      cases hplace
      cases ht : s.db.transaction? place with
      | none => simp only [Database.step, Database.onTransaction, ht]
      | some t =>
        rw [Database.step_view ht] at hd ⊢
        exact ho.held?_call ht fun hwrites => hd hwrites.disturbs
    | commit p order =>
      cases hplace
      exact absurd (.commit order _) hd
    | rollback p =>
      cases hplace
      exact absurd (.rollback _) hd
    | conclude p ending order =>
      cases hplace
      exact absurd (.conclude ending order _) hd
    | _ => cases hplace
  · exact s.db.held?_step_of_ne hplace

/-- A slot keeps its contents as long as it is not disturbed. -/
theorem holds_after (ho : s.Owned owner) {command : Command Value} (hp : s.Permits command)
    (hd : ¬ command.Disturbs place key (s.answer command)) {x : Contents}
    (hx : s.Holds place key x) : (s.after command).Holds place key x := by
  obtain ⟨w, hw, hwx⟩ := hx
  exact ⟨w, (ho.held?_after hd).trans hw, Ownership.contents_held ho hw (ho.after hp).1 hwx⟩

/-- A call that sets a key holds a copy of what it was given. -/
theorem holds_viewCall (ho : s.Owned owner) (ht : s.db.transaction? place = some t)
    {value : Value} {reply : Reply Value} (hs : call.Sets key value reply)
    (hvalue : value.Within s.db.heap.Has)
    (hok : (t.viewCall s.db.heap s.db.base call).answer = .ok reply) :
    ∃ x, value.contents? s.db.heap = some x ∧ ∃ w,
      ({ s.db with heap := (t.viewCall s.db.heap s.db.base call).heap }.setTransaction place
        (t.viewCall s.db.heap s.db.base call).state).held? (place, key) = some w ∧
      w.contents? (t.viewCall s.db.heap s.db.base call).heap = some x := by
  by_cases hactive : t.phase = .active
  · have hheld := fun heap o => Database.held?_setOverlay ht hactive o heap (place, key)
    rw [Transaction.viewCall_of_active hactive] at hok ⊢
    simp only at hok ⊢
    have heffect := ho.effect ht hactive call
    generalize t.overlay.call s.db.heap s.db.base call = outcome at heffect hok
    cases heffect with
    | kept hwrites =>
      simp only at hok
      exact absurd (.set hs) (hok ▸ hwrites key)
    | @set call reply' k v copy h' hsets hcopy =>
      obtain ⟨rfl, rfl⟩ := hs.unique hsets
      obtain ⟨x, hx, -, -, hx', -⟩ :=
        Value.copy_eq_ok (Ownership.closed_has ho) hvalue hcopy
      refine ⟨x, hx, copy, ?_, hx'⟩
      rw [hheld, if_pos rfl, Overlay.held?_insert_set, if_pos rfl]
    | removed => cases hs
    | cleared => cases hs
  · rw [Transaction.viewCall_of_final (Phase.isFinal_eq_true_iff.mpr hactive)] at hok
    cases hok

/-- A slot holds what was buffered, with the contents of that moment. -/
theorem holds_of_buffers (ho : s.Owned owner) {command : Command Value} (hp : s.Permits command)
    {value : Value} (hb : command.Buffers place key value (s.answer command)) :
    ∃ x, value.contents? s.db.heap = some x ∧ (s.after command).Holds place key x := by
  have hhas : ∀ v ∈ command.values, v.Within s.db.heap.Has :=
    fun v hv => (ho.permitted hp v hv).mono fun _ hi => hi.1
  rw [Session.answer] at hb
  simp only [Holds, Session.after]
  cases ht : s.db.transaction? place with
  | none =>
    have hunknown : ∀ call, s.db.onTransaction place call = (.unknown, s.db) := by
      intro call
      simp only [Database.onTransaction, ht]
    generalize hanswer : (s.db.step command).1 = answer at hb
    cases hb <;> rw [Database.step, hunknown] at hanswer <;> cases hanswer
  | some t =>
    generalize hanswer : (s.db.step command).1 = answer at hb
    cases hb with
    | own reply =>
      rw [Database.step_own ht] at hanswer ⊢
      have hok : ∃ r, (t.viewCall s.db.heap s.db.base (.put key value)).answer = .ok r := by
        rw [Transaction.ownCall] at hanswer
        cases hview : (t.viewCall s.db.heap s.db.base (.put key value)).answer with
        | ok r => exact ⟨r, rfl⟩
        | error e => simp [KeyCall.toStoreCall, hview, Except.map, Answer.ofTransaction] at hanswer
      obtain ⟨r, hok⟩ := hok
      have hs : (KeyCall.put key value).toStoreCall.Sets key value r := .put r
      exact ho.holds_viewCall ht hs (hhas value hs.mem_values) hok
    | @view call reply hs =>
      rw [Database.step_view ht] at hanswer ⊢
      refine ho.holds_viewCall ht hs (hhas value hs.mem_values) ?_
      cases hview : (t.viewCall s.db.heap s.db.base call).answer with
      | ok r =>
        simp only [hview, Answer.ofTransaction] at hanswer
        cases hanswer
        rfl
      | error e => simp [hview, Answer.ofTransaction] at hanswer

end Owned

theorem Undisturbed.holds {s' : Session} (hrun : Undisturbed place key s s') (hs : s.Reachable)
    {x : Contents} (hx : s.Holds place key x) : s'.Holds place key x := by
  induction hrun with
  | refl => exact hx
  | step hrun hp hd ih =>
    obtain ⟨owner, ho⟩ := (hrun.reachable hs).owned
    exact ho.holds_after hp hd ih

/-! ## What a held value is good for -/

/-- The transaction and its view read a copy of what a slot holds, without asking the store. -/
theorem Holds.reads (ho : s.Owned owner) {x : Contents} (hx : s.Holds place key x) :
    s.Reads (.own place (.get key)) x ∧ s.Reads (.view place (.get key)) x := by
  obtain ⟨w, hw, hwx⟩ := hx
  obtain ⟨t, ht, hactive, hheld⟩ := Database.held?_eq_some_iff.mp hw
  obtain ⟨y, hy, hfree⟩ := (ho.tree _ _ hw).contents
  rw [hwx] at hy
  cases hy
  obtain ⟨copy, heap, hcopy, -, hcontents, -⟩ := Value.exists_copy hwx hfree
  have hread : t.overlay.read s.db.heap s.db.base key = .ok (some copy, heap) := by
    have hcopy' : Copyable.copy s.db.heap w = .ok (copy, heap) := hcopy
    rw [Overlay.read, Overlay.held?_eq_some_iff.mp hheld]
    simp only [Overlay.handOut, hcopy']
  have hview : t.viewCall s.db.heap s.db.base (.get key) =
      ⟨.ok (.value (some copy)), t, heap⟩ := by
    rw [Transaction.viewCall_of_active hactive]
    simp only [Overlay.call, hread]
  constructor
  · refine ⟨copy, ?_, ?_⟩
    · simp only [Session.answer, Database.step_own ht, Transaction.ownCall, KeyCall.toStoreCall,
        hview]
      rfl
    · simp only [Session.after, Database.step_own ht, KeyCall.toStoreCall, hview]
      exact hcontents
  · refine ⟨copy, ?_, ?_⟩
    · simp only [Session.answer, Database.step_view ht, hview]
      rfl
    · simp only [Session.after, Database.step_view ht, hview]
      exact hcontents

/-- The two commands that commit a transaction: by hand, and as the end of a managed execution. -/
def Commits (place : Nat) (command : Command Value) : Prop :=
  ∃ order, command = .commit place order ∨ command = .conclude place (.returned ()) order

/-- After a commit that succeeds, the store has what a slot held. -/
theorem Holds.stored {x : Contents} (hx : s.Holds place key x) {command : Command Value}
    (hc : Commits place command) (hok : s.answer command = .reply .done) :
    ∃ w, (s.after command).db.base.store.get? key = some w ∧
      w.contents? (s.after command).db.heap = some x := by
  obtain ⟨w, hw, hwx⟩ := hx
  obtain ⟨t, ht, hactive, hheld⟩ := Database.held?_eq_some_iff.mp hw
  have hcommits : command.commits? = some place := by
    obtain ⟨order, rfl | rfl⟩ := hc <;> rfl
  obtain ⟨hdone, hstep⟩ := Database.step_of_commits hcommits ht
  obtain ⟨-, hstored⟩ := Transaction.get?_of_commit (hdone.mp hok) key
  refine ⟨w, ?_, ?_⟩
  · rw [after, hstep]
    exact hstored.trans (Overlay.visible?_of_held hheld _)
  · rw [after, hstep]
    exact hwx

/-- What a transaction buffers is a snapshot: until the transaction writes to the key again or is
over, it reads back the contents of that moment, and a commit puts them into the store. -/
theorem Reachable.snapshot (hs : s.Reachable) {command : Command Value} (hp : s.Permits command)
    {value : Value} (hb : command.Buffers place key value (s.answer command)) :
    ∃ x, value.contents? s.db.heap = some x ∧
      ∀ s', Undisturbed place key (s.after command) s' →
        (s'.Reads (.own place (.get key)) x ∧ s'.Reads (.view place (.get key)) x) ∧
        ∀ last, Commits place last → s'.answer last = .reply .done →
          ∃ w, (s'.after last).db.base.store.get? key = some w ∧
            w.contents? (s'.after last).db.heap = some x := by
  obtain ⟨owner, ho⟩ := hs.owned
  obtain ⟨x, hx, hholds⟩ := ho.holds_of_buffers hp hb
  refine ⟨x, hx, fun s' hrun => ?_⟩
  have hreach : (s.after command).Reachable := .step hs hp
  have hholds' := hrun.holds hreach hholds
  obtain ⟨owner', ho'⟩ := (hrun.reachable hreach).owned
  exact ⟨hholds'.reads ho', fun last hc hok => hholds'.stored hc hok⟩

/-- A session in which a caller has a cell and a transaction. -/
def lent : Session := (start.after (.newCell (.plain (.int 1)))).after (.begin 0)

/-- The session after the cell was put and written to, and every access to the store refused. -/
def overwritten : Session :=
  ((lent.after (.own 0 (.put "k" (.shared ⟨0⟩)))).after (.writeCell ⟨0⟩ (.plain (.int 2)))).after
    (.refuse fun _ => .always)

/-- The transaction reads the contents that the cell had when it was put. -/
theorem snapshot_overwritten :
    lent.Reachable ∧ lent.Permits (.own 0 (.put "k" (.shared ⟨0⟩))) ∧
      Command.Buffers 0 "k" (.shared ⟨0⟩) (.own 0 (.put "k" (.shared ⟨0⟩)))
        (lent.answer (.own 0 (.put "k" (.shared ⟨0⟩)))) ∧
      Undisturbed 0 "k" (lent.after (.own 0 (.put "k" (.shared ⟨0⟩)))) overwritten ∧
      overwritten.Reads (.own 0 (.get "k")) (.cell (.plain (.int 1))) := by
  have hreach : lent.Reachable := by
    refine .step (.step .start ?_) ?_ <;> simp [Permits, Command.values]
  have hseen : Value.shared ⟨0⟩ ∈ lent.seen := List.mem_cons_self
  have hput : lent.Permits (.own 0 (.put "k" (.shared ⟨0⟩))) := by
    simpa [Permits, Command.values, KeyCall.toStoreCall, StoreCall.values] using
      ⟨_, hseen, by simp⟩
  have hbuffers : Command.Buffers 0 "k" (.shared ⟨0⟩) (.own 0 (.put "k" (.shared ⟨0⟩)))
      (lent.answer (.own 0 (.put "k" (.shared ⟨0⟩)))) := .own .done
  have hseen' : Value.shared ⟨0⟩ ∈ (lent.after (.own 0 (.put "k" (.shared ⟨0⟩)))).seen :=
    List.mem_cons_self
  have hrun : Undisturbed 0 "k" (lent.after (.own 0 (.put "k" (.shared ⟨0⟩)))) overwritten := by
    refine .step (.step .refl ?_ ?_) ?_ ?_
    · simpa [Permits, Command.values] using ⟨_, hseen', by simp⟩
    · rintro (⟨⟨⟩⟩ | _ | _ | _ | _ | _ | _)
    · simp [Permits, Command.values]
    · rintro (⟨⟨⟩⟩ | _ | _ | _ | _ | _ | _)
  obtain ⟨x, hx, hlater⟩ := hreach.snapshot hput hbuffers
  have hcontents : (Value.shared ⟨0⟩).contents? lent.db.heap = some (.cell (.plain (.int 1))) := rfl
  rw [hcontents] at hx
  cases hx
  exact ⟨hreach, hput, hbuffers, hrun, (hlater overwritten hrun).1.1⟩

end Session

end OverlayStore
