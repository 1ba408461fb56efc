import OverlayStore.Proofs.Database.Commits
import OverlayStore.Proofs.Session.ReadPaths

/-!
# Where a transaction fails on a copy

Over a plain store, a call on an active transaction fails if and only if it has to copy a value that
reaches a foreign payload. What the transaction holds was copied when it came in, and nobody outside
can reach into it, so only untouched values of the store and values that are passed in can be in the
way.
-/

namespace OverlayStore

/-- The answer of a call that does not come to an end. -/
def Answer.Endless (answer : Answer V) : Prop :=
  answer = .error (.transaction (.copy .endless)) ∨ answer = .error (.transaction (.store .endless))

namespace Session

variable {s : Session} {place : Nat} {t : Transaction Value} {owner : Cell → Option Slot}
  {copied compared : Value → Prop}

/-- A call fails if and only if one of the values that it copies holds a payload. -/
structure FailsOn (s : Session) (command : Command Value) (copied compared : Value → Prop) :
    Prop where
  /-- It succeeds or fails. -/
  answers : (∃ reply, s.answer command = .reply reply) ∨ ∃ cause, s.answer command = .error cause
  /-- It comes to an end if no value that it copies or compares runs around a cycle. -/
  ends : (∀ v, copied v ∨ compared v → v.Grounded s.db.heap) → ¬ (s.answer command).Endless
  /-- If it comes to an end, it fails if and only if some value that it copies holds a payload. -/
  fails : ¬ (s.answer command).Endless → ((∃ cause, s.answer command = .error cause) ↔
    ∃ v payload, copied v ∧ v.Holds s.db.heap payload)
  /-- The error names the type of the first payload of such a value. -/
  names : ¬ (s.answer command).Endless → ∀ cause, s.answer command = .error cause →
    ∃ v payload, copied v ∧ v.HoldsFirst s.db.heap payload ∧
      cause = .transaction (.copy (.foreign payload.typeName))

/-- What a call comes to, told of the answer of the session. -/
theorem failsOn_of_result {command : Command Value}
    {result : Except TransactionError (Reply Value)}
    (hanswer : s.answer command = .ofTransaction result)
    (hr : CallResult s.db.heap copied compared result) : s.FailsOn command copied compared := by
  cases hr with
  | ok reply hnone =>
    have hreply : s.answer command = .reply reply := hanswer
    refine ⟨.inl ⟨reply, hreply⟩, fun _ => ?_, fun _ => iff_of_false ?_ ?_, fun _ => ?_⟩
    · rw [Answer.Endless, hreply]
      rintro (⟨⟨⟩⟩ | ⟨⟨⟩⟩)
    · rintro ⟨cause, hcause⟩
      cases hreply.symm.trans hcause
    · rintro ⟨v, payload, hv, hp⟩
      exact hnone v payload hv hp
    · intro cause hcause
      cases hreply.symm.trans hcause
  | payload hv hfirst =>
    have herror : s.answer command = .error _ := hanswer
    refine ⟨.inr ⟨_, herror⟩, fun _ => ?_, fun _ => iff_of_true ⟨_, herror⟩ ?_, fun _ => ?_⟩
    · rw [Answer.Endless, herror]
      rintro (⟨⟨⟩⟩ | ⟨⟨⟩⟩)
    · exact ⟨_, _, hv, hfirst.holds⟩
    · intro cause hcause
      cases herror.symm.trans hcause
      exact ⟨_, _, hv, hfirst, rfl⟩
  | endless hv hcycle =>
    have herror : s.answer command = .error _ := hanswer
    have hendless : (s.answer command).Endless := .inl herror
    exact ⟨.inr ⟨_, herror⟩, fun hgrounded => absurd (hgrounded _ (.inl hv)) hcycle,
      fun hend => absurd hendless hend, fun hend => absurd hendless hend⟩
  | incomparable hv hcycle =>
    have herror : s.answer command = .error _ := hanswer
    have hendless : (s.answer command).Endless := .inr herror
    exact ⟨.inr ⟨_, herror⟩, fun hgrounded => absurd (hgrounded _ (.inr hv)) hcycle,
      fun hend => absurd hendless hend, fun hend => absurd hendless hend⟩

/-- What an active transaction answers itself is passed on from its view. -/
theorem answer_own (ht : s.db.transaction? place = some t) (hactive : t.phase = .active)
    (call : KeyCall Value) :
    s.answer (.own place call) = .ofTransaction
      ((t.overlay.call s.db.heap s.db.base call.toStoreCall).answer.map call.passOn) := by
  rw [answer, Database.step_own ht, Transaction.ownCall, Transaction.viewCall_of_active hactive]

/-- Where the calls on a transaction fail on a copy, and where they do not. -/
structure CopyFailures (s : Session) (place : Nat) (t : Transaction Value) : Prop where
  /-- A read copies the value of the store, if its key has no edit. -/
  get : ∀ key, ∀ command ∈ [.own place (.get key), .view place (.get key)],
    s.FailsOn command (fun v => t.overlay.edit? key = none ∧ s.db.base.store.get? key = some v)
      fun _ => False
  /-- Listing the entries, in whatever order, copies all values of the store whose keys have no
  edit. -/
  entries : ∀ order, s.FailsOn (.view place (.entries order))
    (fun v => ∃ key, t.overlay.edit? key = none ∧ s.db.base.store.get? key = some v) fun _ => False
  /-- A put copies the value that is given. -/
  put : ∀ key value, ∀ command ∈ [.own place (.put key value), .view place (.put key value)],
    s.Permits command → s.FailsOn command (fun v => value = v) fun _ => False
  /-- An update does so if the key is visible. -/
  update : ∀ key value, s.Permits (.view place (.update key value)) →
    s.FailsOn (.view place (.update key value))
      (fun v => (t.overlay.visible? s.db.base.store key).isSome ∧ value = v) fun _ => False
  /-- A swap does so if the visible value equals the expected one. -/
  compareAndSwap : ∀ key expected value,
    s.Permits (.view place (.compareAndSwap key expected value)) →
    s.FailsOn (.view place (.compareAndSwap key expected value))
      (fun v => (∃ current, t.overlay.visible? s.db.base.store key = some current ∧
        current.same? s.db.heap expected = some true) ∧ value = v)
      fun v => t.overlay.visible? s.db.base.store key = some v
  /-- The other calls on the view succeed. -/
  bare : ∀ call : StoreCall Value, call.Bare →
    ∃ reply, s.answer (.view place call) = .reply reply
  /-- The transaction deletes a key. -/
  delete : ∀ key, s.answer (.own place (.delete key)) = .reply .done
  /-- A commit succeeds, in whatever order it applies the edits. -/
  commit : ∀ order, s.answer (.commit place order) = .reply .done

/-- In every session that callers can bring about, an active transaction over a plain store fails
exactly where it has to copy a payload. -/
theorem Reachable.copyFailures (hs : s.Reachable) (hplain : s.db.base.refusals = .none)
    (ht : s.db.transaction? place = some t) (hactive : t.phase = .active) :
    s.CopyFailures place t := by
  obtain ⟨owner, ho⟩ := hs.owned
  have hbase := GuardedStore.eq_plain hplain
  have hsound := ho.sound ht hactive
  have hview : ∀ call, s.answer (.view place call) =
      .ofTransaction (t.overlay.call s.db.heap (.plain s.db.base.store) call).answer := by
    intro call
    rw [answer_view ht hactive, ← hbase]
  have hown : ∀ call : KeyCall Value, s.answer (.own place call) = .ofTransaction
      ((t.overlay.call s.db.heap (.plain s.db.base.store) call.toStoreCall).answer.map
        call.passOn) := by
    intro call
    rw [answer_own ht hactive, ← hbase]
  have hpermitted : ∀ {command : Command Value}, s.Permits command → ∀ v ∈ command.values,
      v.Within s.db.heap.Has := fun hp v hv => (ho.permitted hp v hv).mono fun _ hc => hc.1
  constructor
  · intro key
    rw [List.forall_mem_cons, List.forall_mem_singleton]
    exact ⟨failsOn_of_result (hown _) ((Overlay.result_get hsound key).map _),
      failsOn_of_result (hview _) (Overlay.result_get hsound key)⟩
  · exact fun order => failsOn_of_result (hview _) (Overlay.result_listing hsound order)
  · intro key value
    rw [List.forall_mem_cons, List.forall_mem_singleton]
    constructor
    · intro hp
      have hvalue := hpermitted hp value List.mem_cons_self
      exact failsOn_of_result (hown _) ((Overlay.result_put hsound key hvalue).map _)
    · intro hp
      have hvalue := hpermitted hp value List.mem_cons_self
      exact failsOn_of_result (hview _) (Overlay.result_put hsound key hvalue)
  · intro key value hp
    exact failsOn_of_result (hview _)
      (Overlay.result_update hsound key (hpermitted hp value List.mem_cons_self))
  · intro key expected value hp
    exact failsOn_of_result (hview _) (Overlay.result_compareAndSwap hsound key
      (hpermitted hp expected List.mem_cons_self)
      (hpermitted hp value (List.mem_cons_of_mem _ List.mem_cons_self)))
  · intro call hbare
    obtain ⟨reply, hreply⟩ := Overlay.replies_of_bare t.overlay s.db.base.store s.db.heap hbare
    exact ⟨reply, by rw [hview, hreply]; rfl⟩
  · intro key
    rw [hown]
    rfl
  · intro order
    obtain ⟨s', hcommit, -⟩ := Transaction.commit_plain hactive order s.db.base.store
    rw [← hbase] at hcommit
    simp only [answer, Database.step, ht, hcommit]
    rfl

/-- A session whose store has a list around a payload under one key and a cell that holds itself
under another one, next to a transaction that sets a third key. -/
def tangled : Session :=
  ((((((start.after (.adopt "Socket")).after
    (.store (.put "a" (.list [.foreign ⟨0, "Socket"⟩])))).after
    (.newCell (.plain (.int 0)))).after (.writeCell ⟨0⟩ (.shared ⟨0⟩))).after
    (.store (.put "b" (.shared ⟨0⟩)))).after (.begin 0)).after
    (.own 0 (.put "c" (.plain (.int 1))))

/-- The list cannot be read but compared and replaced, and reading the cell does not come to an
end. -/
theorem copyFailures_tangled :
    tangled.Reachable ∧ tangled.db.base.refusals = .none ∧
      ∃ t, tangled.db.transaction? 0 = some t ∧ t.phase = .active ∧ tangled.CopyFailures 0 t ∧
        tangled.answer (.view 0 (.get "a")) = .error (.transaction (.copy (.foreign "Socket"))) ∧
        tangled.answer (.view 0 (.compareAndSwap "a" (.list [.foreign ⟨0, "Socket"⟩])
          (.plain (.int 2)))) = .reply (.flag true) ∧
        (tangled.answer (.own 0 (.get "b"))).Endless ∧
        tangled.answer (.own 0 (.get "c")) = .reply (.value (some (.plain (.int 1)))) := by
  have hknown : ∀ {s : Session}, Value.shared ⟨0⟩ ∈ s.seen → ∀ {command : Command Value},
      (∀ v ∈ command.values, v = .shared ⟨0⟩) → s.Permits command := by
    intro s hseen command hvalues v hv cell hc
    rw [hvalues v hv] at hc
    exact ⟨_, hseen, hc⟩
  have hreach : tangled.Reachable := by
    refine .step (.step (.step (.step (.step (.step (.step .start ?_) ?_) ?_) ?_) ?_) ?_) ?_
    · simp [Permits, Command.values]
    · simp [Permits, Command.values, StoreCall.values]
    · simp [Permits, Command.values]
    · exact hknown List.mem_cons_self (by simp [Command.values])
    · exact hknown (by simp [after, Command.values]) (by simp [Command.values, StoreCall.values])
    · simp [Permits, Command.values]
    · simp [Permits, Command.values, KeyCall.toStoreCall, StoreCall.values]
  exact ⟨hreach, rfl, _, rfl, rfl, hreach.copyFailures rfl rfl rfl, rfl, rfl, .inl rfl, rfl⟩

end Session

end OverlayStore
