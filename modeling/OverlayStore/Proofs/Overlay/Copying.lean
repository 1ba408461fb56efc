import OverlayStore.Proofs.Cells.Calls
import OverlayStore.Proofs.Overlay.Listings
import OverlayStore.Proofs.Overlay.Outcomes

/-!
# What a call on an overlay copies

Over a plain store, a call on an overlay can only fail where it copies or compares a value. Held
values can be copied, so what is in the way is an untouched value of the store or a value that is
passed in. The other calls succeed.
-/

namespace OverlayStore

/-- The calls that copy nothing. -/
inductive StoreCall.Bare : StoreCall V → Prop
  /-- Removing a key. -/
  | delete (key : String) : Bare (.delete key)
  /-- Asking for a key. -/
  | contains (key : String) : Bare (.contains key)
  /-- Asking for the number of entries. -/
  | size : Bare .size
  /-- Asking whether there are none. -/
  | isEmpty : Bare .isEmpty
  /-- Removing everything. -/
  | clear : Bare .clear
  /-- Listing the keys. -/
  | keys : Bare .keys

/-- How a call can end that compares some values and then copies some. -/
inductive CallResult {α : Type} (h : Heap) (copied compared : Value → Prop) :
    Except TransactionError α → Prop
  /-- It succeeds, and no value that is copied holds a payload. -/
  | ok (a : α) (hnone : ∀ v payload, copied v → ¬ v.Holds h payload) :
    CallResult h copied compared (.ok a)
  /-- The first payload of a value that is copied is met. -/
  | payload {v : Value} {payload : Foreign} (hv : copied v) (hfirst : v.HoldsFirst h payload) :
    CallResult h copied compared (.error (.copy (.foreign payload.typeName)))
  /-- A value that is copied runs around a cycle. -/
  | endless {v : Value} (hv : copied v) (hcycle : ¬ v.Grounded h) :
    CallResult h copied compared (.error (.copy .endless))
  /-- A value that is compared runs around a cycle. -/
  | incomparable {v : Value} (hv : compared v) (hcycle : ¬ v.Grounded h) :
    CallResult h copied compared (.error (.store .endless))

namespace CallResult

variable {α β : Type} {h : Heap} {copied compared : Value → Prop}

theorem map {result : Except TransactionError α} (hr : CallResult h copied compared result)
    (f : α → β) : CallResult h copied compared (result.map f) := by
  cases hr with
  | ok a hnone => exact .ok (f a) hnone
  | payload hv hfirst => exact .payload hv hfirst
  | endless hv hcycle => exact .endless hv hcycle
  | incomparable hv hcycle => exact .incomparable hv hcycle

/-- A call that does nothing but copy ends like the copying. -/
theorem of_copy {result : Except CopyError α} (hr : Value.CopyResult h copied result) :
    CallResult h copied compared (result.mapError .copy) := by
  cases hr with
  | ok a hnone => exact .ok a hnone
  | payload hv hfirst => exact .payload hv hfirst
  | endless hv hcycle => exact .endless hv hcycle

/-- It does not matter how the copied values are told. -/
theorem congr {copied' : Value → Prop} {result : Except TransactionError α}
    (hr : CallResult h copied compared result) (hiff : ∀ v, copied v ↔ copied' v) :
    CallResult h copied' compared result := by
  rwa [← funext fun v => propext (hiff v)]

end CallResult

namespace Overlay

/-- An overlay over a store in a heap without loose handles, of which every held value can be
copied. -/
structure Sound (o : Overlay Value) (s : Store Value) (h : Heap) : Prop where
  /-- There are no loose handles in cells. -/
  closed : h.Closed h.Has
  /-- There are none in the store. -/
  store : s.Within h.Has
  /-- There are none in the overlay. -/
  held : ∀ key v, o.held? key = some v → v.Within h.Has
  /-- Nothing is in the way of a copy of a held value. -/
  copies : ∀ key v, o.held? key = some v → v.obstacle h = none

variable {o : Overlay Value} {s : Store Value} {h : Heap} {compared : Value → Prop}

/-- There are no loose handles in visible values. -/
theorem Sound.visible (hsound : o.Sound s h) {key : String} {v : Value}
    (hv : o.visible? s key = some v) : v.Within h.Has :=
  all_visible hsound.store hsound.held hv

/-! ## Parts of calls -/

theorem handOut_eq [Copyable V] (h : Heap) (v : V) :
    handOut h v = ((Copyable.copy h v).mapError .copy).map (Prod.map some id) := by
  rw [handOut]
  cases Copyable.copy h v <;> rfl

theorem answer_answering {α : Type} (o : Overlay V) (h : Heap) (reply : α → Reply V)
    (result : Except TransactionError (α × Heap)) :
    (o.answering h reply result).answer = result.map fun made => reply made.1 := by
  cases result <;> rfl

theorem answer_holding (o : Overlay V) (h : Heap) (key : String) (reply : Reply V)
    (copied : Except CopyError (V × Heap)) :
    (o.holding h key reply copied).answer = (copied.mapError .copy).map fun _ => reply := by
  cases copied <;> rfl

/-- A copy of a value is held. -/
theorem result_holding (hclosed : h.Closed h.Has) {v : Value} (hv : v.Within h.Has) (key : String)
    (reply : Reply Value) : CallResult h (fun w => v = w) compared
      (o.holding h key reply (Copyable.copy h v)).answer := by
  rw [answer_holding]
  exact (CallResult.of_copy (Value.copyResult_copy hclosed hv)).map _

/-- What is read is copied, and only the copy of an untouched value of the store can fail. -/
theorem result_read (hsound : o.Sound s h) (key : String) :
    CallResult h (fun v => o.edit? key = none ∧ s.get? key = some v) compared
      (o.read h (.plain s) key) := by
  rw [read]
  rcases hedit : o.edit? key with _ | value | _
  · have hbase : (GuardedStore.plain s).get key = .ok (s.get? key) := rfl
    rw [hbase]
    cases hget : s.get? key with
    | none =>
      refine .ok _ ?_
      rintro v payload ⟨-, ⟨⟩⟩
    | some v =>
      have hends := Value.copyResult_copy hsound.closed (hsound.store key v hget)
      simp only [handOut_eq]
      refine ((CallResult.of_copy hends).map _).congr fun w => ?_
      simp only [Option.some.injEq, true_and]
  · -- The held value has a copy.
    have hheld := held?_eq_some_iff.mpr hedit
    have hmeets : Meets h (value.obstacle h) (Copyable.copy h value) :=
      Value.meets_copy hsound.closed (hsound.held key value hheld) (le_refl h)
    rw [hsound.copies key value hheld] at hmeets
    simp only [handOut_eq]
    generalize Copyable.copy h value = result at hmeets
    cases hmeets with
    | ok =>
      refine .ok _ ?_
      rintro v payload ⟨⟨⟩, -⟩
  · refine .ok _ ?_
    rintro v payload ⟨⟨⟩, -⟩

/-- The entries are copied, and only the copies of untouched ones can fail. -/
theorem result_entries (hsound : o.Sound s h) (order : KeyOrder) :
    CallResult h (fun v => ∃ key, o.edit? key = none ∧ s.get? key = some v) compared
      (o.entries order h (.plain s)) := by
  have hbase : (GuardedStore.plain s).entries = .ok s.entries := rfl
  simp only [entries, hbase]
  generalize huntouched : o.untouchedIn order s.entries = untouched
  have hmem : ∀ key v, (key, v) ∈ untouched ↔ s.get? key = some v ∧ o.edit? key = none :=
    fun key v => huntouched ▸ mem_untouchedIn_iff
  have hwithin : ∀ e ∈ untouched, e.2.Within h.Has :=
    fun e he => hsound.store e.1 e.2 ((hmem e.1 e.2).mp he).1
  have hheld : ∀ e ∈ EditList.assignments (o.toListIn order), o.held? e.1 = some e.2 :=
    fun e he => mem_assignments_toListIn_iff.mp he
  have hiff : ∀ v, (∃ e ∈ untouched, e.2 = v) ↔
      ∃ key, o.edit? key = none ∧ s.get? key = some v := by
    intro v
    constructor
    · rintro ⟨e, he, rfl⟩
      obtain ⟨hget, hedit⟩ := (hmem e.1 e.2).mp he
      exact ⟨e.1, hedit, hget⟩
    · rintro ⟨key, hedit, hget⟩
      exact ⟨(key, v), (hmem key v).mpr ⟨hget, hedit⟩, rfl⟩
  refine CallResult.congr ?_ hiff
  have hends := Value.copyResult_copyEntries hsound.closed hwithin
  cases hmade : Copyable.copyEntries h untouched with
  | error e =>
    rw [hmade] at hends
    exact .of_copy hends
  | ok made =>
    rw [hmade] at hends
    obtain ⟨hle, -⟩ := Copyable.isCopy_of_copyEntries hsound.closed hwithin (le_refl h) hmade
    obtain ⟨held, hok⟩ := Value.exists_copyEntries hsound.closed
      (fun e he => hsound.held e.1 e.2 (hheld e he))
      (fun e he => hsound.copies e.1 e.2 (hheld e he)) hle
    simp only [hok]
    cases hends with
    | ok _ hnone => exact .ok _ hnone

/-! ## Calls -/

/-- A value is put on a condition. -/
theorem result_holdingIf (hclosed : h.Closed h.Has) {v : Value} (hv : v.Within h.Has)
    (key : String) (holds : Bool) : CallResult h (fun w => holds = true ∧ v = w) compared
      (o.holdingIf h key (Copyable.copy h v) (.ok holds)).answer := by
  cases holds with
  | false => exact .ok _ fun w payload hw => nomatch hw.1
  | true => exact (result_holding hclosed hv key _).congr fun w => by simp only [true_and]

/-- A put copies the value. -/
theorem result_put (hsound : o.Sound s h) (key : String) {v : Value} (hv : v.Within h.Has) :
    CallResult h (fun w => v = w) compared (o.call h (.plain s) (.put key v)).answer := by
  rw [call_put]
  exact result_holding hsound.closed hv key _

/-- A get copies the value of the store if the key is not touched. -/
theorem result_get (hsound : o.Sound s h) (key : String) :
    CallResult h (fun v => o.edit? key = none ∧ s.get? key = some v) compared
      (o.call h (.plain s) (.get key)).answer := by
  rw [call_get, answer_answering]
  exact (result_read hsound key).map _

/-- Listing the entries copies the values of the store whose keys are not touched. -/
theorem result_listing (hsound : o.Sound s h) (order : KeyOrder) :
    CallResult h (fun v => ∃ key, o.edit? key = none ∧ s.get? key = some v) compared
      (o.call h (.plain s) (.entries order)).answer := by
  rw [call_entries, answer_answering]
  exact (result_entries hsound order).map _

/-- An update of a visible key copies the value. -/
theorem result_update (hsound : o.Sound s h) (key : String) {v : Value} (hv : v.Within h.Has) :
    CallResult h (fun w => (o.visible? s key).isSome ∧ v = w) compared
      (o.call h (.plain s) (.update key v)).answer := by
  rw [call_update, shows_plain]
  exact result_holdingIf hsound.closed hv key _

/-- A compare-and-swap compares with the visible value, and copies the new one if they agree. -/
theorem result_compareAndSwap (hsound : o.Sound s h) (key : String) {expected v : Value}
    (hexpected : expected.Within h.Has) (hv : v.Within h.Has) :
    CallResult h
      (fun w => (∃ current, o.visible? s key = some current ∧
        current.same? h expected = some true) ∧ v = w)
      (fun w => o.visible? s key = some w)
      (o.call h (.plain s) (.compareAndSwap key expected v)).answer := by
  rw [call_compareAndSwap, agrees_plain]
  cases hvisible : o.visible? s key with
  | none =>
    refine .ok _ ?_
    rintro w payload ⟨⟨current, ⟨⟩, -⟩, -⟩
  | some current =>
    have hcurrent := hsound.visible hvisible
    have hiff : ∀ holds w, current.same? h expected = some holds →
        (holds = true ∧ v = w ↔ (∃ u, some current = some u ∧ u.same? h expected = some true) ∧
          v = w) := by
      intro holds w hsame
      simp only [Option.some.injEq, exists_eq_left', hsame]
    have hstorable : Storable.same? h current expected = current.same? h expected := rfl
    simp only [same, hstorable]
    cases hsame : current.same? h expected with
    | none =>
      exact .incomparable rfl fun hgrounded =>
        hgrounded.same?_ne_none hsound.closed hcurrent hexpected hsame
    | some holds =>
      exact (result_holdingIf hsound.closed hv key holds).congr fun w => hiff holds w hsame

/-- Calls that copy nothing succeed. -/
theorem replies_of_bare (o : Overlay Value) (s : Store Value) (h : Heap) {call : StoreCall Value}
    (hbare : call.Bare) : ∃ reply, (o.call h (.plain s) call).answer = .ok reply := by
  cases hbare with
  | delete key => exact ⟨_, rfl⟩
  | contains key => exact ⟨_, by rw [call, shows_plain]; rfl⟩
  | size => exact ⟨_, by rw [call, keys_visible]; rfl⟩
  | isEmpty => exact ⟨_, by rw [call, keys_visible]; rfl⟩
  | clear => exact ⟨_, by rw [call, (removeAll_plain s).1]⟩
  | keys => exact ⟨_, by rw [call, keys_visible]; rfl⟩

end Overlay

end OverlayStore
