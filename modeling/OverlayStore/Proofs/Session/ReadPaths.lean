import OverlayStore.Proofs.Overlay.Copying
import OverlayStore.Proofs.Session.Snapshot

/-!
# The ways to read through a view agree

A view answers from the store and the edits by separate ways: key by key, by listing the keys, by
copying the entries, and by comparing a value where it is. Over a plain store all of them speak of
the same visible values, also of those that have no copy or do not equal themselves.
-/

namespace OverlayStore

/-- The answers for a key that has a value: a copy of it, or why there is none. -/
inductive Answer.Present : Answer V → Prop
  /-- The value. -/
  | value (v : V) : Present (.reply (.value (some v)))
  /-- A value without a copy. -/
  | uncopyable (e : CopyError) : Present (.error (.transaction (.copy e)))

namespace Overlay

variable {o : Overlay V} {s : Store V} {h : Heap} {key : String}

/-- A key is read as absent if it has no visible value, and as present if it has one. -/
theorem read_cases [Copyable V] (o : Overlay V) (s : Store V) (h : Heap) (key : String) :
    (o.visible? s key = none ∧ o.read h (.plain s) key = .ok (none, h)) ∨
      ∃ v, o.visible? s key = some v ∧
        ((∃ copy h', Copyable.copy h v = .ok (copy, h') ∧
            o.read h (.plain s) key = .ok (some copy, h')) ∨
          ∃ e, Copyable.copy h v = .error e ∧ o.read h (.plain s) key = .error (.copy e)) := by
  have hread := o.read_plain s h key
  cases hv : o.visible? s key with
  | none =>
    rw [hv] at hread
    exact .inl ⟨rfl, hread⟩
  | some v =>
    rw [hv] at hread
    refine .inr ⟨v, rfl, ?_⟩
    cases hcopy : Copyable.copy h v with
    | ok result =>
      simp only [handOut, hcopy] at hread
      exact .inl ⟨result.1, result.2, rfl, hread⟩
    | error e =>
      simp only [handOut, hcopy] at hread
      exact .inr ⟨e, rfl, hread⟩

/-- A swap to a value that has a copy happens if and only if the visible value is the expected one,
whether or not it has a copy itself. -/
theorem swaps_iff [Storable V] {expected value : V} {copy : V × Heap}
    (hcopy : Copyable.copy h value = .ok copy) :
    (o.call h (.plain s) (.compareAndSwap key expected value)).answer = .ok (.flag true) ↔
      ∃ v, o.visible? s key = some v ∧ Storable.same? h v expected = some true := by
  rw [call_compareAndSwap, agrees_plain, hcopy]
  cases o.visible? s key with
  | none => simp [holdingIf, unchanged]
  | some v =>
    simp only [same, Option.some.injEq, exists_eq_left']
    rcases Storable.same? h v expected with _ | _ | _ <;> simp [holdingIf, holding, unchanged]

end Overlay

namespace Session

variable {s : Session} {place : Nat} {t : Transaction Value} {owner : Cell → Option Slot}

/-- The reads of a view, all told by the list of keys. -/
structure ReadsBy (s : Session) (place : Nat) (keys : List String) : Prop where
  /-- The keys are listed. -/
  listed : s.answer (.view place .keys) = .reply (.keys keys)
  /-- No key is listed twice. -/
  nodup : keys.Nodup
  /-- The size is the number of keys. -/
  size : s.answer (.view place .size) = .reply (.count keys.length)
  /-- The view is empty if there are no keys. -/
  isEmpty : s.answer (.view place .isEmpty) = .reply (.flag (keys = []))
  /-- The keys are those that the view has. -/
  contains : ∀ key, s.answer (.view place (.contains key)) = .reply (.flag (key ∈ keys))
  /-- A key is read as present if it is listed. -/
  present : ∀ key, key ∈ keys ↔ (s.answer (.view place (.get key))).Present
  /-- A key is read as absent if it is not listed. -/
  absent : ∀ key, key ∉ keys ↔ s.answer (.view place (.get key)) = .reply (.value none)
  /-- The entries, if they can be listed, are those of the keys, in whatever order they are
  copied. -/
  entries : ∀ order es, s.answer (.view place (.entries order)) = .reply (.entries es) →
    es.map Prod.fst = keys
  /-- They have the contents that are read key by key. -/
  contents : ∀ order es, s.answer (.view place (.entries order)) = .reply (.entries es) →
    ∀ key v, (key, v) ∈ es →
      ∃ x, v.contents? (s.after (.view place (.entries order))).db.heap = some x ∧
        s.Reads (.view place (.get key)) x

/-- What a view of an active transaction answers. -/
theorem answer_view (ht : s.db.transaction? place = some t) (hactive : t.phase = .active)
    (call : StoreCall Value) :
    s.answer (.view place call) =
      .ofTransaction (t.overlay.call s.db.heap s.db.base call).answer := by
  rw [answer, Database.step_view ht, Transaction.viewCall_of_active hactive]

/-- What memory holds after a call on a view of an active transaction. -/
theorem heap_after_view (ht : s.db.transaction? place = some t) (hactive : t.phase = .active)
    (call : StoreCall Value) :
    (s.after (.view place call)).db.heap = (t.overlay.call s.db.heap s.db.base call).heap := by
  rw [after, Database.step_view ht, Transaction.viewCall_of_active hactive]
  rfl

/-- What an active transaction holds can be copied: nobody outside reaches into it. -/
theorem Owned.sound (ho : s.Owned owner) (ht : s.db.transaction? place = some t)
    (hactive : t.phase = .active) : t.overlay.Sound s.db.base.store s.db.heap := by
  have hheld : ∀ key v, t.overlay.held? key = some v → s.db.held? (place, key) = some v :=
    fun key v hv => Database.held?_eq_some_iff.mpr ⟨t, ht, hactive, hv⟩
  refine ⟨ho.closed_has, fun key v hv => (ho.base key v hv).mono fun _ hc => hc.1,
    fun key v hv => ho.has_of_held (hheld key v hv), fun key v hv => ?_⟩
  obtain ⟨x, hx, hfree⟩ := (ho.tree (place, key) v (hheld key v hv)).contents
  exact Value.obstacle_of_payloadFree ho.closed_has (ho.has_of_held (hheld key v hv)) hx hfree

/-- The contents of a visible value are read, if it has a copy. -/
theorem reads_of_visible (hplain : s.db.base.refusals = .none)
    (ht : s.db.transaction? place = some t) (hactive : t.phase = .active) {key : String} {v : Value}
    (hv : t.overlay.visible? s.db.base.store key = some v) {x : Contents}
    (hx : v.contents? s.db.heap = some x) (hfree : x.PayloadFree) :
    s.Reads (.view place (.get key)) x := by
  obtain ⟨copy, h', hcopy, -, hcontents, -⟩ := Value.exists_copy hx hfree
  have hcopy' : Copyable.copy s.db.heap v = .ok (copy, h') := hcopy
  have hread := t.overlay.read_plain s.db.base.store s.db.heap key
  rw [hv, ← GuardedStore.eq_plain hplain] at hread
  simp only [Overlay.handOut, hcopy'] at hread
  refine ⟨copy, ?_, ?_⟩
  · rw [answer_view ht hactive, Overlay.call, hread]
    rfl
  · rw [heap_after_view ht hactive, Overlay.call, hread]
    exact hcontents

/-- The entries that are answered are the ones that the overlay lists. -/
theorem entries_of_answer (ht : s.db.transaction? place = some t) (hactive : t.phase = .active)
    {order : KeyOrder} {es : List (String × Value)}
    (hes : s.answer (.view place (.entries order)) = .reply (.entries es)) :
    t.overlay.entries order s.db.heap s.db.base =
      .ok (es, (s.after (.view place (.entries order))).db.heap) := by
  rw [answer_view ht hactive, Overlay.call] at hes
  rw [heap_after_view ht hactive, Overlay.call]
  cases hentries : t.overlay.entries order s.db.heap s.db.base with
  | ok result =>
    rw [hentries] at hes
    cases hes
    rfl
  | error e =>
    rw [hentries] at hes
    cases hes

/-- A key with a visible value is read as present, and every other one as absent. -/
theorem get_cases (hplain : s.db.base.refusals = .none) (ht : s.db.transaction? place = some t)
    (hactive : t.phase = .active) (key : String) :
    (t.overlay.visible? s.db.base.store key = none ∧
        s.answer (.view place (.get key)) = .reply (.value none)) ∨
      ((t.overlay.visible? s.db.base.store key).isSome ∧
        (s.answer (.view place (.get key))).Present) := by
  rw [answer_view ht hactive, GuardedStore.eq_plain hplain, Overlay.call]
  rcases t.overlay.read_cases s.db.base.store s.db.heap key with
    ⟨hv, hread⟩ | ⟨v, hv, ⟨copy, h', -, hread⟩ | ⟨e, -, hread⟩⟩
  · rw [hread]
    exact .inl ⟨hv, rfl⟩
  · rw [hread]
    exact .inr ⟨Option.isSome_of_eq_some hv, .value copy⟩
  · rw [hread]
    exact .inr ⟨Option.isSome_of_eq_some hv, .uncopyable e⟩

/-- All reads of an active transaction over a plain store go by its visible values. -/
theorem readsBy_visible (ho : s.Owned owner) (hplain : s.db.base.refusals = .none)
    (ht : s.db.transaction? place = some t) (hactive : t.phase = .active) :
    s.ReadsBy place (t.overlay.visibleTable s.db.base.store).keys := by
  have hbase := GuardedStore.eq_plain hplain
  have hkeys := t.overlay.keys_visible s.db.base.store
  have hmem : ∀ key, key ∈ (t.overlay.visibleTable s.db.base.store).keys ↔
      (t.overlay.visible? s.db.base.store key).isSome :=
    fun key => Overlay.mem_keys_visibleTable_iff
  have hentries : ∀ {order es},
      s.answer (.view place (.entries order)) = .reply (.entries es) → _ :=
    fun {order es} hes => Overlay.entries_visible ho.closed_has
      (fun key v => (ho.sound ht hactive).visible) (hbase ▸ entries_of_answer ht hactive hes)
  refine ⟨?_, Std.ExtTreeMap.nodup_keys, ?_, ?_, ?_, ?_, ?_, ?_, ?_⟩
  · rw [answer_view ht hactive, hbase, Overlay.call, hkeys]
    rfl
  · rw [answer_view ht hactive, hbase, Overlay.call, hkeys]
    rfl
  · rw [answer_view ht hactive, hbase, Overlay.call, hkeys]
    have hempty : ∀ keys : List String, (keys.length == 0) = decide (keys = []) := by
      intro keys
      rw [Bool.eq_iff_iff, beq_iff_eq, List.length_eq_zero_iff, decide_eq_true_iff]
    exact congrArg (Answer.reply ∘ Reply.flag) (hempty _)
  · intro key
    rw [answer_view ht hactive, hbase, Overlay.call, Overlay.shows_plain]
    have hshown : (t.overlay.visible? s.db.base.store key).isSome =
        decide (key ∈ (t.overlay.visibleTable s.db.base.store).keys) := by
      rw [Bool.eq_iff_iff, decide_eq_true_iff, hmem]
    exact congrArg (Answer.reply ∘ Reply.flag) hshown
  · intro key
    rw [hmem]
    rcases get_cases hplain ht hactive key with ⟨hv, hnone⟩ | ⟨hv, hpresent⟩
    · rw [hv, hnone]
      exact iff_of_false Bool.false_ne_true (by rintro ⟨⟩)
    · exact iff_of_true hv hpresent
  · intro key
    rw [hmem]
    rcases get_cases hplain ht hactive key with ⟨hv, hnone⟩ | ⟨hv, hpresent⟩
    · rw [hv, hnone]
      exact iff_of_true Bool.false_ne_true rfl
    · refine iff_of_false (fun hnot => hnot hv) fun hnone => ?_
      rw [hnone] at hpresent
      cases hpresent
  · intro order es hes
    exact (hentries hes).1
  · intro order es hes key copy he
    obtain ⟨v, hv, x, hx, hfree, hcopy⟩ := (hentries hes).2 key copy he
    exact ⟨x, hcopy, reads_of_visible hplain ht hactive hv hx hfree⟩

/-- The read paths of a view: the reads go by one list of keys, which are those with a visible
value, and a swap to a value that has a copy goes by the visible value where it is. -/
structure ReadPaths (s : Session) (place : Nat) (t : Transaction Value) : Prop where
  /-- The keys by which the view reads. -/
  reads : ∃ keys, s.ReadsBy place keys ∧
    ∀ key, key ∈ keys ↔ ∃ v, t.overlay.visible? s.db.base.store key = some v
  /-- The swaps that happen. -/
  swaps : ∀ key expected value copy, value.copy s.db.heap = .ok copy →
    (s.answer (.view place (.compareAndSwap key expected value)) = .reply (.flag true) ↔
      ∃ v, t.overlay.visible? s.db.base.store key = some v ∧ v.same? s.db.heap expected = some true)

/-- The read paths of every active transaction agree, whatever the store and the transaction
hold. -/
theorem Reachable.readPaths (hs : s.Reachable) (hplain : s.db.base.refusals = .none)
    (ht : s.db.transaction? place = some t) (hactive : t.phase = .active) :
    s.ReadPaths place t := by
  obtain ⟨owner, ho⟩ := hs.owned
  refine ⟨⟨_, readsBy_visible ho hplain ht hactive, fun key => ?_⟩, ?_⟩
  · rw [Overlay.mem_keys_visibleTable_iff, Option.isSome_iff_exists]
  · intro key expected value copy hcopy
    have hok : ∀ answer : Except TransactionError (Reply Value),
        Answer.ofTransaction answer = .reply (.flag true) ↔ answer = .ok (.flag true) := by
      intro answer
      constructor
      · intro heq
        cases answer <;> cases heq
        rfl
      · rintro rfl
        rfl
    rw [answer_view ht hactive, GuardedStore.eq_plain hplain, hok]
    exact Overlay.swaps_iff hcopy

/-- The bits of a number that does not equal itself. -/
def notANumber : Value := .plain (.double ⟨0x7ff8000000000000⟩)

/-- A session whose store has a value without a copy and one that does not equal itself, next to a
transaction that removes a key and sets another one. -/
def odd : Session :=
  ((((((start.after (.adopt "Socket")).after (.store (.put "a" (.foreign ⟨0, "Socket"⟩)))).after
    (.store (.put "b" notANumber))).after (.store (.put "c" notANumber))).after (.begin 0)).after
    (.own 0 (.delete "c"))).after (.view 0 (.put "d" notANumber))

/-- The value without a copy is listed although it cannot be read, and is swapped. -/
theorem readPaths_odd :
    odd.Reachable ∧ odd.db.base.refusals = .none ∧
      ∃ t, odd.db.transaction? 0 = some t ∧ t.phase = .active ∧ odd.ReadPaths 0 t ∧
        odd.answer (.view 0 .keys) = .reply (.keys ["a", "b", "d"]) ∧
        odd.answer (.view 0 (.get "a")) = .error (.transaction (.copy (.foreign "Socket"))) ∧
        odd.answer (.view 0 (.compareAndSwap "a" (.foreign ⟨0, "Socket"⟩) (.plain (.int 1)))) =
          .reply (.flag true) ∧
        odd.answer (.view 0 (.compareAndSwap "b" notANumber (.plain (.int 1)))) ≠
          .reply (.flag true) := by
  have hreach : odd.Reachable := by
    refine .step (.step (.step (.step (.step (.step (.step .start ?_) ?_) ?_) ?_) ?_) ?_) ?_ <;>
      simp [Permits, Command.values, StoreCall.values, KeyCall.toStoreCall, notANumber]
  have hpaths : odd.ReadPaths 0 _ := hreach.readPaths rfl rfl rfl
  refine ⟨hreach, rfl, _, rfl, rfl, hpaths, rfl, rfl, ?_, ?_⟩
  · exact (hpaths.swaps "a" _ _ _ rfl).mpr ⟨_, rfl, rfl⟩
  · rw [Ne, hpaths.swaps "b" _ _ _ rfl]
    rintro ⟨v, hv, hsame⟩
    cases hv
    cases hsame

end Session

end OverlayStore
