import OverlayStore.Overlay.Call
import OverlayStore.Proofs.Cells.Alike
import OverlayStore.Proofs.Overlay.Plain

/-!
# Overlays refine the plain store

Beside an overlay over a plain store run two plain stores, its twins: one takes every call, the
other one has only what the calls set. What the overlay shows is alike to the first twin and what it
holds is alike to the second one. Every call on regular values keeps this and is answered alike.
-/

namespace OverlayStore

/-- The calls that do not count. -/
def StoreCall.Uncounted : StoreCall V → Prop
  | .increment _ _ | .decrement _ _ => False
  | .put _ _ | .get _ | .update _ _ | .delete _ | .contains _ | .size | .isEmpty | .clear | .keys
  | .entries _ | .compareAndSwap _ _ _ => True

/-- The values that a call passes in are regular. -/
def StoreCall.Regular (h : Heap) : StoreCall Value → Prop
  | .put _ value | .update _ value => value.Regular h
  | .compareAndSwap _ expected value => expected.Regular h ∧ value.Regular h
  | .get _ | .delete _ | .contains _ | .size | .isEmpty | .clear | .keys | .entries _
  | .increment _ _ | .decrement _ _ => True

/-- Replies with equal values. -/
inductive Reply.Equal (h : Heap) : Reply Value → Reply Value → Prop
  /-- Nothing but that it is done. -/
  | done : Equal h .done .done
  /-- Equal values, or none on both sides. -/
  | value {a b : Option Value} (hab : Option.Rel (fun a b => Value.same? h a b = some true) a b) :
    Equal h (.value a) (.value b)
  /-- The same truth value. -/
  | flag (b : Bool) : Equal h (.flag b) (.flag b)
  /-- The same count. -/
  | count (n : Nat) : Equal h (.count n) (.count n)
  /-- The same keys. -/
  | keys (ks : List String) : Equal h (.keys ks) (.keys ks)
  /-- Equal values under the same keys. -/
  | entries {es fs : List (String × Value)}
    (hes : List.Forall₂ (fun e f => e.1 = f.1 ∧ Value.same? h e.2 f.2 = some true) es fs) :
    Equal h (.entries es) (.entries fs)

/-! ## Twins -/

/-- The plain stores beside an overlay. -/
structure Twin (V : Type) where
  /-- The store that takes every call. -/
  store : Store V
  /-- The store that has only what was set, and nothing at the start. -/
  buffered : Store V

namespace Twin

/-- What a successful call does to the values that were set. -/
def buffer (b : Store V) : StoreCall V → Reply V → Store V
  | .put key value, _ | .update key value, .flag true
  | .compareAndSwap key _ value, .flag true => (b.put key value).2
  | .delete key, _ => (b.delete key).2
  | .clear, _ => .empty
  | _, _ => b

/-- A put and a delete answer what was set before, every other call what the store answers. -/
def reply (b : Store V) : StoreCall V → Reply V → Reply V
  | .put key _, _ | .delete key, _ => .value (b.get? key)
  | _, r => r

/-- Carry out a call on both stores. -/
def call [Storable V] (m : Twin V) (h : Heap) (call : StoreCall V) :
    Except StoreError (Reply V × Twin V) :=
  match (GuardedStore.plain m.store).call h call with
  | .ok (r, g) => .ok (reply m.buffered call r, ⟨g.store, buffer m.buffered call r⟩)
  | .error e => .error e

end Twin

/-! ## The simulation -/

/-- What an overlay shows and holds is alike to its twins. -/
structure Simulates (h : Heap) (o : Overlay Value) (s : Store Value) (m : Twin Value) : Prop where
  /-- Every key shows what the twin of the store has. -/
  visible : ∀ key, Option.Rel (Value.Alike h) (o.visible? s key) (m.store.get? key)
  /-- Every key holds what was set. -/
  held : ∀ key, Option.Rel (Value.Alike h) (o.held? key) (m.buffered.get? key)

private theorem rel_mono {R S : Value → Value → Prop} (hrs : ∀ a b, R a b → S a b)
    {a b : Option Value} (hab : Option.Rel R a b) : Option.Rel S a b := by
  cases hab with
  | none => exact .none
  | some hr => exact .some (hrs _ _ hr)

private theorem rel_trans {h : Heap} {a b c : Option Value} (hab : Option.Rel (Value.Alike h) a b)
    (hbc : Option.Rel (Value.Alike h) b c) : Option.Rel (Value.Alike h) a c := by
  cases hab with
  | none => exact hbc
  | some hxy =>
    cases hbc with
    | some hyz => exact .some (hxy.trans hyz)

namespace Simulates

variable {h h' : Heap} {o : Overlay Value} {s : Store Value} {m : Twin Value} {key : String}

/-- Growth keeps a simulation. -/
theorem mono (hsim : Simulates h o s m) (hle : h ≤ h') : Simulates h' o s m :=
  ⟨fun key => rel_mono (fun _ _ hab => hab.mono hle) (hsim.visible key),
    fun key => rel_mono (fun _ _ hab => hab.mono hle) (hsim.held key)⟩

/-- A key that shows nothing has nothing in the twin. -/
theorem get?_of_none (hsim : Simulates h o s m) (hv : o.visible? s key = none) :
    m.store.get? key = none := by
  have hrel := hsim.visible key
  rw [hv] at hrel
  generalize m.store.get? key = found at hrel
  cases hrel
  rfl

/-- A visible value is alike to the one in the twin. -/
theorem get?_of_some (hsim : Simulates h o s m) {v : Value} (hv : o.visible? s key = some v) :
    ∃ w, m.store.get? key = some w ∧ Value.Alike h v w := by
  have hrel := hsim.visible key
  rw [hv] at hrel
  generalize m.store.get? key = found at hrel
  cases hrel with
  | some hvw => exact ⟨_, rfl, hvw⟩

/-- Every visible value is regular. -/
theorem regular (hsim : Simulates h o s m) {v : Value} (hv : o.visible? s key = some v) :
    v.Regular h := by
  obtain ⟨w, -, hvw⟩ := hsim.get?_of_some hv
  exact hvw.regular

/-- A key that gets an alike value on both sides. -/
theorem set (hsim : Simulates h o s m) (hle : h ≤ h') {copy value : Value}
    (hcopy : Value.Alike h' copy value) :
    Simulates h' (o.insert key (.set copy)) s
      ⟨(m.store.put key value).2, (m.buffered.put key value).2⟩ := by
  have hsim' := hsim.mono hle
  constructor
  · intro k
    rw [Overlay.visible?_insert, Store.get?_put]
    by_cases hk : k = key
    · rw [if_pos hk, if_pos hk]
      exact .some hcopy
    · rw [if_neg hk, if_neg hk]
      exact hsim'.visible k
  · intro k
    rw [Overlay.held?_insert_set, Store.get?_put]
    by_cases hk : k = key
    · rw [if_pos hk, if_pos hk]
      exact .some hcopy
    · rw [if_neg hk, if_neg hk]
      exact hsim'.held k

/-- A key that is removed on both sides. -/
theorem remove (hsim : Simulates h o s m) :
    Simulates h (o.insert key .remove) s
      ⟨(m.store.delete key).2, (m.buffered.delete key).2⟩ := by
  constructor
  · intro k
    rw [Overlay.visible?_insert, Store.get?_delete]
    by_cases hk : k = key
    · rw [if_pos hk, if_pos hk]
      exact .none
    · rw [if_neg hk, if_neg hk]
      exact hsim.visible k
  · intro k
    rw [Overlay.held?_insert_remove, Store.get?_delete]
    by_cases hk : k = key
    · rw [if_pos hk, if_pos hk]
      exact .none
    · rw [if_neg hk, if_neg hk]
      exact hsim.held k

/-- Removing everything on both sides. -/
theorem clear (h : Heap) (s : Store Value) :
    Simulates h (Overlay.removing s.keys) s ⟨.empty, .empty⟩ := by
  constructor
  · intro k
    rw [(Overlay.removeAll_plain s).2 k, Store.get?_empty]
    exact .none
  · intro k
    have hnone := Overlay.held?_removeAll (GuardedStore.plain s) k
    rw [(Overlay.removeAll_plain s).1] at hnone
    rw [hnone, Store.get?_empty]
    exact .none

/-! ## Every call -/

/-- A call succeeds on both sides with equal replies, and the simulation goes on. -/
def Agrees (h : Heap) (o : Overlay Value) (s : Store Value) (m : Twin Value)
    (call : StoreCall Value) : Prop :=
  ∃ expected m' r o' h', m.call h call = .ok (expected, m') ∧
    o.call h (.plain s) call = ⟨.ok r, o', h'⟩ ∧ h ≤ h' ∧ r.Equal h' expected ∧
    Simulates h' o' s m'

/-- Values that are alike are equal, also after the heap has grown. -/
theorem equal_of_alike (hle : h ≤ h') {a b : Option Value}
    (hab : Option.Rel (Value.Alike h) a b) :
    Option.Rel (fun a b => Value.same? h' a b = some true) a b :=
  rel_mono (fun _ _ hab => (hab.mono hle).same?) hab

/-- A put holds a copy of what the twin takes in. -/
theorem agrees_put (hsim : Simulates h o s m) {value : Value} (hvalue : value.Regular h) :
    Agrees h o s m (.put key value) := by
  obtain ⟨copy, h', hcopy, hle, halike⟩ := hvalue.exists_copy
  have hcopy' : Copyable.copy h value = .ok (copy, h') := hcopy
  refine ⟨.value (m.buffered.get? key), _, .value (o.held? key), _, h', rfl, ?_, hle,
    .value (equal_of_alike hle (hsim.held key)), hsim.set hle halike⟩
  simp only [Overlay.call, Overlay.set, hcopy']

/-- A get answers a copy of what the twin has. -/
theorem agrees_get (hsim : Simulates h o s m) : Agrees h o s m (.get key) := by
  have hread := o.read_plain s h key
  have htwin : m.call h (.get key) = .ok (.value (m.store.get? key), m) := rfl
  cases hv : o.visible? s key with
  | none =>
    rw [hv] at hread
    rw [hsim.get?_of_none hv] at htwin
    refine ⟨_, m, .value none, o, h, htwin, ?_, le_refl h, .value .none, hsim⟩
    simp only [Overlay.call, hread]
  | some v =>
    obtain ⟨w, hw, hvw⟩ := hsim.get?_of_some hv
    obtain ⟨copy, h', hcopy, hle, halike⟩ := hvw.regular.exists_copy
    have hcopy' : Copyable.copy h v = .ok (copy, h') := hcopy
    rw [hv] at hread
    rw [hw] at htwin
    simp only [Overlay.handOut, hcopy'] at hread
    have hequal := (halike.trans (hvw.mono hle)).same?
    refine ⟨_, m, .value (some copy), o, h', htwin, ?_, hle, .value (.some hequal), hsim.mono hle⟩
    simp only [Overlay.call, hread]

/-- A delete answers what was put before, on both sides. -/
theorem agrees_delete (hsim : Simulates h o s m) : Agrees h o s m (.delete key) :=
  ⟨.value (m.buffered.get? key), _, .value (o.held? key), _, h, rfl, rfl, le_refl h,
    .value (equal_of_alike (le_refl h) (hsim.held key)), hsim.remove⟩

/-- The same keys are there. -/
theorem agrees_contains (hsim : Simulates h o s m) : Agrees h o s m (.contains key) := by
  have hsome : (o.visible? s key).isSome = m.store.contains key := by
    rw [Store.contains_eq_isSome, Bool.eq_iff_iff]
    exact Table.isSome_iff_of_rel (hsim.visible key)
  refine ⟨.flag (m.store.contains key), m, .flag (m.store.contains key), o, h, rfl, ?_, le_refl h,
    .flag _, hsim⟩
  simp only [Overlay.call, Overlay.shows_plain, hsome, Overlay.unchanged]
  rfl

/-- The visible keys are those of the twin. -/
theorem keys_eq (hsim : Simulates h o s m) : o.keys (.plain s) = .ok m.store.keys :=
  o.keys_plain s fun key => Table.isSome_iff_of_rel (hsim.visible key)

/-- The same keys are listed. -/
theorem agrees_keys (hsim : Simulates h o s m) : Agrees h o s m .keys := by
  refine ⟨.keys m.store.keys, m, .keys m.store.keys, o, h, rfl, ?_, le_refl h, .keys _, hsim⟩
  simp only [Overlay.call, hsim.keys_eq, Overlay.unchanged]
  rfl

/-- The sizes are the same. -/
theorem agrees_size (hsim : Simulates h o s m) : Agrees h o s m .size := by
  have hlength : m.store.keys.length = m.store.size := Std.ExtTreeMap.length_keys
  refine ⟨.count m.store.size, m, .count m.store.size, o, h, rfl, ?_, le_refl h, .count _, hsim⟩
  simp only [Overlay.call, hsim.keys_eq, Overlay.unchanged, Except.map, hlength]

/-- Both are empty, or none is. -/
theorem agrees_isEmpty (hsim : Simulates h o s m) : Agrees h o s m .isEmpty := by
  have hlength : m.store.keys.length = m.store.size := Std.ExtTreeMap.length_keys
  refine ⟨.flag (m.store.size == 0), m, .flag (m.store.size == 0), o, h, rfl, ?_, le_refl h,
    .flag _, hsim⟩
  simp only [Overlay.call, hsim.keys_eq, Overlay.unchanged, Except.map, hlength]

/-- Nothing is left on either side. -/
theorem agrees_clear (h : Heap) (o : Overlay Value) (s : Store Value) (m : Twin Value) :
    Agrees h o s m .clear := by
  refine ⟨.done, ⟨.empty, .empty⟩, .done, Overlay.removing s.keys, h, rfl, ?_, le_refl h, .done,
    clear h s⟩
  simp only [Overlay.call, (Overlay.removeAll_plain s).1]

/-- A key that is set on a condition on which both sides agree. -/
theorem agrees_setIf (hsim : Simulates h o s m) (key : String) {value : Value}
    (hvalue : value.Regular h) {call : StoreCall Value} (condition : Bool)
    (htwin : m.call h call = .ok (.flag condition,
      if condition then ⟨(m.store.put key value).2, (m.buffered.put key value).2⟩ else m))
    (hcall : ∀ set o' h', o.setIf h key value (.ok condition) = .ok (set, o', h') →
      o.call h (.plain s) call = ⟨.ok (.flag set), o', h'⟩) :
    Agrees h o s m call := by
  cases condition with
  | true =>
    obtain ⟨copy, h', hcopy, hle, halike⟩ := hvalue.exists_copy
    have hcopy' : Copyable.copy h value = .ok (copy, h') := hcopy
    have hset : o.setIf h key value (.ok true) = .ok (true, o.insert key (.set copy), h') := by
      simp only [Overlay.setIf, Overlay.set, hcopy']
    exact ⟨_, _, _, _, h', htwin, hcall _ _ _ hset, hle, .flag true, hsim.set hle halike⟩
  | false => exact ⟨_, _, _, _, h, htwin, hcall _ _ _ rfl, le_refl h, .flag false, hsim⟩

/-- An update finds its key on both sides, or on none. -/
theorem agrees_update (hsim : Simulates h o s m) {value : Value} (hvalue : value.Regular h) :
    Agrees h o s m (.update key value) := by
  have hsome : (o.visible? s key).isSome = m.store.contains key := by
    rw [Store.contains_eq_isSome, Bool.eq_iff_iff]
    exact Table.isSome_iff_of_rel (hsim.visible key)
  have hshows : o.shows (.plain s) key = .ok (m.store.contains key) := by
    rw [Overlay.shows_plain, hsome]
  refine hsim.agrees_setIf key hvalue (m.store.contains key) ?_ fun set o' h' heq => ?_
  · cases hcontains : m.store.contains key <;>
      simp [Twin.call, GuardedStore.call, GuardedStore.plain, GuardedStore.keep, Store.update,
        hcontains, Twin.reply, Twin.buffer, Store.put]
  · simp only [Overlay.call, hshows, heq]

/-- A swap finds what it expects on both sides, or on none. -/
theorem agrees_compareAndSwap (hsim : Simulates h o s m) {expected value : Value}
    (hexpected : expected.Regular h) (hvalue : value.Regular h) :
    Agrees h o s m (.compareAndSwap key expected value) := by
  have hagrees := o.agrees_plain s h key expected
  cases hv : o.visible? s key with
  | none =>
    have hget := hsim.get?_of_none hv
    rw [hv] at hagrees
    refine hsim.agrees_setIf key hvalue false ?_ fun set o' h' heq => ?_
    · simp [Twin.call, GuardedStore.call, GuardedStore.plain, GuardedStore.keep,
        Store.compareAndSwap, hget, Except.map, Twin.reply, Twin.buffer]
    · simp only [Overlay.call, hagrees, heq]
  | some v =>
    obtain ⟨w, hget, hvw⟩ := hsim.get?_of_some hv
    rw [hv] at hagrees
    obtain ⟨same, hleft, hright⟩ := hvw.exists_same? hexpected
    have hsame : Storable.same? h v expected = some same := hleft
    have hsame' : Storable.same? h w expected = some same := hright
    simp only [Overlay.same, hsame] at hagrees
    refine hsim.agrees_setIf key hvalue same ?_ fun set o' h' heq => ?_
    · cases same <;>
        simp [Twin.call, GuardedStore.call, GuardedStore.plain, GuardedStore.keep,
          Store.compareAndSwap, hget, hsame', Except.map, Twin.reply, Twin.buffer, Store.put]
    · simp only [Overlay.call, hagrees, heq]

/-- The visible entries are copied in two parts, and listed as one table. -/
theorem entries_eq (hsim : Simulates h o s m) (order : KeyOrder) :
    ∃ es h', o.entries order h (.plain s) = .ok (es, h') ∧ h ≤ h' ∧
      List.Forall₂ (fun e f => e.1 = f.1 ∧ Value.Alike h' e.2 f.2) es m.store.entries.toList := by
  have hregular : ∀ e ∈ o.visibleEntries s order, e.2.Regular h := fun e he =>
    hsim.regular ((Overlay.mem_visibleEntries_iff e.1 e.2).mp he)
  rw [Overlay.visibleEntries] at hregular
  obtain ⟨untouched, h₁, huntouched, hle₁, hleft⟩ := Copyable.exists_copyEntries
    fun e he => hregular e (List.mem_append_left _ he)
  obtain ⟨held, h₂, hheld, hle₂, hright⟩ := Copyable.exists_copyEntries
    fun e he => (hregular e (List.mem_append_right _ he)).mono hle₁
  have hmade : List.Forall₂ (fun c e => c.1 = e.1 ∧ Value.Alike h₂ c.2 e.2) (untouched ++ held)
      (o.visibleEntries s order) :=
    List.rel_append (hleft.imp fun c e hce => ⟨hce.1, hce.2.mono hle₂⟩) hright
  refine ⟨(Std.ExtTreeMap.ofList (untouched ++ held)).toList, h₂, ?_, hle₁.trans hle₂,
    Table.forall₂_toList fun key => ?_⟩
  · simp only [Overlay.entries, GuardedStore.entries, GuardedStore.plain, Refusals.check_none,
      huntouched, hheld]
  · have hlisted := Table.rel_getElem?_ofList hmade (o.nodup_keys_visibleEntries s order)
      Overlay.mem_visibleEntries_iff key
    exact rel_trans hlisted ((hsim.mono (hle₁.trans hle₂)).visible key)

/-- The entries are listed with copies that are equal to the values of the twin. -/
theorem agrees_entries (hsim : Simulates h o s m) (order : KeyOrder) :
    Agrees h o s m (.entries order) := by
  obtain ⟨es, h', hentries, hle, halike⟩ := hsim.entries_eq order
  refine ⟨.entries m.store.entries.toList, m, .entries es, o, h', rfl, ?_, hle,
    .entries (halike.imp fun e f hef => ⟨hef.1, hef.2.same?⟩), hsim.mono hle⟩
  simp only [Overlay.call, hentries]

/-- Every call that does not count is answered alike on regular values. -/
theorem agrees (hsim : Simulates h o s m) {call : StoreCall Value} (huncounted : call.Uncounted)
    (hregular : call.Regular h) : Agrees h o s m call := by
  cases call with
  | put key value => exact hsim.agrees_put hregular
  | get key => exact hsim.agrees_get
  | update key value => exact hsim.agrees_update hregular
  | delete key => exact hsim.agrees_delete
  | contains key => exact hsim.agrees_contains
  | size => exact hsim.agrees_size
  | isEmpty => exact hsim.agrees_isEmpty
  | clear => exact agrees_clear h o s m
  | keys => exact hsim.agrees_keys
  | entries order => exact hsim.agrees_entries order
  | compareAndSwap key expected value => exact hsim.agrees_compareAndSwap hregular.1 hregular.2
  | increment key delta => exact huncounted.elim
  | decrement key delta => exact huncounted.elim

/-- Applying the edits, in whatever order, gives a store that is alike to the twin. -/
theorem apply (hsim : Simulates h o s m) (order : KeyOrder) :
    ∃ s', EditList.apply (o.toListIn order) (.plain s) = (none, .plain s') ∧
      ∀ key, Option.Rel (Value.Alike h) (s'.get? key) (m.store.get? key) := by
  obtain ⟨s', hs'⟩ := EditList.apply_plain (o.toListIn order) s
  refine ⟨s', hs', fun key => ?_⟩
  have hget := Overlay.get?_of_apply hs' key
  simp only [GuardedStore.plain] at hget
  rw [hget]
  exact hsim.visible key

end Simulates

end OverlayStore
