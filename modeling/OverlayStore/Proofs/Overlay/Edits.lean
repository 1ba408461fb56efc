import OverlayStore.Proofs.Cells.Calls

/-!
# What calls make of the edits

A call on an overlay leaves the edits as they are, gives one key an edit, or starts anew with
removals. Whatever the values are, a key is read from its edit alone as long as it has one.
-/

namespace OverlayStore.Overlay

/-- What a call with its answer can make of the edits. -/
inductive Edits (o : Overlay V) (base : GuardedStore V) :
    StoreCall V → Except TransactionError (Reply V) → Overlay V → Prop
  /-- Nothing. -/
  | kept (call : StoreCall V) (answer : Except TransactionError (Reply V)) :
    Edits o base call answer o
  /-- A key is set to a copy. -/
  | set {call : StoreCall V} {reply : Reply V} {key : String} {value : V}
    (hsets : call.Sets key value reply) (copy : V) :
    Edits o base call (.ok reply) (o.insert key (.set copy))
  /-- A key is removed. -/
  | removed (key : String) (answer : Except TransactionError (Reply V)) :
    Edits o base (.delete key) answer (o.insert key .remove)
  /-- The keys of the store are removed, and there are no other edits. -/
  | cleared (answer : Except TransactionError (Reply V)) :
    Edits o base .clear answer (removeAll base).2

/-- Removing everything removes the keys that the store lists. -/
theorem edit?_removeAll {base : GuardedStore V} {key : String} {keys : List String}
    (hkeys : base.keys = .ok keys) (hmem : key ∈ keys) :
    (removeAll base).2.edit? key = some .remove := by
  simp only [removeAll, hkeys, edit?_removing, if_pos hmem]

section

variable [Storable V] {o : Overlay V} {h : Heap} {base : GuardedStore V}

/-- A conditional set as what the call that asked for it makes of the edits. -/
private theorem edits_of_setIf (h : Heap) {key : String} {value : V}
    (condition : Except TransactionError Bool) {call : StoreCall V}
    {outcome : Outcome (Overlay V) V} (hsets : call.Sets key value (.flag true))
    (hok : ∀ found o' h', o.setIf h key value condition = .ok (found, o', h') →
      outcome = ⟨.ok (.flag found), o', h'⟩)
    (herror : ∀ e, o.setIf h key value condition = .error e →
      outcome = o.unchanged h (.error e)) :
    o.Edits base call outcome.answer outcome.state := by
  cases heq : o.setIf h key value condition with
  | error e => exact herror e heq ▸ .kept call _
  | ok result =>
    obtain ⟨found, o', h'⟩ := result
    rw [hok found o' h' heq]
    rcases setIf_eq_ok heq with ⟨rfl, copy, -, rfl⟩ | ⟨rfl, rfl, -⟩
    · exact .set hsets copy
    · exact .kept call _

/-- Every call makes one of these of the edits. -/
theorem edits_call (o : Overlay V) (h : Heap) (base : GuardedStore V) (call : StoreCall V) :
    o.Edits base call (o.call h base call).answer (o.call h base call).state := by
  cases call with
  | put key value =>
    cases hcopy : Copyable.copy h value with
    | error e =>
      simp only [Overlay.call, Overlay.set, hcopy]
      exact .kept _ _
    | ok result =>
      simp only [Overlay.call, Overlay.set, hcopy]
      exact .set (.put _) result.1
  | get key =>
    rw [Overlay.call]
    split <;> exact .kept _ _
  | update key value =>
    exact edits_of_setIf h (o.shows base key) .update (fun found o' h' heq => by
      simp [Overlay.call, heq]) fun e heq => by simp [Overlay.call, heq]
  | delete key => exact .removed key _
  | clear =>
    have hcleared : ∀ answer, o.Edits base .clear answer (removeAll base).2 := .cleared
    rw [Overlay.call]
    cases hall : removeAll base with
    | mk refused o' =>
      simp only [hall] at hcleared
      cases refused <;> exact hcleared _
  | entries =>
    rw [Overlay.call]
    split <;> exact .kept _ _
  | compareAndSwap key expected value =>
    exact edits_of_setIf h (o.agrees h base key expected) (.swap expected)
      (fun found o' h' heq => by simp [Overlay.call, heq]) fun e heq => by simp [Overlay.call, heq]
  | contains | size | isEmpty | keys | increment | decrement => exact .kept _ _

/-! ## Removed keys -/

/-- A key stays removed unless a call sets it, or clears the view while the store does not list
it. -/
theorem edit?_call_of_removed {key : String} (hedit : o.edit? key = some .remove)
    {call : StoreCall V}
    (hsets : ∀ value reply, (o.call h base call).answer = .ok reply → ¬ call.Sets key value reply)
    (hclear : call = .clear → ∃ keys, base.keys = .ok keys ∧ key ∈ keys) :
    (o.call h base call).state.edit? key = some .remove := by
  have hedits := o.edits_call h base call
  generalize (o.call h base call).answer = answer at hedits hsets
  generalize (o.call h base call).state = o' at hedits
  cases hedits with
  | kept => exact hedit
  | @set _ reply k value hset copy =>
    have hne : key ≠ k := by
      rintro rfl
      exact hsets value reply rfl hset
    rw [edit?_insert, if_neg hne, hedit]
  | removed k =>
    rw [edit?_insert]
    split
    · rfl
    · exact hedit
  | cleared =>
    obtain ⟨keys, hkeys, hmem⟩ := hclear rfl
    exact edit?_removeAll hkeys hmem

/-- A removed key is not there, whatever the store has or refuses. -/
theorem call_of_removed {key : String} (hedit : o.edit? key = some .remove) (h : Heap)
    (base : GuardedStore V) :
    o.call h base (.contains key) = ⟨.ok (.flag false), o, h⟩ ∧
      o.call h base (.get key) = ⟨.ok (.value none), o, h⟩ := by
  constructor
  · simp only [Overlay.call, shows, hedit]
    rfl
  · simp only [Overlay.call, read, hedit]

end

end OverlayStore.Overlay
