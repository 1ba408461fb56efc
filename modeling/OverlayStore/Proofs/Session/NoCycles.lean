import OverlayStore.Proofs.Cells.NoCycles
import OverlayStore.Proofs.Database.Growth
import OverlayStore.Proofs.Database.Managed
import OverlayStore.Proofs.Overlay.Failures
import OverlayStore.Proofs.Session.ReadPaths

/-!
# Commands come to an end

A database never makes a cell that reaches itself: only a caller can, by a write. As long as no
write does, every command comes to an end, since it copies and compares over a heap without cycles.
-/

namespace OverlayStore

/-- The error of a copy or of a comparison that does not come to an end. -/
def TransactionError.Unending : TransactionError → Prop
  | .copy .endless | .store .endless => True
  | _ => False

/-- The answer of a command that does not come to an end. -/
def Answer.Unending : Answer V → Prop
  | .error (.store .endless) | .error (.copy .endless) => True
  | .error (.transaction e) => e.Unending
  | _ => False

namespace Overlay

variable {o : Overlay Value} {h : Heap} {base : GuardedStore Value} {call : StoreCall Value}

/-- A call leaves the cells that were there, and makes those of copies. -/
theorem Effect.exists_copies {outcome : Outcome (Overlay Value) Value}
    (heffect : o.Effect h call outcome) (hclosed : h.Closed h.Has)
    (hcall : ∀ v ∈ call.values, v.Within h.Has) : ∃ vs, Copies h outcome.heap vs := by
  cases heffect with
  | kept _ hcopies => exact ⟨_, hcopies⟩
  | set hsets hcopy =>
    exact ⟨_, Value.copies_of_copy hclosed (hcall _ hsets.mem_values) hcopy⟩
  | removed | cleared => exact ⟨[], .nil h⟩

/-- Without cycles, no call fails because it does not come to an end. -/
theorem Failure.not_unending (hsound : o.Sound base.store h) (hacyclic : h.Acyclic)
    (hcall : ∀ v ∈ call.values, v.Within h.Has) {e : TransactionError}
    (hfailure : o.Failure h base call e) : ¬ e.Unending := by
  have hends : ∀ {e : CopyError}, e ≠ .endless → ¬ (TransactionError.copy e).Unending := by
    rintro (typeName | _) hne hunending
    · exact hunending
    · exact hne rfl
  have hcopies : ∀ {v : Value}, v.Within h.Has → Copyable.copy h v ≠ .error .endless :=
    fun hv => (Value.grounded_of_acyclic hacyclic _).copy_ne_endless hsound.closed hv
  cases hfailure with
  | @refused _ e hne =>
    intro hunending
    cases e with
    | endless => exact hne rfl
    | badArgument | wrongKind | overflow => exact hunending
  | counts => exact id
  | given hv hcopy =>
    refine hends ?_
    rintro rfl
    exact hcopies (hcall _ hv) hcopy
  | visible hv hcopy =>
    refine hends ?_
    rintro rfl
    exact hcopies (hsound.visible hv) hcopy
  | untouched hcopy =>
    refine hends ?_
    rintro rfl
    refine Value.copyEntries_ne_endless hacyclic hsound.closed (fun e he => ?_) (le_refl h) hcopy
    exact hsound.store e.1 e.2 (mem_untouchedIn_iff.mp he).1
  | held huntouched hcopy =>
    refine hends ?_
    rintro rfl
    refine Value.copyEntries_ne_endless hacyclic hsound.closed (fun e he => ?_) ?_ hcopy
    · exact hsound.held e.1 e.2 (mem_assignments_toListIn_iff.mp he)
    · refine (Copyable.copies_of_copyEntries hsound.closed (fun e he => ?_) huntouched).le
      exact hsound.store e.1 e.2 (mem_untouchedIn_iff.mp he).1
  | incomparable hv hsame =>
    have hexpected := hcall _ List.mem_cons_self
    exact absurd hsame ((Value.grounded_of_acyclic hacyclic _).same?_ne_none hsound.closed
      (hsound.visible hv) hexpected)

end Overlay

/-! ## Commands -/

/-- A call on a transaction comes to an end if its error does. -/
theorem Answer.not_unending_ofTransaction {result : Except TransactionError (Reply V)}
    (hends : ∀ e, result = .error e → ¬ e.Unending) :
    ¬ (Answer.ofTransaction result).Unending := by
  cases result with
  | ok reply => exact id
  | error e => exact hends e rfl

namespace Session

variable {s : Session} {place : Nat} {t : Transaction Value} {owner : Cell → Option Slot}
  {command : Command Value}

namespace Owned

/-- What callers may pass in are values over the heap. -/
theorem permitted_within (ho : s.Owned owner) (hp : s.Permits command) :
    ∀ v ∈ command.values, v.Within s.db.heap.Has :=
  fun v hv => (ho.permitted hp v hv).mono fun _ hc => hc.1

/-- A call on a transaction makes the cells of copies. -/
theorem exists_copies_of_viewCall (ho : s.Owned owner) (ht : s.db.transaction? place = some t)
    {call : StoreCall Value} (hcall : ∀ v ∈ call.values, v.Within s.db.heap.Has) :
    ∃ vs, Copies s.db.heap (t.viewCall s.db.heap s.db.base call).heap vs := by
  by_cases hactive : t.phase = .active
  · have hsound := ho.sound ht hactive
    rw [Transaction.viewCall_of_active hactive]
    exact (Overlay.call_effect hsound.closed hsound.store hsound.held call).exists_copies
      hsound.closed hcall
  · rw [Transaction.viewCall_of_final (Phase.isFinal_eq_true_iff.mpr hactive)]
    exact ⟨[], .nil _⟩

/-- A call on a transaction comes to an end. -/
theorem viewCall_not_unending (ho : s.Owned owner) (hacyclic : s.db.heap.Acyclic)
    (ht : s.db.transaction? place = some t) {call : StoreCall Value}
    (hcall : ∀ v ∈ call.values, v.Within s.db.heap.Has) {e : TransactionError}
    (he : (t.viewCall s.db.heap s.db.base call).answer = .error e) : ¬ e.Unending := by
  by_cases hactive : t.phase = .active
  · rw [Transaction.viewCall_of_active hactive] at he
    exact (Overlay.failure_of_call he).not_unending (ho.sound ht hactive) hacyclic hcall
  · rw [Transaction.viewCall_of_final (Phase.isFinal_eq_true_iff.mpr hactive)] at he
    cases he
    exact id

/-- A call on the store comes to an end. -/
theorem call_ne_endless (ho : s.Owned owner) (hacyclic : s.db.heap.Acyclic)
    {call : StoreCall Value} (hcall : ∀ v ∈ call.values, v.Within s.db.heap.Has) :
    s.db.base.call s.db.heap call ≠ .error .endless := by
  intro he
  obtain ⟨key, expected, value, current, rfl, hget, hsame⟩ :=
    GuardedStore.compares_of_endless he
  have hcurrent : current.Within s.db.heap.Has := (ho.base key current hget).mono fun _ hc => hc.1
  exact (Value.grounded_of_acyclic hacyclic current).same?_ne_none (Ownership.closed_has ho)
    hcurrent (hcall expected List.mem_cons_self) hsame

/-- So does its command, if every other error is passed on as one that does. -/
theorem storeCall_not_unending (ho : s.Owned owner) (hacyclic : s.db.heap.Acyclic)
    {call : StoreCall Value} (hcall : ∀ v ∈ call.values, v.Within s.db.heap.Has)
    {refused : StoreError → Answer Value} (hrefused : ∀ e, e ≠ .endless → ¬ (refused e).Unending) :
    ¬ (s.db.storeCall call refused).1.Unending := by
  have hne := ho.call_ne_endless hacyclic hcall
  rw [Database.storeCall]
  split
  next => exact id
  next e he => exact hrefused e fun hendless => hne (hendless ▸ he)

/-- A command that is given to a transaction comes to an end. -/
theorem not_unending_ofTransaction (ho : s.Owned owner) (hacyclic : s.db.heap.Acyclic)
    (hplace : command.place? = some place)
    (hwithin : ∀ v ∈ command.values, v.Within s.db.heap.Has) : ¬ (s.answer command).Unending := by
  rw [answer]
  cases ht : s.db.transaction? place with
  | none =>
    rw [Database.step_of_none hplace ht]
    exact id
  | some t =>
    cases command with
    | own other call =>
      cases hplace
      rw [Database.step_own ht]
      exact Answer.not_unending_ofTransaction fun e he =>
        ho.viewCall_not_unending hacyclic ht hwithin (error_of_map he)
    | view other call =>
      cases hplace
      rw [Database.step_view ht]
      exact Answer.not_unending_ofTransaction fun e =>
        ho.viewCall_not_unending hacyclic ht hwithin
    | commit other order =>
      cases hplace
      simp only [Database.step, ht]
      refine Answer.not_unending_ofTransaction fun e he => ?_
      have hresult := t.commit_result order s.db.base
      generalize t.commit order s.db.base = settled at hresult he
      cases hresult with
      | committed => cases he
      | ended | refused =>
        cases he
        exact id
    | rollback other =>
      cases hplace
      simp only [Database.step, ht]
      exact id
    | conclude other ending order =>
      cases hplace
      simp only [Database.step, Database.conclude, ht]
      have hresult := t.managedEnd_conclude order s.db.base ending
      generalize (t.conclude order s.db.base ending).answer = conclusion at hresult ⊢
      generalize (t.conclude order s.db.base ending).transaction.rollback = t' at hresult
      generalize (t.conclude order s.db.base ending).base = base' at hresult
      cases hresult <;> exact id
    | _ => cases hplace

/-- Over a heap without cycles, every command comes to an end. -/
theorem not_unending (ho : s.Owned owner) (hacyclic : s.db.heap.Acyclic)
    (hp : s.Permits command) : ¬ (s.answer command).Unending := by
  have hwithin := ho.permitted_within hp
  cases command with
  | store call | direct call =>
    refine ho.storeCall_not_unending hacyclic hwithin fun e hne hunending => hne ?_
    cases e <;> cases hunending
    rfl
  | own place | view place | commit place | rollback place | conclude place =>
    exact ho.not_unending_ofTransaction hacyclic rfl hwithin
  | copy value =>
    have hne := (Value.grounded_of_acyclic hacyclic value).copy_ne_endless
      (Ownership.closed_has ho) (hwithin value List.mem_cons_self)
    rw [answer, Database.step]
    split
    next => exact id
    next e he =>
      cases e with
      | endless => exact absurd he hne
      | foreign => exact id
  | readCell | writeCell =>
    rw [answer, Database.step]
    split <;> exact id
  | _ => exact id

/-- Over a heap without cycles, every command but a write to a cell leaves none. -/
theorem acyclic_after (ho : s.Owned owner) (hacyclic : s.db.heap.Acyclic)
    (hp : s.Permits command) (hwrite : ¬ command.WritesCell) :
    (s.after command).db.heap.Acyclic := by
  have hclosed := Ownership.closed_has ho
  have hwithin := ho.permitted_within hp
  have hstep := s.db.heapStep command
  rw [Session.after]
  generalize (s.db.step command).2.heap = h' at hstep ⊢
  cases hstep with
  | kept => exact hacyclic
  | called ht call =>
    obtain ⟨vs, hcopies⟩ := ho.exists_copies_of_viewCall ht hwithin
    exact hacyclic.copies hclosed hcopies
  | viewed ht call =>
    obtain ⟨vs, hcopies⟩ := ho.exists_copies_of_viewCall ht hwithin
    exact hacyclic.copies hclosed hcopies
  | made value => exact hacyclic.alloc hclosed (hwithin value List.mem_cons_self)
  | written => exact absurd trivial hwrite
  | copied hcopy =>
    exact hacyclic.copies hclosed
      (Value.copies_of_copy hclosed (hwithin _ List.mem_cons_self) hcopy)
  | adopted typeName =>
    -- The cells are the same ones, and no new one is among them.
    exact hacyclic.of_le hclosed (s.db.heap.le_adopt typeName)
      fun cell w hold hr => absurd (Heap.has_of_read? hr) hold

/-- A write leaves no cycle if and only if the value does not reach the cell. -/
theorem acyclic_after_write_iff (ho : s.Owned owner) (hacyclic : s.db.heap.Acyclic) {cell : Cell}
    {value : Value} (hp : s.Permits (.writeCell cell value)) :
    (s.after (.writeCell cell value)).db.heap.Acyclic ↔ ¬ value.Reaches s.db.heap cell := by
  have hcell : s.db.heap.Has cell :=
    Value.within_shared.mp (ho.permitted_within hp (.shared cell) List.mem_cons_self)
  obtain ⟨old, hr⟩ := Heap.exists_read?_of_has hcell
  rw [Session.after, Database.step, hr]
  exact hacyclic.write_iff hcell value

end Owned

/-! ## Runs -/

/-- What callers bring about from a session if no write of theirs makes a cycle. -/
inductive Follows (s : Session) : Session → Prop
  /-- Nobody has done anything more. -/
  | refl : Follows s s
  /-- Somebody carries out one more command. -/
  | step {s' : Session} (hf : Follows s s') {command : Command Value} (hp : s'.Permits command)
    (hwrite : command.WritesCell → (s'.after command).db.heap.Acyclic) :
    Follows s (s'.after command)

/-- A session without cycles, in which everything comes to an end. -/
structure Terminates (s : Session) : Prop where
  /-- No cell reaches itself. -/
  acyclic : s.db.heap.Acyclic
  /-- Every copy and every comparison over the heap comes to an end. -/
  heap : s.db.heap.Ends
  /-- Every command comes to an end. -/
  answers : ∀ command, s.Permits command → ¬ (s.answer command).Unending
  /-- No command but a write to a cell makes a cycle. -/
  keeps : ∀ command, s.Permits command → ¬ command.WritesCell →
    (s.after command).db.heap.Acyclic
  /-- A write makes a cycle exactly if the value reaches the cell. -/
  writes : ∀ cell value, s.Permits (.writeCell cell value) →
    ((s.after (.writeCell cell value)).db.heap.Acyclic ↔ ¬ value.Reaches s.db.heap cell)

/-- The run: sessions that callers can bring about stay without cycles. -/
theorem Follows.acyclic {s' : Session} (hs : s.Reachable) (hacyclic : s.db.heap.Acyclic)
    (hf : s.Follows s') : s'.Reachable ∧ s'.db.heap.Acyclic := by
  induction hf with
  | refl => exact ⟨hs, hacyclic⟩
  | @step s' hf command hp hwrite ih =>
    obtain ⟨hreach, hacyclic'⟩ := ih
    refine ⟨.step hreach hp, ?_⟩
    by_cases hwrites : command.WritesCell
    · exact hwrite hwrites
    · obtain ⟨owner, ho⟩ := hreach.owned
      exact ho.acyclic_after hacyclic' hp hwrites

/-- From a session without cycles, everything that callers do comes to an end as long as no write of
theirs makes a cycle. -/
theorem Reachable.terminates (hs : s.Reachable) (hacyclic : s.db.heap.Acyclic) {s' : Session}
    (hf : s.Follows s') : s'.Terminates := by
  obtain ⟨hreach, hacyclic'⟩ := hf.acyclic hs hacyclic
  obtain ⟨owner, ho⟩ := hreach.owned
  exact ⟨hacyclic', hacyclic'.ends (Ownership.closed_has ho),
    fun command hp => ho.not_unending hacyclic' hp,
    fun command hp => ho.acyclic_after hacyclic' hp,
    fun cell value hp => ho.acyclic_after_write_iff hacyclic' hp⟩

/-- A session whose store has a list around a cell. A transaction read the list, which made a copy
of the cell, and holds another copy of this copy. -/
def unlinked : Session :=
  ((((start.after (.newCell (.plain (.int 0)))).after
    (.store (.put "k" (.list [.shared ⟨0⟩])))).after (.begin 0)).after (.own 0 (.get "k"))).after
    (.own 0 (.put "k" (.shared ⟨1⟩)))

/-- Then a caller writes the copy to the cell itself. -/
def relinked : Session := unlinked.after (.writeCell ⟨0⟩ (.shared ⟨1⟩))

/-- The cell is not reached from its copy, so that write makes no cycle, but a write of the cell to
its copy would make one. -/
theorem terminates_relinked :
    start.Reachable ∧ start.db.heap.Acyclic ∧ start.Follows relinked ∧ relinked.Terminates ∧
      relinked.answer (.copy (.list [.shared ⟨0⟩])) = .value (.list [.shared ⟨4⟩]) ∧
      ¬ (relinked.after (.writeCell ⟨1⟩ (.list [.shared ⟨0⟩]))).db.heap.Acyclic := by
  have hempty : start.db.heap.Acyclic := Heap.acyclic_of_lt fun cell v hr => nomatch hr
  have hunlinked : start.Follows unlinked := by
    refine .step (.step (.step (.step (.step .refl ?_ False.elim) ?_ False.elim) ?_ False.elim)
      ?_ False.elim) ?_ False.elim <;> decide
  have hpermits : unlinked.Permits (.writeCell ⟨0⟩ (.shared ⟨1⟩)) := by decide
  have hwritten : relinked.db.heap.Acyclic := by
    obtain ⟨hreach, hacyclic⟩ := hunlinked.acyclic .start hempty
    obtain ⟨owner, ho⟩ := hreach.owned
    have hnumbers : unlinked.db.heap = ⟨.replicate 3 (.plain (.int 0)), 0⟩ := rfl
    have hclosed : unlinked.db.heap.Closed fun cell => cell ≠ ⟨0⟩ := by
      rw [hnumbers]
      rintro ⟨_ | _ | _ | i⟩ v hne hr <;> cases hr <;> simp
    refine (ho.acyclic_after_write_iff hacyclic hpermits).mpr fun hreaches => ?_
    exact Value.Within.reaches hclosed (by simp) hreaches rfl
  have hfollows : start.Follows relinked := hunlinked.step hpermits fun _ => hwritten
  have hterminates := Reachable.terminates .start hempty hfollows
  refine ⟨.start, hempty, hfollows, hterminates, rfl, ?_⟩
  rw [hterminates.writes ⟨1⟩ (.list [.shared ⟨0⟩]) (by decide), not_not]
  exact ⟨[0, 0], rfl⟩

end Session

end OverlayStore
