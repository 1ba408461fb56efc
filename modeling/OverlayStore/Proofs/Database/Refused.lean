import OverlayStore.Proofs.Database.Transactions
import OverlayStore.Proofs.Overlay.Outcomes

/-!
# Refused calls

A call on an active transaction that is answered with an error changes nothing, so a run goes on as
if the call had not been made. The one exception is to clear a view: if the store does not list its
keys, the edits are gone all the same, and the next commit succeeds without them.
-/

namespace OverlayStore

/-- The place of the transaction that a call goes to, unless it clears the view. -/
def Command.callPlace? : Command V → Option Nat
  | .view _ .clear => none
  | .own place _ | .view place _ => some place
  | _ => none

/-- A command buffers an edit of one key: a value, or the removal of the key. -/
inductive Command.Stages (place : Nat) : Option V → Command V → Prop
  /-- The transaction sets the key. -/
  | ownPut (key : String) (value : V) : Stages place (some value) (.own place (.put key value))
  /-- The key is set through the view. -/
  | viewPut (key : String) (value : V) : Stages place (some value) (.view place (.put key value))
  /-- The transaction deletes the key. -/
  | ownDelete (key : String) : Stages place none (.own place (.delete key))
  /-- The key is deleted through the view. -/
  | viewDelete (key : String) : Stages place none (.view place (.delete key))

namespace Database

variable [Storable V] {db : Database V} {place : Nat} {t : Transaction V} {command : Command V}

/-! ## Calls that leave no trace -/

/-- A call on an active transaction is answered with an error. -/
def refuses (db : Database V) (command : Command V) : Bool :=
  match command.callPlace?.bind db.transaction?, (db.step command).1 with
  | some t, .error _ => t.phase = .active
  | _, _ => false

/-- The commands of a run that are not refused, with their answers. -/
def lasting (db : Database V) : List (Command V) → List (Command V × Answer V)
  | [] => []
  | command :: rest =>
    if db.refuses command then lasting (db.step command).2 rest
    else (command, (db.step command).1) :: lasting (db.step command).2 rest

theorem refuses_iff : db.refuses command = true ↔
    ∃ place t e, command.callPlace? = some place ∧ db.transaction? place = some t ∧
      t.phase = .active ∧ (db.step command).1 = .error e := by
  rw [refuses]
  constructor
  · intro hrefuses
    split at hrefuses
    next t e ht herror =>
      obtain ⟨place, hplace, ht⟩ := Option.bind_eq_some_iff.mp ht
      exact ⟨place, t, e, hplace, ht, of_decide_eq_true hrefuses, herror⟩
    next => cases hrefuses
  · rintro ⟨place, t, e, hplace, ht, hactive, herror⟩
    rw [hplace, Option.bind_some, ht, herror]
    exact decide_eq_true hactive

/-- A call of a transaction through its view changes nothing if it fails. -/
theorem view_of_error (ht : db.transaction? place = some t) {call : StoreCall V}
    (hne : call ≠ .clear) {e : TransactionError}
    (herror : (t.viewCall db.heap db.base call).answer = .error e) :
    { db with heap := (t.viewCall db.heap db.base call).heap }.setTransaction place
      (t.viewCall db.heap db.base call).state = db := by
  by_cases hactive : t.phase = .active
  · rw [Transaction.viewCall_of_active hactive] at herror ⊢
    rw [Overlay.call_of_error hne herror]
    exact setTransaction_self ht
  · rw [Transaction.viewCall_of_final (Phase.isFinal_eq_true_iff.mpr hactive)]
    exact setTransaction_self ht

/-- The step: a refused call leaves the database as it was. -/
theorem step_of_refuses (hrefuses : db.refuses command = true) : (db.step command).2 = db := by
  obtain ⟨place, t, e, hplace, ht, -, herror⟩ := refuses_iff.mp hrefuses
  have hfailed : ∀ {answer : Except TransactionError (Reply V)},
      Answer.ofTransaction answer = .error e → ∃ e', answer = .error e' := by
    intro answer heq
    cases answer with
    | ok reply => cases heq
    | error e' => exact ⟨e', rfl⟩
  cases command with
  | own other call =>
    cases hplace
    rw [step_own ht] at herror ⊢
    obtain ⟨e', hown⟩ := hfailed herror
    have hview : (t.viewCall db.heap db.base call.toStoreCall).answer = .error e' := by
      rw [Transaction.ownCall] at hown
      cases hanswer : (t.viewCall db.heap db.base call.toStoreCall).answer with
      | ok reply =>
        rw [hanswer] at hown
        cases hown
      | error e'' =>
        rw [hanswer] at hown
        exact hown
    exact view_of_error ht (by cases call <;> exact nofun) hview
  | view other call =>
    rw [Command.callPlace?.eq_def] at hplace
    split at hplace
    next => cases hplace
    next heq => cases heq
    next hne heq =>
      cases heq
      cases hplace
      rw [step_view ht] at herror ⊢
      obtain ⟨e', hview⟩ := hfailed herror
      exact view_of_error ht (fun heq => hne (heq ▸ rfl)) hview
    next => cases hplace
  | _ => cases hplace

/-- The run: without its refused calls a run gives the remaining answers and ends alike. -/
theorem run_lasting (db : Database V) (commands : List (Command V)) :
    db.run ((db.lasting commands).map Prod.fst) =
      ((db.lasting commands).map Prod.snd, (db.run commands).2) := by
  induction commands generalizing db with
  | nil => rfl
  | cons command rest ih =>
    rw [lasting]
    split
    next hrefuses =>
      rw [run_cons]
      rw [step_of_refuses hrefuses]
      exact ih db
    next =>
      rw [List.map_cons, List.map_cons, run_cons, run_cons, ih]

/-- Buffering an edit asks for a copy of its value and never asks the store: over any store it does
the same, and it fails only if there is no copy. -/
theorem step_of_stages (ht : db.transaction? place = some t) (hactive : t.phase = .active)
    {value? : Option V} (hstages : command.Stages place value?) (base : GuardedStore V) :
    ({ db with base }).step command = ((db.step command).1, { (db.step command).2 with base }) ∧
      match Copyable.copyOption db.heap value? with
      | .ok _ => ∃ reply, (db.step command).1 = .reply reply
      | .error e => (db.step command).1 = .error (.transaction (.copy e)) := by
  have ht' : ({ db with base }).transaction? place = some t := ht
  cases hstages with
  | ownPut key value =>
    rw [step_own ht, step_own ht', Transaction.ownCall, Transaction.ownCall,
      Transaction.viewCall_of_active hactive, Transaction.viewCall_of_active hactive,
      KeyCall.toStoreCall, Overlay.call, Overlay.call, Overlay.set, Copyable.copyOption]
    cases Copyable.copy db.heap value with
    | ok copied => exact ⟨rfl, _, rfl⟩
    | error e => exact ⟨rfl, rfl⟩
  | viewPut key value =>
    rw [step_view ht, step_view ht', Transaction.viewCall_of_active hactive,
      Transaction.viewCall_of_active hactive, Overlay.call, Overlay.call, Overlay.set,
      Copyable.copyOption]
    cases Copyable.copy db.heap value with
    | ok copied => exact ⟨rfl, _, rfl⟩
    | error e => exact ⟨rfl, rfl⟩
  | ownDelete key =>
    rw [step_own ht, step_own ht', Transaction.ownCall, Transaction.ownCall,
      Transaction.viewCall_of_active hactive, Transaction.viewCall_of_active hactive]
    exact ⟨rfl, _, rfl⟩
  | viewDelete key =>
    rw [step_view ht, step_view ht', Transaction.viewCall_of_active hactive,
      Transaction.viewCall_of_active hactive]
    exact ⟨rfl, _, rfl⟩

/-- Refused calls leave no trace in a database, and the store cannot refuse to buffer an edit. -/
structure Traceless (db : Database V) : Prop where
  /-- A refused call changes nothing. -/
  step : ∀ command, db.refuses command = true → (db.step command).2 = db
  /-- A run gives the same answers without its refused calls, and ends in the same database. -/
  run : ∀ commands, db.run ((db.lasting commands).map Prod.fst) =
    ((db.lasting commands).map Prod.snd, (db.run commands).2)
  /-- Over any store, an edit is buffered alike. -/
  staged : ∀ {place t value? command}, db.transaction? place = some t → t.phase = .active →
    command.Stages place value? → ∀ base,
      ({ db with base }).step command = ((db.step command).1, { (db.step command).2 with base })
  /-- It is buffered if its value has a copy, and a removal always is. -/
  answered : ∀ {place t value? command}, db.transaction? place = some t → t.phase = .active →
    command.Stages place value? →
      match Copyable.copyOption db.heap value? with
      | .ok _ => ∃ reply, (db.step command).1 = .reply reply
      | .error e => (db.step command).1 = .error (.transaction (.copy e))

/-- Refused calls leave no trace in any database, whatever the store refuses and wherever copying
fails. -/
theorem traceless (db : Database V) : db.Traceless where
  step _ hrefuses := step_of_refuses hrefuses
  run commands := run_lasting db commands
  staged ht hactive hstages base := (step_of_stages ht hactive hstages base).1
  answered ht hactive hstages := (step_of_stages ht hactive hstages db.base).2

/-! ## Clearing a view that cannot be listed -/

/-- What a refused clear leaves of a transaction. -/
structure ClearRefused (db : Database V) (place : Nat) (t : Transaction V) (e : StoreError) :
    Prop where
  /-- The refusal of the store is passed on. -/
  answer : (db.step (.view place .clear)).1 = .error (.transaction (.store e))
  /-- The transaction stays active, without its edits, and nothing else changes. -/
  left : (db.step (.view place .clear)).2 = db.setTransaction place { t with overlay := .empty }
  /-- Nothing is lost if and only if there were no edits. -/
  lost : (db.step (.view place .clear)).2 = db ↔ t.editCount = 0
  /-- The next commit succeeds over any store, and leaves the store as it is. -/
  committed : ∀ base order,
    ({ (db.step (.view place .clear)).2 with base }).step (.commit place order) =
      (.reply .done, { db with base }.setTransaction place
        { t with phase := .committed, overlay := .empty })

/-- A clear of a view is not refused without a trace: the edits are dropped before the store is
asked for its keys. -/
theorem clear_refused (ht : db.transaction? place = some t) (hactive : t.phase = .active)
    {e : StoreError} (hkeys : db.base.keys = .error e) : db.ClearRefused place t e := by
  have hstep : db.step (.view place .clear) = (.error (.transaction (.store e)),
      db.setTransaction place { t with overlay := .empty }) := by
    rw [step_view ht, Transaction.viewCall_of_active hactive, Overlay.call_clear_of_error hkeys]
    rfl
  refine ⟨congrArg Prod.fst hstep, congrArg Prod.snd hstep, ?_, fun base order => ?_⟩
  · rw [hstep, Transaction.editCount, ← Overlay.eq_empty_iff_size_eq_zero]
    constructor
    · intro heq
      have heq' : db.setTransaction place { t with overlay := .empty } = db := heq
      have hfound := transaction?_setTransaction ht { t with overlay := .empty } place
      rw [heq', ht, if_pos rfl] at hfound
      exact congrArg Transaction.overlay (Option.some.inj hfound)
    · intro hempty
      rw [← hempty]
      exact setTransaction_self ht
  · have hfound : { db.setTransaction place { t with overlay := .empty } with base }.transaction?
        place = some { t with overlay := .empty } :=
      (transaction?_setTransaction ht _ place).trans (if_pos rfl)
    rw [hstep, step, hfound]
    simp only [Transaction.commit, Transaction.commitIn, hactive, Overlay.toListIn_empty]
    refine Prod.ext rfl ?_
    simp only [setTransaction, Array.setIfInBounds_setIfInBounds]
    rfl

/-- The rules that refuse to list the keys. -/
def unlisted : Refusals := fun op => if op = .keys then .always else .never

/-- A transaction sets a key, and then the store does not list its keys any more. -/
def buffered : List (Command Value) :=
  [.begin 0, .own 0 (.put "k" (.plain (.int 1))), .refuse unlisted]

/-- A clear of its view loses the edit. -/
theorem clear_refused_buffered :
    ∃ t, ((ofStore .empty).run buffered).2.transaction? 0 = some t ∧ t.phase = .active ∧
      ((ofStore .empty).run buffered).2.base.keys = .error (.badArgument "keys rejected") ∧
      ((ofStore .empty).run buffered).2.ClearRefused 0 t (.badArgument "keys rejected") ∧
      (((ofStore .empty).run buffered).2.step (.view 0 .clear)).2 ≠
        ((ofStore .empty).run buffered).2 := by
  have hclear : ((ofStore .empty).run buffered).2.ClearRefused 0 _ (.badArgument "keys rejected") :=
    clear_refused rfl rfl rfl
  refine ⟨_, rfl, rfl, rfl, hclear, fun heq => ?_⟩
  cases hclear.lost.mp heq

/-- Without the refused clear the key is read and committed; after it the key is read as absent, and
a commit that succeeds does not put it into the store. -/
theorem edit_dropped_buffered :
    let before := ((ofStore .empty).run buffered).2
    let after := (before.step (.view 0 .clear)).2
    (before.step (.own 0 (.get "k"))).1 = .reply (.value (some (.plain (.int 1)))) ∧
      (before.step (.commit 0)).2.base.store.get? "k" = some (.plain (.int 1)) ∧
      (before.step (.view 0 .clear)).1 =
        .error (.transaction (.store (.badArgument "keys rejected"))) ∧
      (after.step (.own 0 (.get "k"))).1 = .reply (.value none) ∧
      (after.step (.commit 0)).1 = .reply .done ∧
      (after.step (.commit 0)).2.base.store.get? "k" = none :=
  ⟨rfl, rfl, rfl, rfl, rfl, rfl⟩

end Database

end OverlayStore
