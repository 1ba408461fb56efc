import OverlayStore.Proofs.Database.Transactions
import OverlayStore.Proofs.Overlay.Plain

/-!
# The commits of a run

Nothing but commits changes a plain store that nobody writes to directly, and a commit changes the
keys of its edits only. So a key has what the last commit that edited it made of it, and adjacent
commits of different keys may trade places.
-/

namespace OverlayStore

/-! ## Commands that commit -/

/-- Whether a command deregisters a transaction together with its end. -/
def Command.deregisters : Command V → Bool
  | .conclude _ _ _ => true
  | _ => false

/-- Whether a call on a store only reads it. -/
def StoreCall.readsOnly : StoreCall V → Bool
  | .get _ | .contains _ | .size | .isEmpty | .keys | .entries _ => true
  | .put _ _ | .update _ _ | .delete _ | .clear | .compareAndSwap _ _ _ | .increment _ _
  | .decrement _ _ => false

/-- A command does not write to the store directly, and does not change its rules. -/
def Command.Indirect : Command V → Prop
  | .store call => call.readsOnly = true
  | .direct call => call.toStoreCall.readsOnly = true
  | .putNew _ _ | .refuse _ => False
  | _ => True

namespace Transaction

/-- A commit of an active transaction on a plain store leaves there what the transaction showed,
whatever the order of the edits. -/
theorem commit_plain {t : Transaction V} (hactive : t.phase = .active) (order : KeyOrder)
    (s : Store V) :
    ∃ s', t.commit order (.plain s) =
        ⟨.ok (), { t with phase := .committed, overlay := .empty }, .plain s'⟩ ∧
      ∀ key, s'.get? key = t.overlay.visible? s key := by
  obtain ⟨s', happly⟩ := EditList.apply_plain (t.overlay.toListIn order) s
  refine ⟨s', ?_, Overlay.get?_of_apply happly⟩
  rw [commit, commitIn, hactive, happly]

/-- Of two commits without a key in common, it does not matter which comes first. -/
theorem commit_commit_plain {t u : Transaction V}
    (hdisjoint : ∀ key, t.overlay.edit? key = none ∨ u.overlay.edit? key = none)
    (first second : KeyOrder) (s : Store V) :
    (u.commit second (t.commit first (.plain s)).base).base =
        (t.commit first (u.commit second (.plain s)).base).base ∧
      (u.commit second (t.commit first (.plain s)).base).transaction =
        (u.commit second (.plain s)).transaction := by
  by_cases ht : t.phase = .active
  · by_cases hu : u.phase = .active
    · obtain ⟨s₁, htcommit, hs₁⟩ := commit_plain ht first s
      obtain ⟨s₂, hucommit, hs₂⟩ := commit_plain hu second s
      obtain ⟨s₁₂, hucommit', hs₁₂⟩ := commit_plain hu second s₁
      obtain ⟨s₂₁, htcommit', hs₂₁⟩ := commit_plain ht first s₂
      rw [htcommit, hucommit, hucommit', htcommit']
      refine ⟨congrArg GuardedStore.plain (Store.ext_get? fun key => ?_), rfl⟩
      rw [hs₁₂, hs₂₁]
      -- One of the two does not touch the key, and shows what the other one left.
      rcases hdisjoint key with hfree | hfree
      · rw [Overlay.visible?_of_untouched hfree, hs₂, Overlay.visible?, Overlay.visible?, hs₁,
          Overlay.visible?_of_untouched hfree]
      · rw [Overlay.visible?_of_untouched hfree, hs₁, Overlay.visible?, Overlay.visible?, hs₂,
          Overlay.visible?_of_untouched hfree]
    · rw [commit_of_final hu, commit_of_final hu]
      exact ⟨rfl, rfl⟩
  · rw [commit_of_final ht, commit_of_final ht]
    exact ⟨rfl, rfl⟩

end Transaction

/-- A call that only reads leaves the store. -/
theorem GuardedStore.call_of_readsOnly [Storable V] {g g' : GuardedStore V} {h : Heap}
    {call : StoreCall V} {reply : Reply V} (hreads : call.readsOnly = true)
    (hok : g.call h call = .ok (reply, g')) : g' = g := by
  cases call with
  | get key =>
    rw [GuardedStore.call] at hok
    cases hget : g.get key <;> rw [hget] at hok <;> cases hok
    rfl
  | contains key =>
    rw [GuardedStore.call] at hok
    cases hcontains : g.contains key <;> rw [hcontains] at hok <;> cases hok
    rfl
  | size | isEmpty =>
    cases hok
    rfl
  | keys =>
    rw [GuardedStore.call] at hok
    cases hkeys : g.keys <;> rw [hkeys] at hok <;> cases hok
    rfl
  | entries =>
    rw [GuardedStore.call] at hok
    cases hentries : g.entries <;> rw [hentries] at hok <;> cases hok
    rfl
  | put | update | delete | clear | compareAndSwap | increment | decrement => cases hreads

namespace Database

variable [Storable V] {db : Database V} {place : Nat} {t : Transaction V} {command : Command V}

/-- What a command that commits leaves. A managed execution also deregisters its transaction. -/
theorem step_of_commits (hc : command.commits? = some place)
    (ht : db.transaction? place = some t) :
    ((db.step command).1 = .reply .done ↔ (t.commit command.order db.base).answer = .ok ()) ∧
      (db.step command).2 =
        { db with
          base := (t.commit command.order db.base).base
          transactions :=
            db.transactions.setIfInBounds place (t.commit command.order db.base).transaction
          registry := bif command.deregisters then db.registry.erase t.id else db.registry } := by
  have hkept := Transaction.rollback_of_final (t.isFinal_commit command.order db.base)
  cases command with
  | commit other order =>
    cases hc
    simp only [step, ht, Command.order]
    refine ⟨?_, rfl⟩
    cases (t.commit order db.base).answer with
    | ok u => exact iff_of_true rfl rfl
    | error e => constructor <;> rintro ⟨⟩
  | conclude other ending order =>
    cases ending with
    | returned value =>
      cases hc
      simp only [Command.order] at hkept
      simp only [step, conclude, ht, Transaction.conclude, Command.order]
      cases hanswer : (t.commit order db.base).answer with
      | ok u =>
        refine ⟨iff_of_true rfl rfl, ?_⟩
        simp only [hkept]
        rfl
      | error e =>
        refine ⟨by constructor <;> rintro ⟨⟩, ?_⟩
        simp only [hkept]
        rfl
    | failed | aborted => cases hc
  | _ => cases hc

/-- There is nothing to commit where no transaction was begun. -/
theorem step_of_commits_of_none (hc : command.commits? = some place)
    (ht : db.transaction? place = none) : db.step command = (.unknown, db) :=
  step_of_none (Command.place?_of_commits? hc) ht

/-- A command that does not commit and does not write directly leaves the store. -/
theorem base_step_of_indirect (hindirect : command.Indirect) (hc : command.commits? = none) :
    (db.step command).2.base = db.base := by
  have hcall : ∀ {call : StoreCall V} {refused}, call.readsOnly = true →
      (db.storeCall call refused).2.base = db.base := by
    intro call refused hreads
    rw [storeCall]
    split
    next reply base hok => exact GuardedStore.call_of_readsOnly hreads hok
    next => rfl
  cases command with
  | store call => exact hcall hindirect
  | direct call => exact hcall hindirect
  | own other call | view other call =>
    simp only [step, onTransaction]
    split <;> rfl
  | rollback other | readCell | writeCell | copy =>
    simp only [step]
    split <;> rfl
  | conclude other ending order =>
    simp only [step, conclude]
    cases db.transaction? other with
    | none => rfl
    | some t => cases ending <;> first | rfl | cases hc
  | commit => cases hc
  | putNew | refuse => exact hindirect.elim
  | _ => rfl

end Database

/-! ## The last commit of a key -/

/-- The value of a key after commits: the last of them that edits the key decides. -/
def Store.afterCommits (s : Store V) (commits : List (Overlay V)) (key : String) : Option V :=
  match commits.reverse.findSome? (Overlay.edit? · key) with
  | some edit => edit.value?
  | none => s.get? key

namespace Store

variable {s s' : Store V} {first second : List (Overlay V)} {key : String}

/-- Without a commit a key is as it was. -/
@[simp] theorem afterCommits_nil (s : Store V) (key : String) :
    s.afterCommits [] key = s.get? key := rfl

/-- One commit leaves what was visible. -/
@[simp] theorem afterCommits_singleton (s : Store V) (o : Overlay V) (key : String) :
    s.afterCommits [o] key = o.visible? s key := by
  rw [afterCommits, List.reverse_singleton, List.findSome?_singleton]
  rfl

/-- Later commits go on from what the earlier ones left. -/
theorem afterCommits_append (hs' : ∀ key, s'.get? key = s.afterCommits first key)
    (second : List (Overlay V)) (key : String) :
    s'.afterCommits second key = s.afterCommits (first ++ second) key := by
  rw [afterCommits, afterCommits, List.reverse_append, List.findSome?_append]
  cases second.reverse.findSome? (Overlay.edit? · key) with
  | some edit => rfl
  | none => exact hs' key

/-- Commits that do not edit a key leave it. -/
theorem afterCommits_of_untouched (hfree : ∀ o ∈ second, o.edit? key = none) :
    s.afterCommits second key = s.get? key := by
  have hnone : second.reverse.findSome? (Overlay.edit? · key) = none :=
    List.findSome?_eq_none_iff.mpr fun o ho => hfree o (List.mem_reverse.mp ho)
  rw [afterCommits, hnone]

end Store

namespace Database

/-- The edits of the transaction that a command commits, if the commit succeeds. -/
def committed? [Storable V] (db : Database V) (command : Command V) : Option (Overlay V) :=
  match command.commits?, (db.step command).1 with
  | some place, .reply .done => (db.transaction? place).map Transaction.overlay
  | _, _ => none

/-- The edits of the commits of a run that succeed, in the order of the commits. -/
def commits [Storable V] : Database V → List (Command V) → List (Overlay V)
  | _, [] => []
  | db, command :: rest => (db.committed? command).toList ++ commits (db.step command).2 rest

variable [Storable V] {db : Database V} {commands : List (Command V)}

theorem committed?_eq_some {command : Command V} {o : Overlay V}
    (ho : db.committed? command = some o) :
    ∃ place t, command.commits? = some place ∧ db.transaction? place = some t ∧ t.overlay = o ∧
      (db.step command).1 = .reply .done := by
  rw [committed?] at ho
  split at ho
  next place hc hdone =>
    obtain ⟨t, ht, rfl⟩ := Option.map_eq_some_iff.mp ho
    exact ⟨place, t, hc, ht, rfl, hdone⟩
  next => cases ho

/-- The step: a store without rules stays one, and has what the commit of the command leaves. -/
theorem store_step (hplain : db.base.refusals = .none) {command : Command V}
    (hindirect : command.Indirect) :
    (db.step command).2.base.refusals = .none ∧
      ∀ key, (db.step command).2.base.store.get? key =
        db.base.store.afterCommits (db.committed? command).toList key := by
  cases hc : command.commits? with
  | none =>
    have hnone : db.committed? command = none := by rw [committed?, hc]
    rw [base_step_of_indirect hindirect hc, hnone]
    exact ⟨hplain, fun key => rfl⟩
  | some place =>
    cases ht : db.transaction? place with
    | none =>
      have hunknown := step_of_commits_of_none hc ht
      have hnone : db.committed? command = none := by rw [committed?, hc, hunknown]
      rw [hunknown, hnone]
      exact ⟨hplain, fun key => rfl⟩
    | some t =>
      obtain ⟨hdone, hstep⟩ := step_of_commits hc ht
      rw [GuardedStore.eq_plain hplain] at hdone
      rw [hstep, GuardedStore.eq_plain hplain]
      by_cases hactive : t.phase = .active
      · obtain ⟨s', hcommit, hs'⟩ := Transaction.commit_plain hactive command.order db.base.store
        have hsome : db.committed? command = some t.overlay := by
          simp only [committed?, hc, hdone.mpr (by rw [hcommit]), ht, Option.map_some]
        rw [hcommit, hsome]
        refine ⟨rfl, fun key => ?_⟩
        rw [Option.toList_some, Store.afterCommits_singleton]
        exact hs' key
      · have hnone : db.committed? command = none := by
          rw [Option.eq_none_iff_forall_ne_some]
          intro o ho
          obtain ⟨-, -, -, -, -, hreply⟩ := committed?_eq_some ho
          rw [hdone, Transaction.commit_of_final hactive] at hreply
          cases hreply
        rw [Transaction.commit_of_final hactive, hnone]
        exact ⟨rfl, fun key => rfl⟩

/-- The run: every key has what the last commit that edited it made of it. -/
theorem store_run (hplain : db.base.refusals = .none)
    (hindirect : ∀ command ∈ commands, command.Indirect) :
    (db.run commands).2.base.refusals = .none ∧
      ∀ key, (db.run commands).2.base.store.get? key =
        db.base.store.afterCommits (db.commits commands) key := by
  induction commands generalizing db with
  | nil => exact ⟨hplain, fun key => rfl⟩
  | cons command rest ih =>
    rw [List.forall_mem_cons] at hindirect
    obtain ⟨hplain', hstep⟩ := store_step hplain hindirect.1
    obtain ⟨hplain'', hrest⟩ := ih hplain' hindirect.2
    refine ⟨hplain'', fun key => ?_⟩
    rw [run_cons, hrest key, commits]
    exact Store.afterCommits_append hstep _ key

/-! ## Adjacent commits -/

/-- Commits of different transactions without a key in common may trade places. -/
theorem step_swap (hplain : db.base.refusals = .none) {c d : Command V} {p q : Nat}
    {t u : Transaction V} (hc : c.commits? = some p) (hd : d.commits? = some q) (hne : p ≠ q)
    (ht : db.transaction? p = some t) (hu : db.transaction? q = some u)
    (hdisjoint : ∀ key, t.overlay.edit? key = none ∨ u.overlay.edit? key = none) :
    ((db.step d).2.step c).2 = ((db.step c).2.step d).2 := by
  obtain ⟨-, hstepc⟩ := step_of_commits hc ht
  obtain ⟨-, hstepd⟩ := step_of_commits hd hu
  have hu' : (db.step c).2.transaction? q = some u := by
    rw [hstepc, ← hu]
    exact Array.getElem?_setIfInBounds_ne hne
  have ht' : (db.step d).2.transaction? p = some t := by
    rw [hstepd, ← ht]
    exact Array.getElem?_setIfInBounds_ne (Ne.symm hne)
  obtain ⟨-, hstepcd⟩ := step_of_commits hd hu'
  obtain ⟨-, hstepdc⟩ := step_of_commits hc ht'
  have hbase := GuardedStore.eq_plain hplain
  obtain ⟨hsame, htransaction⟩ := Transaction.commit_commit_plain hdisjoint
    c.order d.order db.base.store
  obtain ⟨-, htransaction'⟩ := Transaction.commit_commit_plain (fun key => (hdisjoint key).symm)
    d.order c.order db.base.store
  rw [← hbase] at hsame htransaction htransaction'
  have hregistry : ∀ (registry : Std.ExtTreeMap TransactionId Nat) (a b : TransactionId),
      (registry.erase a).erase b = (registry.erase b).erase a := by
    intro registry a b
    refine Std.ExtTreeMap.ext_getElem? fun id => ?_
    simp only [Std.ExtTreeMap.getElem?_erase]
    split <;> split <;> rfl
  rw [hstepcd, hstepdc, hstepc, hstepd]
  simp only [hsame, htransaction, htransaction', Array.setIfInBounds_comm _ _ hne]
  congr 1
  cases c.deregisters <;> cases d.deregisters <;> first | rfl | exact hregistry _ _ _

/-- Two commits that succeed one after the other are commits of different transactions. -/
theorem committed?_committed? {c d : Command V} {o o' : Overlay V}
    (ho : db.committed? c = some o) (ho' : (db.step c).2.committed? d = some o') :
    ∃ p q t u, c.commits? = some p ∧ d.commits? = some q ∧ p ≠ q ∧
      db.transaction? p = some t ∧ db.transaction? q = some u ∧ t.overlay = o ∧ u.overlay = o' := by
  obtain ⟨p, t, hc, ht, hto, -⟩ := committed?_eq_some ho
  obtain ⟨q, u, hd, hu, huo, hdone⟩ := committed?_eq_some ho'
  obtain ⟨-, hstep⟩ := step_of_commits hc ht
  have hne : p ≠ q := by
    rintro rfl
    have hover : (db.step c).2.transaction? p = some (t.commit c.order db.base).transaction := by
      rw [hstep]
      exact (transaction?_setTransaction ht _ p).trans (if_pos rfl)
    rw [hover] at hu
    cases hu
    have hfinal := Phase.isFinal_eq_true_iff.mp (t.isFinal_commit c.order db.base)
    rw [(step_of_commits hd hover).1, Transaction.commit_of_final hfinal] at hdone
    cases hdone
  refine ⟨p, q, t, u, hc, hd, hne, ht, ?_, hto, huo⟩
  rw [hstep] at hu
  rw [← hu]
  exact (Array.getElem?_setIfInBounds_ne hne).symm

/-- How the commits of a run decide what the store has. -/
structure CommitOrder (db : Database V) (commands : List (Command V)) : Prop where
  /-- After every part of the run, a key has what the last commit that edited it made of it. -/
  last : ∀ done, done <+: commands → ∀ key,
    (db.run done).2.base.store.get? key = db.base.store.afterCommits (db.commits done) key
  /-- What a commit made of a key is lost only to a later commit that edits the key. -/
  kept : ∀ first command later, commands = first ++ command :: later →
    ∀ o, (db.run first).2.committed? command = some o → ∀ key edit, o.edit? key = some edit →
      (db.run commands).2.base.store.get? key = edit.value? ∨
        ∃ o' ∈ ((db.run first).2.step command).2.commits later, o'.edit? key ≠ none
  /-- Adjacent commits without a key in common may trade places. -/
  swap : ∀ first c d later, commands = first ++ c :: d :: later →
    ∀ o o', (db.run first).2.committed? c = some o →
      ((db.run first).2.step c).2.committed? d = some o' →
      (∀ key, o.edit? key = none ∨ o'.edit? key = none) →
      (db.run (first ++ d :: c :: later)).2 = (db.run commands).2

/-- The last commit of a key wins, in every run in which nobody writes to the store directly. -/
theorem commitOrder (hplain : db.base.refusals = .none)
    (hindirect : ∀ command ∈ commands, command.Indirect) : CommitOrder db commands where
  last done hdone := (store_run hplain fun c hc => hindirect c (hdone.subset hc)).2
  kept := by
    rintro first command later rfl o ho key edit hedit
    rw [List.forall_mem_append, List.forall_mem_cons] at hindirect
    obtain ⟨hfirst, -⟩ := store_run hplain hindirect.1
    obtain ⟨hcommand, hstore⟩ := store_step hfirst hindirect.2.1
    obtain ⟨-, hlater⟩ := store_run hcommand hindirect.2.2
    rw [run_append, run_cons]
    by_cases hfree : ∀ o' ∈ ((db.run first).2.step command).2.commits later, o'.edit? key = none
    · left
      rw [hlater, Store.afterCommits_of_untouched hfree, hstore, ho, Option.toList_some,
        Store.afterCommits_singleton, Overlay.visible?_of_edit hedit]
    · right
      push Not at hfree
      exact hfree
  swap := by
    rintro first c d later rfl o o' ho ho' hdisjoint
    rw [List.forall_mem_append] at hindirect
    obtain ⟨hfirst, -⟩ := store_run hplain hindirect.1
    obtain ⟨p, q, t, u, hc, hd, hne, ht, hu, rfl, rfl⟩ := committed?_committed? ho ho'
    have hswap := step_swap hfirst hc hd hne ht hu hdisjoint
    simp only [run_append, run_cons, hswap]

/-- Two transactions that write to one key, and of which the second one commits first. -/
def rivals : List (Command Int64) :=
  [.begin 0, .begin 0, .own 0 (.put "k" 1), .own 1 (.put "k" 2), .own 1 (.put "j" 3), .commit 1,
    .conclude 0 (.returned ())]

/-- The later commit decides the key that both wrote to, and the earlier one the other key. -/
theorem commitOrder_rivals :
    (ofStore .empty : Database Int64).base.refusals = .none ∧
      (∀ command ∈ rivals, command.Indirect) ∧
      ((ofStore .empty).run rivals).2.base.store.get? "k" = some 1 ∧
      ((ofStore .empty).run rivals).2.base.store.get? "j" = some 3 := by
  have hindirect : ∀ command ∈ rivals, command.Indirect := by
    simp [rivals, Command.Indirect]
  have horder := commitOrder (rfl : (ofStore .empty : Database Int64).base.refusals = .none)
    hindirect
  exact ⟨rfl, hindirect, (horder.last rivals List.prefix_rfl "k").trans rfl,
    (horder.last rivals List.prefix_rfl "j").trans rfl⟩

end Database

end OverlayStore
