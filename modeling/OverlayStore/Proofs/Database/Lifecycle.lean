import Mathlib.Data.List.Induction
import OverlayStore.Proofs.Database.Transactions

/-!
# The life of a transaction

In every run the phase of a transaction changes at most once, away from the active one and by a
command that ends it. From then on the transaction answers every call by its end, and no call has an
effect. Only a failed transaction has edits after its end, the ones that its commit found.
-/

namespace OverlayStore.Database

/-- A change of the phase of a transaction. -/
structure PhaseChange (V : Type) where
  /-- The command that made it. -/
  command : Command V
  /-- The phase before. -/
  before : Phase
  /-- The phase after. -/
  after : Phase

variable [Storable V]

/-- The change that a command makes to the phase of the transaction at a place. -/
def phaseChange? (db : Database V) (place : Nat) (command : Command V) : Option (PhaseChange V) :=
  match db.transaction? place, (db.step command).2.transaction? place with
  | some t, some t' => if t.phase = t'.phase then none else some ⟨command, t.phase, t'.phase⟩
  | _, _ => none

/-- The changes that a run makes to the phase of the transaction at a place, in order. -/
def phaseChanges (place : Nat) : Database V → List (Command V) → List (PhaseChange V)
  | _, [] => []
  | db, command :: rest =>
    (db.phaseChange? place command).toList ++ phaseChanges place (db.step command).2 rest

variable {db start : Database V} {commands : List (Command V)} {command : Command V} {place : Nat}
  {t t' : Transaction V}

theorem phaseChange?_of_none (ht : db.transaction? place = none) (command : Command V) :
    db.phaseChange? place command = none := by
  rw [phaseChange?, ht]

theorem phaseChange?_eq (ht : db.transaction? place = some t)
    (ht' : (db.step command).2.transaction? place = some t') :
    db.phaseChange? place command =
      if t.phase = t'.phase then none else some ⟨command, t.phase, t'.phase⟩ := by
  rw [phaseChange?, ht, ht']

/-- The changes of a longer run are those of the run, and the one of the last command. -/
theorem phaseChanges_concat (place : Nat) (db : Database V) (commands : List (Command V))
    (command : Command V) :
    phaseChanges place db (commands ++ [command]) =
      phaseChanges place db commands ++
        ((db.run commands).2.phaseChange? place command).toList := by
  induction commands generalizing db with
  | nil => simp [phaseChanges]
  | cons first rest ih => simp [phaseChanges, ih]

/-- The changes of phase in the life of a transaction that is in a phase now: none as long as it is
active, else a single one, by a command that may end it so. -/
inductive Course (place : Nat) : List (PhaseChange V) → Phase → Prop
  /-- The transaction is active. -/
  | active : Course place [] .active
  /-- The transaction is over. -/
  | ended (command : Command V) {phase : Phase} (hends : command.EndsIn place phase) :
    Course place [⟨command, .active, phase⟩] phase

omit [Storable V] in
/-- As long as a transaction is active, its phase has not changed. -/
theorem Course.nil_of_active {changes : List (PhaseChange V)} {phase : Phase}
    (hcourse : Course place changes phase) (hactive : phase = .active) : changes = [] := by
  cases hcourse with
  | active => rfl
  | ended command hends =>
    rw [hactive] at hends
    exact hends.elim

/-- A run has brought a transaction from its begin to a state. -/
structure Lived (start : Database V) (commands : List (Command V)) (place : Nat)
    (t : Transaction V) : Prop where
  /-- The phase has changed at most once. -/
  course : Course place (phaseChanges place start commands) t.phase
  /-- A transaction that is committed or rolled back has no edits. -/
  emptied : t.phase = .committed ∨ t.phase = .rolledBack → t.editCount = 0
  /-- A transaction has failed by a commit, and has the edits that this commit found. -/
  kept : t.phase = .failed → ∃ first command later found,
    commands = first ++ command :: later ∧ command.commits? = some place ∧
      (start.run first).2.transaction? place = some found ∧ found.phase = .active ∧
      t = { found with phase := .failed }

namespace Lived

/-- The step: one command more, whatever it is. -/
theorem step (hlived : Lived start commands place t)
    (ht : (start.run commands).2.transaction? place = some t)
    (ht' : ((start.run commands).2.step command).2.transaction? place = some t')
    (hmoves : t.Moves (command.EndsIn place) t') :
    Lived start (commands ++ [command]) place t' := by
  obtain ⟨hcourse, hemptied, hkept⟩ := hlived
  have hchanges := phaseChanges_concat place start commands command
  rw [phaseChange?_eq ht ht'] at hchanges
  cases hmoves with
  | active hactive o =>
    rw [if_pos rfl, Option.toList_none, List.append_nil] at hchanges
    refine ⟨hchanges ▸ hcourse, ?_, ?_⟩
    · rintro (hphase | hphase) <;> rw [hactive] at hphase <;> cases hphase
    · intro hphase
      rw [hactive] at hphase
      cases hphase
  | committed hactive hends =>
    rw [hactive, if_neg nofun, hcourse.nil_of_active hactive] at hchanges
    refine ⟨hchanges ▸ .ended command hends, fun _ => ?_, nofun⟩
    exact Overlay.size_empty
  | rolledBack hactive hends =>
    rw [hactive, if_neg nofun, hcourse.nil_of_active hactive] at hchanges
    refine ⟨hchanges ▸ .ended command hends, fun _ => ?_, nofun⟩
    exact Overlay.size_empty
  | failed hactive hends =>
    rw [hactive, if_neg nofun, hcourse.nil_of_active hactive] at hchanges
    refine ⟨hchanges ▸ .ended command hends, ?_, fun _ => ?_⟩
    · rintro (hphase | hphase) <;> cases hphase
    · exact ⟨commands, command, [], t, rfl, hends, ht, hactive, rfl⟩
  | ended hfinal =>
    rw [if_pos rfl, Option.toList_none, List.append_nil] at hchanges
    refine ⟨hchanges ▸ hcourse, hemptied, fun hfailed => ?_⟩
    obtain ⟨first, ending, later, found, rfl, hcommits, hfound, hactive, heq⟩ := hkept hfailed
    refine ⟨first, ending, later ++ [command], found, ?_, hcommits, hfound, hactive, heq⟩
    rw [List.append_assoc, List.cons_append]

end Lived

/-- The run: no change before the begin, and what the transaction has lived since. -/
theorem lived_run (hnew : start.transaction? place = none) (commands : List (Command V)) :
    ((start.run commands).2.transaction? place = none → phaseChanges place start commands = []) ∧
      ∀ t, (start.run commands).2.transaction? place = some t → Lived start commands place t := by
  induction commands using List.reverseRecOn with
  | nil =>
    refine ⟨fun _ => rfl, fun t ht => ?_⟩
    rw [run_nil, hnew] at ht
    cases ht
  | append_singleton commands command ih =>
    obtain ⟨hnone, hsome⟩ := ih
    simp only [run_append, run_cons, run_nil]
    cases ht : (start.run commands).2.transaction? place with
    | some t =>
      obtain ⟨t', ht', hmoves⟩ := step_moves ht command
      rw [ht']
      refine ⟨nofun, ?_⟩
      rintro _ ⟨⟩
      exact (hsome t ht).step ht ht' hmoves
    | none =>
      have hchanges : phaseChanges place start (commands ++ [command]) = [] := by
        rw [phaseChanges_concat, hnone ht, phaseChange?_of_none ht]
        rfl
      refine ⟨fun _ => hchanges, fun t ht' => ?_⟩
      obtain ⟨id, rfl⟩ := fresh_of_step ht ht'
      refine ⟨?_, ?_, nofun⟩
      · rw [hchanges]
        exact .active
      · rintro (hphase | hphase) <;> cases hphase

/-! ## After the end -/

/-- Every call on the transaction at a place is answered by its end, a rollback does nothing, and
none of them leaves a trace anywhere. -/
structure Over (db : Database V) (place : Nat) (t : Transaction V) : Prop where
  /-- It is still there, as it was at its end. -/
  there : db.transaction? place = some t
  /-- The calls of its own. -/
  own : ∀ call : KeyCall V,
    db.step (.own place call) = (.error (.transaction (.ended t.id t.phase)), db)
  /-- The calls on its view, counting included. -/
  view : ∀ call : StoreCall V,
    db.step (.view place call) = (.error (.transaction (.ended t.id t.phase)), db)
  /-- A commit, in whatever order it would apply the edits. -/
  commit : ∀ order, db.step (.commit place order) =
    (.error (.transaction (.ended t.id t.phase)), db)
  /-- A rollback. -/
  rollback : db.step (.rollback place) = (.reply .done, db)

/-- A transaction that is not active is over. -/
theorem over_of_final (ht : db.transaction? place = some t) (hfinal : t.phase ≠ .active) :
    Over db place t := by
  have hself := setTransaction_self ht
  have hview : ∀ call : StoreCall V,
      t.viewCall db.heap db.base call = ⟨.error t.ended, t, db.heap⟩ :=
    Transaction.viewCall_of_final (Phase.isFinal_eq_true_iff.mpr hfinal) db.heap db.base
  refine ⟨ht, fun call => ?_, fun call => ?_, fun order => ?_, ?_⟩
  · simp only [step_own ht, Transaction.ownCall, hview, hself]
    rfl
  · simp only [step_view ht, hview, hself]
    rfl
  · simp only [step, ht, Transaction.commit_of_final hfinal, hself]
    rfl
  · simp only [step, ht, Transaction.rollback_of_final (Phase.isFinal_eq_true_iff.mpr hfinal),
      hself]

/-- The life of a transaction, up to the end of a run and beyond. -/
structure Lifecycle (start : Database V) (commands : List (Command V)) (place : Nat)
    (t : Transaction V) : Prop where
  /-- What it has lived. -/
  lived : Lived start commands place t
  /-- Once it is over, it stays so whatever is carried out later. -/
  final : t.phase ≠ .active → ∀ later, Over ((start.run commands).2.run later).2 place t

/-- Every transaction that a run has begun lives by the same rules. -/
theorem lifecycle (hnew : start.transaction? place = none)
    (ht : (start.run commands).2.transaction? place = some t) :
    Lifecycle start commands place t where
  lived := (lived_run hnew commands).2 t ht
  final hfinal later := by
    obtain ⟨t', ht', hcontinues⟩ := run_continues ht later
    rw [hcontinues.final hfinal] at ht'
    exact over_of_final ht' hfinal

/-- The commit of one transaction is refused, and a managed execution of it ends too late; another
one is rolled back. -/
def refused : List (Command Int64) :=
  [.begin 0, .begin 0, .own 0 (.put "k" 1), .refuse fun _ => .always, .view 1 .clear, .commit 0,
    .rollback 1, .conclude 0 (.returned ())]

/-- The refused transaction keeps its edit, and counting on its view is answered by its end. -/
theorem lifecycle_refused :
    (ofStore .empty : Database Int64).transaction? 0 = none ∧
      ∃ t, ((ofStore .empty).run refused).2.transaction? 0 = some t ∧
        Lifecycle (ofStore .empty) refused 0 t ∧ t.phase = .failed ∧ t.editCount = 1 ∧
        (((ofStore .empty).run refused).2.step (.view 0 (.increment "k" 1))).1 =
          .error (.transaction (.ended ⟨1, 0⟩ .failed)) := by
  have hnew : (ofStore .empty : Database Int64).transaction? 0 = none := rfl
  have hlife : Lifecycle (ofStore .empty) refused 0 _ := lifecycle hnew rfl
  have hcall := (hlife.final nofun []).view (.increment "k" 1)
  exact ⟨hnew, _, rfl, hlife, rfl, rfl, congrArg Prod.fst hcall⟩

end OverlayStore.Database
