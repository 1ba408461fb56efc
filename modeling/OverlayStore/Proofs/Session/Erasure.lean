import OverlayStore.Proofs.Database.Growth
import OverlayStore.Proofs.Session.Without

/-!
# Transactions that do not commit

As long as no commit of a transaction is attempted while it is active, nobody else can tell whether
it is there. The run in which everything about the transaction is left out answers every other
command the same and leaves the same store, up to the numbers of later transactions and of later
cells.
-/

namespace OverlayStore

/-! ## Two runs -/

namespace Session

/-- A run with a transaction and the run without it. Callers use what they were answered, but for
what they were answered about the transaction: that is used for the transaction only, and to make,
read, copy and write to cells that nobody else knows. -/
inductive Erasure (place : Nat) : Session → List Cell → Database Value → Prop
  /-- Nobody has done anything. -/
  | start : Erasure place start [] (.ofStore .empty)
  /-- A command that is not about the transaction is carried out on both sides. -/
  | kept {s : Session} {hidden : List Cell} {db' : Database Value}
    (he : Erasure place s hidden db') {command : Command Value} (hp : s.Permits command)
    (hother : ¬ s.db.Concerns place command) :
    Erasure place (s.after command) hidden
      (db'.step (command.rename (Names.without place hidden))).2
  /-- A command about the transaction is left out on the other side. -/
  | erased {s : Session} {hidden : List Cell} {db' : Database Value}
    (he : Erasure place s hidden db') {command : Command Value}
    (hh : s.db.Hides place hidden command) :
    Erasure place ⟨(s.db.step command).2, s.seen⟩
      (hidden ++ s.db.heap.fresh (s.db.step command).2.heap) db'

/-- A command comes out the same in both runs. -/
structure Unaffected (place : Nat) (hidden : List Cell) (s : Session) (db' : Database Value)
    (command : Command Value) : Prop where
  /-- It is answered the same, unless it counts the registered transactions. -/
  answer : command ≠ .registered → (db'.step (command.rename (Names.without place hidden))).1 =
    (s.answer command).rename (Names.without place hidden)
  /-- It leaves the same store. -/
  store : (db'.step (command.rename (Names.without place hidden))).2.base =
    (s.after command).db.base.map (Value.rename (Cell.rank hidden))
  /-- Every cell that shows holds the same. -/
  cells : ∀ cell v, (s.after command).db.heap.Shows hidden cell →
    (s.after command).db.heap.read? cell = some v →
    (db'.step (command.rename (Names.without place hidden))).2.heap.read?
      (Cell.rank hidden cell) = some (v.rename (Cell.rank hidden))
  /-- What callers saw and what the store has names cells that show, and nothing else leads on. -/
  shows : (∀ v, (s.after command).roots v → v.Within ((s.after command).db.heap.Shows hidden)) ∧
    (s.after command).db.heap.Closed ((s.after command).db.heap.Shows hidden)
  /-- Different cells that show have different names. -/
  ranks : ∀ c d, (s.after command).db.heap.Shows hidden c →
    (s.after command).db.heap.Shows hidden d → (Cell.rank hidden c = Cell.rank hidden d ↔ c = d)
  /-- So have different identifiers. -/
  identifiers : ∀ id other : TransactionId, id.without place = other.without place ↔ id = other
  /-- So have the places of different transactions. -/
  places : ∀ p q, p ≠ place → q ≠ place → (moveDown place p = moveDown place q ↔ p = q)

variable {place : Nat} {s : Session} {hidden : List Cell} {db' : Database Value}
  {command : Command Value}

/-- What callers may pass in shows if all that they saw does. -/
theorem within_of_permits (hseen : ∀ v ∈ s.seen, v.Within (s.db.heap.Shows hidden))
    (hp : s.Permits command) : ∀ v ∈ command.values, v.Within (s.db.heap.Shows hidden) := by
  intro v hv cell hc
  obtain ⟨w, hw, hcell⟩ := hp v hv cell hc
  exact hseen w hw cell hcell

/-- The step: a command that is not about the transaction comes out the same. -/
theorem step_unaffected (hw : s.db.Without place hidden db')
    (hseen : ∀ v ∈ s.seen, v.Within (s.db.heap.Shows hidden)) (hp : s.Permits command)
    (hother : ¬ s.db.Concerns place command)
    (hbound : (s.after command).db.transactions.size < UInt64.size) :
    (s.after command).db.Without place hidden
        (db'.step (command.rename (Names.without place hidden))).2 ∧
      (∀ v ∈ (s.after command).seen, v.Within ((s.after command).db.heap.Shows hidden)) ∧
      (command ≠ .registered → (db'.step (command.rename (Names.without place hidden))).1 =
        (s.answer command).rename (Names.without place hidden)) := by
  have hvalues := within_of_permits hseen hp
  by_cases hcounts : command = .registered
  · subst hcounts
    exact ⟨hw, hseen, fun hne => absurd rfl hne⟩
  · obtain ⟨hanswer, hafter, hout, hshows⟩ := hw.stepsAlike hvalues hother hcounts hbound
    refine ⟨hafter, fun v hv => ?_, fun _ => hanswer⟩
    rcases List.mem_append.mp hv with hv | hv
    · exact hout v hv
    · rcases List.mem_append.mp hv with hv | hv
      · exact (hvalues v hv).mono hshows
      · exact (hseen v hv).mono hshows

/-- The run: the other database lacks the transaction and nothing else. -/
theorem Erasure.without (he : Erasure place s hidden db')
    (hbound : s.db.transactions.size < UInt64.size) :
    s.db.Without place hidden db' ∧ ∀ v ∈ s.seen, v.Within (s.db.heap.Shows hidden) := by
  induction he with
  | start =>
    refine ⟨⟨.empty, ?_, ?_, fun q hq => ?_, fun q t hq ht => ?_, ?_, rfl, rfl, fun id hid => ?_⟩,
      fun v hv => by cases hv⟩
    · exact congrArg GuardedStore.plain (Store.map_empty (Value.rename (Cell.rank []))).symm
    · exact Store.all_empty
    · simp [Session.start, Database.ofStore, Database.transaction?]
    · simp [Session.start, Database.ofStore, Database.transaction?] at ht
    · simp [Session.start, Database.ofStore, moveDown]
    · simp [Session.start, Database.ofStore, Database.lookup?]
  | @kept s hidden db' he command hp hother ih =>
    obtain ⟨hw, hseen⟩ :=
      ih (Nat.lt_of_le_of_lt (s.db.size_transactions_le_step command) hbound)
    obtain ⟨hw', hseen', -⟩ := step_unaffected hw hseen hp hother hbound
    exact ⟨hw', hseen'⟩
  | @erased s hidden db' he command hh ih =>
    obtain ⟨hw, hseen⟩ :=
      ih (Nat.lt_of_le_of_lt (s.db.size_transactions_le_step command) hbound)
    -- Callers saw no cell that is hidden now: it was hidden before, or it is new.
    refine ⟨hw.hides hh, fun v hv => (hseen v hv).mono fun cell hc => ⟨?_, fun hm => ?_⟩⟩
    · exact Nat.lt_of_lt_of_le hc.1 (s.db.size_heap_le_step command)
    · rcases List.mem_append.mp hm with hm | hm
      · exact hc.2 hm
      · exact Heap.not_has_of_mem_fresh hm hc.1

/-- A transaction that never attempts to commit while it is active does not interfere: in the run
without it, every command that is not about it is answered the same and leaves the same store, as
long as the sequence numbers have not come round. -/
theorem Erasure.unaffected (he : Erasure place s hidden db') (hp : s.Permits command)
    (hother : ¬ s.db.Concerns place command)
    (hbound : (s.after command).db.transactions.size < UInt64.size) :
    s.Unaffected place hidden db' command := by
  obtain ⟨hw, hseen⟩ :=
    he.without (Nat.lt_of_le_of_lt (s.db.size_transactions_le_step command) hbound)
  obtain ⟨hw', hseen', hanswer⟩ := step_unaffected hw hseen hp hother hbound
  refine ⟨hanswer, hw'.base, fun cell v hc => hw'.heap.read cell v hc.2, ⟨fun v hv => ?_,
    hw'.heap.closed⟩, fun c d hc hd => Cell.rank_inj hc.2 hd.2,
    fun id other => TransactionId.without_inj, fun p q hp hq => moveDown_inj hp hq⟩
  rcases hv with hv | ⟨key, hv⟩
  · exact hseen' v hv
  · exact hw'.store key v hv

/-- A session in which a transaction began, and then a cell was made. -/
def made : Session :=
  Session.after ⟨(start.db.step (.begin 0)).2, start.seen⟩ (.newCell (.plain (.int 1)))

/-- The session after the transaction buffered the cell, and another transaction began. -/
def shared : Session :=
  Session.after ⟨(made.db.step (.own 0 (.put "k" (.shared ⟨0⟩)))).2, made.seen⟩ (.begin 0)

/-- The database without the first transaction. -/
def alone : Database Value :=
  (((Database.ofStore .empty).step (.newCell (.plain (.int 1)))).2.step (.begin 0)).2

/-- The cell that the first transaction buffered is hidden. -/
theorem erasure_shared : Erasure 0 shared [⟨1⟩] alone := by
  have hbegins : start.db.Hides 0 [] (.begin 0) :=
    .transaction (rfl : start.db.transactions.size = 0) nofun
  have hputs : made.db.Hides 0 [] (.own 0 (.put "k" (.shared ⟨0⟩))) :=
    .transaction (rfl : 0 = 0) nofun
  have hmade : Erasure 0 made [] ((Database.ofStore .empty).step (.newCell (.plain (.int 1)))).2 :=
    .kept (.erased .start hbegins) (by simp [Permits, Command.values]) id
  have hother : (made.db.step (.own 0 (.put "k" (.shared ⟨0⟩)))).2.transactions.size ≠ 0 := by
    decide
  exact .kept (.erased hmade hputs) (by simp [Permits, Command.values]) hother

/-- The next cell is the third one beside the transaction and the second one without it. -/
theorem unaffected_shared :
    Erasure 0 shared [⟨1⟩] alone ∧ shared.Permits (.newCell (.plain (.int 2))) ∧
      ¬ shared.db.Concerns 0 (.newCell (.plain (.int 2))) ∧
      (shared.after (.newCell (.plain (.int 2)))).db.transactions.size < UInt64.size ∧
      shared.answer (.newCell (.plain (.int 2))) = .cell ⟨2⟩ ∧
      (alone.step (.newCell (.plain (.int 2)))).1 = .cell ⟨1⟩ := by
  have hpermits : shared.Permits (.newCell (.plain (.int 2))) := by simp [Permits, Command.values]
  have hother : ¬ shared.db.Concerns 0 (.newCell (.plain (.int 2))) := id
  have hbound : (shared.after (.newCell (.plain (.int 2)))).db.transactions.size < UInt64.size := by
    decide
  have hsame := (erasure_shared.unaffected hpermits hother hbound).answer (by rintro ⟨⟩)
  exact ⟨erasure_shared, hpermits, hother, hbound, rfl, hsame⟩

end Session

end OverlayStore
