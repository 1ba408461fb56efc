import Mathlib.Algebra.Group.Nat.Defs
import OverlayStore.Proofs.Database.Transactions

/-!
# The registry

Begins number the transactions by a counter that nothing else moves, so identifiers are distinct
whatever nonces are drawn. Only begins, removals and the ends of managed executions change the
registry, which has every transaction that was not taken out, under its own identifier.
-/

namespace OverlayStore

namespace Command

/-- Whether a command begins a transaction. -/
def isBegin : Command V → Bool
  | .begin _ => true
  | _ => false

/-- Whether a command may change the registry. -/
def touchesRegistry : Command V → Bool
  | .begin _ | .deregister _ | .conclude _ _ _ => true
  | _ => false

end Command

/-- Identifiers are ordered by the sequence number first. -/
theorem TransactionId.compare_eq_lt {a b : TransactionId}
    (hlt : a.sequence.toNat < b.sequence.toNat) : compare a b = .lt := by
  have hsequence : compare a.sequence b.sequence = .lt := by
    rw [Std.compare_eq_lt, UInt64.lt_iff_toNat_lt]
    exact hlt
  have hcompare : compare a b =
      (compare a.sequence b.sequence).then (compare a.nonce b.nonce) := rfl
  rw [hcompare, hsequence]
  rfl

namespace Database

/-- The identifiers of the transactions begun so far, in order. -/
def ids (db : Database V) : Array TransactionId := db.transactions.map Transaction.id

/-- Number of begins among commands. -/
def begins (commands : List (Command V)) : Nat := commands.countP Command.isBegin

/-- Whether a command takes the transaction at a place out of the registry: by its identifier, or as
the end of its managed execution. -/
def removes (db : Database V) (command : Command V) (place : Nat) : Bool :=
  match command with
  | .deregister id => (db.transaction? place).map Transaction.id = some id
  | .conclude other _ _ => other = place ∧ db.transaction? place ≠ none
  | _ => false

/-- Whether a run takes the transaction at a place out of the registry. -/
def removed [Storable V] (place : Nat) : Database V → List (Command V) → Bool
  | _, [] => false
  | db, command :: rest => db.removes command place || removed place (db.step command).2 rest

variable {db : Database V} {command : Command V} {place : Nat} {t : Transaction V}
  {id : TransactionId}

/-- The identifier at a place is that of the transaction there. -/
theorem getElem?_ids (db : Database V) (place : Nat) :
    db.ids[place]? = (db.transaction? place).map Transaction.id :=
  Array.getElem?_map

/-- A transaction that keeps its identifier keeps all of them. -/
theorem ids_setTransaction (ht : db.transaction? place = some t) {t' : Transaction V}
    (hid : t'.id = t.id) : (db.setTransaction place t').ids = db.ids := by
  refine Array.ext_getElem? fun other => ?_
  rw [getElem?_ids, getElem?_ids, transaction?_setTransaction ht]
  split
  next heq => rw [heq, ht, Option.map_some, Option.map_some, hid]
  next => rfl

/-! ## What a command does to the registry -/

section Step

variable [Storable V]

/-- Whatever is done to a transaction, all of them keep their identifiers. -/
theorem ids_step_of_place? (hplace : command.place? = some place) :
    (db.step command).2.ids = db.ids := by
  cases ht : db.transaction? place with
  | none => rw [step_of_none hplace ht]
  | some t =>
    obtain ⟨t', hset, hm⟩ := step_of_some hplace ht
    exact (congrArg (Array.map Transaction.id) hset).trans (ids_setTransaction ht hm.continues.id)

/-- All other commands leave the registry, the counter and the identifiers, also when they end a
transaction or find it over. -/
theorem step_of_touchesRegistry (db : Database V) (h : command.touchesRegistry = false) :
    (db.step command).2.registry = db.registry ∧
      (db.step command).2.nextSequence = db.nextSequence ∧ (db.step command).2.ids = db.ids := by
  cases command with
  | own place call | view place call =>
    refine ⟨?_, ?_, ids_step_of_place? rfl⟩ <;>
    · simp only [step, onTransaction]
      split <;> rfl
  | commit place | rollback place =>
    refine ⟨?_, ?_, ids_step_of_place? rfl⟩ <;>
    · simp only [step]
      split <;> rfl
  | store _ | direct _ | readCell _ | writeCell _ _ | copy _ =>
    simp only [step, storeCall]
    split <;> exact ⟨rfl, rfl, rfl⟩
  | begin | deregister | conclude => cases h
  | _ => exact ⟨rfl, rfl, rfl⟩

/-- A begin adds an identifier. -/
theorem ids_step_begin (nonce : UInt32) :
    (db.step (.begin nonce)).2.ids = db.ids.push ⟨db.nextSequence, nonce⟩ :=
  Array.map_push

/-- The end of a managed execution deregisters its transaction. -/
theorem step_conclude (ht : db.transaction? place = some t) (ending : Ending Unit)
    (order : KeyOrder) :
    (db.step (.conclude place ending order)).2.registry = db.registry.erase t.id ∧
      (db.step (.conclude place ending order)).2.nextSequence = db.nextSequence ∧
      (db.step (.conclude place ending order)).2.ids = db.ids := by
  refine ⟨?_, ?_, ids_step_of_place? rfl⟩ <;>
  · simp only [step, conclude, ht]
    rfl

end Step

/-! ## The invariant -/

/-- The transactions are numbered in order, and the registry has all of them but those that are
out. -/
structure Enrolled (db : Database V) (out : Nat → Bool) : Prop where
  /-- The next sequence number. -/
  next : db.nextSequence = .ofNat (db.ids.size + 1)
  /-- The sequence numbers so far. -/
  sequence : ∀ (place : Nat) (id : TransactionId), db.ids[place]? = some id →
    id.sequence = .ofNat (place + 1)
  /-- Only a transaction that was begun is out. -/
  begun : ∀ place, out place = true → place < db.ids.size
  /-- The registry has the others under their identifiers. -/
  entry : ∀ id place, db.lookup? id = some place ↔ db.ids[place]? = some id ∧ out place = false

namespace Enrolled

variable {out : Nat → Bool}

theorem ofStore (s : Store V) : Enrolled (.ofStore s) fun _ => false := by
  have hids : (Database.ofStore s).ids = #[] := Array.map_empty
  refine ⟨?_, ?_, nofun, ?_⟩
  · rw [hids]
    rfl
  · intro place id hid
    rw [hids] at hid
    cases hid
  · intro id place
    rw [hids]
    refine iff_of_false ?_ nofun
    simp [lookup?, Database.ofStore]

/-- Before the counter comes round, a sequence number tells the place. -/
theorem toNat_sequence (he : Enrolled db out) (hroom : db.ids.size < 2 ^ 64)
    (hid : db.ids[place]? = some id) : id.sequence.toNat = place + 1 := by
  have hlt : place < db.ids.size := (Array.getElem?_eq_some_iff.mp hid).1
  rw [he.sequence place id hid, UInt64.toNat_ofNat']
  omega

/-- No identifier is given out twice, whatever the nonces are. -/
theorem place_unique (he : Enrolled db out) (hroom : db.ids.size < 2 ^ 64) {other : Nat}
    (hid : db.ids[place]? = some id) (hother : db.ids[other]? = some id) : other = place := by
  have hplace := he.toNat_sequence hroom hid
  have hother := he.toNat_sequence hroom hother
  omega

/-- Later transactions have greater identifiers. -/
theorem compare_eq_lt (he : Enrolled db out) (hroom : db.ids.size < 2 ^ 64) {other : Nat}
    {id' : TransactionId} (hlt : place < other) (hid : db.ids[place]? = some id)
    (hother : db.ids[other]? = some id') : compare id id' = .lt := by
  have hplace := he.toNat_sequence hroom hid
  have hother := he.toNat_sequence hroom hother
  exact TransactionId.compare_eq_lt (by omega)

/-- A transaction is taken out by its identifier. -/
theorem erase (he : Enrolled db out) {db' : Database V} {out' : Nat → Bool}
    (hregistry : db'.registry = db.registry.erase id)
    (hnext : db'.nextSequence = db.nextSequence) (hids : db'.ids = db.ids)
    (hout : ∀ place, out' place = true ↔ out place = true ∨ db.ids[place]? = some id) :
    Enrolled db' out' where
  next := by rw [hnext, hids, he.next]
  sequence := by
    rw [hids]
    exact he.sequence
  begun place h := by
    rw [hids]
    rcases (hout place).mp h with h | h
    · exact he.begun place h
    · exact (Array.getElem?_eq_some_iff.mp h).1
  entry other place := by
    have hlookup : db'.lookup? other = if other = id then none else db.lookup? other := by
      rw [← lookup?_deregister, deregister, lookup?, lookup?, hregistry]
    have hin : out' place = false ↔ out place = false ∧ db.ids[place]? ≠ some id := by
      rw [← Bool.not_eq_true, hout, not_or, Bool.not_eq_true]
    rw [hlookup, hids, hin]
    split
    next heq =>
      rw [heq]
      exact iff_of_false (Option.some_ne_none place).symm fun h => h.2.2 h.1
    next hne =>
      rw [he.entry]
      constructor
      · rintro ⟨hother, hin⟩
        refine ⟨hother, hin, ?_⟩
        rw [hother]
        exact fun heq => hne (Option.some.inj heq)
      · rintro ⟨hother, hin, -⟩
        exact ⟨hother, hin⟩

/-- A new transaction is registered, and no identifier is overwritten. -/
theorem begin (he : Enrolled db out) (hroom : db.ids.size + 1 < 2 ^ 64) (nonce : UInt32) :
    Enrolled (db.begin nonce).2 out := by
  have hids : (db.begin nonce).2.ids = db.ids.push ⟨db.nextSequence, nonce⟩ := Array.map_push
  have hnew : (⟨db.nextSequence, nonce⟩ : TransactionId).sequence.toNat = db.ids.size + 1 := by
    show db.nextSequence.toNat = _
    rw [he.next, UInt64.toNat_ofNat']
    omega
  have hsize : db.transactions.size = db.ids.size := Array.size_map.symm
  refine ⟨?_, ?_, ?_, ?_⟩
  · rw [hids, Array.size_push]
    show db.nextSequence + 1 = _
    rw [he.next, UInt64.ofNat_add (db.ids.size + 1) 1]
    rfl
  · intro place id hid
    rw [hids, Array.getElem?_push] at hid
    split at hid
    next heq =>
      cases hid
      rw [heq]
      exact he.next
    next => exact he.sequence place id hid
  · intro place hout
    rw [hids, Array.size_push]
    exact Nat.lt_succ_of_lt (he.begun place hout)
  · intro id place
    rw [lookup?_begin, hids, Array.getElem?_push, hsize]
    -- The new identifier is nobody else's, and the new place is not out.
    have hfresh : ∀ {place : Nat}, db.ids[place]? ≠ some ⟨db.nextSequence, nonce⟩ := by
      intro place hid
      have hlt : place < db.ids.size := (Array.getElem?_eq_some_iff.mp hid).1
      have hplace := he.toNat_sequence (by omega) hid
      omega
    have hin : out db.ids.size = false := by
      rw [← Bool.not_eq_true]
      intro hout
      have hlt := he.begun _ hout
      omega
    by_cases hid : id = ⟨db.nextSequence, nonce⟩
    · rw [if_pos hid]
      by_cases hplace : place = db.ids.size
      · rw [if_pos hplace, hid, hplace]
        exact iff_of_true rfl ⟨rfl, hin⟩
      · rw [if_neg hplace, hid]
        exact iff_of_false (fun h => hplace (Option.some.inj h).symm) fun h => hfresh h.1
    · rw [if_neg hid]
      by_cases hplace : place = db.ids.size
      · rw [if_pos hplace, hplace]
        refine iff_of_false (fun h => ?_) fun h => hid (Option.some.inj h.1).symm
        have hlt := (Array.getElem?_eq_some_iff.mp ((he.entry _ _).mp h).1).1
        omega
      · rw [if_neg hplace]
        exact he.entry id place

/-- What leaves the registry, the counter and the identifiers leaves everybody enrolled. -/
theorem kept (he : Enrolled db out) {db' : Database V} {out' : Nat → Bool}
    (hregistry : db'.registry = db.registry) (hnext : db'.nextSequence = db.nextSequence)
    (hids : db'.ids = db.ids) (hout : ∀ place, out' place = out place) : Enrolled db' out' where
  next := by rw [hnext, hids, he.next]
  sequence := by
    rw [hids]
    exact he.sequence
  begun place h := by
    rw [hids]
    exact he.begun place ((hout place).symm.trans h)
  entry id place := by
    rw [lookup?, hregistry, hids, hout]
    exact he.entry id place

/-- The step, for every command. -/
theorem step [Storable V] (he : Enrolled db out) (command : Command V)
    (hroom : db.ids.size + begins [command] < 2 ^ 64) :
    Enrolled (db.step command).2 (fun place => out place || db.removes command place) ∧
      (db.step command).2.ids.size = db.ids.size + begins [command] := by
  by_cases htouches : command.touchesRegistry = false
  · obtain ⟨hregistry, hnext, hids⟩ := step_of_touchesRegistry db htouches
    rw [hids]
    cases command with
    | begin | deregister | conclude => cases htouches
    | _ => exact ⟨he.kept hregistry hnext hids fun place => Bool.or_false _, rfl⟩
  · cases command with
    | begin nonce =>
      have hsize : (db.begin nonce).2.ids.size = db.ids.size + 1 := by
        rw [show (db.begin nonce).2.ids = _ from ids_step_begin nonce, Array.size_push]
      exact ⟨(he.begin hroom nonce).kept rfl rfl rfl fun place => Bool.or_false _, hsize⟩
    | deregister id =>
      refine ⟨he.erase rfl rfl rfl fun place => ?_, rfl⟩
      rw [Bool.or_eq_true, removes, decide_eq_true_iff, getElem?_ids]
    | conclude other ending order =>
      cases ht : db.transaction? other with
      | none =>
        rw [step_of_none rfl ht]
        refine ⟨he.kept rfl rfl rfl fun place => ?_, rfl⟩
        have hnone : ¬ (other = place ∧ db.transaction? place ≠ none) := by
          rintro ⟨rfl, hsome⟩
          exact hsome ht
        rw [removes, decide_eq_false hnone, Bool.or_false]
      | some t =>
        obtain ⟨hregistry, hnext, hids⟩ := step_conclude ht ending order
        have hid : db.ids[other]? = some t.id := by rw [getElem?_ids, ht, Option.map_some]
        refine ⟨he.erase hregistry hnext hids fun place => ?_, by rw [hids]; rfl⟩
        have hsame : other = place ∧ db.transaction? place ≠ none ↔
            db.ids[place]? = some t.id := by
          constructor
          · rintro ⟨rfl, -⟩
            exact hid
          · intro hplace
            obtain rfl := he.place_unique hroom hplace hid
            exact ⟨rfl, Option.ne_none_iff_exists'.mpr ⟨t, ht⟩⟩
        rw [Bool.or_eq_true, removes, decide_eq_true_iff, hsame]
    | _ => exact absurd rfl htouches

/-- The run, for any number of begins that the counter has room for. -/
theorem run [Storable V] (he : Enrolled db out) (commands : List (Command V))
    (hroom : db.ids.size + begins commands < 2 ^ 64) :
    Enrolled (db.run commands).2 (fun place => out place || removed place db commands) ∧
      (db.run commands).2.ids.size = db.ids.size + begins commands := by
  induction commands generalizing db out with
  | nil => exact ⟨he.kept rfl rfl rfl fun place => Bool.or_false _, rfl⟩
  | cons command rest ih =>
    have hbegins : begins (command :: rest) = begins [command] + begins rest := by
      change begins ([command] ++ rest) = _
      exact List.countP_append
    obtain ⟨hstep, hsize⟩ := he.step command (by omega)
    obtain ⟨hrest, hsize'⟩ := ih hstep (by omega)
    refine ⟨hrest.kept rfl rfl rfl fun place => ?_, ?_⟩
    · rw [removed, Bool.or_assoc]
    · rw [run_cons]
      show ((db.step command).2.run rest).2.ids.size = _
      omega

/-- The registry is as large as the number of transactions that are not out. -/
theorem registered_eq (he : Enrolled db out) :
    db.registered = (List.range db.ids.size).countP fun place => !out place := by
  have hentry : ∀ e ∈ db.registry.toList, db.ids[e.2]? = some e.1 ∧ out e.2 = false := by
    rintro ⟨id, place⟩ he'
    exact (he.entry id place).mp (Std.ExtTreeMap.mem_toList_iff_getElem?_eq_some.mp he')
  have hnodup : (db.registry.toList.map Prod.snd).Nodup := by
    refine List.Nodup.map_on ?_ ?_
    · intro a ha b hb hplace
      have hid := (hentry a ha).1
      rw [hplace, (hentry b hb).1] at hid
      exact Prod.ext (Option.some.inj hid).symm hplace
    · refine Std.ExtTreeMap.distinct_keys_toList.imp ?_
      rintro a b hne rfl
      exact hne Std.ReflCmp.compare_self
  have hmem : ∀ place, place ∈ db.registry.toList.map Prod.snd ↔
      place ∈ (List.range db.ids.size).filter fun place => !out place := by
    intro place
    rw [List.mem_map, List.mem_filter, List.mem_range, Bool.not_eq_true']
    constructor
    · rintro ⟨e, he', rfl⟩
      obtain ⟨hid, hin⟩ := hentry e he'
      exact ⟨(Array.getElem?_eq_some_iff.mp hid).1, hin⟩
    · rintro ⟨hlt, hin⟩
      have hid := Array.getElem?_eq_getElem hlt
      exact ⟨(db.ids[place], place),
        Std.ExtTreeMap.mem_toList_iff_getElem?_eq_some.mpr ((he.entry _ place).mpr ⟨hid, hin⟩), rfl⟩
  have hperm := (List.perm_ext_iff_of_nodup hnodup (List.nodup_range.filter _)).mpr hmem
  rw [List.countP_eq_length_filter, ← hperm.length_eq, List.length_map,
    Std.ExtTreeMap.length_toList, registered]

end Enrolled

/-! ## The registry of a run -/

/-- After a run, a transaction with this identifier is at this place, and the run has not taken it
out of the registry. -/
def Listed [Storable V] (start : Database V) (commands : List (Command V)) (id : TransactionId)
    (place : Nat) : Prop :=
  ∃ t, (start.run commands).2.transaction? place = some t ∧ t.id = id ∧
    removed place start commands = false

/-- What a run makes of the transactions and their registry. -/
structure RegistryLaws [Storable V] (start : Database V) (commands : List (Command V)) : Prop where
  /-- Every begin puts one more transaction at the end, with the next sequence number and the nonce
  that was drawn. -/
  begun : ∀ first nonce later, commands = first ++ .begin nonce :: later →
    ((start.run first).2.step (.begin nonce)).1 = .begun (begins first) ∧
      ∃ t, (start.run commands).2.transaction? (begins first) = some t ∧ t.id.nonce = nonce
  /-- There are no other transactions, and no number is left out. -/
  numbered : ∀ place t, (start.run commands).2.transaction? place = some t →
    place < begins commands ∧ t.id.sequence.toNat = place + 1
  /-- Identifiers increase in the order of the begins. -/
  increasing : ∀ p q t u, p < q → (start.run commands).2.transaction? p = some t →
    (start.run commands).2.transaction? q = some u → compare t.id u.id = .lt
  /-- No two transactions have the same identifier. -/
  distinct : ∀ p q t u, (start.run commands).2.transaction? p = some t →
    (start.run commands).2.transaction? q = some u → t.id = u.id → p = q
  /-- The registry has what is listed. -/
  entry : ∀ id place, (start.run commands).2.registry[id]? = some place ↔
    Listed start commands id place
  /-- Who asks for a transaction gets the listed one. -/
  lookup : ∀ id, ∃ found, (start.run commands).2.step (.lookup id) =
      (.found found, (start.run commands).2) ∧
    ∀ place, found = some place ↔ Listed start commands id place
  /-- Who removes a transaction gets the listed one, and the others stay. -/
  deregister : ∀ id, ∃ found, ((start.run commands).2.step (.deregister id)).1 = .found found ∧
    (∀ place, found = some place ↔ Listed start commands id place) ∧
    ∀ other place, ((start.run commands).2.step (.deregister id)).2.registry[other]? = some place ↔
      other ≠ id ∧ Listed start commands other place
  /-- The listed transactions are counted. -/
  count : (start.run commands).2.step .registered =
    (.reply (.count ((List.range (begins commands)).countP
      fun place => !removed place start commands)), (start.run commands).2)
  /-- Calls on a transaction, its commit and its rollback leave the registry, and so does everything
  that is not a begin, a removal or the end of a managed execution. -/
  untouched : ∀ command : Command V, command.touchesRegistry = false →
    ((start.run commands).2.step command).2.registry = (start.run commands).2.registry

variable [Storable V]

/-- A begin puts its transaction behind those that were begun before, where it stays. -/
theorem begun_run (s : Store V) (first : List (Command V)) (nonce : UInt32)
    (later : List (Command V)) (hroom : begins first < 2 ^ 64) :
    (((ofStore s).run first).2.step (.begin nonce)).1 = .begun (begins first) ∧
      ∃ t, ((ofStore s).run (first ++ .begin nonce :: later)).2.transaction? (begins first) =
        some t ∧ t.id.nonce = nonce := by
  have hnone : (ofStore s).ids.size = 0 := Array.size_map
  obtain ⟨-, hsize⟩ := (Enrolled.ofStore s).run first (by omega)
  rw [run_append, run_cons]
  generalize ((ofStore s).run first).2 = db at hsize
  have hplace : (db.begin nonce).1 = begins first := by
    have hfirst : (db.begin nonce).1 = db.ids.size := Array.size_map.symm
    omega
  have hself := db.transaction?_begin_self nonce
  rw [hplace] at hself
  obtain ⟨t, ht, hcontinues⟩ := run_continues hself later
  refine ⟨congrArg Answer.begun hplace, t, ht, ?_⟩
  rw [hcontinues.id]
  rfl

/-- The registry of a run has what is listed. -/
theorem registry_eq_some_iff (s : Store V) (commands : List (Command V))
    (hroom : begins commands < 2 ^ 64) (id : TransactionId) (place : Nat) :
    ((ofStore s).run commands).2.registry[id]? = some place ↔
      Listed (ofStore s) commands id place := by
  have hnone : (ofStore s).ids.size = 0 := Array.size_map
  obtain ⟨he, -⟩ := (Enrolled.ofStore s).run commands (by omega)
  rw [Listed, ← lookup?, he.entry, getElem?_ids, Option.map_eq_some_iff, Bool.false_or]
  constructor
  · rintro ⟨⟨t, ht, hid⟩, hin⟩
    exact ⟨t, ht, hid, hin⟩
  · rintro ⟨t, ht, hid, hin⟩
    exact ⟨⟨t, ht, hid⟩, hin⟩

/-- The registry of a database with less than 2^64 begins, whatever nonces are drawn. -/
theorem registryLaws (s : Store V) (commands : List (Command V))
    (hroom : begins commands < 2 ^ 64) : RegistryLaws (ofStore s) commands := by
  have hnone : (ofStore s).ids.size = 0 := Array.size_map
  obtain ⟨he, hsize⟩ := (Enrolled.ofStore s).run commands (by omega)
  have hlisted := registry_eq_some_iff s commands hroom
  have hids : ∀ {place t}, ((ofStore s).run commands).2.transaction? place = some t →
      ((ofStore s).run commands).2.ids[place]? = some t.id := by
    intro place t ht
    rw [getElem?_ids, ht, Option.map_some]
  refine ⟨?_, ?_, ?_, ?_, hlisted, ?_, ?_, ?_, ?_⟩
  · rintro first nonce later rfl
    have hbegins : begins (first ++ .begin nonce :: later) =
        begins first + begins (.begin nonce :: later) := List.countP_append
    exact begun_run s first nonce later (by omega)
  · intro place t ht
    have hlt := (Array.getElem?_eq_some_iff.mp (hids ht)).1
    exact ⟨by omega, he.toNat_sequence (by omega) (hids ht)⟩
  · intro p q t u hlt ht hu
    exact he.compare_eq_lt (by omega) hlt (hids ht) (hids hu)
  · intro p q t u ht hu heq
    have hp := hids ht
    rw [heq] at hp
    exact he.place_unique (by omega) (hids hu) hp
  · exact fun id => ⟨_, rfl, hlisted id⟩
  · refine fun id => ⟨_, rfl, hlisted id, fun other place => ?_⟩
    have herase : (((ofStore s).run commands).2.step (.deregister id)).2.registry[other]? =
        if other = id then none else ((ofStore s).run commands).2.registry[other]? :=
      lookup?_deregister _ id other
    rw [herase, ← hlisted]
    split
    next heq => exact iff_of_false nofun fun h => h.1 heq
    next hne => exact (and_iff_right hne).symm
  · rw [step, he.registered_eq, hsize, hnone, Nat.zero_add]
    simp only [Bool.false_or]
  · exact fun command htouches => (step_of_touchesRegistry _ htouches).1

/-- Three transactions with one nonce: the first one is committed and stays registered, the second
one is removed by its own managed execution, which aborts, and the third one by hand. -/
def crowded : List (Command Int64) :=
  [.begin 7, .begin 7, .begin 7, .own 1 (.put "k" 1), .commit 0, .deregister ⟨2, 7⟩,
    .conclude 1 (.aborted "stop"), .deregister ⟨3, 7⟩]

/-- Only the first transaction is still found. -/
theorem registryLaws_crowded :
    begins crowded < 2 ^ 64 ∧ RegistryLaws (ofStore .empty) crowded ∧
      (((ofStore .empty).run crowded).2.step .registered).1 = .reply (.count 1) ∧
      ((ofStore .empty).run crowded).2.registry[(⟨1, 7⟩ : TransactionId)]? = some 0 := by
  have hroom : begins crowded < 2 ^ 64 := by decide
  have hlaws := registryLaws .empty crowded hroom
  refine ⟨hroom, hlaws, (congrArg Prod.fst hlaws.count).trans rfl, ?_⟩
  exact (hlaws.entry _ _).mpr ⟨_, rfl, rfl, rfl⟩

end Database

end OverlayStore
