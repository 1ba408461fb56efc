import Mathlib.Algebra.Ring.Int.Defs
import OverlayStore.Proofs.Database.OtherKeys
import OverlayStore.Proofs.Store.Counting

/-!
# Counters

A counter is a key of the shared store that callers add to and subtract from, while everything else
goes on on other keys. The number under it is the first one and the deltas of the calls that
succeeded, as a whole number: no call wraps around, and a refused call leaves no trace.
-/

namespace OverlayStore

/-- A call on another key does not count. -/
theorem StoreCall.counts?_of_spares {key : String} {call : StoreCall V}
    (hspares : call.Spares key) : call.counts? key = none := by
  cases call with
  | increment k delta => exact if_neg hspares
  | decrement k delta => exact if_neg hspares
  | _ => rfl

namespace Database

/-! ## One count -/

/-- What a counting call does. -/
structure CountsBy (db : Database Value) (key : String) (call : StoreCall Value) : Prop where
  /-- It is refused on an overflow, and only then. -/
  refused : ∀ e, (db.step (.store call)).1 = .error (.store e) ↔
    Overflows key (db.base.store.get? key) call e
  /-- A refused call changes nothing. -/
  unchanged : ∀ e, Overflows key (db.base.store.get? key) call e → (db.step (.store call)).2 = db
  /-- Every other call adds its delta to the number under the key, answers the sum, and stores it
  under the key. -/
  counted : (∀ e, ¬ Overflows key (db.base.store.get? key) call e) →
    ∃ (number sum : Number) (delta : Int64), counter? (db.base.store.get? key) = some number ∧
      call.counts? key = some delta.toInt ∧ number.add? delta = some sum ∧
      db.step (.store call) = (.reply (.number sum),
        { db with base := { db.base with store := (db.base.store.put key (.ofNumber sum)).2 } })

variable {db start : Database Value} {commands : List (Command Value)} {command : Command Value}
  {key : String} {call : StoreCall Value} {d : Int} {n : Number}

/-- A call that the store refuses changes nothing. -/
theorem step_of_call_error {e : StoreError} (hcall : db.base.call db.heap call = .error e) :
    db.step (.store call) = (.error (.store e), db) := by
  rw [step, storeCall, hcall]

/-- A call that succeeds changes the store alone. -/
theorem step_of_call_ok {result : Reply Value × GuardedStore Value}
    (hcall : db.base.call db.heap call = .ok result) :
    db.step (.store call) = (.reply result.1, { db with base := result.2 }) := by
  rw [step, storeCall, hcall]

/-- A counting call on a counter does just that. -/
theorem countsBy (hn : counter? (db.base.store.get? key) = some n)
    (hcounts : call.counts? key = some d) : db.CountsBy key call := by
  rcases GuardedStore.call_of_counts hn hcounts db.heap with
    ⟨e, ho, hcall⟩ | ⟨hnone, delta, sum, rfl, hadd, hcall⟩
  · have hstep := step_of_call_error hcall
    refine ⟨fun e' => ?_, fun _ _ => congrArg Prod.snd hstep, fun hnone => absurd ho (hnone e)⟩
    rw [hstep]
    constructor
    · rintro ⟨⟩
      exact ho
    · intro ho'
      rw [ho.unique hcounts hn ho']
  · have hstep := step_of_call_ok hcall
    refine ⟨fun e => ?_, fun e ho => absurd ho (hnone e), fun _ =>
      ⟨n, sum, delta, hn, hcounts, hadd, hstep⟩⟩
    rw [hstep]
    exact iff_of_false nofun (hnone e)

/-! ## What a run counts -/

/-- The signed delta that a command adds to a key, if it succeeds. -/
def gain? (db : Database Value) (key : String) : Command Value → Option Int
  | .store call =>
    match (db.step (.store call)).1 with
    | .reply (.number _) => call.counts? key
    | _ => none
  | _ => none

/-- The signed deltas that a run adds to a key, in order. -/
def gains (key : String) : Database Value → List (Command Value) → List Int
  | _, [] => []
  | db, command :: rest => (db.gain? key command).toList ++ gains key (db.step command).2 rest

/-- Every command of a run counts on a key or leaves it. -/
def Counting (key : String) : Database Value → List (Command Value) → Prop
  | _, [] => True
  | db, command :: rest =>
    ((∃ call, command = .store call ∧ call.counts? key ≠ none) ∨ db.Spares key command) ∧
      Counting key (db.step command).2 rest

/-- What becomes of the value of a key to which deltas are added. -/
structure Progress (before after : Option Value) (gains : List Int) : Prop where
  /-- Without a delta it stays as it is. -/
  idle : gains = [] → after = before
  /-- Else it is a number of the kind that the value before counts as. -/
  stored : gains ≠ [] → ∃ n, after = some (.ofNumber n) ∧ n.kind = countedKind before
  /-- A whole number grows by the sum of the deltas. -/
  whole : ∀ i, wholeAt before = some i → wholeAt after = some (i + gains.sum)
  /-- Every number has the deltas added to it one after the other. -/
  adds : ∀ n, counter? before = some n → ∃ last, counter? after = some last ∧ n.Adds gains last

namespace Progress

variable {before middle after : Option Value} {first second : List Int}

theorem refl (stored : Option Value) : Progress stored stored [] where
  idle _ := rfl
  stored hne := absurd rfl hne
  whole i hi := by rw [hi, List.sum_nil, Int.add_zero]
  adds n hn := ⟨n, hn, .nil n⟩

/-- A counter stays a counter. -/
theorem counter?_ne_none (hp : Progress before after first) (hbefore : counter? before ≠ none) :
    counter? after ≠ none := by
  by_cases hidle : first = []
  · rw [hp.idle hidle]
    exact hbefore
  · obtain ⟨n, rfl, -⟩ := hp.stored hidle
    rw [counter?_ofNumber]
    exact nofun

/-- A counter keeps the kind that it counts as. -/
theorem countedKind_eq (hp : Progress before after first) :
    countedKind after = countedKind before := by
  by_cases hidle : first = []
  · rw [hp.idle hidle]
  · obtain ⟨n, rfl, hkind⟩ := hp.stored hidle
    rw [countedKind_ofNumber, hkind]

theorem trans (hp : Progress before middle first) (hp' : Progress middle after second) :
    Progress before after (first ++ second) where
  idle hidle := by
    obtain ⟨hfirst, hsecond⟩ := List.append_eq_nil_iff.mp hidle
    rw [hp'.idle hsecond, hp.idle hfirst]
  stored hne := by
    by_cases hidle : second = []
    · rw [hp'.idle hidle]
      refine hp.stored fun hfirst => hne ?_
      rw [hfirst, hidle]
      rfl
    · obtain ⟨n, hafter, hkind⟩ := hp'.stored hidle
      exact ⟨n, hafter, hkind.trans hp.countedKind_eq⟩
  whole i hi := by
    rw [hp'.whole _ (hp.whole i hi), List.sum_append, Int.add_assoc]
  adds n hn := by
    obtain ⟨m, hm, hfirst⟩ := hp.adds n hn
    obtain ⟨last, hlast, hsecond⟩ := hp'.adds m hm
    exact ⟨last, hlast, hfirst.append hsecond⟩

end Progress

/-- The step: one command more. -/
theorem progress_step (hn : counter? (db.base.store.get? key) ≠ none)
    (hcommand : (∃ call, command = .store call ∧ call.counts? key ≠ none) ∨ db.Spares key command) :
    Progress (db.base.store.get? key) ((db.step command).2.base.store.get? key)
      (db.gain? key command).toList := by
  rcases hcommand with ⟨call, rfl, hcounts⟩ | hspares
  · obtain ⟨n, hn⟩ := Option.ne_none_iff_exists'.mp hn
    obtain ⟨d, hd⟩ := Option.ne_none_iff_exists'.mp hcounts
    rcases GuardedStore.call_of_counts hn hd db.heap with
      ⟨e, -, hcall⟩ | ⟨-, delta, sum, hdelta, hadd, hcall⟩
    · have hstep := step_of_call_error hcall
      rw [gain?, hstep]
      exact .refl _
    · have hstep := step_of_call_ok hcall
      have hgain : db.gain? key (.store call) = some d := by
        rw [gain?, hstep]
        exact hd
      have hafter : (db.step (.store call)).2.base.store.get? key = some (.ofNumber sum) := by
        rw [hstep]
        exact (Store.get?_put _ _ _ _).trans (if_pos rfl)
      obtain ⟨hwhole, hkind⟩ := wholeAt_of_counter? hn
      rw [hgain, hafter]
      refine ⟨nofun, fun _ => ⟨sum, rfl, ?_⟩, fun i hi => ?_, fun m hm => ?_⟩
      · rw [hkind, Number.kind_of_add?_eq_some hadd]
      · rw [hwhole, Option.map_eq_some_iff] at hi
        obtain ⟨a, ha, rfl⟩ := hi
        obtain ⟨b, hb, hsum⟩ := Number.whole?_of_add? hadd ha
        rw [wholeAt_ofNumber, hb, Option.map_some, hsum, hdelta, Option.toList_some,
          List.sum_singleton]
      · obtain rfl : n = m := Option.some.inj (hn.symm.trans hm)
        rw [← hdelta]
        exact ⟨sum, counter?_ofNumber sum, .cons hadd (.nil sum)⟩
  · have hgain : db.gain? key command = none := by
      cases command with
      | store call =>
        rw [gain?]
        split
        · exact StoreCall.counts?_of_spares hspares
        · rfl
      | _ => rfl
    rw [hgain, get?_step_of_spares hspares]
    exact .refl _

/-- The run: any number of commands. -/
theorem progress_run (hn : counter? (start.base.store.get? key) ≠ none)
    (hcounting : Counting key start commands) :
    Progress (start.base.store.get? key) ((start.run commands).2.base.store.get? key)
      (gains key start commands) := by
  induction commands generalizing start with
  | nil => exact .refl _
  | cons command rest ih =>
    obtain ⟨hcommand, hrest⟩ := hcounting
    have hstep := progress_step hn hcommand
    exact hstep.trans (ih (hstep.counter?_ne_none hn) hrest)

/-- A beginning of a run that counts is one. -/
theorem counting_of_append {first later : List (Command Value)}
    (hcounting : Counting key start (first ++ later)) : Counting key start first := by
  induction first generalizing start with
  | nil => trivial
  | cons command rest ih => exact ⟨hcounting.1, ih hcounting.2⟩

/-- A run counts on a key without a loss. -/
structure ExactCount (start : Database Value) (key : String) (commands : List (Command Value)) :
    Prop where
  /-- The whole number is the first one and the deltas of the calls that succeeded. -/
  whole : ∀ i, wholeAt (start.base.store.get? key) = some i →
    wholeAt ((start.run commands).2.base.store.get? key) = some (i + (gains key start commands).sum)
  /-- Whatever its kind, the number is the first one with these deltas added one after the other. -/
  adds : ∀ n, counter? (start.base.store.get? key) = some n →
    ∃ last, counter? ((start.run commands).2.base.store.get? key) = some last ∧
      n.Adds (gains key start commands) last
  /-- Until a call succeeds, the value stays as it is. -/
  idle : gains key start commands = [] →
    (start.run commands).2.base.store.get? key = start.base.store.get? key
  /-- From the first success on, an `int`, a `float` or a `double` is still one, and everything else
  is a `long`. -/
  kind : gains key start commands ≠ [] →
    ((start.run commands).2.base.store.get? key).map Value.kind =
      some (countedKind (start.base.store.get? key))
  /-- Every call on the key is refused exactly on an overflow, and else answers the sum that it
  stores. -/
  calls : ∀ first call later, commands = first ++ .store call :: later → call.counts? key ≠ none →
    (start.run first).2.CountsBy key call
  /-- Floats refuse nothing but the delta without a negation. -/
  floats : countedKind (start.base.store.get? key) ∈ ["float", "double"] →
    ∀ first call later, commands = first ++ .store call :: later → call.counts? key ≠ none →
      ∀ e, ((start.run first).2.step (.store call)).1 = .error (.store e) ↔
        call = .decrement key Int64.minValue ∧ e = .overflow "long" Int64.minValue

/-- Counting is exact, in every run in which everything else leaves the key. -/
theorem exactCount (hn : counter? (start.base.store.get? key) ≠ none)
    (hcounting : Counting key start commands) : ExactCount start key commands := by
  have hrun := progress_run hn hcounting
  have hcalls : ∀ first call later, commands = first ++ .store call :: later →
      call.counts? key ≠ none → (start.run first).2.CountsBy key call := by
    rintro first call later rfl hcounts
    have hfirst := progress_run hn (counting_of_append hcounting)
    obtain ⟨n, hn'⟩ := Option.ne_none_iff_exists'.mp (hfirst.counter?_ne_none hn)
    obtain ⟨d, hd⟩ := Option.ne_none_iff_exists'.mp hcounts
    exact countsBy hn' hd
  refine ⟨hrun.whole, hrun.adds, hrun.idle, fun hne => ?_, hcalls, ?_⟩
  · obtain ⟨n, hstored, hkind⟩ := hrun.stored hne
    rw [hstored, Option.map_some, kind_ofNumber, hkind]
  · rintro hfloat first call later rfl hcounts e
    have hfirst := progress_run hn (counting_of_append hcounting)
    rw [← hfirst.countedKind_eq] at hfloat
    rw [(hcalls first call later rfl hcounts).refused e]
    constructor
    · intro ho
      cases ho with
      | minimum => exact ⟨rfl, rfl⟩
      | int _ hstored =>
        rw [hstored] at hfloat
        simp [countedKind] at hfloat
      | long _ hstored hkind hwhole =>
        have hlong := counter?_eq_long_iff.mpr (.inr ⟨_, hstored, hkind, hwhole⟩)
        rw [(wholeAt_of_counter? hlong).2] at hfloat
        simp [Number.kind] at hfloat
    · rintro ⟨rfl, rfl⟩
      exact .minimum

/-- A store with an `int` just below its limit. -/
def nearLimit : Database Value := .ofStore (Store.empty.put "n" (.plain (.int 2147483646))).2

/-- Calls up to the limit, over it, and back, next to a call on another key. -/
def climb : List (Command Value) :=
  [.store (.increment "n" 1), .store (.put "m" (.plain (.bool true))), .store (.increment "n" 1),
    .store (.decrement "n" Int64.minValue), .store (.decrement "n" 2147483648)]

/-- Two of the four calls succeed, and the number is exact. -/
theorem exactCount_climb :
    counter? (nearLimit.base.store.get? "n") ≠ none ∧ Counting "n" nearLimit climb ∧
      ExactCount nearLimit "n" climb ∧ gains "n" nearLimit climb = [1, -2147483648] ∧
      wholeAt ((nearLimit.run climb).2.base.store.get? "n") = some (-1) := by
  have hn : counter? (nearLimit.base.store.get? "n") ≠ none := nofun
  have hcounting : Counting "n" nearLimit climb := by
    refine ⟨.inl ⟨_, rfl, ?_⟩, .inr ?_, .inl ⟨_, rfl, ?_⟩, .inl ⟨_, rfl, ?_⟩, .inl ⟨_, rfl, ?_⟩,
      trivial⟩ <;> simp [StoreCall.counts?, Spares, StoreCall.Spares]
  have hexact := exactCount hn hcounting
  refine ⟨hn, hcounting, hexact, rfl, ?_⟩
  exact hexact.whole 2147483646 rfl

end Database

end OverlayStore
