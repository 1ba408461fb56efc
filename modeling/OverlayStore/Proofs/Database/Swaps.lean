import OverlayStore.Proofs.Cells.EqualityLaws
import OverlayStore.Proofs.Database.Counting
import OverlayStore.Proofs.Database.Growth

/-!
# Compare-and-swap

Callers replace the value of a key by compare-and-swap, while everything else goes on on other keys
and nobody writes to a cell. Then the swaps follow each other: each expects what the one before it
stored. So of callers who all expect what was there, and who store something else, only the first
one succeeds.
-/

namespace OverlayStore

/-- A compare-and-swap that succeeded. -/
structure Swap where
  /-- The cells at this time. -/
  heap : Heap
  /-- What was expected. -/
  expected : Value
  /-- What was stored. -/
  value : Value

namespace Swap

/-- The value that swaps leave. -/
def last (current : Value) (swaps : List Swap) : Value :=
  swaps.foldl (fun _ swap => swap.value) current

/-- Each swap expects what the one before it stored, and the first one the current value. -/
def Linked : Value → List Swap → Prop
  | _, [] => True
  | current, swap :: rest =>
    current.same? swap.heap swap.expected = some true ∧ Linked swap.value rest

theorem last_append (current : Value) (first second : List Swap) :
    last current (first ++ second) = last (last current first) second :=
  List.foldl_append

theorem linked_append {current : Value} {first second : List Swap} :
    Linked current (first ++ second) ↔
      Linked current first ∧ Linked (last current first) second := by
  induction first generalizing current with
  | nil => simp [Linked, last]
  | cons swap rest ih =>
    rw [List.cons_append, Linked, Linked, ih, and_assoc]
    rfl

end Swap

/-! ## One attempt -/

/-- How a compare-and-swap on a store can end. -/
inductive GuardedStore.SwapResult (g : GuardedStore Value) (h : Heap) (key : String)
    (expected value : Value) : Except StoreError (Reply Value × GuardedStore Value) → Prop
  /-- The key has no value. -/
  | missing (hnone : g.store.get? key = none) :
    SwapResult g h key expected value (.ok (.flag false, g))
  /-- The value differs from the expected one. -/
  | differs {current : Value} (hget : g.store.get? key = some current)
    (hsame : current.same? h expected = some false) :
    SwapResult g h key expected value (.ok (.flag false, g))
  /-- The value equals the expected one. -/
  | swapped {current : Value} (hget : g.store.get? key = some current)
    (hsame : current.same? h expected = some true) :
    SwapResult g h key expected value
      (.ok (.flag true, { g with store := (g.store.put key value).2 }))
  /-- The comparison runs around a cycle. -/
  | endless {current : Value} (hget : g.store.get? key = some current)
    (hsame : current.same? h expected = none) :
    SwapResult g h key expected value (.error .endless)

theorem GuardedStore.swapResult (g : GuardedStore Value) (h : Heap) (key : String)
    (expected value : Value) :
    g.SwapResult h key expected value (g.call h (.compareAndSwap key expected value)) := by
  rw [GuardedStore.call, Store.compareAndSwap]
  cases hget : g.store.get? key with
  | none => exact .missing hget
  | some current =>
    have hstorable : Storable.same? h current expected = current.same? h expected := rfl
    simp only [hstorable]
    cases hsame : current.same? h expected with
    | none => exact .endless hget hsame
    | some same =>
      cases same with
      | true => exact .swapped hget hsame
      | false => exact .differs hget hsame

namespace Database

variable {db start : Database Value} {commands : List (Command Value)} {command : Command Value}
  {key : String} {expected value : Value}

/-- What an attempt does. -/
structure SwapsOn (db : Database Value) (key : String) (expected value : Value) : Prop where
  /-- It succeeds if the current value equals the expected one, and only then. -/
  succeeds : (db.step (.store (.compareAndSwap key expected value))).1 = .reply (.flag true) ↔
    ∃ current, db.base.store.get? key = some current ∧
      current.same? db.heap expected = some true
  /-- It fails if the key is missing or its value differs from the expected one. -/
  fails : (∀ current, db.base.store.get? key = some current →
      current.same? db.heap expected = some false) →
    (db.step (.store (.compareAndSwap key expected value))).1 = .reply (.flag false)
  /-- A success stores the new value. -/
  stored : (db.step (.store (.compareAndSwap key expected value))).1 = .reply (.flag true) →
    (db.step (.store (.compareAndSwap key expected value))).2 =
      { db with base := { db.base with store := (db.base.store.put key value).2 } }
  /-- Everything else changes nothing. -/
  unchanged : (db.step (.store (.compareAndSwap key expected value))).1 ≠ .reply (.flag true) →
    (db.step (.store (.compareAndSwap key expected value))).2 = db

theorem swapsOn (db : Database Value) (key : String) (expected value : Value) :
    db.SwapsOn key expected value := by
  have hresult := db.base.swapResult db.heap key expected value
  cases hcall : db.base.call db.heap (.compareAndSwap key expected value) with
  | ok result =>
    have hstep := step_of_call_ok hcall
    rw [hcall] at hresult
    cases hresult with
    | missing hnone => constructor <;> simp [hstep, hnone]
    | differs hget hsame => constructor <;> simp [hstep, hget, hsame]
    | swapped hget hsame => constructor <;> simp [hstep, hget, hsame]
  | error e =>
    have hstep := step_of_call_error hcall
    rw [hcall] at hresult
    cases hresult with
    | endless hget hsame => constructor <;> simp [hstep, hget, hsame]

/-! ## What a run swaps -/

/-- The swap that a command makes on a key, if it succeeds. -/
def swap? (db : Database Value) (key : String) : Command Value → Option Swap
  | .store (.compareAndSwap k expected value) =>
    match (db.step (.store (.compareAndSwap k expected value))).1 with
    | .reply (.flag true) => if k = key then some ⟨db.heap, expected, value⟩ else none
    | _ => none
  | _ => none

/-- The swaps that a run makes on a key, in order. -/
def swaps (key : String) : Database Value → List (Command Value) → List Swap
  | _, [] => []
  | db, command :: rest => (db.swap? key command).toList ++ swaps key (db.step command).2 rest

/-- Every command of a run is an attempt on a key or leaves it, and none writes to a cell. -/
def Swapping (key : String) : Database Value → List (Command Value) → Prop
  | _, [] => True
  | db, command :: rest =>
    ((∃ expected value, command = .store (.compareAndSwap key expected value)) ∨
        db.Spares key command) ∧
      ¬ command.WritesCell ∧ Swapping key (db.step command).2 rest

theorem swap?_eq_some_iff {swap : Swap} : db.swap? key command = some swap ↔
    command = .store (.compareAndSwap key swap.expected swap.value) ∧
      (db.step command).1 = .reply (.flag true) ∧ swap.heap = db.heap := by
  constructor
  · intro hswap
    unfold swap? at hswap
    split at hswap
    next k expected value =>
      split at hswap
      next hanswer =>
        split at hswap
        next hkey =>
          cases hswap
          subst hkey
          exact ⟨rfl, hanswer, rfl⟩
        next => cases hswap
      next => cases hswap
    next => cases hswap
  · rintro ⟨rfl, hanswer, hheap⟩
    rw [swap?, hanswer]
    simp [← hheap]

/-- A command that leaves a key swaps nothing on it. -/
theorem swap?_of_spares (hspares : db.Spares key command) : db.swap? key command = none := by
  refine Option.eq_none_iff_forall_ne_some.mpr fun swap hswap => ?_
  obtain ⟨rfl, -, -⟩ := swap?_eq_some_iff.mp hswap
  exact hspares rfl

theorem swaps_append {first later : List (Command Value)} :
    swaps key start (first ++ later) =
      swaps key start first ++ swaps key (start.run first).2 later := by
  induction first generalizing start with
  | nil => rfl
  | cons command rest ih =>
    rw [List.cons_append, swaps, swaps, ih, List.append_assoc]
    rfl

theorem swapping_append {first later : List (Command Value)} :
    Swapping key start (first ++ later) ↔
      Swapping key start first ∧ Swapping key (start.run first).2 later := by
  induction first generalizing start with
  | nil => simp [Swapping]
  | cons command rest ih =>
    rw [List.cons_append, Swapping, Swapping, ih, run_cons]
    simp only [and_assoc]

/-- A run of attempts leaves all cells as they are. -/
theorem heap_le_run (hswapping : Swapping key start commands) :
    start.heap ≤ (start.run commands).2.heap := by
  induction commands generalizing start with
  | nil => exact le_refl _
  | cons command rest ih => exact (heap_le_step hswapping.2.1).trans (ih hswapping.2.2)

/-- A swap of a run comes from one of its commands, with cells that are still there. -/
theorem of_mem_swaps (hswapping : Swapping key start commands) {swap : Swap}
    (hswap : swap ∈ swaps key start commands) :
    .store (.compareAndSwap key swap.expected swap.value) ∈ commands ∧
      swap.heap ≤ (start.run commands).2.heap := by
  induction commands generalizing start with
  | nil => cases hswap
  | cons command rest ih =>
    rcases List.mem_append.mp hswap with hhere | hlater
    · obtain ⟨rfl, -, hheap⟩ := swap?_eq_some_iff.mp (Option.mem_toList.mp hhere)
      rw [hheap]
      exact ⟨List.mem_cons_self, heap_le_run hswapping⟩
    · obtain ⟨hmem, hle⟩ := ih hswapping.2.2 hlater
      exact ⟨List.mem_cons_of_mem _ hmem, hle⟩

/-- What becomes of the value of a key under swaps. -/
structure SwapsTo (before after : Option Value) (swaps : List Swap) : Prop where
  /-- A key without a value has none after it, and nothing is swapped. -/
  missing : before = none → after = none ∧ swaps = []
  /-- A value is followed by the values of the swaps. -/
  linked : ∀ current, before = some current →
    Swap.Linked current swaps ∧ after = some (Swap.last current swaps)

namespace SwapsTo

variable {before middle after : Option Value} {first second : List Swap}

theorem refl (stored : Option Value) : SwapsTo stored stored [] :=
  ⟨fun hnone => ⟨hnone, rfl⟩, fun _ hsome => ⟨trivial, hsome⟩⟩

theorem trans (hs : SwapsTo before middle first) (hs' : SwapsTo middle after second) :
    SwapsTo before after (first ++ second) where
  missing hnone := by
    obtain ⟨hmiddle, rfl⟩ := hs.missing hnone
    exact hs'.missing hmiddle
  linked current hsome := by
    obtain ⟨hfirst, hmiddle⟩ := hs.linked current hsome
    obtain ⟨hsecond, hafter⟩ := hs'.linked _ hmiddle
    rw [Swap.last_append]
    exact ⟨Swap.linked_append.mpr ⟨hfirst, hsecond⟩, hafter⟩

end SwapsTo

/-- The step: one command more. -/
theorem swapsTo_step (hcommand : (∃ expected value,
      command = .store (.compareAndSwap key expected value)) ∨ db.Spares key command) :
    SwapsTo (db.base.store.get? key) ((db.step command).2.base.store.get? key)
      (db.swap? key command).toList := by
  rcases hcommand with ⟨expected, value, rfl⟩ | hspares
  · have hswaps := db.swapsOn key expected value
    by_cases hanswer :
        (db.step (.store (.compareAndSwap key expected value))).1 = .reply (.flag true)
    · obtain ⟨current, hget, hsame⟩ := hswaps.succeeds.mp hanswer
      have hswap : db.swap? key (.store (.compareAndSwap key expected value)) =
          some ⟨db.heap, expected, value⟩ := swap?_eq_some_iff.mpr ⟨rfl, hanswer, rfl⟩
      have hafter : (db.step (.store (.compareAndSwap key expected value))).2.base.store.get? key =
          some value := by
        rw [hswaps.stored hanswer]
        exact (Store.get?_put _ _ _ _).trans (if_pos rfl)
      rw [hswap, hafter, hget]
      refine ⟨nofun, ?_⟩
      rintro _ ⟨⟩
      exact ⟨⟨hsame, trivial⟩, rfl⟩
    · have hswap : db.swap? key (.store (.compareAndSwap key expected value)) = none :=
        Option.eq_none_iff_forall_ne_some.mpr fun swap hswap =>
          hanswer (swap?_eq_some_iff.mp hswap).2.1
      rw [hswap, hswaps.unchanged hanswer]
      exact .refl _
  · rw [swap?_of_spares hspares, get?_step_of_spares hspares]
    exact .refl _

/-- The run: any number of commands. -/
theorem swapsTo_run (hswapping : Swapping key start commands) :
    SwapsTo (start.base.store.get? key) ((start.run commands).2.base.store.get? key)
      (swaps key start commands) := by
  induction commands generalizing start with
  | nil => exact .refl _
  | cons command rest ih => exact (swapsTo_step hswapping.1).trans (ih hswapping.2.2)

/-- A run swaps the value of a key in a chain. -/
structure SwapChain (start : Database Value) (key : String) (commands : List (Command Value)) :
    Prop where
  /-- Each success expected what the one before it stored, and the first one the first value. -/
  linked : ∀ current, start.base.store.get? key = some current →
    Swap.Linked current (swaps key start commands)
  /-- The key holds what the last success stored, or the first value. -/
  stored : ∀ current, start.base.store.get? key = some current →
    (start.run commands).2.base.store.get? key =
      some (Swap.last current (swaps key start commands))
  /-- A missing key stays missing, and no attempt succeeds. -/
  missing : start.base.store.get? key = none →
    (start.run commands).2.base.store.get? key = none ∧ swaps key start commands = []
  /-- Every attempt succeeds exactly if the value of this moment equals the expected one, and else
  changes nothing. -/
  attempts : ∀ first expected value later,
    commands = first ++ .store (.compareAndSwap key expected value) :: later →
      (start.run first).2.SwapsOn key expected value
  /-- What two values compared to during the run, they compare to at its end. -/
  lasting : ∀ first later, commands = first ++ later → ∀ (a b : Value) (r : Bool),
    a.same? (start.run first).2.heap b = some r → a.same? (start.run commands).2.heap b = some r
  /-- If all attempts expect one value that is there and store others, then exactly the first one
  succeeds. -/
  contended : ∀ current expected, start.base.store.get? key = some current →
    current.same? start.heap expected = some true →
    (∀ e value, .store (.compareAndSwap key e value) ∈ commands →
      e = expected ∧ value.same? (start.run commands).2.heap expected ≠ some true) →
    ∀ first value later, commands = first ++ .store (.compareAndSwap key expected value) :: later →
      (∀ e v, .store (.compareAndSwap key e v) ∉ first) →
      swaps key start commands = [⟨(start.run first).2.heap, expected, value⟩]

/-- Without an attempt there is no swap. -/
theorem swaps_eq_nil (hswapping : Swapping key start commands)
    (hnone : ∀ e v, .store (.compareAndSwap key e v) ∉ commands) :
    swaps key start commands = [] :=
  List.eq_nil_iff_forall_not_mem.mpr fun _ hswap => hnone _ _ (of_mem_swaps hswapping hswap).1

/-- Compare-and-swap makes a chain, in every run in which everything else leaves the key and nobody
writes to a cell. -/
theorem swapChain (hswapping : Swapping key start commands) : SwapChain start key commands := by
  have hrun := swapsTo_run hswapping
  refine ⟨fun current hget => (hrun.linked current hget).1,
    fun current hget => (hrun.linked current hget).2, hrun.missing,
    fun first expected value later _ => swapsOn _ key expected value, ?_, ?_⟩
  · rintro first later rfl a b r hr
    rw [run_append]
    exact Value.same?_of_le (heap_le_run (swapping_append.mp hswapping).2) hr
  · rintro current expected hget hsame hall first value later rfl hnone
    obtain ⟨hfirst, hattempt, hwrite, hlater⟩ := swapping_append.mp hswapping
    have hidle := swaps_eq_nil hfirst hnone
    -- Until the first attempt, the key keeps its value.
    have hcurrent : (start.run first).2.base.store.get? key = some current := by
      have hkept := ((swapsTo_run hfirst).linked current hget).2
      rwa [hidle] at hkept
    have hsucceeds := ((start.run first).2.swapsOn key expected value).succeeds.mpr
      ⟨current, hcurrent, Value.same?_of_le (heap_le_run hfirst) hsame⟩
    have hswap : (start.run first).2.swap? key (.store (.compareAndSwap key expected value)) =
        some ⟨(start.run first).2.heap, expected, value⟩ :=
      swap?_eq_some_iff.mpr ⟨rfl, hsucceeds, rfl⟩
    have hswaps : swaps key start
        (first ++ .store (.compareAndSwap key expected value) :: later) = _ := swaps_append
    rw [hidle, List.nil_append, swaps, hswap, Option.toList_some, List.singleton_append] at hswaps
    have hlinked := (hrun.linked current hget).1
    rw [hswaps] at hlinked ⊢
    cases hrest : swaps key _ later with
    | nil => rfl
    | cons second rest =>
      -- A second success would have expected what the first one stored.
      rw [hrest] at hlinked
      obtain ⟨hmem, hle⟩ := of_mem_swaps hlater (hrest ▸ List.mem_cons_self)
      obtain ⟨hexpected, -⟩ := hall second.expected second.value
        (List.mem_append_right _ (List.mem_cons_of_mem _ hmem))
      obtain ⟨-, hdiffers⟩ := hall expected value (List.mem_append_right _ List.mem_cons_self)
      rw [run_append, run_cons] at hdiffers
      exact absurd (Value.same?_of_le hle (hexpected ▸ hlinked.2.1)) hdiffers

/-- A store with a cell under a key, and another cell with the same number. -/
def celled : Database Value :=
  { ofStore (Store.empty.put "k" (.shared ⟨0⟩)).2 with
    heap := ⟨#[.plain (.int 1), .plain (.int 1)], 0⟩ }

/-- Attempts to replace the other cell, next to a read, a put on another key and a new cell. -/
def swappers : List (Command Value) :=
  [.newCell (.plain (.int 1)), .store (.put "m" (.plain (.bool true))),
    .store (.compareAndSwap "k" (.shared ⟨1⟩) (.plain (.int 2))), .store (.get "k"),
    .store (.compareAndSwap "k" (.shared ⟨1⟩) (.plain (.int 3))),
    .store (.compareAndSwap "k" (.shared ⟨1⟩) (.plain (.int 4)))]

/-- Only the first attempt succeeds, since the two cells are equal. -/
theorem swapChain_swappers :
    Swapping "k" celled swappers ∧ SwapChain celled "k" swappers ∧
      swaps "k" celled swappers =
        [⟨(celled.run (swappers.take 2)).2.heap, .shared ⟨1⟩, .plain (.int 2)⟩] ∧
      (celled.run swappers).2.base.store.get? "k" = some (.plain (.int 2)) := by
  have hswapping : Swapping "k" celled swappers := by
    refine ⟨.inr trivial, id, .inr ?_, id, .inl ⟨_, _, rfl⟩, id, .inr trivial, id,
      .inl ⟨_, _, rfl⟩, id, .inl ⟨_, _, rfl⟩, id, trivial⟩
    simp [Spares, StoreCall.Spares]
  have hchain := swapChain hswapping
  have hget : celled.base.store.get? "k" = some (.shared ⟨0⟩) := rfl
  have hall : ∀ e value, .store (.compareAndSwap "k" e value) ∈ swappers →
      e = .shared ⟨1⟩ ∧
        value.same? (celled.run swappers).2.heap (.shared ⟨1⟩) ≠ some true := by
    intro e value hmem
    simp only [swappers, List.mem_cons, reduceCtorEq, Command.store.injEq,
      StoreCall.compareAndSwap.injEq, true_and, List.not_mem_nil, or_false, false_or] at hmem
    rcases hmem with ⟨rfl, rfl⟩ | ⟨rfl, rfl⟩ | ⟨rfl, rfl⟩ <;> exact ⟨rfl, by decide⟩
  have hswaps := hchain.contended _ _ hget rfl hall (swappers.take 2) (.plain (.int 2)) _ rfl
    (fun e v hmem => by simp [swappers] at hmem)
  refine ⟨hswapping, hchain, hswaps, ?_⟩
  rw [hchain.stored _ hget, hswaps]
  rfl

end Database

end OverlayStore
