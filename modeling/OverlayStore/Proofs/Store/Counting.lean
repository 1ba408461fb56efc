import OverlayStore.Store.Guarded

/-!
# Counting

A counting call adds a signed delta to the number under a key, exactly or not at all. The ranges are
intricate: an `int` takes only deltas of its own width, narrow whole numbers count as `long`, a key
without a value counts as zero, and a delta to subtract must have a negation.
-/

namespace OverlayStore

/-! ## Exact whole numbers -/

/-- A whole number lies in the range of 32 bits. -/
def FitsInt32 (n : Int) : Prop := -0x80000000 ≤ n ∧ n < 0x80000000

/-- A whole number lies in the range of 64 bits. -/
def FitsInt64 (n : Int) : Prop := -0x8000000000000000 ≤ n ∧ n < 0x8000000000000000

theorem fitsInt64_toInt (n : Int64) : FitsInt64 n.toInt := ⟨n.le_toInt, n.toInt_lt⟩

theorem int32Exact_eq_some_iff {n : Int} {m : Int32} : int32Exact n = some m ↔ m.toInt = n := by
  rw [int32Exact]
  constructor
  · intro heq
    split at heq
    next hfits =>
      cases heq
      exact Int32.toInt_ofInt_of_le hfits.1 hfits.2
    next => cases heq
  · rintro rfl
    rw [if_pos ⟨m.le_toInt, m.toInt_lt⟩, Int32.ofInt_toInt]

theorem int64Exact_eq_some_iff {n : Int} {m : Int64} : int64Exact n = some m ↔ m.toInt = n := by
  rw [int64Exact]
  constructor
  · intro heq
    split at heq
    next hfits =>
      cases heq
      exact Int64.toInt_ofInt_of_le hfits.1 hfits.2
    next => cases heq
  · rintro rfl
    rw [if_pos ⟨m.le_toInt, m.toInt_lt⟩, Int64.ofInt_toInt]

theorem int32Exact_eq_none_iff {n : Int} : int32Exact n = none ↔ ¬ FitsInt32 n := by
  rw [int32Exact, FitsInt32]
  split
  next hfits => exact iff_of_false nofun fun hnot => hnot hfits
  next hfits => exact iff_of_true rfl hfits

theorem int64Exact_eq_none_iff {n : Int} : int64Exact n = none ↔ ¬ FitsInt64 n := by
  rw [int64Exact, FitsInt64]
  split
  next hfits => exact iff_of_false nofun fun hnot => hnot hfits
  next hfits => exact iff_of_true rfl hfits

/-- The least number alone has no negation. -/
theorem int64Exact_neg_eq_none_iff {delta : Int64} :
    int64Exact (-delta.toInt) = none ↔ delta = Int64.minValue := by
  have hle := delta.le_toInt
  have hlt := delta.toInt_lt
  rw [int64Exact_eq_none_iff, FitsInt64, ← Int64.toInt_inj, Int64.toInt_minValue]
  omega

/-! ## Sums -/

namespace Number

variable {delta : Int64}

/-- An `int` refuses a delta or a sum out of its range. -/
theorem add?_int_eq_none_iff {n : Int32} :
    (int n).add? delta = none ↔ ¬ FitsInt32 delta.toInt ∨ ¬ FitsInt32 (n.toInt + delta.toInt) := by
  rw [add?, ← int32Exact_eq_none_iff, ← int32Exact_eq_none_iff]
  cases int32Exact delta.toInt with
  | none => exact iff_of_true rfl (.inl rfl)
  | some d =>
    rw [Option.map_eq_none_iff]
    exact ⟨.inr, fun hout => hout.resolve_left (Option.some_ne_none d)⟩

/-- A `long` refuses a sum out of its range. -/
theorem add?_long_eq_none_iff {n : Int64} :
    (long n).add? delta = none ↔ ¬ FitsInt64 (n.toInt + delta.toInt) := by
  rw [add?, Option.map_eq_none_iff, int64Exact_eq_none_iff]

/-- A count from zero is the delta. -/
theorem add?_zero : (long 0).add? delta = some (.long delta) := by
  have hexact : int64Exact (0 + delta.toInt) = some delta :=
    int64Exact_eq_some_iff.mpr (Int.zero_add _).symm
  exact congrArg (Option.map long) hexact

/-- A sum that is not refused is exact. -/
theorem whole?_of_add? {n sum : Number} (hadd : n.add? delta = some sum) {a : Int64}
    (ha : n.whole? = some a) : ∃ b, sum.whole? = some b ∧ b.toInt = a.toInt + delta.toInt := by
  cases n with
  | int n =>
    cases ha
    simp only [add?] at hadd
    split at hadd
    next =>
      obtain ⟨m, hm, rfl⟩ := Option.map_eq_some_iff.mp hadd
      refine ⟨m.toInt64, rfl, ?_⟩
      rw [Int32.toInt_toInt64, Int32.toInt_toInt64, int32Exact_eq_some_iff.mp hm]
    next => cases hadd
  | long n =>
    cases ha
    obtain ⟨m, hm, rfl⟩ := Option.map_eq_some_iff.mp hadd
    exact ⟨m, rfl, int64Exact_eq_some_iff.mp hm⟩
  | float x => cases ha
  | double x => cases ha

/-- Deltas are added to a number one after the other, and every sum is rounded as its kind asks. -/
inductive Adds : Number → List Int → Number → Prop
  /-- Without a delta the number stays. -/
  | nil (n : Number) : Adds n [] n
  /-- The first delta is added, and then the rest. -/
  | cons {n sum last : Number} {delta : Int64} {rest : List Int} (hadd : n.add? delta = some sum)
    (hrest : Adds sum rest last) : Adds n (delta.toInt :: rest) last

theorem Adds.append {n middle last : Number} {first second : List Int}
    (hfirst : Adds n first middle) (hsecond : Adds middle second last) :
    Adds n (first ++ second) last := by
  induction hfirst with
  | nil => exact hsecond
  | cons hadd _ ih => exact .cons hadd (ih hsecond)

end Number

/-! ## What a key counts as -/

/-- The number that a key counts as: zero if it has no value. -/
def counter? (stored : Option Value) : Option Number :=
  match stored with
  | none => some (.long 0)
  | some v => v.number?

/-- The whole number under a key: zero if it has no value. -/
def wholeAt (stored : Option Value) : Option Int :=
  match stored with
  | none => some 0
  | some v => v.integer?.map Int64.toInt

/-- The kind of the number after a count: narrow whole numbers and missing ones become `long`. -/
def countedKind (stored : Option Value) : String :=
  match stored with
  | some (.plain (.int _)) => "int"
  | some (.plain (.float _)) => "float"
  | some (.plain (.double _)) => "double"
  | _ => "long"

@[simp] theorem counter?_ofNumber (n : Number) : counter? (some (.ofNumber n)) = some n :=
  Value.number?_ofNumber n

@[simp] theorem kind_ofNumber (n : Number) : (Value.ofNumber n).kind = n.kind := by
  cases n <;> rfl

@[simp] theorem countedKind_ofNumber (n : Number) :
    countedKind (some (.ofNumber n)) = n.kind := by
  cases n <;> rfl

theorem wholeAt_ofNumber (n : Number) :
    wholeAt (some (.ofNumber n)) = n.whole?.map Int64.toInt := by
  cases n <;> rfl

/-- What a key counts as has its number and its kind. -/
theorem wholeAt_of_counter? {stored : Option Value} {n : Number} (hn : counter? stored = some n) :
    wholeAt stored = n.whole?.map Int64.toInt ∧ countedKind stored = n.kind := by
  cases stored with
  | none =>
    cases hn
    exact ⟨rfl, rfl⟩
  | some v =>
    cases v with
    | plain data => cases data <;> cases hn <;> exact ⟨rfl, rfl⟩
    | list | map | shared | foreign => cases hn

theorem counter?_eq_int_iff {stored : Option Value} {n : Int32} :
    counter? stored = some (.int n) ↔ stored = some (.plain (.int n)) := by
  constructor
  · intro hn
    cases stored with
    | none => cases hn
    | some v =>
      cases v with
      | plain data =>
        cases data <;> cases hn
        rfl
      | list | map | shared | foreign => cases hn
  · rintro rfl
    rfl

/-- The narrow whole numbers count as `long`, and so does a key without a value. -/
theorem counter?_eq_long_iff {stored : Option Value} {n : Int64} :
    counter? stored = some (.long n) ↔ (stored = none ∧ n = 0) ∨
      ∃ v, stored = some v ∧ v.kind ∈ ["byte", "short", "long"] ∧ v.integer? = some n := by
  constructor
  · intro hn
    cases stored with
    | none =>
      cases hn
      exact .inl ⟨rfl, rfl⟩
    | some v =>
      refine .inr ⟨v, rfl, ?_⟩
      cases v with
      | plain data => cases data <;> cases hn <;> exact ⟨by simp [Value.kind, Plain.kind], rfl⟩
      | list | map | shared | foreign => cases hn
  · rintro (⟨rfl, rfl⟩ | ⟨v, rfl, hkind, hn⟩)
    · rfl
    · cases v with
      | plain data =>
        cases data with
        | byte | short | long =>
          cases hn
          rfl
        | int => simp [Value.kind, Plain.kind] at hkind
        | bool | float | double | text | bytes => cases hn
      | list | map | shared | foreign => cases hn

/-! ## Counting calls -/

/-- The signed delta of a call that counts on a key. -/
def StoreCall.counts? (key : String) : StoreCall V → Option Int
  | .increment k delta => if k = key then some delta.toInt else none
  | .decrement k delta => if k = key then some (-delta.toInt) else none
  | _ => none

/-- A count is refused, with an error. -/
inductive Overflows (key : String) (stored : Option Value) : StoreCall Value → StoreError → Prop
  /-- The delta to subtract has no negation. -/
  | minimum : Overflows key stored (.decrement key Int64.minValue) (.overflow "long" Int64.minValue)
  /-- The delta or the sum is too large for an `int`. -/
  | int {call : StoreCall Value} {delta : Int64} {n : Int32}
    (hcounts : call.counts? key = some delta.toInt) (hstored : stored = some (.plain (.int n)))
    (hout : ¬ FitsInt32 delta.toInt ∨ ¬ FitsInt32 (n.toInt + delta.toInt)) :
    Overflows key stored call (.overflow "int" delta)
  /-- The sum is too large for a `long`. -/
  | long {call : StoreCall Value} {delta : Int64} {v : Value} {n : Int64}
    (hcounts : call.counts? key = some delta.toInt) (hstored : stored = some v)
    (hkind : v.kind ∈ ["byte", "short", "long"]) (hn : v.integer? = some n)
    (hout : ¬ FitsInt64 (n.toInt + delta.toInt)) :
    Overflows key stored call (.overflow "long" delta)

section

variable {key : String} {stored : Option Value} {call : StoreCall Value} {d : Int} {n : Number}

/-- The delta without a negation is no delta to add. -/
theorem toInt_ne_of_minimum
    (hcounts : (StoreCall.decrement key Int64.minValue : StoreCall Value).counts? key = some d)
    (delta : Int64) : delta.toInt ≠ d := by
  rintro rfl
  rw [StoreCall.counts?, if_pos rfl] at hcounts
  have hfits := fitsInt64_toInt delta
  rw [← Option.some.inj hcounts] at hfits
  exact int64Exact_eq_none_iff.mp (int64Exact_neg_eq_none_iff.mpr rfl) hfits

/-- The same by the number that the key counts as. -/
theorem overflows_iff (hcounts : call.counts? key = some d) (hn : counter? stored = some n)
    {e : StoreError} : Overflows key stored call e ↔
      (call = .decrement key Int64.minValue ∧ e = .overflow "long" Int64.minValue) ∨
        ∃ delta : Int64, delta.toInt = d ∧ n.add? delta = none ∧ e = .overflow n.kind delta := by
  constructor
  · intro ho
    cases ho with
    | minimum => exact .inl ⟨rfl, rfl⟩
    | int hcounts' hstored hout =>
      rw [hcounts] at hcounts'
      cases hcounts'
      rw [hstored] at hn
      cases hn
      exact .inr ⟨_, rfl, Number.add?_int_eq_none_iff.mpr hout, rfl⟩
    | long hcounts' hstored hkind hwhole hout =>
      rw [hcounts] at hcounts'
      cases hcounts'
      rw [counter?_eq_long_iff.mpr (.inr ⟨_, hstored, hkind, hwhole⟩)] at hn
      cases hn
      exact .inr ⟨_, rfl, Number.add?_long_eq_none_iff.mpr hout, rfl⟩
  · rintro (⟨rfl, rfl⟩ | ⟨delta, rfl, hadd, rfl⟩)
    · exact .minimum
    · cases n with
      | int n =>
        exact .int hcounts (counter?_eq_int_iff.mp hn) (Number.add?_int_eq_none_iff.mp hadd)
      | long n =>
        rcases counter?_eq_long_iff.mp hn with ⟨-, rfl⟩ | ⟨v, hstored, hkind, hwhole⟩
        · rw [Number.add?_zero] at hadd
          cases hadd
        · exact .long hcounts hstored hkind hwhole (Number.add?_long_eq_none_iff.mp hadd)
      | float x => cases hadd
      | double x => cases hadd

/-- A count is refused with one error. -/
theorem Overflows.unique (hcounts : call.counts? key = some d) (hn : counter? stored = some n)
    {e e' : StoreError} (ho : Overflows key stored call e) (ho' : Overflows key stored call e') :
    e = e' := by
  rw [overflows_iff hcounts hn] at ho ho'
  rcases ho with ⟨rfl, rfl⟩ | ⟨delta, hdelta, -, rfl⟩
  · rcases ho' with ⟨-, rfl⟩ | ⟨delta', hdelta', -⟩
    · rfl
    · exact absurd hdelta' (toInt_ne_of_minimum hcounts delta')
  · rcases ho' with ⟨rfl, -⟩ | ⟨delta', hdelta', -, rfl⟩
    · exact absurd hdelta (toInt_ne_of_minimum hcounts delta)
    · rw [← hdelta', Int64.toInt_inj] at hdelta
      rw [hdelta]

/-- A counting call has its signed delta, but for the one delta that has no negation. -/
theorem delta_of_counts (hcounts : call.counts? key = some d) (g : GuardedStore Value) (h : Heap) :
    (call = .decrement key Int64.minValue ∧
        g.call h call = .error (.overflow "long" Int64.minValue)) ∨
      ∃ delta : Int64, delta.toInt = d ∧
        g.call h call =
          (g.store.increment key delta).map fun (sum, s) => g.keep (.number sum, s) := by
  cases call with
  | increment k delta =>
    rw [StoreCall.counts?] at hcounts
    split at hcounts <;> cases hcounts
    next heq =>
      subst heq
      exact .inr ⟨delta, rfl, rfl⟩
  | decrement k delta =>
    rw [StoreCall.counts?] at hcounts
    split at hcounts <;> cases hcounts
    next heq =>
      subst heq
      rw [GuardedStore.call, Store.decrement]
      cases hnegated : int64Exact (-delta.toInt) with
      | none =>
        obtain rfl := int64Exact_neg_eq_none_iff.mp hnegated
        exact .inl ⟨rfl, rfl⟩
      | some negated => exact .inr ⟨negated, int64Exact_eq_some_iff.mp hnegated, rfl⟩
  | _ => cases hcounts

end

/-- The sum is stored, or it is refused. -/
theorem Store.increment_eq {s : Store Value} {key : String} {n : Number}
    (hn : counter? (s.get? key) = some n) (delta : Int64) :
    s.increment key delta =
      match n.add? delta with
      | some sum => .ok (sum, (s.put key (.ofNumber sum)).2)
      | none => .error (.overflow n.kind delta) := by
  rw [increment]
  cases hstored : s.get? key with
  | none =>
    rw [hstored] at hn
    cases hn
    rw [Number.add?_zero]
    rfl
  | some v =>
    rw [hstored] at hn
    have hn' : Storable.number? v = some n := hn
    simp only [counted, hn']
    cases n.add? delta <;> rfl

/-- A counting call is refused exactly on an overflow, and else it stores the exact sum. -/
theorem GuardedStore.call_of_counts {g : GuardedStore Value} {key : String} {n : Number}
    (hn : counter? (g.store.get? key) = some n) {call : StoreCall Value} {d : Int}
    (hcounts : call.counts? key = some d) (h : Heap) :
    (∃ e, Overflows key (g.store.get? key) call e ∧ g.call h call = .error e) ∨
      (∀ e, ¬ Overflows key (g.store.get? key) call e) ∧
        ∃ (delta : Int64) (sum : Number), delta.toInt = d ∧ n.add? delta = some sum ∧
          g.call h call = .ok (g.keep (.number sum, (g.store.put key (.ofNumber sum)).2)) := by
  rcases delta_of_counts hcounts g h with ⟨rfl, hcall⟩ | ⟨delta, hdelta, hcall⟩
  · exact .inl ⟨_, .minimum, hcall⟩
  · rw [Store.increment_eq hn] at hcall
    cases hadd : n.add? delta with
    | none =>
      rw [hadd] at hcall
      exact .inl ⟨_, (overflows_iff hcounts hn).mpr (.inr ⟨delta, hdelta, hadd, rfl⟩), hcall⟩
    | some sum =>
      rw [hadd] at hcall
      refine .inr ⟨fun e ho => ?_, delta, sum, hdelta, hadd, hcall⟩
      rcases (overflows_iff hcounts hn).mp ho with ⟨rfl, -⟩ | ⟨delta', hdelta', hadd', -⟩
      · exact toInt_ne_of_minimum hcounts delta hdelta
      · rw [← hdelta, Int64.toInt_inj] at hdelta'
        rw [hdelta', hadd] at hadd'
        cases hadd'

end OverlayStore
