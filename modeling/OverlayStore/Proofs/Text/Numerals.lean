import Mathlib.Data.List.Basic
import Mathlib.Data.List.Induction
import Mathlib.Data.Nat.Digits.Defs

/-!
# Numerals

Digits to a base of at most sixteen denote a number, the leading one first. A number has one numeral
without leading zeros and one in every width that has room for it, and no others: both are read off
the last digit, which is the remainder by the base.
-/

namespace OverlayStore.Text

/-- The digits in the order of their values; letters are in lower case. -/
def digits : List Char := "0123456789abcdef".toList

/-- The value of a digit. Other characters have none. -/
def digit? (c : Char) : Option Nat := digits.idxOf? c

/-- A number with one more digit behind it. -/
def addDigit? (base n : Nat) (c : Char) : Option Nat :=
  (digit? c).bind fun d => if d < base then some (base * n + d) else none

/-- The number that digits to a base denote; no other characters denote one. -/
def number? (base : Nat) (cs : List Char) : Option Nat := cs.foldlM (addDigit? base) 0

/-- There is a digit, and a zero leads only if it stands alone. -/
def Unpadded (cs : List Char) : Prop := cs ≠ [] ∧ (cs.head? = some '0' → cs.length = 1)

instance (cs : List Char) : Decidable (Unpadded cs) := inferInstanceAs (Decidable (_ ∧ _))

/-- The numeral of a number, with zeros in front of it up to a width. -/
def padded (base width n : Nat) : List Char :=
  List.replicate (width - (Nat.toDigits base n).length) '0' ++ Nat.toDigits base n

variable {base n : Nat} {cs : List Char}

/-! ## The number of a numeral -/

/-- A digit is read if it is the one that is written. -/
theorem digit?_eq_some_iff {c : Char} {d : Nat} :
    digit? c = some d ↔ d < 16 ∧ Nat.digitChar d = c := by
  have hdigits : ∀ d (hd : d < digits.length), digits[d] = Nat.digitChar d := by decide
  constructor
  · intro hc
    obtain ⟨hd, hget, -⟩ := List.findIdx?_eq_some_iff_getElem.mp hc
    exact ⟨hd, (hdigits d hd).symm.trans (beq_iff_eq.mp hget)⟩
  · rintro ⟨hd, rfl⟩
    revert d
    decide

/-- A number with one more digit, told by quotient and remainder. -/
theorem addDigit?_eq_some_iff (hbase : 1 < base) {m : Nat} {c : Char} :
    addDigit? base m c = some n ↔ m = n / base ∧ digit? c = some (n % base) := by
  simp only [addDigit?, Option.bind_eq_some_iff, Option.ite_none_right_eq_some, Option.some.injEq]
  constructor
  · rintro ⟨d, hc, hd, rfl⟩
    rw [Nat.mul_add_div (by omega), Nat.div_eq_of_lt hd, Nat.mul_add_mod, Nat.mod_eq_of_lt hd]
    exact ⟨rfl, hc⟩
  · rintro ⟨rfl, hc⟩
    exact ⟨n % base, hc, Nat.mod_lt n (by omega), Nat.div_add_mod n base⟩

/-- The digits before the last one denote the quotient by the base. -/
theorem number?_concat_eq_some_iff (hbase : 1 < base) {c : Char} :
    number? base (cs ++ [c]) = some n ↔
      number? base cs = some (n / base) ∧ digit? c = some (n % base) := by
  simp only [number?, List.foldlM_append, List.foldlM_cons, List.foldlM_nil, bind_pure,
    Option.bind_eq_bind, Option.bind_eq_some_iff, addDigit?_eq_some_iff hbase]
  constructor
  · rintro ⟨_, hn, rfl, hc⟩
    exact ⟨hn, hc⟩
  · rintro ⟨hn, hc⟩
    exact ⟨_, hn, rfl, hc⟩

/-- A number is below the power of its digits. -/
theorem number?_lt (hbase : 1 < base) (hn : number? base cs = some n) : n < base ^ cs.length := by
  induction cs using List.reverseRecOn generalizing n with
  | nil =>
    cases hn
    exact Nat.one_pos
  | append_singleton cs c ih =>
    have hquotient := ih ((number?_concat_eq_some_iff hbase).mp hn).1
    rw [List.length_append, List.length_singleton, Nat.pow_succ]
    exact (Nat.div_lt_iff_lt_mul (by omega)).mp hquotient

/-- Numerals of one width denote different numbers. -/
theorem eq_of_number? (hbase : 1 < base) {cs' : List Char} (hlength : cs.length = cs'.length)
    (hn : number? base cs = some n) (hn' : number? base cs' = some n) : cs = cs' := by
  induction cs using List.reverseRecOn generalizing cs' n with
  | nil => exact (List.length_eq_zero_iff.mp hlength.symm).symm
  | append_singleton cs c ih =>
    cases cs' using List.reverseRecOn with
    | nil => simp at hlength
    | append_singleton cs' c' =>
      obtain ⟨hfront, hc⟩ := (number?_concat_eq_some_iff hbase).mp hn
      obtain ⟨hfront', hc'⟩ := (number?_concat_eq_some_iff hbase).mp hn'
      have hlast : c = c' := (digit?_eq_some_iff.mp hc).2.symm.trans (digit?_eq_some_iff.mp hc').2
      rw [ih (by simpa using hlength) hfront hfront', hlast]

/-- Zeros in front of a numeral count for nothing. -/
theorem number?_zeros (hbase : 1 < base) (k : Nat) :
    number? base (List.replicate k '0' ++ cs) = number? base cs := by
  induction k with
  | zero => rfl
  | succ k ih =>
    have hzero : addDigit? base 0 '0' = some 0 :=
      (addDigit?_eq_some_iff hbase).mpr ⟨(Nat.zero_div base).symm, by rw [Nat.zero_mod]; rfl⟩
    rw [← ih, List.replicate_succ, List.cons_append, number?, List.foldlM_cons, hzero]
    rfl

/-! ## The numerals of a number -/

/-- The digits of a number are read as the number. -/
theorem number?_toDigits (hbase : 1 < base) (hmost : base ≤ 16) (n : Nat) :
    number? base (Nat.toDigits base n) = some n := by
  have hdigit : ∀ n, digit? (Nat.digitChar (n % base)) = some (n % base) := fun n =>
    digit?_eq_some_iff.mpr ⟨(Nat.mod_lt n (by omega)).trans_le hmost, rfl⟩
  induction n using Nat.strong_induction_on with
  | _ n ih =>
    rcases lt_or_ge n base with hlt | hge
    · rw [Nat.toDigits_of_lt_base hlt, ← List.nil_append [_], number?_concat_eq_some_iff hbase,
        Nat.div_eq_of_lt hlt]
      exact ⟨rfl, by simpa only [Nat.mod_eq_of_lt hlt] using hdigit n⟩
    · rw [Nat.toDigits_of_base_le hbase hge, number?_concat_eq_some_iff hbase]
      exact ⟨ih _ (Nat.div_lt_self (by omega) hbase), hdigit n⟩

/-- A positive number is not written with a zero in front. -/
theorem head?_toDigits_ne (hbase : 1 < base) (hn : 0 < n) :
    (Nat.toDigits base n).head? ≠ some '0' := by
  induction n using Nat.strong_induction_on with
  | _ n ih =>
    rcases lt_or_ge n base with hlt | hge
    · rw [Nat.toDigits_of_lt_base hlt]
      intro hzero
      exact hn.ne' (Nat.digitChar_eq_zero.mp (Option.some.inj hzero))
    · rw [Nat.toDigits_of_base_le hbase hge, List.head?_append_of_ne_nil _ Nat.toDigits_ne_nil]
      exact ih _ (Nat.div_lt_self hn hbase) (Nat.div_pos hge (by omega))

/-- The digits of a number have no zeros in front. -/
theorem unpadded_toDigits (hbase : 1 < base) (n : Nat) : Unpadded (Nat.toDigits base n) := by
  refine ⟨Nat.toDigits_ne_nil, fun hzero => ?_⟩
  rcases Nat.eq_zero_or_pos n with rfl | hpos
  · rw [Nat.toDigits_zero, List.length_singleton]
  · exact absurd hzero (head?_toDigits_ne hbase hpos)

/-- No zero comes to the front when the last digit is taken away. -/
theorem Unpadded.head?_ne {c : Char} (hunpadded : Unpadded (cs ++ [c])) :
    cs.head? ≠ some '0' := by
  cases cs with
  | nil => nofun
  | cons d cs =>
    intro hzero
    have hlength := hunpadded.2 hzero
    simp at hlength

/-- Digits without zeros in front are those of their number. -/
theorem eq_toDigits_of_number? (hbase : 1 < base) (hunpadded : Unpadded cs)
    (hn : number? base cs = some n) : cs = Nat.toDigits base n := by
  induction cs using List.reverseRecOn generalizing n with
  | nil => exact absurd rfl hunpadded.1
  | append_singleton cs c ih =>
    obtain ⟨hfront, hc⟩ := (number?_concat_eq_some_iff hbase).mp hn
    obtain ⟨-, rfl⟩ := digit?_eq_some_iff.mp hc
    by_cases hcs : cs = []
    · subst hcs
      have hlt : n < base := by simpa using number?_lt hbase hn
      rw [Nat.toDigits_of_lt_base hlt, Nat.mod_eq_of_lt hlt, List.nil_append]
    · have hhead := hunpadded.head?_ne
      have hquotient := ih ⟨hcs, fun hzero => absurd hzero hhead⟩ hfront
      -- A quotient of zero would have put a zero in front.
      have hge : base ≤ n := by
        by_contra hlt
        rw [Nat.div_eq_of_lt (by omega), Nat.toDigits_zero] at hquotient
        exact hhead (congrArg List.head? hquotient)
      rw [Nat.toDigits_of_base_le hbase hge, ← hquotient]

/-- The numeral of a number is the one without leading zeros that denotes it. -/
theorem eq_toDigits_iff (hbase : 1 < base) (hmost : base ≤ 16) :
    cs = Nat.toDigits base n ↔ Unpadded cs ∧ number? base cs = some n := by
  constructor
  · rintro rfl
    exact ⟨unpadded_toDigits hbase n, number?_toDigits hbase hmost n⟩
  · rintro ⟨hunpadded, hn⟩
    exact eq_toDigits_of_number? hbase hunpadded hn

/-- The numeral of a number in a width is the one of this width that denotes it. -/
theorem eq_padded_iff (hbase : 1 < base) (hmost : base ≤ 16) {width : Nat} (hwidth : 0 < width)
    (hroom : n < base ^ width) :
    cs = padded base width n ↔ cs.length = width ∧ number? base cs = some n := by
  have hlength : (padded base width n).length = width := by
    have hle := (Nat.length_toDigits_le_iff hbase hwidth).mpr hroom
    rw [padded, List.length_append, List.length_replicate]
    omega
  have hnumber : number? base (padded base width n) = some n := by
    rw [padded, number?_zeros hbase, number?_toDigits hbase hmost]
  constructor
  · rintro rfl
    exact ⟨hlength, hnumber⟩
  · rintro ⟨hcs, hn⟩
    exact eq_of_number? hbase (hcs.trans hlength.symm) hn hnumber

end OverlayStore.Text
