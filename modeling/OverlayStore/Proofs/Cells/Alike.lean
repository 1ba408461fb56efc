import OverlayStore.Overlay.Read
import OverlayStore.Proofs.Cells.Copy
import OverlayStore.Proofs.Cells.Equality

/-!
# Values that are alike

A value is regular if it can be copied and every float in it is a number. Two values are alike if
they are regular with the same contents: then they are equal, they compare alike with every regular
value, and a copy of the one is alike to the other. Growth of the heap changes nothing of this.
-/

namespace OverlayStore

namespace Value

/-- A value that can be copied and in which every float is a number. -/
def Regular (h : Heap) (v : Value) : Prop :=
  ∃ x, v.contents? h = some x ∧ x.PayloadFree ∧ x.NaNFree

/-- Regular values with the same contents. -/
def Alike (h : Heap) (a b : Value) : Prop :=
  ∃ x, a.contents? h = some x ∧ b.contents? h = some x ∧ x.PayloadFree ∧ x.NaNFree

variable {h h' : Heap} {a b c : Value}

/-- In a heap without loose handles, having contents without a foreign payload is being copyable. -/
theorem exists_copy_iff (hclosed : h.Closed h.Has) {v : Value} (hv : v.Within h.Has) :
    (∃ v' h', v.copy h = .ok (v', h')) ↔ ∃ x, v.contents? h = some x ∧ x.PayloadFree := by
  constructor
  · rintro ⟨v', h', hok⟩
    obtain ⟨x, hx, hfree, -⟩ := copy_eq_ok hclosed hv hok
    exact ⟨x, hx, hfree⟩
  · rintro ⟨x, hx, hfree⟩
    obtain ⟨v', h', hok, -⟩ := exists_copy hx hfree
    exact ⟨v', h', hok⟩

theorem regular_plain {data : Plain} : (plain data).Regular h ↔ data.isNaN = false := by
  have hcontents : (plain data).contents? h = some (.plain data) := by
    rw [contents?]
    cases h.size <;> rfl
  rw [Regular, hcontents]
  simp

theorem Regular.mono (ha : a.Regular h) (hle : h ≤ h') : a.Regular h' := by
  obtain ⟨x, hx, hfree⟩ := ha
  exact ⟨x, (contents?_of_le hx hle).1, hfree⟩

theorem Regular.alike_self (ha : a.Regular h) : Alike h a a := by
  obtain ⟨x, hx, hfree⟩ := ha
  exact ⟨x, hx, hx, hfree⟩

namespace Alike

theorem mono (hab : Alike h a b) (hle : h ≤ h') : Alike h' a b := by
  obtain ⟨x, ha, hb, hfree⟩ := hab
  exact ⟨x, (contents?_of_le ha hle).1, (contents?_of_le hb hle).1, hfree⟩

theorem trans (hab : Alike h a b) (hbc : Alike h b c) : Alike h a c := by
  obtain ⟨x, ha, hb, hfree⟩ := hab
  obtain ⟨y, hb', hc, -⟩ := hbc
  rw [hb] at hb'
  cases hb'
  exact ⟨x, ha, hc, hfree⟩

theorem regular (hab : Alike h a b) : a.Regular h := by
  obtain ⟨x, ha, -, hfree⟩ := hab
  exact ⟨x, ha, hfree⟩

/-- Values that are alike are equal. -/
theorem same? (hab : Alike h a b) : Value.same? h a b = some true := by
  obtain ⟨x, ha, hb, -, hnan⟩ := hab
  rw [same?_eq ha hb hnan, Contents.alike_self_iff.mpr hnan]

/-- Values that are alike compare alike. -/
theorem exists_same? (hab : Alike h a b) (hc : c.Regular h) :
    ∃ r, Value.same? h a c = some r ∧ Value.same? h b c = some r := by
  obtain ⟨x, ha, hb, -, hnan⟩ := hab
  obtain ⟨y, hy, -⟩ := hc
  exact ⟨x.alike y, same?_eq ha hy hnan, same?_eq hb hy hnan⟩

end Alike

/-- A regular value has a copy, which is alike. -/
theorem Regular.exists_copy (ha : a.Regular h) :
    ∃ c h', a.copy h = .ok (c, h') ∧ h ≤ h' ∧ Alike h' c a := by
  obtain ⟨x, hx, hfree, hnan⟩ := ha
  obtain ⟨c, h', hok, hle, hc, -⟩ := Value.exists_copy hx hfree
  exact ⟨c, h', hok, hle, x, hc, (contents?_of_le hx hle).1, hfree, hnan⟩

end Value

/-- Regular values of entries are copied one after the other. -/
theorem Copyable.exists_copyEntries {h : Heap} {entries : List (String × Value)}
    (hentries : ∀ e ∈ entries, e.2.Regular h) :
    ∃ copied h', Copyable.copyEntries h entries = .ok (copied, h') ∧ h ≤ h' ∧
      List.Forall₂ (fun c e => c.1 = e.1 ∧ Value.Alike h' c.2 e.2) copied entries := by
  induction entries generalizing h with
  | nil => exact ⟨[], h, rfl, le_refl h, .nil⟩
  | cons e rest ih =>
    obtain ⟨key, v⟩ := e
    rw [List.forall_mem_cons] at hentries
    obtain ⟨c, h₁, hcopy, hle₁, hc⟩ := hentries.1.exists_copy
    obtain ⟨copied, h₂, hrest, hle₂, hcopied⟩ :=
      ih fun e he => (hentries.2 e he).mono hle₁
    have hcopy' : Copyable.copy h v = .ok (c, h₁) := hcopy
    refine ⟨(key, c) :: copied, h₂, ?_, hle₁.trans hle₂, .cons ⟨rfl, hc.mono hle₂⟩ hcopied⟩
    simp only [Copyable.copyEntries, hcopy', hrest]

end OverlayStore
