/-!
# Orders of iteration

A walk over a table comes to its entries in an order that nothing fixes. The order is an argument
here, given by keys: the entries under them come first, as the keys stand, and all others after
them. Every order in which the entries of a table can stand is given by its own keys.
-/

namespace OverlayStore

/-- Keys in the order in which a walk comes to them. -/
abbrev KeyOrder : Type := List String

namespace KeyOrder

/-- The entries in a given order. -/
def arrange : KeyOrder → List (String × α) → List (String × α)
  | [], entries => entries
  | key :: rest, entries =>
    entries.filter (fun e => e.1 == key) ++ arrange rest (entries.filter fun e => !(e.1 == key))

@[simp] theorem arrange_nil (entries : List (String × α)) : arrange [] entries = entries := rfl

/-- An order leaves out nothing and repeats nothing. -/
theorem arrange_perm (order : KeyOrder) (entries : List (String × α)) :
    (order.arrange entries).Perm entries := by
  induction order generalizing entries with
  | nil => exact .refl entries
  | cons key rest ih =>
    exact ((ih _).append_left _).trans (List.filter_append_perm _ entries)

/-- The entries stay. -/
@[simp] theorem mem_arrange_iff {order : KeyOrder} {entries : List (String × α)}
    {e : String × α} : e ∈ order.arrange entries ↔ e ∈ entries :=
  (order.arrange_perm entries).mem_iff

/-- Entries can be changed under their keys, and left out, before or after they are arranged. -/
theorem filterMap_arrange (order : KeyOrder) {f : String × α → Option (String × β)}
    (hf : ∀ e e', f e = some e' → e'.1 = e.1) (entries : List (String × α)) :
    (order.arrange entries).filterMap f = order.arrange (entries.filterMap f) := by
  have hswap : ∀ (p : String → Bool) (entries : List (String × α)),
      (entries.filter (p ·.1)).filterMap f = (entries.filterMap f).filter (p ·.1) := by
    intro p entries
    rw [List.filterMap_filter, List.filter_filterMap]
    congr 1
    funext e
    cases he : f e with
    | none => simp
    | some e' => by_cases hp : p e.1 <;> simp [Option.filter, hf e e' he, hp]
  induction order generalizing entries with
  | nil => rfl
  | cons key rest ih =>
    rw [arrange, arrange, List.filterMap_append, ih, hswap (· == key), hswap fun k => !(k == key)]

/-- The values may change under the keys. -/
theorem map_arrange (order : KeyOrder) (f : α → β) (entries : List (String × α)) :
    (order.arrange entries).map (Prod.map id f) =
      order.arrange (entries.map (Prod.map id f)) := by
  simp only [← List.filterMap_eq_map]
  refine order.filterMap_arrange (fun e e' he => ?_) entries
  cases he
  rfl

/-- Entries may be left out. -/
theorem filter_arrange (order : KeyOrder) (p : String × α → Bool) (entries : List (String × α)) :
    (order.arrange entries).filter p = order.arrange (entries.filter p) := by
  simp only [← List.filterMap_eq_filter]
  refine order.filterMap_arrange (fun e e' he => ?_) entries
  rw [(Option.guard_eq_some_iff.mp he).1]

/-- The keys of entries with distinct keys give the order of these entries. -/
theorem arrange_of_perm {made entries : List (String × α)} (hperm : made.Perm entries)
    (hn : (made.map Prod.fst).Nodup) : arrange (made.map Prod.fst) entries = made := by
  induction made generalizing entries with
  | nil => exact hperm.nil_eq.symm
  | cons e rest ih =>
    obtain ⟨hnew, hrest⟩ := List.nodup_cons.mp hn
    have hother : ∀ f ∈ rest, (f.1 == e.1) = false := fun f hf =>
      beq_eq_false_iff_ne.mpr fun heq => hnew (heq ▸ List.mem_map_of_mem hf)
    have hhead : entries.filter (fun f => f.1 == e.1) = [e] := by
      refine List.perm_singleton.mp ((hperm.filter _).symm.trans ?_)
      rw [List.filter_cons_of_pos (by simp), List.filter_eq_nil_iff.mpr fun f hf => by
        simp [hother f hf]]
    have htail : rest.Perm (entries.filter fun f => !(f.1 == e.1)) := by
      refine List.Perm.trans ?_ (hperm.filter _)
      rw [List.filter_cons_of_neg (by simp), List.filter_eq_self.mpr fun f hf => by
        simp [hother f hf]]
    rw [List.map_cons, arrange, hhead, ih htail hrest, List.singleton_append]

end KeyOrder

end OverlayStore
