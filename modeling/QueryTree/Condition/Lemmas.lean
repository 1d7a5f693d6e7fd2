import QueryTree.Condition.Basic
import QueryTree.Groups.Lemmas

/-!
# Lemmas on conditions

`Condition.induction` proves a property of all conditions from the leaves up, with the members of a
composite as one list. The equations of `fold` and of equality say the same of functions: on a
composite they map over, or compare, its groups.
-/

namespace QueryTree.Condition

/-- A property holds of every condition if comparisons have it and composites and negations take it
over from the conditions below them. -/
@[elab_as_elim]
theorem induction {motive : Condition → Prop} (compare : ∀ c, motive (.compare c))
    (composite : ∀ op g, (∀ c ∈ Groups.toList g, motive c) → motive (.composite op g))
    (negation : ∀ c, motive c → motive (.negation c)) (c : Condition) : motive c := by
  refine Condition.rec (motive_1 := motive) (motive_2 := fun g => ∀ c ∈ g.toList, motive c)
    (motive_3 := fun entries => ∀ e ∈ entries, ∀ c ∈ e.2, motive c)
    (motive_4 := fun e => ∀ c ∈ e.2, motive c) (motive_5 := fun cs => ∀ c ∈ cs, motive c)
    compare composite negation ?_ ?_ ?_ ?_ ?_ ?_ c
  · intro entries h c hc
    obtain ⟨e, he, hc⟩ := Groups.mem_toList.1 hc
    exact h e he c hc
  · simp
  · intro e rest he hrest d hd
    rcases List.mem_cons.1 hd with rfl | hd
    · exact he
    · exact hrest d hd
  · intro key cs h
    exact h
  · simp
  · intro c cs hc hcs d hd
    rcases List.mem_cons.1 hd with rfl | hd
    · exact hc
    · exact hcs d hd

section Fold

variable {β : Type} (f : Comparison → β) (g : Connective → Groups β → β) (h : β → β)

/-- The fold of a list of conditions folds each of them. -/
theorem foldList_eq_map (cs : List Condition) : foldList f g h cs = cs.map (fold f g h) := by
  induction cs with
  | nil => rfl
  | cons c cs ih => rw [foldList, ih, List.map_cons]

/-- The fold of entries folds their conditions and keeps their keys. -/
theorem foldEntries_eq_map (entries : List (GroupKey × List Condition)) :
    foldEntries f g h entries = entries.map fun e => (e.1, e.2.map (fold f g h)) := by
  induction entries with
  | nil => rfl
  | cons e rest ih => rw [foldEntries, ih, foldList_eq_map, List.map_cons]

theorem fold_compare (c : Comparison) : fold f g h (.compare c) = f c := rfl

/-- A fold treats a composite by the results of its members in their groups. -/
theorem fold_composite (op : Connective) (cs : Groups Condition) :
    fold f g h (.composite op cs) = g op (cs.map (fold f g h)) := by
  obtain ⟨entries⟩ := cs
  rw [fold, foldEntries_eq_map]
  rfl

theorem fold_negation (c : Condition) : fold f g h (.negation c) = h (fold f g h c) := rfl

end Fold

/-- The equality of lists that conditions are compared by is the equality of lists. -/
theorem beqList_eq (cs ds : List Condition) : beqList cs ds = (cs == ds) := by
  induction cs generalizing ds with
  | nil => cases ds <;> rfl
  | cons c cs ih =>
    cases ds with
    | nil => rfl
    | cons d ds =>
      rw [beqList, ih]
      rfl

/-- The equality of entries that conditions are compared by is the equality of entries. -/
theorem beqEntries_eq (g h : List (GroupKey × List Condition)) : beqEntries g h = (g == h) := by
  induction g generalizing h with
  | nil => cases h <;> rfl
  | cons e g ih =>
    cases h with
    | nil => rfl
    | cons d h =>
      rw [beqEntries, ih, beqList_eq]
      rfl

/-- Compare conditions are equal when their comparisons are. -/
theorem compare_beq (a b : Comparison) : (compare a == compare b) = (a == b) := rfl

/-- Composites are equal when connective and groups are. -/
theorem composite_beq (op op' : Connective) (g h : Groups Condition) :
    (composite op g == composite op' h) = (op == op' && g == h) := by
  obtain ⟨g⟩ := g
  obtain ⟨h⟩ := h
  change (op == op' && beqEntries g h) = _
  rw [beqEntries_eq]
  rfl

/-- Negations are equal when the negated conditions are. -/
theorem negation_beq (a b : Condition) : (negation a == negation b) = (a == b) := rfl

end QueryTree.Condition
