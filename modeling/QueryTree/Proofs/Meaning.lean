import Mathlib.Data.List.ReduceOption
import QueryTree.Condition.Combine
import QueryTree.Condition.Lemmas
import QueryTree.Proofs.GroupView
import QueryTree.Update

/-! # The meaning of conditions

Given truth values for comparisons, a condition has a truth value or says nothing: composites
without anything present in them are absent. `Condition.conjoin` merges conjunctions group by group
while `Update.addCondition` nests them, and groups may come out in another order. The meaning
depends neither on the order nor on the nesting, so both add a condition to what was there. -/

namespace QueryTree

/-! ## Optional truth values -/

namespace Connective

/-- Two truth values under the connective. -/
def apply : Connective → Bool → Bool → Bool
  | and => (· && ·)
  | or => (· || ·)

/-- All of the truth values hold, or one of them does. -/
def holds : Connective → List Bool → Bool
  | and, values => values.all id
  | or, values => values.any id

/-- Truth values of which some are missing. The missing ones are ignored, and if no value is present
there is none for the whole. -/
def overall (op : Connective) (values : List (Option Bool)) : Option Bool :=
  if values.reduceOption = [] then none else some (op.holds values.reduceOption)

variable {op : Connective}

/-- A connective of one value is this value. -/
theorem holds_singleton (b : Bool) : op.holds [b] = b := by
  cases op <;> simp [holds]

/-- A connective of two lists of values is applied to what it makes of each of them. -/
theorem holds_append (xs ys : List Bool) :
    op.holds (xs ++ ys) = op.apply (op.holds xs) (op.holds ys) := by
  cases op <;> simp [holds, apply]

/-- The order of the values does not matter. -/
theorem holds_perm {xs ys : List Bool} (h : xs.Perm ys) : op.holds xs = op.holds ys := by
  cases op
  · exact h.all_eq
  · exact h.any_eq

/-- One value that may be missing is all that a connective makes of it. -/
theorem overall_singleton (value : Option Bool) : op.overall [value] = value := by
  cases value with
  | none => rfl
  | some b => simp [overall, List.reduceOption, holds_singleton]

/-- Of two lists of values, missing ones aside, a connective makes what it makes of each of them,
merged. -/
theorem overall_append (xs ys : List (Option Bool)) :
    op.overall (xs ++ ys) = Option.merge op.apply (op.overall xs) (op.overall ys) := by
  unfold overall
  rw [List.reduceOption_append]
  by_cases hx : xs.reduceOption = []
  · by_cases hy : ys.reduceOption = [] <;> simp [hx, hy]
  · by_cases hy : ys.reduceOption = [] <;> simp [hx, hy, holds_append]

/-- The order of values that may be missing does not matter. -/
theorem overall_perm {xs ys : List (Option Bool)} (h : xs.Perm ys) :
    op.overall xs = op.overall ys := by
  have hpresent : xs.reduceOption.Perm ys.reduceOption := h.filterMap id
  have hnil : xs.reduceOption = [] ↔ ys.reduceOption = [] := by
    rw [← List.length_eq_zero_iff, hpresent.length_eq, List.length_eq_zero_iff]
  unfold overall
  simp only [hnil, holds_perm hpresent]

end Connective

/-! ## Conditions -/

/-- The truth value of a condition where comparisons have the given ones, if it says anything. -/
def Condition.meaning (truth : Comparison → Bool) : Condition → Option Bool :=
  fold (fun c => some (truth c)) (fun op values => op.overall values.toList) (Option.map not)

/-- The meaning of an optional condition. A missing one says nothing. -/
def Condition.meaning? (truth : Comparison → Bool) (c : Option Condition) : Option Bool :=
  c.bind (meaning truth)

/-- The meaning of grouped conditions under a connective. -/
def Groups.meaning (truth : Comparison → Bool) (op : Connective) (g : Groups Condition) :
    Option Bool :=
  op.overall (g.toList.map (Condition.meaning truth))

/-- The meaning of an update's condition. -/
def Update.meaning? (truth : Comparison → Bool) (u : Update) : Option Bool :=
  u.condition?.bind (Groups.meaning truth .and)

variable {truth : Comparison → Bool}

namespace Groups

/-- A composite without groups says nothing. -/
theorem meaning_empty (op : Connective) : (empty : Groups Condition).meaning truth op = none := rfl

/-- A composite of one condition means what the condition means. -/
theorem meaning_ofList_singleton (op : Connective) (c : Condition) :
    (ofList [c]).meaning truth op = c.meaning truth := by
  rw [meaning, toList_ofList, List.map_singleton, Connective.overall_singleton]

/-- Merged groups mean what both of them mean together. -/
theorem meaning_merge (op : Connective) (g h : Groups Condition) :
    (g.merge h).meaning truth op
      = Option.merge op.apply (g.meaning truth op) (h.meaning truth op) := by
  have hperm := (g.toList_merge_perm h).map (Condition.meaning truth)
  rw [meaning, Connective.overall_perm hperm, List.map_append, Connective.overall_append]
  rfl

/-- One more condition in the default group adds its meaning. -/
theorem meaning_add (op : Connective) (g : Groups Condition) (c : Condition) :
    (g.add (some c)).meaning truth op
      = Option.merge op.apply (g.meaning truth op) (c.meaning truth) := by
  have hperm := (g.toList_appendTo_perm none [c]).map (Condition.meaning truth)
  rw [meaning, add, addTo, Connective.overall_perm hperm, List.map_append,
    Connective.overall_append, List.map_singleton, Connective.overall_singleton]
  rfl

end Groups

namespace Condition

/-- A comparison means its own truth value. -/
theorem meaning_compare (c : Comparison) : (compare c).meaning truth = some (truth c) := rfl

/-- A composite means what its groups mean under its connective. -/
theorem meaning_composite (op : Connective) (g : Groups Condition) :
    (composite op g).meaning truth = g.meaning truth op := by
  rw [meaning, fold_composite, Groups.toList_map]
  rfl

/-- A condition that counts as missing says nothing. -/
theorem meaning_of_isAbsent {c : Condition} (h : c.isAbsent = true) : c.meaning truth = none := by
  cases c with
  | composite op g =>
    obtain rfl : g = .empty := by
      obtain ⟨entries⟩ := g
      exact congrArg Groups.mk (List.isEmpty_iff.1 h)
    rw [meaning_composite, Groups.meaning_empty]
  | _ => cases h

/-- To take a missing condition for nothing does not change what is said. -/
theorem meaning?_present? (c : Option Condition) :
    meaning? truth (present? c) = meaning? truth c := by
  cases c with
  | none => rfl
  | some c =>
    by_cases h : c.isAbsent = true
    · rw [present?, Option.filter_some, if_neg (by simp [h])]
      exact (meaning_of_isAbsent h).symm
    · rw [present?, Option.filter_some, if_pos (by simp [h])]

/-- What a condition adds to a composite means what the condition means. -/
theorem meaning_contribution (op : Connective) (c : Condition) :
    (contribution op c).meaning truth op = c.meaning truth := by
  cases c with
  | composite op' g =>
    show (if op' = op then g else Groups.ofList [composite op' g]).meaning truth op = _
    by_cases h : op' = op
    · rw [if_pos h, meaning_composite, h]
    · rw [if_neg h, Groups.meaning_ofList_singleton]
  | _ => exact Groups.meaning_ofList_singleton op _

/-- Combined conditions mean what both of them mean together. -/
theorem meaning?_combine (op : Connective) (a b : Option Condition) :
    meaning? truth (combine op a b)
      = Option.merge op.apply (meaning? truth a) (meaning? truth b) := by
  rw [← meaning?_present? a, ← meaning?_present? b, combine]
  cases present? a with
  | none => simp [meaning?]
  | some left =>
    cases present? b with
    | none => simp [meaning?]
    | some right =>
      show (composite op ((contribution op left).merge (contribution op right))).meaning truth = _
      rw [meaning_composite, Groups.meaning_merge, meaning_contribution, meaning_contribution]
      rfl

end Condition

namespace Update

/-- A condition means the same as the conjunction that an update holds it in. -/
theorem meaning_conjunctionOf (c : Condition) :
    (conjunctionOf c).meaning truth .and = c.meaning truth := by
  unfold conjunctionOf
  split
  · rw [Condition.meaning_composite]
  · rw [Groups.meaning_ofList_singleton]

/-- The condition of an update that was set means what the given condition means. -/
theorem meaning?_setCondition (u : Update) (c : Option Condition) :
    (u.setCondition c).meaning? truth = Condition.meaning? truth c := by
  cases c with
  | none => rfl
  | some c => exact meaning_conjunctionOf c

/-- A condition that is added to an update is conjoined with the one that it has. -/
theorem meaning?_addCondition (u : Update) (c : Option Condition) :
    (u.addCondition c).meaning? truth
      = Option.merge (· && ·) (u.meaning? truth) (Condition.meaning? truth c) := by
  cases c with
  | none => simp [addCondition, Condition.meaning?]
  | some c =>
    show (Groups.add _ _).meaning truth .and = _
    rw [Groups.meaning_add, meaning?]
    cases u.condition? <;> rfl

end Update

/-- Under any truth values of comparisons, conditions that are conjoined or disjoined mean what both
of them mean together, and so do the conditions of an update to which one is added; setting the
condition of an update forgets what it meant before. Hence an update may as well conjoin. -/
theorem meaning_of_combination (truth : Comparison → Bool) (a b : Option Condition) (u : Update) :
    Condition.meaning? truth (Condition.conjoin a b)
        = Option.merge (· && ·) (Condition.meaning? truth a) (Condition.meaning? truth b)
      ∧ Condition.meaning? truth (Condition.disjoin a b)
        = Option.merge (· || ·) (Condition.meaning? truth a) (Condition.meaning? truth b)
      ∧ (u.setCondition a).meaning? truth = Condition.meaning? truth a
      ∧ (u.addCondition a).meaning? truth
        = Option.merge (· && ·) (u.meaning? truth) (Condition.meaning? truth a)
      ∧ (u.addCondition a).meaning? truth
        = Condition.meaning? truth (Condition.conjoin (u.condition?.map (.composite .and)) a) := by
  have hadd : (u.addCondition a).meaning? truth
      = Option.merge (· && ·) (u.meaning? truth) (Condition.meaning? truth a) :=
    u.meaning?_addCondition a
  refine ⟨Condition.meaning?_combine .and a b, Condition.meaning?_combine .or a b,
    u.meaning?_setCondition a, hadd, ?_⟩
  have hold : Condition.meaning? truth (u.condition?.map (.composite .and)) = u.meaning? truth := by
    rw [Update.meaning?]
    cases u.condition? with
    | none => rfl
    | some g => exact Condition.meaning_composite .and g
  rw [hadd, Condition.conjoin, Condition.meaning?_combine, hold]
  rfl

end QueryTree
