import QueryTree.Proofs.Combination
import QueryTree.Proofs.Congruence

/-! # Ways to gather conditions

Conditions for a composite come in batches: gathered batch by batch and merged in any bracketing,
handed over as one list, taken one by one, or appended to a composite that is there already. All of
these ways make the same groups, whatever connective these stand under, and a batch without
conditions leaves no trace in them.
-/

namespace QueryTree

namespace Groups

variable {α : Type} {g : Groups α}

/-- Batches that are appended one after the other are appended as one. A batch without items makes
no group. -/
theorem foldl_extend (g : Groups α) (batches : List (List α)) :
    batches.foldl extend g = g.extend batches.flatten :=
  List.foldl_flatten.symm

/-- The items of a list one by one make the groups that the list makes at once. -/
theorem empty_extend (items : List α) : empty.extend items = ofList items := by
  refine (tidy_empty.extend items).ext (tidy_ofList items) fun key => ?_
  rw [items_ofList]
  exact items_addAllTo tidy_empty none key items

/-- A list makes the default group with all its items, or no group. -/
theorem ofList_eq (items : List α) :
    ofList items = ⟨if items.isEmpty then [] else [(none, items)]⟩ := by
  cases items <;> rfl

end Groups

/-- A way to gather conditions: start with nothing, push the conditions of a batch one by one, or
append what was gathered next to what was gathered first. -/
inductive Gathering where
  | fresh
  | batch (conditions : List Condition)
  | append (first next : Gathering)

namespace Gathering

/-- The batches in order. -/
def batches : Gathering → List (List Condition)
  | fresh => []
  | batch conditions => [conditions]
  | append first next => first.batches ++ next.batches

/-- What is gathered. -/
def collect : Gathering → Batch
  | fresh => .empty
  | batch conditions => .ofList conditions
  | append first next => first.collect.append next.collect

/-- However the batches are merged, their conditions stand in order. -/
theorem conditions_collect (t : Gathering) : t.collect.conditions = t.batches.flatten := by
  induction t with
  | fresh => rfl
  | batch conditions =>
    rw [collect, Batch.conditions_ofList, batches, List.flatten_singleton]
  | append first next hfirst hnext =>
    rw [collect, Batch.append, hfirst, hnext, batches, List.flatten_append]

/-- Batches of conditions make the same groups, whether all conditions are handed over as one list,
pushed one by one, gathered batch by batch and merged in any bracketing, or appended batch by batch,
each one by one, to a composite without groups. Those groups are the default group with all
conditions in order, or no group if there are none. Behind conditions that a composite holds already
they stand at the end of its default group, and its other groups stay as they were. -/
theorem gathered_alike (batches : List (List Condition)) :
    let all := batches.flatten
    let made : Groups Condition := ⟨if all.isEmpty then [] else [(none, all)]⟩
    Groups.ofList all = made
    ∧ (Batch.ofList all).toGroups = made
    ∧ (∀ t : Gathering, t.batches = batches → t.collect.toGroups = made)
    ∧ batches.foldl Groups.extend .empty = made
    ∧ ∀ g : Groups Condition, g.Tidy →
      batches.foldl Groups.extend g = g.extend all
      ∧ (g.extend all).Tidy
      ∧ (g.extend all).get? none = Groups.nonempty? (g.items none ++ all)
      ∧ ∀ name, (g.extend all).get? (some name) = g.get? (some name) := by
  intro all made
  have hlist : Groups.ofList all = made := Groups.ofList_eq all
  refine ⟨hlist, ?_, fun t ht => ?_, ?_, fun g hg => ?_⟩
  · rw [Batch.toGroups, Batch.conditions_ofList, hlist]
  · rw [Batch.toGroups, conditions_collect, ht, hlist]
  · rw [Groups.foldl_extend, Groups.empty_extend, hlist]
  · have htidy : (g.extend all).Tidy := hg.extend all
    have hitems : ∀ key, (g.extend all).items key
        = if key = none then g.items key ++ all else g.items key :=
      fun key => Groups.items_addAllTo hg none key all
    refine ⟨Groups.foldl_extend g batches, htidy, ?_, fun name => ?_⟩
    · rw [htidy.get?_eq, hitems, if_pos rfl]
    · rw [htidy.get?_eq, hitems, if_neg (Option.some_ne_none name), ← hg.get?_eq]

/-- Two batches with limits and an empty one between them. -/
def limits : Gathering :=
  .append (.batch [.pricedBelow 9, .pricedBelow 8]) (.append (.batch []) (.batch [.pricedBelow 7]))

/-- Limits in the default group and in one of their own. -/
def limited : Groups Condition :=
  ⟨[(none, [.pricedBelow 6]), (some "sale", [.pricedBelow 5])]⟩

/-- Limits gathered around an empty batch, on their own and behind others. -/
theorem limits_gathered :
    limits.batches = [[.pricedBelow 9, .pricedBelow 8], [], [.pricedBelow 7]]
    ∧ limits.collect.toGroups
      = ⟨[(none, [.pricedBelow 9, .pricedBelow 8, .pricedBelow 7])]⟩
    ∧ limited.Tidy
    ∧ (limits.batches.foldl Groups.extend limited).get? none
      = some [.pricedBelow 6, .pricedBelow 9, .pricedBelow 8, .pricedBelow 7]
    ∧ (limits.batches.foldl Groups.extend limited).get? (some "sale") = some [.pricedBelow 5] := by
  have htidy : limited.Tidy := ⟨List.pairwise_pair.2 rfl, by simp [limited]⟩
  obtain ⟨-, -, hcollect, -, hfilled⟩ := gathered_alike limits.batches
  obtain ⟨happend, -, hdefault, hnamed⟩ := hfilled limited htidy
  rw [happend]
  exact ⟨rfl, hcollect limits rfl, htidy, hdefault, hnamed "sale"⟩

end Gathering

end QueryTree
