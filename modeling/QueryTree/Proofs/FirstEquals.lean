import Mathlib.Data.List.Basic
import QueryTree.Distinct

/-! # The first of equal items

The first equals of items are found by way of a hash map. If equality is an equivalence and equal
items have equal hashes, the map knows for every item the first equal among the items so far. What
is kept of a list are then the items that no item before them is equal to, which `List.eraseDups`
picks out without hashing.
-/

namespace QueryTree

variable {α : Type} [BEq α]

/-- Equal items have the same first equal. -/
theorem findIdx?_congr [EquivBEq α] {xs : List α} {x y : α} (h : x == y) :
    xs.findIdx? (· == x) = xs.findIdx? (· == y) := by
  have hpred : (fun z => z == x) = fun z => z == y := by
    funext z
    exact BEq.congr_right h
  rw [hpred]

/-- The first equal of an item behind others is the item itself unless one of these is equal. -/
theorem findIdx_middle [EquivBEq α] {before : List α} {x : α} (h : ∀ y ∈ before, (y == x) = false)
    (xs : List α) : (before ++ x :: xs).findIdx (· == x) = before.length := by
  have hbefore : before.findIdx (· == x) = before.length := List.findIdx_eq_length.2 h
  rw [List.findIdx_append, if_neg (by omega), List.findIdx_cons]
  simp

/-- An item found already is found at the same place in a longer list. -/
theorem findIdx_append_of_findIdx? {before : List α} {x : α} {i : Nat}
    (h : before.findIdx? (· == x) = some i) (xs : List α) :
    (before ++ xs).findIdx (· == x) = i ∧ i < before.length := by
  obtain ⟨hlt, hfirst⟩ := List.findIdx?_eq_some_iff_findIdx_eq.1 h
  have hin : before.findIdx (· == x) < before.length := by omega
  rw [List.findIdx_append, if_pos hin]
  exact ⟨hfirst, hlt⟩

section Map

variable [Hashable α]

/-- The map sends every item that is equal to one in the list to the index of the first such one. -/
def KnowsFirst (seen : Std.HashMap α Nat) (before : List α) : Prop :=
  ∀ y, seen[y]? = before.findIdx? (· == y)

variable [EquivBEq α]

/-- The empty map knows the first places of the items of no list. -/
theorem knowsFirst_empty [LawfulHashable α] : KnowsFirst (∅ : Std.HashMap α Nat) [] := by
  intro y
  simp

/-- An item with an equal before it changes no first equal. -/
theorem KnowsFirst.keep {seen : Std.HashMap α Nat} {before : List α} (h : KnowsFirst seen before)
    {x : α} {i : Nat} (hx : seen[x]? = some i) : KnowsFirst seen (before ++ [x]) := by
  intro y
  rw [h y, List.findIdx?_append]
  by_cases hxy : x == y
  · have hfound : before.findIdx? (· == y) = some i := by
      rw [← findIdx?_congr hxy, ← h x, hx]
    simp [hfound]
  · simp [hxy]

variable [LawfulHashable α]

/-- An item without an equal before it is the first one of its class. -/
theorem KnowsFirst.insert {seen : Std.HashMap α Nat} {before : List α} (h : KnowsFirst seen before)
    {x : α} (hx : seen[x]? = none) :
    KnowsFirst (seen.insert x before.length) (before ++ [x]) := by
  intro y
  rw [Std.HashMap.getElem?_insert, List.findIdx?_append, h y]
  by_cases hxy : x == y
  · have hnone : before.findIdx? (· == y) = none := by
      rw [← findIdx?_congr hxy, ← h x, hx]
    simp [hxy, hnone]
  · simp [hxy]

/-- Behind items whose first equals are known, each item of the rest is given its first equal. -/
theorem firstIndicesFrom_eq {seen : Std.HashMap α Nat} {before : List α}
    (h : KnowsFirst seen before) (xs : List α) :
    firstIndicesFrom seen before.length xs
      = xs.map fun x => (before ++ xs).findIdx (· == x) := by
  induction xs generalizing seen before with
  | nil => rfl
  | cons x xs ih =>
    have happend : before ++ x :: xs = (before ++ [x]) ++ xs := by simp
    have hlength : before.length + 1 = (before ++ [x]).length := by simp
    rw [firstIndicesFrom, List.map_cons]
    cases hx : seen[x]? with
    | some i =>
      have hfirst : (before ++ x :: xs).findIdx (· == x) = i :=
        (findIdx_append_of_findIdx? (by rw [← h x, hx]) _).1
      rw [hfirst, happend, hlength]
      exact congrArg (i :: ·) (ih (h.keep hx))
    | none =>
      have hnone : ∀ y ∈ before, (y == x) = false := by
        rw [← List.findIdx?_eq_none_iff (p := (· == x)), ← h x, hx]
      rw [findIdx_middle hnone, happend, hlength]
      exact congrArg (before.length :: ·) (ih (h.insert hx))

/-- The computed indices are the places at which an equal item occurs first. -/
theorem firstIndices_eq (xs : List α) :
    firstIndices xs = xs.map fun x => xs.findIdx (· == x) :=
  firstIndicesFrom_eq knowsFirst_empty xs

end Map

/-- Of items behind others those are kept that are equal to none of the others and to none before
them. -/
theorem filterMap_isFirst [EquivBEq α] (before xs : List α) :
    ((xs.zip (((xs.map fun x => (before ++ xs).findIdx (· == x)).zipIdx before.length).map
        fun p => p.1 == p.2)).filterMap fun p => if p.2 then some p.1 else none)
      = (xs.filter fun x => !before.any (· == x)).eraseDups := by
  induction xs generalizing before with
  | nil => rfl
  | cons x xs ih =>
    have happend : before ++ x :: xs = (before ++ [x]) ++ xs := by simp
    have hlength : before.length + 1 = (before ++ [x]).length := by simp
    have htail := ih (before ++ [x])
    rw [← happend, ← hlength] at htail
    rw [List.map_cons, List.zipIdx_cons, List.map_cons, List.zip_cons_cons, List.filterMap_cons,
      htail, List.filter_cons]
    by_cases hx : before.any (· == x)
    · obtain ⟨y, hy, hyx⟩ := List.any_eq_true.1 hx
      have hlater : ((before ++ x :: xs).findIdx (· == x) == before.length) = false := by
        obtain ⟨i, hi⟩ := Option.isSome_iff_exists.1 (List.findIdx?_isSome.trans hx)
        have hfirst := findIdx_append_of_findIdx? hi (x :: xs)
        rw [hfirst.1, beq_eq_false_iff_ne]
        omega
      -- what is equal to this item is equal to the one before it
      have hsame : ∀ z, (before ++ [x]).any (· == z) = before.any (· == z) := by
        intro z
        by_cases hxz : x == z
        · have hyz : before.any (· == z) = true := List.any_eq_true.2 ⟨y, hy, BEq.trans hyx hxz⟩
          rw [List.any_append, hyz, Bool.true_or]
        · simp [hxz]
      simp only [hlater, hx, hsame, Bool.not_true, Bool.false_eq_true, if_false]
    · have hnone : ∀ y ∈ before, (y == x) = false := by simpa using hx
      have hsplit : ∀ z, (!(before ++ [x]).any (· == z))
          = (!before.any (· == z) && !(z == x)) := by
        intro z
        rw [List.any_append, List.any_cons, List.any_nil, Bool.or_false, Bool.not_or,
          BEq.comm (a := x)]
      simp only [findIdx_middle hnone, beq_self_eq_true, hx, hsplit, Bool.not_false, if_true,
        List.eraseDups_cons, List.filter_filter, Bool.and_comm]

/-- Of each class of equal items the first one is kept, and nothing else. -/
theorem distinct_eq_eraseDups [EquivBEq α] [Hashable α] [LawfulHashable α] (xs : List α) :
    distinct xs = xs.eraseDups := by
  have h := filterMap_isFirst [] xs
  simp only [List.nil_append, List.length_nil, List.any_nil, Bool.not_false, List.filter_true] at h
  rw [distinct, firstFlags, firstIndices_eq]
  exact h

end QueryTree
