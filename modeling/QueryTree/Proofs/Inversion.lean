import Mathlib.Algebra.Group.Nat.Even
import Mathlib.Data.List.Forall2
import Mathlib.Data.List.Induction
import Mathlib.Logic.Equiv.Basic
import QueryTree.Groups.Lemmas
import QueryTree.Join

/-! # Joins read from the other side

Inverting a join exchanges its tables and its outer sides and rewrites its condition in place: each
group keeps its key and its length, and only equations of two columns exchange their operands. Every
part of this undoes itself, so a run of inversions depends only on whether their number is even, and
on the last name.
-/

namespace QueryTree

/-- A condition, and the same condition read from the other side of a join: an equation of two
columns exchanges them, under the same modifiers, and any other condition stays. -/
inductive Condition.Mirrored : Condition → Condition → Prop
  | equation (modifiers : Modifiers) (a b : Column) :
    Mirrored (.compare ⟨⟨.equals, modifiers⟩, .column a, .column b⟩)
      (.compare ⟨⟨.equals, modifiers⟩, .column b, .column a⟩)
  | other {c : Condition} :
    (∀ modifiers a b, c ≠ .compare ⟨⟨.equals, modifiers⟩, .column a, .column b⟩) → Mirrored c c

/-- Two grouped conditions have the same keys in the same order, and under each key, position by
position, conditions that are read from two sides. -/
def Groups.Mirrored (g h : Groups Condition) : Prop :=
  List.Forall₂ (fun e d => e.1 = d.1 ∧ List.Forall₂ Condition.Mirrored e.2 d.2) g.entries h.entries

/-- A join and its inversion under a name, field by field. -/
structure Join.Mirrored (i : Join) (name : String) (j : Join) : Prop where
  name : j.name = name
  primary : j.primary = i.foreign.table
  foreign : j.foreign.table = i.primary
  condition : i.condition.Mirrored j.condition
  type : j.type = Equiv.swap JoinType.leftOuter JoinType.rightOuter i.type
  permanent : j.permanent = i.permanent
  comment : j.comment? = i.comment?
  origin : j.origin? = i.origin?

/-- An operand names a column exactly if it is this column. -/
theorem Operand.column?_eq_some_iff {o : Operand} {c : Column} :
    o.column? = some c ↔ o = .column c := by
  cases o <;> simp [column?]

/-- The comparisons that equate columns are those of this form. -/
theorem Comparison.equatesColumns_iff {c : Comparison} :
    c.equatesColumns = true
      ↔ ∃ modifiers a b, c = ⟨⟨.equals, modifiers⟩, .column a, .column b⟩ := by
  constructor
  · obtain ⟨⟨comparator, modifiers⟩, left, right⟩ := c
    intro h
    simp only [equatesColumns, Operator.isEquality, Bool.and_eq_true, beq_iff_eq] at h
    obtain ⟨⟨rfl, hleft⟩, hright⟩ := h
    obtain ⟨a, ha⟩ := Option.isSome_iff_exists.1 hleft
    obtain ⟨b, hb⟩ := Option.isSome_iff_exists.1 hright
    obtain rfl := Operand.column?_eq_some_iff.1 ha
    obtain rfl := Operand.column?_eq_some_iff.1 hb
    exact ⟨modifiers, a, b, rfl⟩
  · rintro ⟨modifiers, a, b, rfl⟩
    rfl

/-- Only an equation of columns is rewritten, and that by exchanging its operands. -/
theorem Condition.mirrored_iff {c d : Condition} : c.Mirrored d ↔ d = Join.invertMember c := by
  constructor
  · rintro (⟨modifiers, a, b⟩ | hother)
    · rfl
    · cases c with
      | compare c =>
        have hnot : ¬ c.equatesColumns = true := by
          intro heq
          obtain ⟨modifiers, a, b, rfl⟩ := Comparison.equatesColumns_iff.1 heq
          exact hother modifiers a b rfl
        rw [Join.invertMember, if_neg hnot]
      | _ => rfl
  · rintro rfl
    cases c with
    | compare c =>
      rw [Join.invertMember]
      split
      · rename_i heq
        obtain ⟨modifiers, a, b, rfl⟩ := Comparison.equatesColumns_iff.1 heq
        exact .equation modifiers a b
      · rename_i hnot
        refine .other fun modifiers a b hc => hnot ?_
        exact Comparison.equatesColumns_iff.2 ⟨modifiers, a, b, Condition.compare.inj hc⟩
    | composite op g => exact .other fun _ _ _ h => by cases h
    | negation c => exact .other fun _ _ _ h => by cases h

/-- A list that agrees item by item with the images of another is its image. -/
theorem forall₂_eq_map_iff {α β : Type} {f : α → β} {xs : List α} {ys : List β} :
    List.Forall₂ (fun x y => y = f x) xs ys ↔ ys = xs.map f := by
  have hflip : List.Forall₂ (fun x y => y = f x) xs ys ↔ List.Forall₂ Eq (xs.map f) ys := by
    rw [List.forall₂_map_left_iff]
    simp only [eq_comm]
  rw [hflip, List.forall₂_eq_eq_eq, eq_comm]

/-- Groups that are read from the other side are rewritten item by item. -/
theorem Groups.mirrored_iff {g h : Groups Condition} :
    g.Mirrored h ↔ h = g.map Join.invertMember := by
  have hmember : Condition.Mirrored = fun c d => d = Join.invertMember c := by
    funext c d
    exact propext Condition.mirrored_iff
  have hentry : ∀ e d : GroupKey × List Condition,
      (e.1 = d.1 ∧ List.Forall₂ Condition.Mirrored e.2 d.2)
        ↔ d = (e.1, e.2.map Join.invertMember) := by
    rintro ⟨key, cs⟩ ⟨key', ds⟩
    rw [hmember, forall₂_eq_map_iff, Prod.mk.injEq, eq_comm]
  obtain ⟨entries⟩ := g
  obtain ⟨entries'⟩ := h
  simp only [Mirrored, hentry, forall₂_eq_map_iff, map, Groups.mk.injEq]

namespace Join

/-- Inverting a join type exchanges the two outer joins. -/
theorem inverted_eq_swap (type : JoinType) :
    type.inverted = Equiv.swap JoinType.leftOuter JoinType.rightOuter type := by
  cases type <;> rfl

/-- The fields of an inverted join are those that are asked of it, and these leave no choice. -/
theorem mirrored_iff {i j : Join} {name : String} : i.Mirrored name j ↔ j = i.invert name := by
  constructor
  · rintro ⟨hname, hprimary, hforeign, hcondition, htype, hpermanent, hcomment, horigin⟩
    obtain ⟨name', primary, ⟨foreign⟩, condition, type, permanent, comment?, origin?⟩ := j
    rw [Groups.mirrored_iff] at hcondition
    rw [invert, inverted_eq_swap]
    simp_all
  · rintro rfl
    exact ⟨rfl, rfl, rfl, Groups.mirrored_iff.2 rfl, inverted_eq_swap i.type, rfl, rfl, rfl⟩

/-- Inverting a member of a condition twice gives it back. -/
theorem invertMember_invertMember (c : Condition) : invertMember (invertMember c) = c := by
  cases c with
  | compare c =>
    rw [invertMember]
    split
    · rename_i heq
      obtain ⟨modifiers, a, b, rfl⟩ := Comparison.equatesColumns_iff.1 heq
      rfl
    · rename_i hnot
      rw [invertMember, if_neg hnot]
  | _ => rfl

/-- Inverting all members of a condition twice gives it back. -/
theorem map_invertMember_twice (g : Groups Condition) :
    (g.map invertMember).map invertMember = g := by
  have hmember : invertMember ∘ invertMember = id := funext invertMember_invertMember
  rw [Groups.map_map, hmember, Groups.map_id]

/-- Inverting twice changes the name at most. -/
theorem invert_invert (j : Join) (name last : String) :
    (j.invert name).invert last = { j with name := last } := by
  have htype : j.type.inverted.inverted = j.type := by cases j.type <;> rfl
  simp only [invert, map_invertMember_twice, htype]

/-- The name that a join had is forgotten. -/
theorem invert_rename (j : Join) (name last : String) :
    ({ j with name := name }).invert last = j.invert last := rfl

/-- After one inversion for each of several names, a join is the one before or its inversion, under
the last of the names. -/
theorem foldl_invert (j : Join) (names : List String) (last : String) :
    (names ++ [last]).foldl invert j
      = if Even (names ++ [last]).length then { j with name := last } else j.invert last := by
  induction names using List.reverseRecOn generalizing last with
  | nil => rfl
  | append_singleton names name ih =>
    have hlength : (names ++ [name] ++ [last]).length = (names ++ [name]).length + 1 := by simp
    rw [List.foldl_append, ih, hlength, List.foldl_cons, List.foldl_nil]
    by_cases heven : Even (names ++ [name]).length
    · rw [if_pos heven, if_neg (Nat.even_add_one.not.2 (not_not.2 heven)), invert_rename]
    · rw [if_neg heven, if_pos (Nat.even_add_one.2 heven), invert_invert]

/-- Inverting a join exchanges its tables and its outer sides, rewrites just the equations of
columns in its condition, each in its place, and keeps all else. Inverted once for each of several
names, a join is the one before if the names are even in number, and otherwise its inversion, in
every field but the name, which is the last one. -/
theorem invert_exact (j : Join) :
    (∀ (name : String) (i : Join), j.Mirrored name i ↔ i = j.invert name)
      ∧ ∀ (names : List String) (last : String),
        (names ++ [last]).foldl invert j
          = if Even (names ++ [last]).length then { j with name := last } else j.invert last :=
  ⟨fun _ _ => mirrored_iff, j.foldl_invert⟩

end Join

end QueryTree
