import Mathlib.Data.List.Forall2
import QueryTree.Condition.Lemmas
import QueryTree.Proofs.DecimalEquality
import QueryTree.Proofs.FirstEquals
import QueryTree.Walk.Basic

/-! # Equality and digests

Decimals of different scales can be equal, and so can joins with different comments, so equality of
nodes is coarser than identity. `LawfulAt` says of one value that equality behaves there as an
equivalence and that equal values hand on the same tokens. It passes from parts to wholes, and so
from the leaves to all nodes.
-/

namespace QueryTree

/-- At the value `a`, equality is reflexive, symmetric and transitive, and what is equal to `a` has
the tokens of `a`. -/
structure LawfulAt {α : Type} [BEq α] [Digestible α] (a : α) : Prop where
  refl : a == a
  symm : ∀ b, a == b → b == a
  trans : ∀ b c, a == b → b == c → a == c
  tokens_eq : ∀ b, a == b → tokens a = tokens b

/-- Equality is an equivalence, and equal values have the same tokens. -/
class LawfulDigest (α : Type) [BEq α] [Digestible α] : Prop where
  lawfulAt : ∀ a : α, LawfulAt a

/-! ## Equality of parts -/

section Parts

variable {α β : Type} [BEq α] [BEq β]

/-- Pairs are equal if both parts are. -/
theorem pair_beq_iff {a a' : α} {b b' : β} : (a, b) == (a', b') ↔ a == a' ∧ b == b' := by
  change (a == a' && b == b') = true ↔ _
  rw [Bool.and_eq_true]

/-- What equals a present value is present and equal to it. -/
theorem some_beq_iff {a : α} {x : Option α} : some a == x ↔ ∃ b, x = some b ∧ a == b := by
  cases x <;> simp

/-- Only an absent value equals an absent one. -/
theorem none_beq_iff {x : Option α} : none == x ↔ x = none := by
  cases x <;> simp

/-- Only the empty list equals the empty list. -/
theorem nil_beq_iff {as : List α} : [] == as ↔ as = [] := by
  cases as <;> simp

/-- What equals a non-empty list begins with an equal item, before an equal rest. -/
theorem cons_beq_iff {a : α} {as bs : List α} :
    a :: as == bs ↔ ∃ b bs', bs = b :: bs' ∧ a == b ∧ as == bs' := by
  cases bs with
  | nil => simp
  | cons b bs => simp [List.cons_beq_cons]

/-- Equal lists are equal item by item. -/
theorem list_beq_iff_forall₂ {as bs : List α} :
    as == bs ↔ List.Forall₂ (fun a b => a == b) as bs := by
  induction as generalizing bs with
  | nil => cases bs <;> simp
  | cons a as ih => cases bs <;> simp [List.cons_beq_cons, ih]

/-- A list whose items are replaced by equal ones stays equal. -/
theorem map_beq_self {f : α → α} {as : List α} (h : ∀ a ∈ as, f a == a) : as.map f == as :=
  list_beq_iff_forall₂.2 (List.forall₂_map_left_iff.2 (List.forall₂_same.2 h))

end Parts

section Laws

variable {α β : Type} [BEq α] [Digestible α] [BEq β] [Digestible β]

instance (priority := low) [LawfulDigest α] : EquivBEq α where
  rfl := (LawfulDigest.lawfulAt _).refl
  symm := (LawfulDigest.lawfulAt _).symm _
  trans := (LawfulDigest.lawfulAt _).trans _ _

/-- Equal values feed the same tokens to a hasher. -/
theorem tokens_eq_of_beq [LawfulDigest α] {a b : α} (h : a == b) : tokens a = tokens b :=
  (LawfulDigest.lawfulAt a).tokens_eq b h

/-- Equal values have the same hash, which is made of their tokens. -/
theorem hash_eq_of_beq [LawfulDigest α] {a b : α} (h : a == b) :
    Digestible.hash a = Digestible.hash b := by
  rw [Digestible.hash, Digestible.hash, tokens_eq_of_beq h]

instance (priority := low) [LawfulDigest α] : LawfulHashable α where
  hash_eq _ _ h := hash_eq_of_beq h

/-- Where equality is identity, there is nothing to prove. -/
instance (priority := low) [LawfulBEq α] : LawfulDigest α where
  lawfulAt a :=
    { refl := beq_self_eq_true a
      symm := fun b h => by rw [eq_of_beq h, beq_self_eq_true]
      trans := fun b c hab hbc => by rwa [eq_of_beq hab]
      tokens_eq := fun b h => by rw [eq_of_beq h] }

/-! ## From parts to wholes -/

/-- The laws pass through a constructor that is equal only to itself, part by part. -/
theorem LawfulAt.map {f : α → β} (hf : ∀ a x, f a == x ↔ ∃ b, x = f b ∧ a == b)
    (htokens : ∀ a b, tokens a = tokens b → tokens (f a) = tokens (f b)) {a : α} (h : LawfulAt a) :
    LawfulAt (f a) where
  refl := (hf a _).2 ⟨a, rfl, h.refl⟩
  symm x hx := by
    obtain ⟨b, rfl, hab⟩ := (hf a x).1 hx
    exact (hf b _).2 ⟨a, rfl, h.symm b hab⟩
  trans x y hx hxy := by
    obtain ⟨b, rfl, hab⟩ := (hf a x).1 hx
    obtain ⟨c, rfl, hbc⟩ := (hf b y).1 hxy
    exact (hf a _).2 ⟨c, rfl, h.trans b c hab hbc⟩
  tokens_eq x hx := by
    obtain ⟨b, rfl, hab⟩ := (hf a x).1 hx
    exact htokens a b (h.tokens_eq b hab)

/-- The laws hold of a record if they hold of the parts that its equality compares. -/
theorem LawfulAt.comap {f : α → β} (hf : ∀ a b, (a == b) = (f a == f b))
    (htokens : ∀ a, tokens a = tokens (f a)) {a : α} (h : LawfulAt (f a)) : LawfulAt a where
  refl := by rw [hf, h.refl]
  symm b hab := by
    rw [hf] at hab ⊢
    exact h.symm _ hab
  trans b c hab hbc := by
    rw [hf] at hab hbc ⊢
    exact h.trans _ _ hab hbc
  tokens_eq b hab := by
    rw [hf] at hab
    rw [htokens, htokens, h.tokens_eq _ hab]

/-- The tokens of a pair are those of its parts in order. -/
instance : Digestible (α × β) := ⟨fun p => tokens p.1 ++ tokens p.2⟩

/-- A pair obeys the laws if its parts do. -/
theorem LawfulAt.pair {a : α} {b : β} (ha : LawfulAt a) (hb : LawfulAt b) : LawfulAt (a, b) where
  refl := pair_beq_iff.2 ⟨ha.refl, hb.refl⟩
  symm p h := by
    obtain ⟨h₁, h₂⟩ := pair_beq_iff.1 h
    exact pair_beq_iff.2 ⟨ha.symm _ h₁, hb.symm _ h₂⟩
  trans p q h h' := by
    obtain ⟨h₁, h₂⟩ := pair_beq_iff.1 h
    obtain ⟨h₁', h₂'⟩ := pair_beq_iff.1 h'
    exact pair_beq_iff.2 ⟨ha.trans _ _ h₁ h₁', hb.trans _ _ h₂ h₂'⟩
  tokens_eq p h := by
    obtain ⟨h₁, h₂⟩ := pair_beq_iff.1 h
    change tokens a ++ tokens b = tokens p.1 ++ tokens p.2
    rw [ha.tokens_eq _ h₁, hb.tokens_eq _ h₂]

instance [LawfulDigest α] [LawfulDigest β] : LawfulDigest (α × β) where
  lawfulAt p := .pair (LawfulDigest.lawfulAt p.1) (LawfulDigest.lawfulAt p.2)

instance [LawfulDigest α] : LawfulDigest (Option α) where
  lawfulAt
    | none => by
      refine ⟨rfl, fun x hx => ?_, fun x y hx hy => ?_, fun x hx => ?_⟩
      · rw [none_beq_iff.1 hx]
        rfl
      · rwa [none_beq_iff.1 hx] at hy
      · rw [none_beq_iff.1 hx]
    | some a => .map (fun _ _ => some_beq_iff) (fun _ _ h => congrArg (HashToken.mark 1 :: ·) h)
      (LawfulDigest.lawfulAt a)

/-! ## Lists and groups -/

/-- A list obeys the laws if its items do. -/
theorem LawfulAt.list {as : List α} (h : ∀ a ∈ as, LawfulAt a) : LawfulAt as := by
  induction as with
  | nil =>
    refine ⟨rfl, fun bs hbs => ?_, fun bs cs hbs hcs => ?_, fun bs hbs => ?_⟩
    · rw [nil_beq_iff.1 hbs]
      rfl
    · rwa [nil_beq_iff.1 hbs] at hcs
    · rw [nil_beq_iff.1 hbs]
  | cons a as ih =>
    obtain ⟨ha, has⟩ := List.forall_mem_cons.1 h
    have hrest := ih has
    refine ⟨cons_beq_iff.2 ⟨a, as, rfl, ha.refl, hrest.refl⟩, fun bs hbs => ?_,
      fun bs cs hbs hcs => ?_, fun bs hbs => ?_⟩
    · obtain ⟨b, bs', rfl, hb, hbs'⟩ := cons_beq_iff.1 hbs
      exact cons_beq_iff.2 ⟨a, as, rfl, ha.symm b hb, hrest.symm bs' hbs'⟩
    · obtain ⟨b, bs', rfl, hb, hbs'⟩ := cons_beq_iff.1 hbs
      obtain ⟨c, cs', rfl, hc, hcs'⟩ := cons_beq_iff.1 hcs
      exact cons_beq_iff.2 ⟨c, cs', rfl, ha.trans b c hb hc, hrest.trans bs' cs' hbs' hcs'⟩
    · obtain ⟨b, bs', rfl, hb, hbs'⟩ := cons_beq_iff.1 hbs
      obtain ⟨hlength, htail⟩ := List.cons.inj (hrest.tokens_eq bs' hbs')
      change HashToken.mark (as.length + 1) :: (tokens a ++ as.flatMap tokens)
        = HashToken.mark (bs'.length + 1) :: (tokens b ++ bs'.flatMap tokens)
      rw [HashToken.mark.inj hlength, htail, ha.tokens_eq b hb]

instance [LawfulDigest α] : LawfulDigest (List α) where
  lawfulAt _ := .list fun a _ => LawfulDigest.lawfulAt a

/-- Groups are handed on as the list of their entries. -/
theorem LawfulAt.groups {g : Groups α} (h : ∀ a ∈ g.toList, LawfulAt a) : LawfulAt g := by
  refine .comap (f := Groups.entries) (fun _ _ => rfl) (fun _ => rfl) (.list fun e he => ?_)
  refine .pair (LawfulDigest.lawfulAt e.1) (.list fun a ha => h a ?_)
  exact Groups.mem_toList.2 ⟨e, he, ha⟩

instance [LawfulDigest α] : LawfulDigest (Groups α) where
  lawfulAt _ := .groups fun a _ => LawfulDigest.lawfulAt a

end Laws

/-! ## Values and operands -/

/-- Only decimals can be equal without being the same. -/
theorem Value.beq_iff {v w : Value} :
    v == w ↔ v = w ∨ ∃ d e, v = .decimal d ∧ w = .decimal e ∧ d == e := by
  cases v with
  | decimal d =>
    cases w with
    | decimal e =>
      constructor
      · intro h
        exact .inr ⟨d, e, rfl, rfl, h⟩
      · rintro (heq | ⟨_, _, heq, heq', h⟩)
        · cases heq
          exact Decimal.beq_iff.2 rfl
        · cases heq
          cases heq'
          exact h
    | _ => simp [BEq.beq, Value.beq]
  | _ => cases w <;> simp [BEq.beq, Value.beq]

instance : LawfulDigest Value where
  lawfulAt v :=
    { refl := by
        cases v with
        | decimal d => exact Value.beq_iff.2 (.inr ⟨d, d, rfl, rfl, Decimal.beq_iff.2 rfl⟩)
        | _ => exact Value.beq_iff.2 (.inl rfl)
      symm := fun w h => by
        rcases Value.beq_iff.1 h with rfl | ⟨d, e, rfl, rfl, hde⟩
        · exact h
        · have hed : e == d := Decimal.beq_iff.2 (Decimal.beq_iff.1 hde).symm
          exact Value.beq_iff.2 (.inr ⟨e, d, rfl, rfl, hed⟩)
      trans := fun w x h h' => by
        rcases Value.beq_iff.1 h with rfl | ⟨d, e, rfl, rfl, hde⟩
        · exact h'
        · rcases Value.beq_iff.1 h' with rfl | ⟨_, f, heq, rfl, hef⟩
          · exact h
          · cases heq
            exact Value.beq_iff.2 (.inr ⟨d, f, rfl, rfl, Decimal.beq_trans hde hef⟩)
      tokens_eq := fun w h => by
        rcases Value.beq_iff.1 h with rfl | ⟨d, e, rfl, rfl, hde⟩
        · rfl
        · change [HashToken.mark 3, .integer d.lowest.1, .mark d.lowest.2]
            = [HashToken.mark 3, .integer e.lowest.1, .mark e.lowest.2]
          rw [Decimal.lowest_eq_of_beq hde] }

instance : LawfulDigest AnyOf where
  lawfulAt a := .comap (f := AnyOf.values) (fun _ _ => rfl) (fun _ => rfl)
    (LawfulDigest.lawfulAt a.values)

namespace Operand

/-- What equals a column operand is an equal column. -/
theorem column_beq_iff {c : Column} {o : Operand} :
    column c == o ↔ ∃ d, o = column d ∧ c == d := by
  cases o with
  | column d => exact ⟨fun h => ⟨d, rfl, h⟩, fun ⟨_, heq, h⟩ => by cases heq; exact h⟩
  | _ => simp [BEq.beq, Operand.beq]

/-- What equals a value operand is an equal value. -/
theorem value_beq_iff {v : Value} {o : Operand} : value v == o ↔ ∃ w, o = value w ∧ v == w := by
  cases o with
  | value w => exact ⟨fun h => ⟨w, rfl, h⟩, fun ⟨_, heq, h⟩ => by cases heq; exact h⟩
  | _ => simp [BEq.beq, Operand.beq]

/-- What equals an operand that is a set of values is an equal set. -/
theorem anyOf_beq_iff {a : AnyOf} {o : Operand} : anyOf a == o ↔ ∃ b, o = anyOf b ∧ a == b := by
  cases o with
  | anyOf b => exact ⟨fun h => ⟨b, rfl, h⟩, fun ⟨_, heq, h⟩ => by cases heq; exact h⟩
  | _ => simp [BEq.beq, Operand.beq]

instance : LawfulDigest Operand where
  lawfulAt
    | column c => .map (fun _ _ => column_beq_iff) (fun _ _ h => congrArg (HashToken.mark 0 :: ·) h)
      (LawfulDigest.lawfulAt c)
    | value v => .map (fun _ _ => value_beq_iff) (fun _ _ h => congrArg (HashToken.mark 1 :: ·) h)
      (LawfulDigest.lawfulAt v)
    | anyOf a => .map (fun _ _ => anyOf_beq_iff) (fun _ _ h => congrArg (HashToken.mark 2 :: ·) h)
      (LawfulDigest.lawfulAt a)

end Operand

/-! ## Comparisons and conditions -/

instance : Digestible Operator := ⟨fun op => [.integer op.codeInt]⟩

instance : LawfulDigest Comparison where
  lawfulAt c := .comap (f := fun c => (c.operator, c.left, c.right)) (fun _ _ => rfl) (fun _ => rfl)
    (LawfulDigest.lawfulAt (c.operator, c.left, c.right))

/-- Comparisons are equal if they have the same operator between equal operands. -/
theorem Comparison.beq_iff {c d : Comparison} :
    c == d ↔ c.operator = d.operator ∧ c.left == d.left ∧ c.right == d.right := by
  change (c.operator, c.left, c.right) == (d.operator, d.left, d.right) ↔ _
  rw [pair_beq_iff, pair_beq_iff, beq_iff_eq]

namespace Condition

/-- What equals a comparison is an equal comparison. -/
theorem compare_beq_iff {c : Comparison} {x : Condition} :
    compare c == x ↔ ∃ d, x = compare d ∧ c == d := by
  cases x with
  | compare d => exact ⟨fun h => ⟨d, rfl, h⟩, fun ⟨_, heq, h⟩ => by cases heq; exact h⟩
  | _ => simp [BEq.beq, Condition.beq]

/-- What equals a composite has the same connective and equal groups. -/
theorem composite_beq_iff {op : Connective} {g : Groups Condition} {x : Condition} :
    composite op g == x ↔ ∃ h, x = composite op h ∧ g == h := by
  cases x with
  | composite op' h =>
    rw [composite_beq, Bool.and_eq_true, beq_iff_eq]
    constructor
    · rintro ⟨rfl, hgh⟩
      exact ⟨h, rfl, hgh⟩
    · rintro ⟨_, heq, hgh⟩
      cases heq
      exact ⟨rfl, hgh⟩
  | _ =>
    obtain ⟨entries⟩ := g
    simp [BEq.beq, Condition.beq]

/-- What equals a negation negates an equal condition. -/
theorem negation_beq_iff {c x : Condition} :
    negation c == x ↔ ∃ d, x = negation d ∧ c == d := by
  cases x with
  | negation d => exact ⟨fun h => ⟨d, rfl, h⟩, fun ⟨_, heq, h⟩ => by cases heq; exact h⟩
  | _ => simp [BEq.beq, Condition.beq]

/-- The tokens of a composite are those of its groups behind a mark. -/
theorem tokens_composite (op : Connective) (g : Groups Condition) :
    tokens (composite op g) = .mark (match op with | .and => 1 | .or => 2) :: tokens g := by
  have hfold : tokens (composite op g) = memberTokens op (g.map tokens) := fold_composite ..
  have hentry : ∀ e : GroupKey × List Condition,
      tokens e.1 ++ .mark e.2.length :: (e.2.map tokens).flatten = tokens e.1 ++ tokens e.2 := by
    intro e
    rw [← List.flatMap_def]
    rfl
  rw [hfold]
  simp only [memberTokens, Groups.map, List.flatMap_map, List.length_map, hentry]
  rfl

instance : LawfulDigest Condition where
  lawfulAt c := by
    induction c using Condition.induction with
    | compare c =>
      exact .map (fun _ _ => compare_beq_iff) (fun _ _ h => congrArg (HashToken.mark 0 :: ·) h)
        (LawfulDigest.lawfulAt c)
    | composite op g ih =>
      refine .map (fun _ _ => composite_beq_iff) (fun g h hgh => ?_) (.groups ih)
      rw [tokens_composite, tokens_composite, hgh]
    | negation c ih =>
      exact .map (fun _ _ => negation_beq_iff) (fun _ _ h => congrArg (HashToken.mark 3 :: ·) h) ih

end Condition

/-! ## Joins and updates -/

instance : Digestible JoinType := ⟨fun type => [.integer type.code]⟩

/-- The parts of a join that equality compares. -/
def Join.compared (j : Join) : String × Groups Condition × TableRef × JoinType × Table :=
  (j.name, j.condition, j.foreign, j.type, j.primary)

/-- Joins are compared by five of their fields. -/
theorem Join.beq_eq_compared (i j : Join) : (i == j) = (i.compared == j.compared) := by
  change (i.name == j.name && i.condition == j.condition && i.foreign == j.foreign
    && i.type == j.type && i.primary == j.primary) = (i.name == j.name
    && (i.condition == j.condition && (i.foreign == j.foreign
    && (i.type == j.type && i.primary == j.primary))))
  simp only [Bool.and_assoc]

instance : LawfulDigest Join where
  lawfulAt j := by
    refine .comap Join.beq_eq_compared (fun j => ?_) (LawfulDigest.lawfulAt j.compared)
    change tokens j.name ++ tokens j.condition ++ tokens j.foreign ++ [.integer j.type.code]
      ++ tokens j.primary = tokens j.name ++ (tokens j.condition ++ (tokens j.foreign
      ++ ([.integer j.type.code] ++ tokens j.primary)))
    simp only [List.append_assoc]

/-- The parts of an update. -/
def Update.compared (u : Update) :
    Table × List Column × List Operand × Option (Groups Condition) × List Join :=
  (u.table, u.columns, u.values, u.condition?, u.joins)

/-- Updates are compared by all of their fields. -/
theorem Update.beq_eq_compared (u v : Update) : (u == v) = (u.compared == v.compared) := by
  change (u.table == v.table && u.columns == v.columns && u.values == v.values
    && u.condition? == v.condition? && u.joins == v.joins) = (u.table == v.table
    && (u.columns == v.columns && (u.values == v.values
    && (u.condition? == v.condition? && u.joins == v.joins))))
  simp only [Bool.and_assoc]

instance : LawfulDigest Update where
  lawfulAt u := by
    refine .comap Update.beq_eq_compared (fun u => ?_) (LawfulDigest.lawfulAt u.compared)
    change tokens u.table ++ tokens u.columns ++ tokens u.values ++ tokens u.condition?
      ++ tokens u.joins = tokens u.table ++ (tokens u.columns ++ (tokens u.values
      ++ (tokens u.condition? ++ tokens u.joins)))
    simp only [List.append_assoc]

/-- Equality of joins compares names, conditions, tables and types, and nothing else. -/
theorem Join.beq_iff {i j : Join} :
    i == j ↔ i.name = j.name ∧ i.condition == j.condition ∧ i.foreign = j.foreign
      ∧ i.type = j.type ∧ i.primary = j.primary := by
  rw [beq_eq_compared]
  simp only [compared, pair_beq_iff]
  simp only [beq_iff_eq]

/-- Updates are equal if each of their fields is. -/
theorem Update.beq_iff {u v : Update} :
    u == v ↔ u.table = v.table ∧ u.columns = v.columns ∧ u.values == v.values
      ∧ u.condition? == v.condition? ∧ u.joins == v.joins := by
  rw [beq_eq_compared]
  simp only [compared, pair_beq_iff]
  simp only [beq_iff_eq]

/-! ## All kinds of nodes -/

/-- The kinds of nodes that are compared and hashed: those that a walk offers, and those that it
only goes through. -/
inductive HashedKind where
  | offered (k : NodeKind)
  | disjunction
  | comparison
  | operand

namespace HashedKind

/-- The nodes of a kind. -/
abbrev Node : HashedKind → Type
  | .offered k => k.Node
  | .disjunction => Groups Condition
  | .comparison => Comparison
  | .operand => Operand

instance (k : HashedKind) : BEq k.Node :=
  match k with
  | .offered k => inferInstanceAs (BEq k.Node)
  | .disjunction => inferInstanceAs (BEq (Groups Condition))
  | .comparison => inferInstanceAs (BEq Comparison)
  | .operand => inferInstanceAs (BEq Operand)

end HashedKind

instance (k : NodeKind) : Digestible k.Node :=
  match k with
  | .table => inferInstanceAs (Digestible Table)
  | .tableRef => inferInstanceAs (Digestible TableRef)
  | .column => inferInstanceAs (Digestible Column)
  | .value => inferInstanceAs (Digestible Value)
  | .anyOf => inferInstanceAs (Digestible AnyOf)
  | .condition => inferInstanceAs (Digestible Condition)
  | .conjunction => inferInstanceAs (Digestible (Groups Condition))
  | .join => inferInstanceAs (Digestible Join)
  | .update => inferInstanceAs (Digestible Update)

instance (k : NodeKind) : LawfulDigest k.Node :=
  match k with
  | .table => inferInstanceAs (LawfulDigest Table)
  | .tableRef => inferInstanceAs (LawfulDigest TableRef)
  | .column => inferInstanceAs (LawfulDigest Column)
  | .value => inferInstanceAs (LawfulDigest Value)
  | .anyOf => inferInstanceAs (LawfulDigest AnyOf)
  | .condition => inferInstanceAs (LawfulDigest Condition)
  | .conjunction => inferInstanceAs (LawfulDigest (Groups Condition))
  | .join => inferInstanceAs (LawfulDigest Join)
  | .update => inferInstanceAs (LawfulDigest Update)

namespace HashedKind

instance (k : HashedKind) : Digestible k.Node :=
  match k with
  | .offered k => inferInstanceAs (Digestible k.Node)
  | .disjunction => inferInstanceAs (Digestible (Groups Condition))
  | .comparison => inferInstanceAs (Digestible Comparison)
  | .operand => inferInstanceAs (Digestible Operand)

instance (k : HashedKind) : LawfulDigest k.Node :=
  match k with
  | .offered k => inferInstanceAs (LawfulDigest k.Node)
  | .disjunction => inferInstanceAs (LawfulDigest (Groups Condition))
  | .comparison => inferInstanceAs (LawfulDigest Comparison)
  | .operand => inferInstanceAs (LawfulDigest Operand)

/-- Equality is an equivalence of the nodes of each kind, and equal nodes hand the same tokens to a
hash function, so telling nodes apart by hashing keeps the first one of each class of equal nodes
and nothing else. Joins are equal when their names, conditions, tables and types are. -/
theorem equality_agrees_with_hash (k : HashedKind) :
    (∀ x : k.Node, x == x)
      ∧ (∀ x y : k.Node, x == y → y == x)
      ∧ (∀ x y z : k.Node, x == y → y == z → x == z)
      ∧ (∀ x y : k.Node, x == y → tokens x = tokens y ∧ Digestible.hash x = Digestible.hash y)
      ∧ (∀ xs : List k.Node, distinct xs = xs.eraseDups)
      ∧ ∀ i j : Join, i == j ↔ i.name = j.name ∧ i.condition == j.condition
        ∧ i.foreign = j.foreign ∧ i.type = j.type ∧ i.primary = j.primary := by
  refine ⟨fun x => BEq.rfl, fun x y => BEq.symm, fun x y z => BEq.trans, fun x y h => ?_,
    fun xs => distinct_eq_eraseDups xs, fun i j => Join.beq_iff⟩
  exact ⟨tokens_eq_of_beq h, hash_eq_of_beq h⟩

end HashedKind

end QueryTree
