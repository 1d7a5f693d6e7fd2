import QueryTree.Proofs.Decoding
import QueryTree.Proofs.Stored

/-! # Reading what was written

A well-formed node is read back from its payload. The lemmas go through the kinds from the leaves
up; `StoredKind.ofPayload_toPayload` is the statement for all of them.
-/

namespace QueryTree

/-! ## Members -/

namespace Member

variable {α : Type} {read : Payload → Except DecodeError α}

/-- An object holds what its payload is read as. -/
@[simp] theorem holds_object {p : Payload} {x : α} :
    (Member.object p).Holds read x ↔ read p = .ok x := by
  simp [Holds]

/-- Written members hold what is read back from each of them. -/
theorem forall₂_holds {β : Type} {write : β → Payload} {f : β → α} {xs : List β}
    (h : ∀ x ∈ xs, read (write x) = .ok (f x)) :
    List.Forall₂ (Holds read) (xs.map fun x => .object (write x)) (xs.map f) := by
  rw [List.forall₂_map_left_iff, List.forall₂_map_right_iff, List.forall₂_same]
  intro x hx
  exact holds_object.2 (h x hx)

/-- A list of objects holds what they are read as, one by one. -/
theorem holdsAll_objects {β : Type} {write : β → Payload} {f : β → α} {xs : List β}
    (h : ∀ x ∈ xs, read (write x) = .ok (f x)) :
    (Member.objects (xs.map write)).HoldsAll read (xs.map f) := by
  refine .inr ⟨_, rfl, ?_⟩
  rw [List.map_map]
  exact forall₂_holds h

end Member

/-! ## Tables, columns and operands -/

/-- A table is read back from its payload. -/
theorem Table.ofPayload_toPayload (t : Table) : Table.ofPayload t.toPayload = .ok t :=
  Table.ofPayload_eq_ok_iff.2 ⟨[], rfl⟩

/-- A table reference is read back from its payload. -/
theorem TableRef.ofPayload_toPayload (r : TableRef) : TableRef.ofPayload r.toPayload = .ok r :=
  TableRef.ofPayload_eq_ok_iff.2
    ⟨_, [], rfl, Member.holds_object.2 r.table.ofPayload_toPayload⟩

/-- A column is read back from its payload. -/
theorem Column.ofPayload_toPayload (c : Column) : Column.ofPayload c.toPayload = .ok c :=
  Column.ofPayload_eq_ok_iff.2
    ⟨_, [], rfl, Member.holds_object.2 c.table.ofPayload_toPayload⟩

/-- A set of values is read back from its payload. -/
theorem AnyOf.ofPayload_toPayload (a : AnyOf) : AnyOf.ofPayload a.toPayload = .ok a := by
  refine AnyOf.ofPayload_eq_ok_iff.2 ⟨_, [], rfl, ?_⟩
  rw [List.forall₂_map_left_iff, List.forall₂_same]
  intro v _
  exact .inl rfl

/-- An operand is held by its member. -/
theorem Operand.heldBy_toMember (o : Operand) : o.HeldBy o.toMember := by
  cases o with
  | column c => exact Member.holds_object.2 c.ofPayload_toPayload
  | value v =>
    cases v with
    | null => exact .inr ⟨rfl, rfl⟩
    | _ => exact .inl rfl
  | anyOf a => exact Member.holds_object.2 a.ofPayload_toPayload

/-- An operator is read back from its code. -/
theorem Operator.ofCode_code (op : Operator) : ofCode op.code = .ok op := by
  obtain ⟨comparator, ⟨caseInsensitive, orNull⟩⟩ := op
  cases comparator <;> cases caseInsensitive <;> cases orNull <;> rfl

/-- A comparison is read back from its payload. -/
theorem Comparison.ofPayload_toPayload (c : Comparison) :
    Comparison.ofPayload c.toPayload = .ok c :=
  Comparison.ofPayload_eq_ok_iff.2 ⟨_, _, _, [], rfl, c.operator.ofCode_code,
    c.left.heldBy_toMember, c.right.heldBy_toMember⟩

/-! ## Conditions -/

/-- Tidy groups are read back when the conditions in them are. -/
theorem Groups.Tidy.ofPayload_toPayload {g : Groups Condition} (hg : g.Tidy) (op : Connective)
    (h : ∀ c ∈ g.toList, Condition.ofPayload c.toPayload = .ok c) :
    Groups.ofPayload op (g.toPayload op) = .ok g := by
  refine Groups.ofPayload_eq_ok_iff.2 ⟨_, [], rfl, .inl ⟨_, g.entries, rfl, ?_, ?_, ?_⟩⟩
  · simp only [Groups.map, List.map_map, List.forall₂_map_left_iff, List.forall₂_same]
    intro e he
    refine ⟨rfl, ?_⟩
    have hall := Member.forall₂_holds (f := id) fun c hc => h c (Groups.mem_toList.2 ⟨e, he, hc⟩)
    simpa using hall
  · rw [hg.filledKeys_entries]
    exact hg.keys_nodup
  · exact hg.ofEntries_entries.symm

namespace Condition

/-- A conjunction or disjunction has the payload of its groups. -/
theorem toPayload_composite (op : Connective) (g : Groups Condition) :
    toPayload (.composite op g) = g.toPayload op :=
  fold_composite ..

/-- A well-formed condition is read back from its payload. -/
theorem WellFormed.ofPayload_toPayload {c : Condition} (h : c.WellFormed) :
    ofPayload c.toPayload = .ok c := by
  induction h with
  | compare c => exact ofPayload_eq_compare_iff.2 c.ofPayload_toPayload
  | composite op hg _ ih =>
    rw [toPayload_composite, ofPayload_eq_composite_iff]
    exact hg.ofPayload_toPayload op ih
  | negation _ ih => exact ofPayload_eq_negation_iff.2 ⟨_, [], rfl, Member.holds_object.2 ih⟩

end Condition

/-- Well-formed groups are read back from their payload. -/
theorem Groups.WellFormed.ofPayload_toPayload {g : Groups Condition} (h : g.WellFormed)
    (op : Connective) : Groups.ofPayload op (g.toPayload op) = .ok g :=
  h.tidy.ofPayload_toPayload op fun c hc => (h.members c hc).ofPayload_toPayload

/-! ## Joins and updates -/

/-- One number holds both the type and the permanence of a join. -/
theorem Join.ofTypeCode_typeCode (j : Join) :
    ofTypeCode j.typeCode = .ok (j.type, j.permanent) := by
  have hcode : ∀ (type : JoinType) (permanent : Bool),
      ofTypeCode (Int64.ofInt (type.code + if permanent then permanentBit else 0))
        = .ok (type, permanent) := by
    -- the codes are few, and of each the bits say what was packed
    intro type permanent
    cases type <;> cases permanent <;> cbv
  exact hcode j.type j.permanent

/-- Of a well-formed join all but its origin is read back from its payload. -/
theorem Join.WellFormed.ofPayload_toPayload {j : Join} (h : j.WellFormed) :
    Join.ofPayload j.toPayload = .ok j.stored :=
  Join.ofPayload_eq_ok_iff.2 ⟨_, _, _, _, _, rfl,
    Member.holds_object.2 j.primary.ofPayload_toPayload,
    .inr (Member.holds_object.2 j.foreign.ofPayload_toPayload),
    Member.holds_object.2 (h.condition.ofPayload_toPayload .and),
    j.ofTypeCode_typeCode, .inr ⟨[], rfl⟩, h.compares, rfl⟩

/-- Of a well-formed update all but the origins of its joins is read back from its payload. -/
theorem Update.WellFormed.ofPayload_toPayload {u : Update} (h : u.WellFormed) :
    Update.ofPayload u.toPayload = .ok u.stored := by
  refine Update.ofPayload_eq_ok_iff.2 ⟨_, _, _, _, _, rfl,
    Member.holds_object.2 u.table.ofPayload_toPayload, ?_, ?_, h.paired, ?_, .inr ⟨_, [], rfl, ?_⟩⟩
  · have hall := Member.holdsAll_objects (f := id) fun c (_ : c ∈ u.columns) =>
      c.ofPayload_toPayload
    rwa [List.map_id] at hall
  · simp only [Update.stored, List.forall₂_map_left_iff, List.forall₂_same]
    intro o _
    exact o.heldBy_toMember
  · cases hc : u.condition? with
    | none => simp [Update.stored, hc, Member.HoldsOptional, Member.optionalObject]
    | some g =>
      simp only [Update.stored, hc, Member.HoldsOptional]
      exact Member.holds_object.2 ((h.condition g hc).ofPayload_toPayload .and)
  · -- without joins the member is null, and null stands for no joins
    split
    · rename_i hnil
      rw [List.isEmpty_iff] at hnil
      exact .inl ⟨rfl, by simp [Update.stored, hnil]⟩
    · exact Member.holdsAll_objects fun j hj => (h.joins j hj).ofPayload_toPayload

namespace StoredKind

/-- Every written node is read back as what is stored of it. -/
theorem reads_toPayload (k : StoredKind) {x : k.Node} (h : k.WellFormed x) :
    k.ofPayload (k.toPayload x) = .ok (k.stored x) := by
  cases k with
  | table => exact Table.ofPayload_toPayload x
  | tableRef => exact TableRef.ofPayload_toPayload x
  | column => exact Column.ofPayload_toPayload x
  | anyOf => exact AnyOf.ofPayload_toPayload x
  | comparison => exact Comparison.ofPayload_toPayload x
  | composite op => exact Groups.WellFormed.ofPayload_toPayload h op
  | condition => exact Condition.WellFormed.ofPayload_toPayload h
  | join => exact Join.WellFormed.ofPayload_toPayload h
  | update => exact Update.WellFormed.ofPayload_toPayload h

/-- A well-formed node of any kind is read back from its payload with every field but the origin of
a join, at every depth. -/
theorem ofPayload_toPayload_restores (k : StoredKind) {x : k.Node} (h : k.WellFormed x) :
    ∃ y, k.ofPayload (k.toPayload x) = .ok y ∧ k.Restores x y :=
  ⟨k.stored x, k.reads_toPayload h, k.restores_stored x⟩

end StoredKind

/-- A permanent join with an empty comment and an origin, under a group with an empty name. -/
def Join.orderStates : Join where
  name := "states"
  primary := ⟨"orders", some "", none⟩
  foreign := ⟨.named "states"⟩
  condition := ⟨[(some "", [.compare ⟨⟨.equals, ⟨true, true⟩⟩,
    .column ⟨.named "orders", "state", none⟩, .value .null⟩])]⟩
  type := .leftOuter
  permanent := true
  comment? := some ""
  origin? := some (.flag true)

/-- An update that assigns NULL under such a join. -/
def Update.clearStates : Update where
  table := .named "orders"
  columns := [⟨.named "orders", "state", none⟩]
  values := [.value .null]
  condition? := none
  joins := [.orderStates]

/-- The join of orders and their states is well-formed. -/
theorem Join.orderStates_wellFormed : orderStates.WellFormed := by
  refine ⟨⟨⟨List.pairwise_singleton .., ?_⟩, ?_⟩, ?_⟩
  · simp [orderStates]
  · simp [orderStates, Groups.toList, Condition.WellFormed.compare]
  · simp [Groups.Compares, orderStates, Groups.toList, Condition.isCompare]

/-- The update that clears states is well-formed, its join included. -/
theorem Update.clearStates_wellFormed : clearStates.WellFormed :=
  ⟨rfl, by simp [clearStates], by simp [clearStates, Join.orderStates_wellFormed]⟩

theorem StoredKind.clearStates_restored :
    StoredKind.update.WellFormed .clearStates ∧
      ∃ y, StoredKind.update.ofPayload (StoredKind.update.toPayload .clearStates) = .ok y
        ∧ StoredKind.update.Restores .clearStates y :=
  ⟨Update.clearStates_wellFormed,
    ofPayload_toPayload_restores .update Update.clearStates_wellFormed⟩

end QueryTree
