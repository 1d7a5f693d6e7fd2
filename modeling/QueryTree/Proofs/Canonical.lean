import QueryTree.Proofs.RoundTrip

/-! # Canonical payloads

Whatever payload is read, the node is well-formed: the readers check what building a node keeps. So
reading and writing again makes a payload in the current shape of its kind, which is read as the
same node. `Payload.Current` spells out this shape, in which none of the older ones occurs.
-/

namespace QueryTree

/-! ## Nodes that are read are well-formed -/

namespace Groups

variable {m : Member} {rest : List Member} {g : Groups Condition}

/-- Groups read from a member are tidy, whatever the member's entries are. -/
theorem tidy_of_heldBy (h : Condition.GroupsHeldBy m rest g) : g.Tidy := by
  rcases h with ⟨_, read, -, -, -, rfl⟩ | ⟨_, cs, key, -, -, -, rfl⟩
  · exact tidy_ofEntries read
  · exact tidy_empty.addAllTo key cs

/-- Each condition in groups that are read has a payload of its own. -/
theorem exists_payload_of_heldBy (h : Condition.GroupsHeldBy m rest g) {c : Condition}
    (hc : c ∈ g.toList) : ∃ p, Condition.ofPayload p = .ok c := by
  rcases h with ⟨_, read, -, hread, -, rfl⟩ | ⟨_, cs, key, -, hcs, -, rfl⟩
  · obtain ⟨e, he, hce⟩ := mem_toList_ofEntries.1 hc
    obtain ⟨_, -, -, hitems⟩ := exists_mem_of_forall₂ hread he
    obtain ⟨_, -, p, -, hp⟩ := exists_mem_of_forall₂ hitems hce
    exact ⟨p, hp⟩
  · rw [empty_addAllTo, mem_toList_ofEntries] at hc
    obtain ⟨e, he, hce⟩ := hc
    obtain rfl := List.mem_singleton.1 he
    obtain ⟨_, -, p, -, hp⟩ := exists_mem_of_forall₂ hcs hce
    exact ⟨p, hp⟩

end Groups

/-- What the decoder of conditions accepts is well-formed. -/
theorem Condition.wellFormed_of_ofPayload {p : Payload} {c : Condition} (h : ofPayload p = .ok c) :
    c.WellFormed := by
  induction c using Condition.induction generalizing p with
  | compare c => exact .compare c
  | composite op g ih =>
    obtain ⟨m, rest, -, hm⟩ := Groups.ofPayload_eq_ok_iff.1 (ofPayload_eq_composite_iff.1 h)
    refine .composite op (Groups.tidy_of_heldBy hm) fun c hc => ?_
    obtain ⟨q, hq⟩ := Groups.exists_payload_of_heldBy hm hc
    exact ih c hc hq
  | negation c ih =>
    obtain ⟨_, _, -, q, -, hq⟩ := ofPayload_eq_negation_iff.1 h
    exact .negation (ih hq)

/-- The groups of an accepted conjunction or disjunction are well-formed. -/
theorem Groups.wellFormed_of_ofPayload {op : Connective} {p : Payload} {g : Groups Condition}
    (h : Groups.ofPayload op p = .ok g) : g.WellFormed := by
  obtain ⟨m, rest, -, hm⟩ := Groups.ofPayload_eq_ok_iff.1 h
  refine ⟨tidy_of_heldBy hm, fun c hc => ?_⟩
  obtain ⟨q, hq⟩ := exists_payload_of_heldBy hm hc
  exact Condition.wellFormed_of_ofPayload hq

/-- What the decoder of joins accepts is well-formed. -/
theorem Join.wellFormed_of_ofPayload {p : Payload} {j : Join} (h : Join.ofPayload p = .ok j) :
    j.WellFormed := by
  obtain ⟨_, _, _, _, _, -, -, -, ⟨q, -, hq⟩, -, -, hall, -⟩ := Join.ofPayload_eq_ok_iff.1 h
  exact ⟨Groups.wellFormed_of_ofPayload hq, hall⟩

/-- Each join of an update that is read has a payload of its own. -/
theorem Update.exists_payload_of_heldBy {rest : List Member} {joins : List Join}
    (h : JoinsHeldBy rest joins) {j : Join} (hj : j ∈ joins) : ∃ p, Join.ofPayload p = .ok j := by
  rcases h with ⟨-, rfl⟩ | ⟨m, _, -, ⟨-, rfl⟩ | ⟨items, -, hall⟩⟩
  · cases hj
  · cases hj
  · obtain ⟨_, -, p, -, hp⟩ := exists_mem_of_forall₂ hall hj
    exact ⟨p, hp⟩

/-- What the decoder of updates accepts is well-formed. -/
theorem Update.wellFormed_of_ofPayload {p : Payload} {u : Update} (h : Update.ofPayload p = .ok u) :
    u.WellFormed := by
  obtain ⟨_, _, _, m, rest, -, -, -, -, hlength, hcondition, hjoins⟩ :=
    Update.ofPayload_eq_ok_iff.1 h
  refine ⟨hlength, fun g hg => ?_, fun j hj => ?_⟩
  · rw [hg] at hcondition
    obtain ⟨q, -, hq⟩ := hcondition
    exact Groups.wellFormed_of_ofPayload hq
  · obtain ⟨q, hq⟩ := exists_payload_of_heldBy hjoins hj
    exact Join.wellFormed_of_ofPayload hq

/-! ## Nodes that are read have no origins -/

/-- A join read from a payload has no origin, so storing leaves it as it is. -/
theorem Join.stored_of_ofPayload {p : Payload} {j : Join} (h : Join.ofPayload p = .ok j) :
    j.stored = j := by
  obtain ⟨_, _, _, _, _, -, -, -, -, -, -, -, horigin⟩ := Join.ofPayload_eq_ok_iff.1 h
  rw [stored, ← horigin]

/-- The joins of an update read from a payload have no origin either. -/
theorem Update.stored_of_ofPayload {p : Payload} {u : Update} (h : Update.ofPayload p = .ok u) :
    u.stored = u := by
  obtain ⟨_, _, _, _, rest, -, -, -, -, -, -, hjoins⟩ := Update.ofPayload_eq_ok_iff.1 h
  have hall : ∀ j ∈ u.joins, j.stored = j := by
    intro j hj
    obtain ⟨q, hq⟩ := exists_payload_of_heldBy hjoins hj
    exact Join.stored_of_ofPayload hq
  rw [stored, List.map_congr_left hall, List.map_id']

namespace StoredKind

/-- A node of any kind that a decoder accepts is well-formed. -/
theorem wellFormed_of_ofPayload (k : StoredKind) {p : Payload} {x : k.Node}
    (h : k.ofPayload p = .ok x) : k.WellFormed x := by
  cases k with
  | composite op => exact Groups.wellFormed_of_ofPayload h
  | condition => exact Condition.wellFormed_of_ofPayload h
  | join => exact Join.wellFormed_of_ofPayload h
  | update => exact Update.wellFormed_of_ofPayload h
  | _ => trivial

/-- A node of any kind that a decoder accepts is what is stored of it. -/
theorem stored_of_ofPayload (k : StoredKind) {p : Payload} {x : k.Node}
    (h : k.ofPayload p = .ok x) : k.stored x = x := by
  cases k with
  | join => exact Join.stored_of_ofPayload h
  | update => exact Update.stored_of_ofPayload h
  | _ => rfl

end StoredKind

/-! ## The current shape -/

mutual

/-- The payload has the current shape of its kind, and so have all payloads in it. -/
inductive Payload.Current : StoredKind → Payload → Prop where
  | table (name : String) (alias? source? : Option String) :
    Payload.Current .table
      (.ofKind "QueryTable" [.text name, .optionalText alias?, .optionalText source?])
  | tableRef {table : Payload} : Payload.Current .table table →
    Payload.Current .tableRef (.ofKind "TableExpression" [.object table])
  | column {table : Payload} (name : String) (alias? : Option String) :
    Payload.Current .table table →
    Payload.Current .column
      (.ofKind "QueryColumn" [.object table, .text name, .optionalText alias?])
  | anyOf (values : List Value) :
    Payload.Current .anyOf (.ofKind "AnyValues" [.list (values.map .value)])
  | comparison (operator : Int64) {left right : Member} : Member.CurrentOperand left →
    Member.CurrentOperand right →
    Payload.Current .comparison (.ofKind "CompareCondition" [.int operator, left, right])
  /-- The groups stand in the order of their keys, and none of them is empty. -/
  | composite (op : Connective) {g : Groups Payload} : g.Tidy →
    (∀ p ∈ g.toList, Payload.Current .condition p) →
    Payload.Current (.composite op) (.ofKind op.kind [.groups (g.map .object).entries])
  | ofComparison {p : Payload} : Payload.Current .comparison p → Payload.Current .condition p
  | ofComposite {op : Connective} {p : Payload} : Payload.Current (.composite op) p →
    Payload.Current .condition p
  | negation {p : Payload} : Payload.Current .condition p →
    Payload.Current .condition (.ofKind "NotCondition" [.object p])
  /-- The foreign side is a table reference, and the comment has a member if there is none. -/
  | join (name : String) {primary foreign condition : Payload} (type : Int64)
    (comment? : Option String) : Payload.Current .table primary →
    Payload.Current .tableRef foreign →
    Payload.Current (.composite .and) condition →
    Payload.Current .join
      (.ofKind "QueryJoin" [.text name, .object primary, .object foreign, .object condition,
        .int type, .optionalText comment?])
  /-- The columns are a list even if there are none, and the joins are null if there are none. -/
  | update {table : Payload} {columns : List Payload} {values : List Member}
    {condition? : Option Payload} {joins : List Payload} : Payload.Current .table table →
    (∀ p ∈ columns, Payload.Current .column p) → (∀ m ∈ values, Member.CurrentOperand m) →
    values.length = columns.length → (∀ p ∈ condition?, Payload.Current (.composite .and) p) →
    (∀ p ∈ joins, Payload.Current .join p) →
    Payload.Current .update
      (.ofKind "QueryUpdate" [.object table, .list (columns.map .object), .list values,
        .optionalObject condition?, if joins.isEmpty then .null else .list (joins.map .object)])

/-- The member is an operand in its current shape: NULL is the null member. -/
inductive Member.CurrentOperand : Member → Prop where
  | null : Member.CurrentOperand .null
  | value {v : Value} : v ≠ .null → Member.CurrentOperand (.value v)
  | column {p : Payload} : Payload.Current .column p → Member.CurrentOperand (.object p)
  | anyOf {p : Payload} : Payload.Current .anyOf p → Member.CurrentOperand (.object p)

end

/-! ## Written payloads have the current shape -/

/-- A written table has the current layout. -/
theorem Table.current_toPayload (t : Table) : Payload.Current .table t.toPayload := .table ..

/-- A written table reference has the current layout. -/
theorem TableRef.current_toPayload (r : TableRef) : Payload.Current .tableRef r.toPayload :=
  .tableRef r.table.current_toPayload

/-- A written column has the current layout. -/
theorem Column.current_toPayload (c : Column) : Payload.Current .column c.toPayload :=
  .column c.name c.alias? c.table.current_toPayload

/-- A written operand has the current form of an operand. -/
theorem Operand.currentOperand_toMember (o : Operand) : o.toMember.CurrentOperand := by
  cases o with
  | column c => exact .column c.current_toPayload
  | value v =>
    cases v with
    | null => exact .null
    | _ => exact .value (by simp)
  | anyOf a => exact .anyOf (.anyOf a.values)

/-- A written comparison has the current layout. -/
theorem Comparison.current_toPayload (c : Comparison) : Payload.Current .comparison c.toPayload :=
  .comparison _ c.left.currentOperand_toMember c.right.currentOperand_toMember

/-- Tidy groups are written with the current layout if their members are. -/
theorem Groups.Tidy.current_toPayload {g : Groups Condition} (hg : g.Tidy) (op : Connective)
    (h : ∀ c ∈ g.toList, Payload.Current .condition c.toPayload) :
    Payload.Current (.composite op) (g.toPayload op) := by
  refine .composite op (hg.map Condition.toPayload) ?_
  rw [Groups.toList_map, List.forall_mem_map]
  exact h

/-- A written well-formed condition has the current layout at every depth. -/
theorem Condition.WellFormed.current_toPayload {c : Condition} (h : c.WellFormed) :
    Payload.Current .condition c.toPayload := by
  induction h with
  | compare c => exact .ofComparison c.current_toPayload
  | composite op hg _ ih =>
    rw [toPayload_composite]
    exact .ofComposite (hg.current_toPayload op ih)
  | negation _ ih => exact .negation ih

/-- Written well-formed groups have the current layout at every depth. -/
theorem Groups.WellFormed.current_toPayload {g : Groups Condition} (h : g.WellFormed)
    (op : Connective) : Payload.Current (.composite op) (g.toPayload op) :=
  h.tidy.current_toPayload op fun c hc => (h.members c hc).current_toPayload

/-- A written well-formed join has the current layout at every depth. -/
theorem Join.WellFormed.current_toPayload {j : Join} (h : j.WellFormed) :
    Payload.Current .join j.toPayload :=
  .join j.name j.typeCode j.comment? j.primary.current_toPayload j.foreign.current_toPayload
    (h.condition.current_toPayload .and)

/-- A written well-formed update has the current layout at every depth. -/
theorem Update.WellFormed.current_toPayload {u : Update} (h : u.WellFormed) :
    Payload.Current .update u.toPayload := by
  have hcolumns : ∀ p ∈ u.columns.map (·.toPayload), Payload.Current .column p :=
    List.forall_mem_map.2 fun c _ => c.current_toPayload
  have hvalues : ∀ m ∈ u.values.map (·.toMember), Member.CurrentOperand m :=
    List.forall_mem_map.2 fun o _ => o.currentOperand_toMember
  have hpaired : (u.values.map (·.toMember)).length = (u.columns.map (·.toPayload)).length := by
    rw [List.length_map, List.length_map, h.paired]
  have hcondition : ∀ p ∈ u.condition?.map (·.toPayload .and),
      Payload.Current (.composite .and) p := by
    intro p hp
    obtain ⟨g, hg, rfl⟩ := Option.map_eq_some_iff.1 hp
    exact (h.condition g hg).current_toPayload .and
  have hjoins : ∀ p ∈ u.joins.map (·.toPayload), Payload.Current .join p :=
    List.forall_mem_map.2 fun j hj => (h.joins j hj).current_toPayload
  have hshape :=
    Payload.Current.update u.table.current_toPayload hcolumns hvalues hpaired hcondition hjoins
  rw [List.isEmpty_map] at hshape
  exact hshape

namespace StoredKind

/-- Every written well-formed node has the current layout of its kind. -/
theorem current_toPayload (k : StoredKind) {x : k.Node} (h : k.WellFormed x) :
    Payload.Current k (k.toPayload x) := by
  cases k with
  | table => exact Table.current_toPayload x
  | tableRef => exact TableRef.current_toPayload x
  | column => exact Column.current_toPayload x
  | anyOf => exact .anyOf x.values
  | comparison => exact Comparison.current_toPayload x
  | composite op => exact Groups.WellFormed.current_toPayload h op
  | condition => exact Condition.WellFormed.current_toPayload h
  | join => exact Join.WellFormed.current_toPayload h
  | update => exact Update.WellFormed.current_toPayload h

/-- Whatever payload is read as a node, the node is well-formed at every depth and its own payload
has the current shape. From that payload the same node is read, so writing it again changes
nothing. -/
theorem ofPayload_canonicalises (k : StoredKind) {p : Payload} {x : k.Node}
    (h : k.ofPayload p = .ok x) :
    k.WellFormed x ∧ Payload.Current k (k.toPayload x) ∧ k.ofPayload (k.toPayload x) = .ok x
      ∧ (k.ofPayload (k.toPayload x)).map k.toPayload = .ok (k.toPayload x) := by
  have hwell := k.wellFormed_of_ofPayload h
  have hread : k.ofPayload (k.toPayload x) = .ok x := by
    rw [k.reads_toPayload hwell, k.stored_of_ofPayload h]
  refine ⟨hwell, k.current_toPayload hwell, hread, ?_⟩
  rw [hread]
  rfl

end StoredKind

/-- A negation whose groups stand in the wrong order among keys without conditions, one of them an
older list with its name, and with members behind the last one that is read. -/
def Payload.scattered : Payload :=
  let equation := (Comparison.mk ⟨.equals, .plain⟩ (.value .null) (.value .null)).toPayload
  .ofKind "NotCondition"
    [.object (.ofKind "AndCondition"
      [.groups [(some "b", [.object equation]), (none, []),
        (some "a", [.object (.ofKind "OrCondition" [.list [.object equation], .text "c", .null])]),
        (none, [])], .int 7]), .null]

/-- What the scattered payload is read as. -/
def Condition.gathered : Condition :=
  let equation := Condition.compare ⟨⟨.equals, .plain⟩, .value .null, .value .null⟩
  .negation (.composite .and
    ⟨[(some "a", [.composite .or ⟨[(some "c", [equation])]⟩]), (some "b", [equation])]⟩)

/-- The payload whose groups are scattered over its entries is read as the gathered condition. -/
theorem Condition.ofPayload_scattered : ofPayload .scattered = .ok gathered := by
  rfl

theorem StoredKind.scattered_canonicalised :
    StoredKind.condition.ofPayload .scattered = .ok Condition.gathered
      ∧ StoredKind.condition.WellFormed Condition.gathered
      ∧ Payload.Current .condition (StoredKind.condition.toPayload Condition.gathered)
      ∧ StoredKind.condition.ofPayload (StoredKind.condition.toPayload Condition.gathered)
        = .ok Condition.gathered := by
  have h := ofPayload_canonicalises .condition (p := .scattered) (x := Condition.gathered)
    Condition.ofPayload_scattered
  exact ⟨Condition.ofPayload_scattered, h.1, h.2.1, h.2.2.1⟩

end QueryTree
