import QueryTree.Proofs.Equality
import QueryTree.Proofs.PayloadText
import QueryTree.Proofs.RoundTrip

/-! # Nodes without signs of zeros

Reading a node from text can change one thing about its values, the sign of a decimal that is zero.
`dropZeroSigns` makes the same change to the nodes themselves. It keeps what well-formedness is
about, it commutes with writing payloads, and equality does not see it.
-/

namespace QueryTree

/-- The list with every value in it as `Value.dropZeroSign` leaves it. -/
def AnyOf.dropZeroSigns (a : AnyOf) : AnyOf :=
  ⟨a.values.map Value.dropZeroSign⟩

def Operand.dropZeroSigns : Operand → Operand
  | .column c => .column c
  | .value v => .value v.dropZeroSign
  | .anyOf a => .anyOf a.dropZeroSigns

def Comparison.dropZeroSigns (c : Comparison) : Comparison :=
  { c with left := c.left.dropZeroSigns, right := c.right.dropZeroSigns }

/-- The condition with every value in it as `Value.dropZeroSign` leaves it. -/
def Condition.dropZeroSigns : Condition → Condition :=
  fold (fun c => .compare c.dropZeroSigns) .composite .negation

def Groups.dropZeroSigns (g : Groups Condition) : Groups Condition :=
  g.map Condition.dropZeroSigns

def Join.dropZeroSigns (j : Join) : Join :=
  { j with condition := j.condition.dropZeroSigns }

def Update.dropZeroSigns (u : Update) : Update :=
  { u with
    values := u.values.map Operand.dropZeroSigns
    condition? := u.condition?.map Groups.dropZeroSigns
    joins := u.joins.map Join.dropZeroSigns }

namespace StoredKind

/-- The node with every value in it as `Value.dropZeroSign` leaves it. -/
def dropZeroSigns : (k : StoredKind) → k.Node → k.Node
  | .anyOf, a => a.dropZeroSigns
  | .comparison, c => c.dropZeroSigns
  | .composite _, g => g.dropZeroSigns
  | .condition, c => c.dropZeroSigns
  | .join, j => j.dropZeroSigns
  | .update, u => u.dropZeroSigns
  | .table, t => t
  | .tableRef, r => r
  | .column, c => c

end StoredKind

namespace Condition

/-- In a conjunction or disjunction signs of zeros are dropped in its groups. -/
theorem dropZeroSigns_composite (op : Connective) (g : Groups Condition) :
    (composite op g).dropZeroSigns = composite op g.dropZeroSigns :=
  fold_composite ..

end Condition

/-- The members of groups without signs of zeros are their members without these. -/
theorem Groups.mem_toList_dropZeroSigns {g : Groups Condition} {c : Condition} :
    c ∈ g.dropZeroSigns.toList ↔ ∃ d ∈ g.toList, d.dropZeroSigns = c := by
  rw [dropZeroSigns, toList_map, List.mem_map]

/-! ## They are as well-formed -/

/-- A condition stays well-formed without signs of zeros. -/
theorem Condition.WellFormed.dropZeroSigns {c : Condition} (h : c.WellFormed) :
    c.dropZeroSigns.WellFormed := by
  induction h with
  | compare c => exact .compare _
  | composite op hg _ ih =>
    rw [dropZeroSigns_composite]
    refine .composite op (hg.map _) fun c hc => ?_
    obtain ⟨d, hd, rfl⟩ := Groups.mem_toList_dropZeroSigns.1 hc
    exact ih d hd
  | negation _ ih => exact .negation ih

/-- Groups stay well-formed without signs of zeros. -/
theorem Groups.WellFormed.dropZeroSigns {g : Groups Condition} (h : g.WellFormed) :
    g.dropZeroSigns.WellFormed := by
  refine ⟨h.tidy.map _, fun c hc => ?_⟩
  obtain ⟨d, hd, rfl⟩ := mem_toList_dropZeroSigns.1 hc
  exact (h.members d hd).dropZeroSigns

/-- A comparison stays one, and nothing else becomes one. -/
theorem Condition.isCompare_dropZeroSigns (c : Condition) :
    c.dropZeroSigns.isCompare = c.isCompare := by
  cases c with
  | composite op g =>
    rw [dropZeroSigns_composite]
    rfl
  | _ => rfl

/-- A join stays well-formed without signs of zeros. -/
theorem Join.WellFormed.dropZeroSigns {j : Join} (h : j.WellFormed) :
    j.dropZeroSigns.WellFormed := by
  refine ⟨h.condition.dropZeroSigns, fun c hc => ?_⟩
  obtain ⟨d, hd, rfl⟩ := Groups.mem_toList_dropZeroSigns.1 hc
  rw [Condition.isCompare_dropZeroSigns]
  exact h.compares d hd

/-- An update stays well-formed without signs of zeros. -/
theorem Update.WellFormed.dropZeroSigns {u : Update} (h : u.WellFormed) :
    u.dropZeroSigns.WellFormed := by
  refine ⟨?_, fun g hg => ?_, fun j hj => ?_⟩
  · rw [Update.dropZeroSigns, List.length_map]
    exact h.paired
  · obtain ⟨g, hold, rfl⟩ := Option.map_eq_some_iff.1 hg
    exact (h.condition g hold).dropZeroSigns
  · obtain ⟨j, hold, rfl⟩ := List.mem_map.1 hj
    exact (h.joins j hold).dropZeroSigns

/-- A node of any kind stays well-formed without signs of zeros. -/
theorem StoredKind.wellFormed_dropZeroSigns (k : StoredKind) {x : k.Node} (h : k.WellFormed x) :
    k.WellFormed (k.dropZeroSigns x) := by
  cases k with
  | composite op => exact Groups.WellFormed.dropZeroSigns h
  | condition => exact Condition.WellFormed.dropZeroSigns h
  | join => exact Join.WellFormed.dropZeroSigns h
  | update => exact Update.WellFormed.dropZeroSigns h
  | _ => trivial

/-! ## Their payloads -/

namespace Member

/-- There is no sign to drop in a text. -/
@[simp] theorem dropZeroSigns_text (s : String) : (text s).dropZeroSigns = text s := rfl

/-- There is no sign to drop in an integer. -/
@[simp] theorem dropZeroSigns_int (n : Int64) : (int n).dropZeroSigns = int n := rfl

/-- In an object signs are dropped in its payload. -/
@[simp] theorem dropZeroSigns_object (p : Payload) :
    (object p).dropZeroSigns = object p.dropZeroSigns := rfl

/-- There is no sign to drop in an optional text. -/
@[simp] theorem dropZeroSigns_optionalText (s : Option String) :
    (optionalText s).dropZeroSigns = optionalText s := by
  cases s <;> rfl

/-- In an optional object signs are dropped in its payload, if there is one. -/
@[simp] theorem dropZeroSigns_optionalObject (p : Option Payload) :
    (optionalObject p).dropZeroSigns = optionalObject (p.map Payload.dropZeroSigns) := by
  cases p <;> rfl

/-- In the items of a list signs are dropped one by one. -/
theorem listDropZeroSigns_eq_map (ms : List Member) :
    listDropZeroSigns ms = ms.map dropZeroSigns := by
  induction ms with
  | nil => rfl
  | cons m ms ih => rw [listDropZeroSigns, ih, List.map_cons]

/-- In a list signs are dropped in its items. -/
@[simp] theorem dropZeroSigns_list (items : List Member) :
    (list items).dropZeroSigns = list (items.map dropZeroSigns) := by
  rw [dropZeroSigns, listDropZeroSigns_eq_map]

/-- In a list of objects signs are dropped in their payloads. -/
@[simp] theorem dropZeroSigns_objects (ps : List Payload) :
    (objects ps).dropZeroSigns = objects (ps.map Payload.dropZeroSigns) := by
  simp [objects]

/-- In groups signs are dropped in the items of each entry. -/
@[simp] theorem dropZeroSigns_groups (entries : List (GroupKey × List Member)) :
    (groups entries).dropZeroSigns
      = groups (entries.map fun e => (e.1, e.2.map dropZeroSigns)) := by
  have hentries : entriesDropZeroSigns entries
      = entries.map fun e => (e.1, e.2.map dropZeroSigns) := by
    induction entries with
    | nil => rfl
    | cons e rest ih => rw [entriesDropZeroSigns, ih, listDropZeroSigns_eq_map, List.map_cons]
  rw [dropZeroSigns, hentries]

end Member

/-- In a payload signs are dropped in its members. -/
@[simp] theorem Payload.dropZeroSigns_ofKind (kind : String) (members : List Member) :
    (ofKind kind members).dropZeroSigns = ofKind kind (members.map Member.dropZeroSigns) := by
  rw [ofKind, dropZeroSigns, Member.listDropZeroSigns_eq_map, ofKind]

/-- There is no sign to drop in the payload of a table. -/
@[simp] theorem Table.dropZeroSigns_toPayload (t : Table) :
    t.toPayload.dropZeroSigns = t.toPayload := by
  simp [toPayload]

/-- There is no sign to drop in the payload of a table reference. -/
@[simp] theorem TableRef.dropZeroSigns_toPayload (r : TableRef) :
    r.toPayload.dropZeroSigns = r.toPayload := by
  simp [toPayload]

/-- There is no sign to drop in the payload of a column. -/
@[simp] theorem Column.dropZeroSigns_toPayload (c : Column) :
    c.toPayload.dropZeroSigns = c.toPayload := by
  simp [toPayload]

/-- Signs may be dropped in a set of values before or after it is written. -/
theorem AnyOf.toPayload_dropZeroSigns (a : AnyOf) :
    a.dropZeroSigns.toPayload = a.toPayload.dropZeroSigns := by
  have hvalue (v : Value) : (Member.value v).dropZeroSigns = .value v.dropZeroSign := rfl
  simp [toPayload, dropZeroSigns, Function.comp_def, hvalue]

/-- Signs may be dropped in an operand before or after it is written. -/
theorem Operand.toMember_dropZeroSigns (o : Operand) :
    o.dropZeroSigns.toMember = o.toMember.dropZeroSigns := by
  cases o with
  | column c => simp [dropZeroSigns, toMember]
  | value v => cases v <;> rfl
  | anyOf a => simp [dropZeroSigns, toMember, AnyOf.toPayload_dropZeroSigns]

/-- Signs may be dropped in a comparison before or after it is written. -/
theorem Comparison.toPayload_dropZeroSigns (c : Comparison) :
    c.dropZeroSigns.toPayload = c.toPayload.dropZeroSigns := by
  simp [toPayload, dropZeroSigns, Operand.toMember_dropZeroSigns]

/-- Groups are stored without signs of zeros when the conditions in them are. -/
theorem Groups.toPayload_dropZeroSigns_of_members {g : Groups Condition} (op : Connective)
    (h : ∀ c ∈ g.toList, c.dropZeroSigns.toPayload = c.toPayload.dropZeroSigns) :
    g.dropZeroSigns.toPayload op = (g.toPayload op).dropZeroSigns := by
  simp only [toPayload, Condition.compositePayload, Payload.dropZeroSigns_ofKind, dropZeroSigns,
    List.map_cons, List.map_nil, Member.dropZeroSigns_groups, map, List.map_map]
  congr 3
  refine List.map_congr_left fun e he => Prod.ext rfl ?_
  simp only [Function.comp_apply, List.map_map]
  refine List.map_congr_left fun c hc => ?_
  simpa using h c (mem_toList.2 ⟨e, he, hc⟩)

/-- Signs may be dropped in a condition before or after it is written. -/
theorem Condition.toPayload_dropZeroSigns (c : Condition) :
    c.dropZeroSigns.toPayload = c.toPayload.dropZeroSigns := by
  induction c using Condition.induction with
  | compare c => exact c.toPayload_dropZeroSigns
  | composite op g ih =>
    rw [dropZeroSigns_composite, toPayload_composite, toPayload_composite]
    exact Groups.toPayload_dropZeroSigns_of_members op ih
  | negation c ih =>
    change negationPayload c.dropZeroSigns.toPayload = (negationPayload c.toPayload).dropZeroSigns
    simp [negationPayload, ih]

/-- Signs may be dropped in groups before or after they are written. -/
theorem Groups.toPayload_dropZeroSigns (g : Groups Condition) (op : Connective) :
    g.dropZeroSigns.toPayload op = (g.toPayload op).dropZeroSigns :=
  toPayload_dropZeroSigns_of_members op fun c _ => c.toPayload_dropZeroSigns

/-- Signs may be dropped in a join before or after it is written. -/
theorem Join.toPayload_dropZeroSigns (j : Join) :
    j.dropZeroSigns.toPayload = j.toPayload.dropZeroSigns := by
  have htype : j.dropZeroSigns.typeCode = j.typeCode := rfl
  have hcondition : j.dropZeroSigns.condition = j.condition.dropZeroSigns := rfl
  rw [toPayload, htype, hcondition, Groups.toPayload_dropZeroSigns]
  simp [toPayload, dropZeroSigns]

/-- Signs may be dropped in an update before or after it is written. -/
theorem Update.toPayload_dropZeroSigns (u : Update) :
    u.dropZeroSigns.toPayload = u.toPayload.dropZeroSigns := by
  have hjoins : (if (u.joins.map Join.dropZeroSigns).isEmpty then Member.null
      else .objects ((u.joins.map Join.dropZeroSigns).map (·.toPayload)))
      = (if u.joins.isEmpty then Member.null
        else .objects (u.joins.map (·.toPayload))).dropZeroSigns := by
    -- no joins are stored as null, and there are as many of them as before
    rw [List.isEmpty_map]
    split
    · rfl
    · simp [Join.toPayload_dropZeroSigns, Function.comp_def]
  rw [toPayload, dropZeroSigns, hjoins]
  simp [toPayload, Groups.toPayload_dropZeroSigns, Operand.toMember_dropZeroSigns,
    Function.comp_def]

/-- Signs may be dropped in a node of any kind before or after it is written. -/
theorem StoredKind.toPayload_dropZeroSigns (k : StoredKind) (x : k.Node) :
    k.toPayload (k.dropZeroSigns x) = (k.toPayload x).dropZeroSigns := by
  cases k with
  | table => exact (Table.dropZeroSigns_toPayload x).symm
  | tableRef => exact (TableRef.dropZeroSigns_toPayload x).symm
  | column => exact (Column.dropZeroSigns_toPayload x).symm
  | anyOf => exact AnyOf.toPayload_dropZeroSigns x
  | comparison => exact Comparison.toPayload_dropZeroSigns x
  | composite op => exact Groups.toPayload_dropZeroSigns x op
  | condition => exact Condition.toPayload_dropZeroSigns x
  | join => exact Join.toPayload_dropZeroSigns x
  | update => exact Update.toPayload_dropZeroSigns x

/-! ## They are equal -/

/-- A value is equal to what is left of it without the sign of a zero. -/
theorem Value.dropZeroSign_beq (v : Value) : v.dropZeroSign == v := by
  cases v with
  | decimal d => exact d.dropZeroSign_beq
  | null => rfl
  | boolean b => exact beq_self_eq_true b
  | integer n => exact beq_self_eq_true n
  | text s => exact beq_self_eq_true s

/-- A set of values is equal to what is left of it without signs of zeros. -/
theorem AnyOf.dropZeroSigns_beq (a : AnyOf) : a.dropZeroSigns == a :=
  map_beq_self fun v _ => v.dropZeroSign_beq

/-- An operand is equal to what is left of it without signs of zeros. -/
theorem Operand.dropZeroSigns_beq (o : Operand) : o.dropZeroSigns == o := by
  cases o with
  | column c => exact beq_self_eq_true c
  | value v => exact v.dropZeroSign_beq
  | anyOf a => exact a.dropZeroSigns_beq

/-- A comparison is equal to what is left of it without signs of zeros. -/
theorem Comparison.dropZeroSigns_beq (c : Comparison) : c.dropZeroSigns == c := by
  change (c.operator == c.operator
    && (c.left.dropZeroSigns == c.left && c.right.dropZeroSigns == c.right)) = true
  simp [Operand.dropZeroSigns_beq]

/-- Groups are equal to what is left of them without signs of zeros if their members are. -/
theorem Groups.dropZeroSigns_beq_of_members {g : Groups Condition}
    (h : ∀ c ∈ g.toList, c.dropZeroSigns == c) : g.dropZeroSigns == g := by
  refine map_beq_self fun e he => ?_
  have hitems : e.2.map Condition.dropZeroSigns == e.2 :=
    map_beq_self fun c hc => h c (mem_toList.2 ⟨e, he, hc⟩)
  change (e.1 == e.1 && e.2.map Condition.dropZeroSigns == e.2) = true
  rw [hitems, beq_self_eq_true, Bool.and_self]

/-- A condition is equal to what is left of it without signs of zeros. -/
theorem Condition.dropZeroSigns_beq (c : Condition) : c.dropZeroSigns == c := by
  induction c using Condition.induction with
  | compare c => exact c.dropZeroSigns_beq
  | composite op g ih =>
    rw [dropZeroSigns_composite, composite_beq, Groups.dropZeroSigns_beq_of_members ih,
      Bool.and_true, beq_self_eq_true]
  | negation c ih => exact ih

/-- Groups are equal to what is left of them without signs of zeros. -/
theorem Groups.dropZeroSigns_beq (g : Groups Condition) : g.dropZeroSigns == g :=
  dropZeroSigns_beq_of_members fun c _ => c.dropZeroSigns_beq

end QueryTree
