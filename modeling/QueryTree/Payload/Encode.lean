import QueryTree.Payload.Basic
import QueryTree.Update

/-!
# Nodes as payloads

Each node has one payload, in the current form of its kind. All fields of a node are stored except
the origin of a join.
-/

namespace QueryTree

/-- The payload of a table. -/
def Table.toPayload (t : Table) : Payload :=
  .ofKind "QueryTable" [.text t.name, .optionalText t.alias?, .optionalText t.source?]

/-- The payload of a table reference. -/
def TableRef.toPayload (r : TableRef) : Payload :=
  .ofKind "TableExpression" [.object r.table.toPayload]

/-- The payload of a column. -/
def Column.toPayload (c : Column) : Payload :=
  .ofKind "QueryColumn" [.object c.table.toPayload, .text c.name, .optionalText c.alias?]

/-- The payload of a list of values. -/
def AnyOf.toPayload (a : AnyOf) : Payload :=
  .ofKind "AnyValues" [.list (a.values.map .value)]

/-- The member of an operand. NULL is the null member. -/
def Operand.toMember : Operand → Member
  | .column c => .object c.toPayload
  | .value .null => .null
  | .value v => .value v
  | .anyOf a => .object a.toPayload

/-- The payload of a comparison. -/
def Comparison.toPayload (c : Comparison) : Payload :=
  .ofKind "CompareCondition" [.int c.operator.code, c.left.toMember, c.right.toMember]

namespace Condition

/-- The payload of a composite whose members are given by their own payloads. -/
def compositePayload (op : Connective) (members : Groups Payload) : Payload :=
  .ofKind op.kind [.groups (members.map .object).entries]

/-- The payload of a negation around a payload. -/
def negationPayload (inner : Payload) : Payload :=
  .ofKind "NotCondition" [.object inner]

/-- The payload of a condition. -/
def toPayload : Condition → Payload :=
  fold Comparison.toPayload compositePayload negationPayload

end Condition

/-- The payload of grouped conditions under a connective. -/
def Groups.toPayload (g : Groups Condition) (op : Connective) : Payload :=
  Condition.compositePayload op (g.map Condition.toPayload)

/-- The bit of a join's type member that marks a permanent join. -/
def permanentBit : Int := 65536

/-- Type and permanence of a join as one number. -/
def Join.typeCode (j : Join) : Int64 :=
  Int64.ofInt (j.type.code + (if j.permanent then permanentBit else 0))

/-- The payload of a join. -/
def Join.toPayload (j : Join) : Payload :=
  .ofKind "QueryJoin"
    [.text j.name, .object j.primary.toPayload, .object j.foreign.toPayload,
      .object (j.condition.toPayload .and), .int j.typeCode, .optionalText j.comment?]

/-- The payload of an update. No joins are stored as null. -/
def Update.toPayload (u : Update) : Payload :=
  .ofKind "QueryUpdate"
    [.object u.table.toPayload, .objects (u.columns.map (·.toPayload)),
      .list (u.values.map (·.toMember)),
      .optionalObject (u.condition?.map (·.toPayload .and)),
      if u.joins.isEmpty then .null else .objects (u.joins.map (·.toPayload))]

end QueryTree
