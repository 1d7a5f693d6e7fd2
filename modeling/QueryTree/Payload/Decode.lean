import QueryTree.Payload.Cursor
import QueryTree.Payload.Encode

/-!
# Nodes from payloads

Each kind of node is read from the members of its payload, in the current form or in an older one:
a join's foreign side may be a bare table, its comment may be missing, grouped conditions may be one
list with or without a name, and an update may lack its joins. Members behind those that a kind has
are ignored.
-/

namespace QueryTree

/-- Reads a table. -/
def Table.ofPayload : Payload → Except DecodeError Table :=
  Payload.readAs "QueryTable" do
    let name ← Read.text
    let alias? ← Read.optionalText
    let source? ← Read.optionalText
    return ⟨name, alias?, source?⟩

/-- Reads a table reference. -/
def TableRef.ofPayload : Payload → Except DecodeError TableRef :=
  Payload.readAs "TableExpression" do
    let table ← Read.element Table.ofPayload
    return ⟨table⟩

/-- Reads a column. -/
def Column.ofPayload : Payload → Except DecodeError Column :=
  Payload.readAs "QueryColumn" do
    let table ← Read.element Table.ofPayload
    let name ← Read.text
    let alias? ← Read.optionalText
    return ⟨table, name, alias?⟩

/-- The values of a list of members, in which null stands for NULL. -/
def AnyOf.valuesOf (mismatch : DecodeError) : List Member → Except DecodeError (List Value)
  | [] => .ok []
  | .value v :: ms => (v :: ·) <$> valuesOf mismatch ms
  | .null :: ms => (.null :: ·) <$> valuesOf mismatch ms
  | _ :: _ => .error mismatch

/-- Reads a list of values. -/
def AnyOf.ofPayload : Payload → Except DecodeError AnyOf :=
  Payload.readAs "AnyValues" do
    let items ← Read.list
    fun c => ((valuesOf (c.mismatch "value") items).map AnyOf.mk, c)

/-- Reads a member as an operand. A nested payload is told apart by its kind. -/
def Operand.ofMember (mismatch : DecodeError) : Member → Except DecodeError Operand
  | .null => .ok (.value .null)
  | .value v => .ok (.value v)
  | .object p =>
    if p.isKind "QueryColumn" then (Column.ofPayload p).map .column
    else if p.isKind "AnyValues" then (AnyOf.ofPayload p).map .anyOf
    else .error mismatch
  | _ => .error mismatch

/-- Reads the next member as an operand. -/
def Operand.read : Read Operand := do
  let m ← Read.next
  fun c => (ofMember (c.mismatch "operand") m, c)

/-- Reads every member as an operand. -/
def Operand.readAll (kind : String) (position : Nat) :
    List Member → Except DecodeError (List Operand)
  | [] => .ok []
  | m :: ms => do
    let o ← ofMember (.unexpectedMember kind position "operand") m
    let os ← readAll kind (position + 1) ms
    return o :: os

/-- Reads a comparison. -/
def Comparison.ofPayload : Payload → Except DecodeError Comparison :=
  Payload.readAs "CompareCondition" do
    let code ← Read.int
    let operator ← Read.ofExcept (Operator.ofCode code)
    let left ← Operand.read
    let right ← Operand.read
    return ⟨operator, left, right⟩

namespace Condition

/-- The name behind an older list of conditions: a text, or null, or nothing. -/
def legacyKey (kind : String) : List Member → Except DecodeError GroupKey
  | [] | .null :: _ => .ok none
  | .text name :: _ => .ok (some name)
  | _ :: _ => .error (.unexpectedMember kind 1 "text")

mutual

/-- Reads a condition, told apart by the kind of the payload. -/
def ofPayload : Payload → Except DecodeError Condition
  | ⟨domain, kind, members⟩ =>
    if domain ≠ queryDomain then .error (.unknownDomain domain)
    else if kind = "CompareCondition" then
      (Comparison.ofPayload ⟨domain, kind, members⟩).map .compare
    else if kind = Connective.and.kind then
      (groupsOf kind members).map (.composite .and)
    else if kind = Connective.or.kind then
      (groupsOf kind members).map (.composite .or)
    else if kind = "NotCondition" then
      (innerOf kind members).map .negation
    else .error (.unexpectedKind "Condition" kind)
termination_by structural p => p

/-- Reads the condition in the first member. -/
def innerOf (kind : String) : List Member → Except DecodeError Condition
  | [] => .error (.missingMember kind 0)
  | .object p :: _ => ofPayload p
  | _ :: _ => .error (.unexpectedMember kind 0 "object")
termination_by structural members => members

/-- Reads the groups in the first member, or an older list of conditions with its name. -/
def groupsOf (kind : String) : List Member → Except DecodeError (Groups Condition)
  | [] => .error (.missingMember kind 0)
  | .groups entries :: _ => entriesOf kind .empty entries
  | .list items :: rest => do
    let conditions ← conditionsOf kind items
    let key ← legacyKey kind rest
    return Groups.empty.addAllTo key conditions
  | _ :: _ => .error (.unexpectedMember kind 0 "condition groups")
termination_by structural members => members

/-- Reads the entries of groups behind those already read. An entry without conditions is no group,
and no group may be given twice. -/
def entriesOf (kind : String) (groups : Groups Condition) :
    List (GroupKey × List Member) → Except DecodeError (Groups Condition)
  | [] => .ok groups
  | (key, items) :: rest => do
    let conditions ← conditionsOf kind items
    if conditions.isEmpty then
      entriesOf kind groups rest
    else if groups.contains key then
      .error (.unexpectedMember kind 0 "condition groups")
    else
      entriesOf kind (groups.insert key conditions) rest
termination_by structural entries => entries

/-- Reads every member as a condition. -/
def conditionsOf (kind : String) : List Member → Except DecodeError (List Condition)
  | [] => .ok []
  | .object p :: rest => do
    let c ← ofPayload p
    let cs ← conditionsOf kind rest
    return c :: cs
  | _ :: _ => .error (.unexpectedMember kind 0 "list of conditions")
termination_by structural members => members

end

end Condition

/-- Reads grouped conditions under a connective. -/
def Groups.ofPayload (op : Connective) (p : Payload) : Except DecodeError (Groups Condition) := do
  let c ← p.openAs op.kind
  Condition.groupsOf op.kind c.rest

/-- Splits the type member of a join into the type and the permanence. -/
def Join.ofTypeCode (code : Int64) : Except DecodeError (JoinType × Bool) :=
  let n := code.toInt
  let permanent := n / permanentBit % 2 == 1
  let base := if permanent then n - permanentBit else n
  (JoinType.ofCode (Int64.ofInt base)).map (·, permanent)

/-- Reads the foreign side of a join, in older payloads a bare table. -/
def Join.foreignOf (p : Payload) : Except DecodeError TableRef :=
  if p.isKind "QueryTable" then (Table.ofPayload p).map TableRef.mk else TableRef.ofPayload p

/-- Reads a join. Its condition has to have the shape of a join's condition. -/
def Join.ofPayload : Payload → Except DecodeError Join :=
  Payload.readAs "QueryJoin" do
    let name ← Read.text
    let primary ← Read.element Table.ofPayload
    let foreign ← Read.element foreignOf
    let condition ← Read.element (Groups.ofPayload .and)
    let code ← Read.int
    let (type, permanent) ← Read.ofExcept (ofTypeCode code)
    let comment? ← Read.trailingText
    let made := make name primary foreign (.composite .and condition) type permanent
    let join ← Read.ofExcept (made.mapError .join)
    return { join with comment? := comment? }

/-- Reads an update, whose columns and values have to be as many. -/
def Update.ofPayload : Payload → Except DecodeError Update :=
  Payload.readAs "QueryUpdate" do
    let table ← Read.element Table.ofPayload
    let columns ← Read.elements Column.ofPayload
    let items ← Read.list
    let values ← Read.ofExcept (Operand.readAll "QueryUpdate" 0 items)
    if values.length ≠ columns.length then
      Read.ofExcept (.error (.unpairedValues columns.length values.length))
    let condition? ← Read.optionalElement (Groups.ofPayload .and)
    let joins ← if (← Read.remaining) = 0 then pure [] else Read.elements Join.ofPayload
    return ⟨table, columns, values, condition?, joins⟩

end QueryTree
