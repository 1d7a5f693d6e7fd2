import QueryTree.Payload.Basic
import QueryTree.Proofs.GroupView

/-! # Shapes of members

`layout` lists the shapes that the members of each kind have to have, and `FieldShape.Misfit` says
as what a member of another shape is refused. -/

namespace QueryTree

/-- The shapes that members have to have. -/
inductive FieldShape where
  | text
  | optionalText
  | int
  | object
  | optionalObject
  | objects
  | values
  | operand
  | operands
  | conditions
deriving DecidableEq, Repr

/-- The shapes of the members of a kind, in their order. -/
def layout : String → List FieldShape
  | "QueryTable" => [.text, .optionalText, .optionalText]
  | "TableExpression" => [.object]
  | "QueryColumn" => [.object, .text, .optionalText]
  | "AnyValues" => [.values]
  | "CompareCondition" => [.int, .operand, .operand]
  | "AndCondition" | "OrCondition" => [.conditions, .optionalText]
  | "NotCondition" => [.object]
  | "QueryJoin" => [.text, .object, .object, .object, .int, .optionalText]
  | "QueryUpdate" => [.object, .objects, .operands, .optionalObject, .objects]
  | _ => []

namespace Member

/-- The member is a nested payload. -/
def IsObject (m : Member) : Prop := ∃ q, m = .object q

/-- The member is a value, or null for NULL. -/
def IsValue (m : Member) : Prop := m = .null ∨ ∃ v, m = .value v

/-- The member is a value, or a nested payload of a column or a list of values. -/
def IsOperand (m : Member) : Prop :=
  m.IsValue ∨ ∃ q, m = .object q ∧ (q.kind = "QueryColumn" ∨ q.kind = "AnyValues")

/-- The payload is the member, or an item of its list or its groups. -/
inductive Nests : Member → Payload → Prop where
  | object (q : Payload) : Nests (.object q) q
  | item {items : List Member} {q : Payload} : .object q ∈ items → Nests (.list items) q
  | entry {entries : List (GroupKey × List Member)} {e : GroupKey × List Member} {q : Payload} :
    e ∈ entries → .object q ∈ e.2 → Nests (.groups entries) q

end Member

/-- The member, or an item of its list or its groups, is not what the shape asks for, which the text
says. -/
inductive FieldShape.Misfit : FieldShape → String → Member → Prop where
  | text {m : Member} : (∀ s, m ≠ .text s) → Misfit .text "text" m
  | optionalText {m : Member} : m ≠ .null → (∀ s, m ≠ .text s) → Misfit .optionalText "text" m
  | int {m : Member} : (∀ n, m ≠ .int n) → Misfit .int "int" m
  | object {m : Member} : ¬ m.IsObject → Misfit .object "object" m
  | optionalObject {m : Member} : m ≠ .null → ¬ m.IsObject → Misfit .optionalObject "object" m
  | objects {m : Member} : m ≠ .null → (∀ items, m ≠ .list items) → Misfit .objects "list" m
  | objectItem {items : List Member} {m : Member} : m ∈ items → ¬ m.IsObject →
    Misfit .objects "list of objects" (.list items)
  | values {m : Member} : (∀ items, m ≠ .list items) → Misfit .values "list" m
  | valueItem {items : List Member} {m : Member} : m ∈ items → ¬ m.IsValue →
    Misfit .values "value" (.list items)
  | operand {m : Member} : ¬ m.IsOperand → Misfit .operand "operand" m
  | operands {m : Member} : (∀ items, m ≠ .list items) → Misfit .operands "list" m
  | operandItem {items : List Member} {m : Member} : m ∈ items → ¬ m.IsOperand →
    Misfit .operands "operand" (.list items)
  | conditions {m : Member} : (∀ entries, m ≠ .groups entries) → (∀ items, m ≠ .list items) →
    Misfit .conditions "condition groups" m
  | conditionItem {items : List Member} {m : Member} : m ∈ items → ¬ m.IsObject →
    Misfit .conditions "list of conditions" (.list items)
  | entryItem {entries : List (GroupKey × List Member)} {e : GroupKey × List Member} {m : Member} :
    e ∈ entries → m ∈ e.2 → ¬ m.IsObject →
    Misfit .conditions "list of conditions" (.groups entries)
  | repeatedKey {entries : List (GroupKey × List Member)} : ¬ (Groups.filledKeys entries).Nodup →
    Misfit .conditions "condition groups" (.groups entries)

end QueryTree
