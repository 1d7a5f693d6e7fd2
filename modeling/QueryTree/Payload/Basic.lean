import QueryTree.Error
import QueryTree.Groups
import QueryTree.Value

/-!
# Payloads

A payload is the stored form of a node: the family it belongs to, its kind, and its fields as a list
of members in a fixed order. Later fields are appended, so a payload is read from the front.
-/

namespace QueryTree

mutual

/-- The stored form of a node. -/
structure Payload where
  domain : String
  kind : String
  members : List Member

/-- One field of a payload, or an item of a list or group in it. -/
inductive Member where
  | null
  | int (n : Int64)
  | text (s : String)
  | value (v : Value)
  | list (items : List Member)
  | groups (entries : List (GroupKey × List Member))
  | object (p : Payload)

end

instance : Inhabited Payload := ⟨⟨"", "", []⟩⟩

instance : Inhabited Member := ⟨.null⟩

namespace Member

/-- A text that may be missing. -/
def optionalText : Option String → Member
  | some s => .text s
  | none => .null

/-- A nested payload that may be missing. -/
def optionalObject : Option Payload → Member
  | some p => .object p
  | none => .null

/-- A list of nested payloads. -/
def objects (ps : List Payload) : Member :=
  .list (ps.map .object)

end Member

namespace Payload

/-- A payload of this family. -/
def ofKind (kind : String) (members : List Member) : Payload :=
  ⟨queryDomain, kind, members⟩

/-- Refuses a payload of another family. -/
def checkDomain (p : Payload) : Except DecodeError Unit :=
  if p.domain = queryDomain then .ok () else .error (.unknownDomain p.domain)

/-- The payload is of the kind. -/
def isKind (p : Payload) (kind : String) : Bool :=
  p.kind == kind

end Payload

end QueryTree
