import QueryTree.Decimal.Binary
import QueryTree.Json.Parser
import QueryTree.Payload.Basic

/-!
# Payloads as JSON text

Payloads, members and values are written as compact JSON and read back from it. Variants are objects
with one field, named for the variant, and the null variant is also a string. Containers may be
nested `depthLimit` deep, except below a field that payloads do not have, which is skipped.
-/

namespace QueryTree

/-- The number of arrays and objects that may be open at once. -/
def depthLimit : Nat := 127

/-- Reads text that spells a value of some type within the depth limit. -/
def readText {α : Type} (read : Nat → Json → Option α) (text : String) : Except DecodeError α :=
  match (Json.ofText? text).bind (read depthLimit) with
  | some x => .ok x
  | none => .error .malformedText

namespace Value

/-- The JSON form of a value. A decimal is written as a string. -/
def toJson : Value → Json
  | null => .text "null"
  | boolean b => .tagged "boolean" (.boolean b)
  | integer n => .tagged "integer" (.int n.toInt)
  | decimal d => .tagged "decimal" (.text d.render)
  | text s => .tagged "text" (.text s)

/-- The value of a variant's name and its body. -/
def ofTagged? (tag : String) : Json → Option Value
  | .null => if tag = "null" then some null else none
  | .boolean b => if tag = "boolean" then some (boolean b) else none
  | .number n =>
    if tag = "integer" then n.toInt64?.map integer
    else if tag = "decimal" then (Decimal.ofNumeral? n).map decimal
    else none
  | .string (some s) =>
    if tag = "text" then some (text s)
    else if tag = "decimal" then (Decimal.ofText? s).map decimal
    else none
  | _ => none

/-- Reads a value where `room` more containers may be opened. -/
def ofJson? (room : Nat) : Json → Option Value
  | .string s => if s = some "null" then some null else none
  | .object [(some tag, body)] => if room = 0 then none else ofTagged? tag body
  | _ => none

/-- The text of a value. -/
def toText (v : Value) : String :=
  v.toJson.render

/-- Reads a value from text. -/
def ofText (text : String) : Except DecodeError Value :=
  readText ofJson? text

end Value

/-- The JSON form of a group's key. -/
def GroupKey.toJson : GroupKey → Json
  | none => .null
  | some name => .text name

/-- Reads a group's key. -/
def GroupKey.ofJson? : Json → Option GroupKey
  | .null => some none
  | .string (some name) => some (some name)
  | _ => none

mutual

/-- The JSON form of a payload. -/
def Payload.toJson : Payload → Json
  | ⟨domain, kind, members⟩ =>
    .object [(some "domain", .text domain), (some "kind", .text kind),
      (some "members", .array (Member.listToJson members))]
termination_by structural p => p

/-- The JSON form of a member. -/
def Member.toJson : Member → Json
  | .null => .text "null"
  | .int n => .tagged "int" (.int n.toInt)
  | .text s => .tagged "text" (.text s)
  | .value v => .tagged "value" v.toJson
  | .list items => .tagged "list" (.array (Member.listToJson items))
  | .groups entries => .tagged "groups" (.array (Member.entriesToJson entries))
  | .object p => .tagged "object" p.toJson
termination_by structural m => m

/-- The JSON forms of the members in a list. -/
def Member.listToJson : List Member → List Json
  | [] => []
  | m :: ms => m.toJson :: Member.listToJson ms
termination_by structural ms => ms

/-- The JSON forms of the entries of groups, each a key and a list. -/
def Member.entriesToJson : List (GroupKey × List Member) → List Json
  | [] => []
  | (key, items) :: rest =>
    .array [key.toJson, .array (Member.listToJson items)] :: Member.entriesToJson rest
termination_by structural entries => entries

end

mutual

/-- Reads a payload from an object with its three fields in any order, or from an array of the
three. -/
def Payload.ofJson? (room : Nat) : Json → Option Payload
  | .object fields => if room = 0 then none else Payload.ofFields? (room - 1) none none none fields
  | .array [.string (some domain), .string (some kind), members] =>
    if room = 0 then none
    else (Member.listOfJson? (room - 1) members).map (⟨domain, kind, ·⟩)
  | _ => none
termination_by structural j => j

/-- Reads the fields of a payload behind those already read. Each of the three is given once, and
any other field is skipped. -/
def Payload.ofFields? (room : Nat) (domain kind : Option String) (members : Option (List Member)) :
    List (Option String × Json) → Option Payload
  | [] =>
    match domain, kind, members with
    | some domain, some kind, some members => some ⟨domain, kind, members⟩
    | _, _, _ => none
  | (none, _) :: _ => none
  | (some key, body) :: rest =>
    if key = "domain" then
      match domain, body with
      | none, .string (some s) => Payload.ofFields? room (some s) kind members rest
      | _, _ => none
    else if key = "kind" then
      match kind, body with
      | none, .string (some s) => Payload.ofFields? room domain (some s) members rest
      | _, _ => none
    else if key = "members" then
      match members, Member.listOfJson? room body with
      | none, some items => Payload.ofFields? room domain kind (some items) rest
      | _, _ => none
    else Payload.ofFields? room domain kind members rest
termination_by structural fields => fields

/-- Reads a member. -/
def Member.ofJson? (room : Nat) : Json → Option Member
  | .string s => if s = some "null" then some .null else none
  | .object [(some tag, body)] =>
    if room = 0 then none
    else if tag = "list" then (Member.listOfJson? (room - 1) body).map .list
    else if tag = "groups" then (Member.groupsOfJson? (room - 1) body).map .groups
    else if tag = "object" then (Payload.ofJson? (room - 1) body).map .object
    else if tag = "value" then (Value.ofJson? (room - 1) body).map .value
    else match body with
      | .null => if tag = "null" then some .null else none
      | .number n => if tag = "int" then n.toInt64?.map .int else none
      | .string (some s) => if tag = "text" then some (.text s) else none
      | _ => none
  | _ => none
termination_by structural j => j

/-- Reads an array of members. -/
def Member.listOfJson? (room : Nat) : Json → Option (List Member)
  | .array items => if room = 0 then none else Member.itemsOfJson? (room - 1) items
  | _ => none
termination_by structural j => j

/-- Reads the members in a list. -/
def Member.itemsOfJson? (room : Nat) : List Json → Option (List Member)
  | [] => some []
  | j :: js =>
    match Member.ofJson? room j, Member.itemsOfJson? room js with
    | some m, some ms => some (m :: ms)
    | _, _ => none
termination_by structural js => js

/-- Reads an array of group entries. -/
def Member.groupsOfJson? (room : Nat) : Json → Option (List (GroupKey × List Member))
  | .array entries => if room = 0 then none else Member.entriesOfJson? (room - 1) entries
  | _ => none
termination_by structural j => j

/-- Reads the entries of groups, each an array of a key and an array of members. -/
def Member.entriesOfJson? (room : Nat) : List Json → Option (List (GroupKey × List Member))
  | [] => some []
  | .array [key, items] :: rest =>
    if room = 0 then none
    else match GroupKey.ofJson? key, Member.listOfJson? (room - 1) items,
        Member.entriesOfJson? room rest with
      | some key, some items, some entries => some ((key, items) :: entries)
      | _, _, _ => none
  | _ :: _ => none
termination_by structural js => js

end

/-- The text of a payload. -/
def Payload.toText (p : Payload) : String :=
  p.toJson.render

/-- The text of a member. -/
def Member.toText (m : Member) : String :=
  m.toJson.render

/-- The text of a list of members. -/
def Member.listToText (items : List Member) : String :=
  (Json.array (Member.listToJson items)).render

/-- Reads a payload from text. -/
def Payload.ofText (text : String) : Except DecodeError Payload :=
  readText Payload.ofJson? text

/-- Reads a member from text. -/
def Member.ofText (text : String) : Except DecodeError Member :=
  readText Member.ofJson? text

/-- Reads a list of members from text. -/
def Member.listOfText (text : String) : Except DecodeError (List Member) :=
  readText Member.listOfJson? text

end QueryTree
