import QueryTree.Payload.Basic

/-!
# Reading members in order

A cursor stands before the unread members of a payload and counts the read ones. A `Read` consumes
members from the front; one that fails keeps what it consumed, so reading can go on behind a member
of the wrong shape.
-/

namespace QueryTree

/-- The unread members of a payload of the kind, and how many members stand before them. -/
structure Cursor where
  kind : String
  position : Nat
  rest : List Member
deriving Inhabited

/-- A computation that consumes members, and may fail. -/
abbrev Read := ExceptT DecodeError (StateM Cursor)

namespace Cursor

/-- The cursor before the first member. -/
def start (kind : String) (members : List Member) : Cursor :=
  ⟨kind, 0, members⟩

/-- The number of unread members. -/
def remaining (c : Cursor) : Nat :=
  c.rest.length

/-- The error for the member read last. -/
def mismatch (c : Cursor) (expected : String) : DecodeError :=
  .unexpectedMember c.kind (c.position - 1) expected

end Cursor

namespace Read

variable {α : Type}

/-- The next member, which has to be there. -/
def next : Read Member := fun c =>
  match c.rest with
  | m :: rest => (.ok m, ⟨c.kind, c.position + 1, rest⟩)
  | [] => (.error (.missingMember c.kind c.position), c)

/-- The next member, if there is one. Fields appended later are read in this way. -/
def nextOptional : Read (Option Member) := fun c =>
  match c.rest with
  | m :: rest => (.ok (some m), ⟨c.kind, c.position + 1, rest⟩)
  | [] => (.ok none, c)

/-- Refuses the member read last. -/
def refuse (expected : String) : Read α := fun c =>
  (.error (c.mismatch expected), c)

/-- A result that does not depend on the members. -/
def ofExcept (result : Except DecodeError α) : Read α := fun c =>
  (result, c)

/-- The number of unread members. -/
def remaining : Read Nat := fun c =>
  (.ok c.remaining, c)

/-- A text. -/
def text : Read String := do
  match ← next with
  | .text s => return s
  | _ => refuse "text"

/-- A text, or null. -/
def optionalText : Read (Option String) := do
  match ← next with
  | .null => return none
  | .text s => return some s
  | _ => refuse "text"

/-- A text, null, or nothing at all. -/
def trailingText : Read (Option String) := do
  match ← nextOptional with
  | none | some .null => return none
  | some (.text s) => return some s
  | some _ => refuse "text"

/-- An integer. -/
def int : Read Int64 := do
  match ← next with
  | .int n => return n
  | _ => refuse "int"

/-- A list of members. -/
def list : Read (List Member) := do
  match ← next with
  | .list items => return items
  | _ => refuse "list"

/-- A nested payload. -/
def object : Read Payload := do
  match ← next with
  | .object p => return p
  | _ => refuse "object"

/-- A nested node. -/
def element (read : Payload → Except DecodeError α) : Read α := do
  let p ← object
  ofExcept (read p)

/-- A nested node, or null. -/
def optionalElement (read : Payload → Except DecodeError α) : Read (Option α) := do
  match ← next with
  | .null => return none
  | .object p => ofExcept ((read p).map some)
  | _ => refuse "object"

/-- The nodes of a list of members. -/
def nodesOf (mismatch : DecodeError) (read : Payload → Except DecodeError α) :
    List Member → Except DecodeError (List α)
  | [] => .ok []
  | .object p :: ms => do
    let x ← read p
    let xs ← nodesOf mismatch read ms
    return x :: xs
  | _ :: _ => .error mismatch

/-- A list of nested nodes, which null stands for if it is empty. -/
def elements (read : Payload → Except DecodeError α) : Read (List α) := do
  match ← next with
  | .null => return []
  | .list items => fun c => (nodesOf (c.mismatch "list of objects") read items, c)
  | _ => refuse "list"

end Read

namespace Payload

/-- The cursor before the members of a payload of this family and of the kind. -/
def openAs (p : Payload) (kind : String) : Except DecodeError Cursor := do
  p.checkDomain
  if p.isKind kind then return .start kind p.members
  else throw (.unexpectedKind kind p.kind)

/-- Reads the members of a payload of the kind. -/
def readAs {α : Type} (kind : String) (read : Read α) (p : Payload) : Except DecodeError α := do
  let c ← p.openAs kind
  (read c).1

end Payload

end QueryTree
