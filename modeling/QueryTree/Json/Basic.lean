import QueryTree.Json.Numeral

/-!
# JSON values

A JSON value keeps its numbers as they are spelled and its object fields in order, repeated keys
included. A string whose escapes contain half of a surrogate pair denotes no text and is kept as
`none`, so that it can still be skipped.
-/

namespace QueryTree

/-- A JSON value. -/
inductive Json where
  | null
  | boolean (b : Bool)
  | number (n : Json.Numeral)
  | string (s : Option String)
  | array (items : List Json)
  | object (fields : List (Option String × Json))

namespace Json

instance : Inhabited Json := ⟨.null⟩

/-- A string. -/
def text (s : String) : Json := .string (some s)

/-- An integer. -/
def int (n : Int) : Json := .number (.ofInt n)

/-- An object with one field. -/
def tagged (tag : String) (body : Json) : Json :=
  .object [(some tag, body)]

/-- The character for a hexadecimal digit, in lower case. -/
def hexDigit (n : Nat) : Char :=
  Nat.digitChar (n % 16)

/-- A character as it stands in a string: quotes, backslashes and control characters are escaped. -/
def escaped (c : Char) : List Char :=
  if c = '"' then ['\\', '"']
  else if c = '\\' then ['\\', '\\']
  else if c = '\x08' then ['\\', 'b']
  else if c = '\x0c' then ['\\', 'f']
  else if c = '\n' then ['\\', 'n']
  else if c = '\r' then ['\\', 'r']
  else if c = '\t' then ['\\', 't']
  else if c.toNat < 32 then ['\\', 'u', '0', '0', hexDigit (c.toNat / 16), hexDigit c.toNat]
  else [c]

/-- The text of a string. One that denotes no text is written as half of a surrogate pair. -/
def stringChars (s : Option String) : List Char :=
  '"' :: (match s with
    | some s => s.toList.flatMap escaped
    | none => ['\\', 'u', 'd', '8', '0', '0']) ++ ['"']

mutual

/-- The text of a value, without any blanks, in front of `rest`. -/
def write : Json → List Char → List Char
  | .null, rest => 'n' :: 'u' :: 'l' :: 'l' :: rest
  | .boolean true, rest => 't' :: 'r' :: 'u' :: 'e' :: rest
  | .boolean false, rest => 'f' :: 'a' :: 'l' :: 's' :: 'e' :: rest
  | .number n, rest => n.chars ++ rest
  | .string s, rest => stringChars s ++ rest
  | .array [], rest => '[' :: ']' :: rest
  | .array (x :: xs), rest => '[' :: write x (writeItems xs rest)
  | .object [], rest => '\x7b' :: '\x7d' :: rest
  | .object ((key, x) :: fields), rest =>
    '\x7b' :: (stringChars key ++ ':' :: write x (writeFields fields rest))
termination_by structural j => j

/-- The items behind the first, and the closing bracket, in front of `rest`. -/
def writeItems : List Json → List Char → List Char
  | [], rest => ']' :: rest
  | x :: xs, rest => ',' :: write x (writeItems xs rest)
termination_by structural xs => xs

/-- The fields behind the first, and the closing brace, in front of `rest`. -/
def writeFields : List (Option String × Json) → List Char → List Char
  | [], rest => '\x7d' :: rest
  | (key, x) :: fields, rest =>
    ',' :: (stringChars key ++ ':' :: write x (writeFields fields rest))
termination_by structural fields => fields

end

/-- The text of a value. -/
def chars (j : Json) : List Char :=
  write j []

/-- The text of a value as a string. -/
def render (j : Json) : String :=
  String.ofList j.chars

end Json

end QueryTree
