import QueryTree.Json.Basic
import QueryTree.Json.Lexer

/-!
# Parsing JSON

The parser reads one token at a time and keeps the open arrays and objects as a list of frames. A
text is one value with nothing but blanks around it.
-/

namespace QueryTree.Json

/-- An open array with its items so far, or an open object with its fields so far and the key of the
value being read. Items and fields are kept in reverse. -/
inductive Frame where
  | array (items : List Json)
  | object (fields : List (Option String × Json)) (key : Option String)
deriving Inhabited

/-- What the parser waits for inside the open frames. -/
inductive State where
  /-- A value. -/
  | value (frames : List Frame)
  /-- The first item of an array, or its end. -/
  | item (frames : List Frame)
  /-- The first key of an object, or its end. -/
  | field (frames : List Frame)
  /-- A key behind a comma. -/
  | key (fields : List (Option String × Json)) (frames : List Frame)
  /-- The colon behind a key. -/
  | colon (fields : List (Option String × Json)) (key : Option String) (frames : List Frame)
  /-- Whatever may follow a value. -/
  | after (v : Json) (frames : List Frame)
deriving Inhabited

/-- Reads the first token of a value. -/
def startValue (frames : List Frame) : Token → Option State
  | .null => some (.after .null frames)
  | .boolean b => some (.after (.boolean b) frames)
  | .number n => some (.after (.number n) frames)
  | .string s => some (.after (.string s) frames)
  | .openArray => some (.item frames)
  | .openObject => some (.field frames)
  | _ => none

/-- Reads one token. -/
def stepToken : State → Token → Option State
  | .value frames, t => startValue frames t
  | .item frames, .closeArray => some (.after (.array []) frames)
  | .item frames, t => startValue (.array [] :: frames) t
  | .field frames, .closeObject => some (.after (.object []) frames)
  | .field frames, .string k => some (.colon [] k frames)
  | .key fields frames, .string k => some (.colon fields k frames)
  | .colon fields k frames, .colon => some (.value (.object fields k :: frames))
  | .after v (.array items :: frames), .comma => some (.value (.array (v :: items) :: frames))
  | .after v (.array items :: frames), .closeArray =>
    some (.after (.array (v :: items).reverse) frames)
  | .after v (.object fields k :: frames), .comma => some (.key ((k, v) :: fields) frames)
  | .after v (.object fields k :: frames), .closeObject =>
    some (.after (.object ((k, v) :: fields).reverse) frames)
  | _, _ => none

/-- Reads all tokens from a state on. -/
def run (state : State) : List Token → Option State
  | [] => some state
  | t :: ts => (stepToken state t).bind (run · ts)

/-- The value that a list of tokens spells. -/
def ofTokens? (ts : List Token) : Option Json :=
  match run (.value []) ts with
  | some (.after v []) => some v
  | _ => none

/-- The value that a text spells. -/
def ofChars? (cs : List Char) : Option Json :=
  (tokens? cs).bind ofTokens?

/-- The value that a string spells. -/
def ofText? (text : String) : Option Json :=
  ofChars? text.toList

end QueryTree.Json
