import QueryTree.Json.Numeral

/-!
# JSON tokens

The lexer reads a text one character at a time. Its mode says what it is inside of, and a character
either changes the mode, ends a token, or is refused. Escaped UTF-16 units are paired up when a
string ends.
-/

namespace QueryTree.Json

/-- A token of JSON text. -/
inductive Token where
  | openArray
  | closeArray
  | openObject
  | closeObject
  | comma
  | colon
  | null
  | boolean (b : Bool)
  | number (n : Numeral)
  | string (s : Option String)
deriving DecidableEq, Repr, Inhabited

/-- A character of a string, or an escaped UTF-16 unit. -/
inductive Piece where
  | char (c : Char)
  | unit (u : Nat)
deriving DecidableEq, Repr, Inhabited

namespace Piece

/-- The unit is the first half of a surrogate pair. -/
def isLead (u : Nat) : Bool := 0xD800 ≤ u && u < 0xDC00

/-- The unit is the second half of a surrogate pair. -/
def isTrail (u : Nat) : Bool := 0xDC00 ≤ u && u < 0xE000

/-- The character of a surrogate pair. -/
def paired (lead trail : Nat) : Char :=
  Char.ofNat (0x10000 + (lead - 0xD800) * 0x400 + (trail - 0xDC00))

/-- The characters that the pieces denote, if no half of a pair stands alone. -/
def characters? : List Piece → Option (List Char)
  | [] => some []
  | .char c :: ps => (characters? ps).map (c :: ·)
  | .unit u :: .unit v :: ps =>
    if isLead u then
      if isTrail v then (characters? ps).map (paired u v :: ·) else none
    else if isTrail u then none
    else (characters? (.unit v :: ps)).map (Char.ofNat u :: ·)
  | .unit u :: ps =>
    if isLead u || isTrail u then none else (characters? ps).map (Char.ofNat u :: ·)

end Piece

/-- How much of a number is read. -/
inductive Phase where
  | sign
  | zero
  | whole
  | point
  | fraction
  | mark
  | exponentSign
  | exponent
deriving DecidableEq, Repr, Inhabited

/-- What the lexer is inside of. The pieces of a string are kept in reverse. -/
inductive Mode where
  | gap
  | word (rest : List Char) (token : Token)
  | text (pieces : List Piece)
  | escape (pieces : List Piece)
  | hex (pieces : List Piece) (missing value : Nat)
  | number (phase : Phase) (n : Numeral)
deriving DecidableEq, Repr, Inhabited

/-- The blanks between tokens. -/
def isGap (c : Char) : Bool :=
  c == ' ' || c == '\t' || c == '\n' || c == '\r'

/-- The value of a hexadecimal digit in either case. -/
def hexValue? (c : Char) : Option Nat :=
  if c.isDigit then some (c.toNat - '0'.toNat)
  else if 'a' ≤ c ∧ c ≤ 'f' then some (c.toNat - 'a'.toNat + 10)
  else if 'A' ≤ c ∧ c ≤ 'F' then some (c.toNat - 'A'.toNat + 10)
  else none

/-- The character that a one-letter escape stands for. -/
def escapedChar? : Char → Option Char
  | '"' => some '"'
  | '\\' => some '\\'
  | '/' => some '/'
  | 'b' => some '\x08'
  | 'f' => some '\x0c'
  | 'n' => some '\n'
  | 'r' => some '\r'
  | 't' => some '\t'
  | _ => none

/-- A number of which nothing is read. -/
def Numeral.start (negative : Bool) : Numeral := ⟨negative, [], [], none⟩

/-- One more digit before the point. -/
def Numeral.pushWhole (n : Numeral) (c : Char) : Numeral :=
  { n with whole := n.whole ++ [c] }

/-- One more digit behind the point. -/
def Numeral.pushFraction (n : Numeral) (c : Char) : Numeral :=
  { n with fraction := n.fraction ++ [c] }

/-- One more digit of the exponent. -/
def Numeral.pushExponent (n : Numeral) (c : Char) : Numeral :=
  { n with exponent := n.exponent.map fun e => { e with digits := e.digits ++ [c] } }

/-- An exponent of which the sign is read. -/
def Numeral.openExponent (n : Numeral) (negative : Bool) : Numeral :=
  { n with exponent := some ⟨negative, []⟩ }

/-- Reads a character between tokens. -/
def startToken (c : Char) : Option (List Token × Mode) :=
  if isGap c then some ([], .gap)
  else if c = '[' then some ([.openArray], .gap)
  else if c = ']' then some ([.closeArray], .gap)
  else if c = '\x7b' then some ([.openObject], .gap)
  else if c = '\x7d' then some ([.closeObject], .gap)
  else if c = ',' then some ([.comma], .gap)
  else if c = ':' then some ([.colon], .gap)
  else if c = '"' then some ([], .text [])
  else if c = 'n' then some ([], .word ['u', 'l', 'l'] .null)
  else if c = 't' then some ([], .word ['r', 'u', 'e'] (.boolean true))
  else if c = 'f' then some ([], .word ['a', 'l', 's', 'e'] (.boolean false))
  else if c = '-' then some ([], .number .sign (.start true))
  else if c = '0' then some ([], .number .zero ((Numeral.start false).pushWhole c))
  else if c.isDigit then some ([], .number .whole ((Numeral.start false).pushWhole c))
  else none

/-- Ends a number in front of a character that does not belong to it. -/
def endNumber (n : Numeral) (c : Char) : Option (List Token × Mode) :=
  (startToken c).map fun (tokens, mode) => (.number n :: tokens, mode)

/-- Reads a character that may open a fraction or an exponent. -/
def openTail (n : Numeral) (c : Char) : Option (List Token × Mode) :=
  if c = '.' then some ([], .number .point n)
  else if c = 'e' ∨ c = 'E' then some ([], .number .mark n)
  else endNumber n c

/-- Reads a character of a number, or the one behind it. -/
def stepNumber (n : Numeral) (c : Char) : Phase → Option (List Token × Mode)
  | .sign =>
    if c = '0' then some ([], .number .zero (n.pushWhole c))
    else if c.isDigit then some ([], .number .whole (n.pushWhole c))
    else none
  | .zero => openTail n c
  | .whole => if c.isDigit then some ([], .number .whole (n.pushWhole c)) else openTail n c
  | .point => if c.isDigit then some ([], .number .fraction (n.pushFraction c)) else none
  | .fraction =>
    if c.isDigit then some ([], .number .fraction (n.pushFraction c))
    else if c = 'e' ∨ c = 'E' then some ([], .number .mark n)
    else endNumber n c
  | .mark =>
    if c = '-' then some ([], .number .exponentSign (n.openExponent true))
    else if c = '+' then some ([], .number .exponentSign (n.openExponent false))
    else if c.isDigit then some ([], .number .exponent ((n.openExponent false).pushExponent c))
    else none
  | .exponentSign => if c.isDigit then some ([], .number .exponent (n.pushExponent c)) else none
  | .exponent =>
    if c.isDigit then some ([], .number .exponent (n.pushExponent c)) else endNumber n c

/-- Reads one character: the tokens that it ends, and the mode behind it. -/
def stepChar : Mode → Char → Option (List Token × Mode)
  | .gap, c => startToken c
  | .word (w :: rest) token, c =>
    if c = w then
      if rest.isEmpty then some ([token], .gap) else some ([], .word rest token)
    else none
  | .word [] _, _ => none
  | .text pieces, c =>
    if c = '"' then
      some ([.string ((Piece.characters? pieces.reverse).map String.ofList)], .gap)
    else if c = '\\' then some ([], .escape pieces)
    else if c.toNat < 32 then none
    else some ([], .text (.char c :: pieces))
  | .escape pieces, c =>
    if c = 'u' then some ([], .hex pieces 3 0)
    else (escapedChar? c).map fun d => ([], .text (.char d :: pieces))
  | .hex pieces missing value, c =>
    (hexValue? c).map fun d =>
      match missing with
      | 0 => ([], .text (.unit (16 * value + d) :: pieces))
      | missing + 1 => ([], .hex pieces missing (16 * value + d))
  | .number phase n, c => stepNumber n c phase

/-- The tokens that the end of the text ends. -/
def finish : Mode → Option (List Token)
  | .gap => some []
  | .number .zero n | .number .whole n | .number .fraction n | .number .exponent n =>
    some [.number n]
  | _ => none

/-- How far a text is read: its tokens so far, the last one first, and the mode. -/
structure Scan where
  tokens : List Token
  mode : Mode
deriving DecidableEq, Repr, Inhabited

/-- Reads one character. -/
def Scan.step (s : Scan) (c : Char) : Option Scan :=
  (stepChar s.mode c).map fun (tokens, mode) => ⟨tokens.reverse ++ s.tokens, mode⟩

/-- Nothing read. -/
def Scan.start : Scan := ⟨[], .gap⟩

/-- The tokens of a text, if it has nothing else but blanks. -/
def tokens? (cs : List Char) : Option (List Token) := do
  let s ← cs.foldlM Scan.step .start
  let last ← finish s.mode
  return s.tokens.reverse ++ last

end QueryTree.Json
