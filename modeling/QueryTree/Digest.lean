/-!
# Digests

A digest is the list of tokens that a value hands to a hash function. Each type marks its variants
and the lengths of its lists, so the tokens of unequal values differ, while equal values have the
same tokens. `Digestible.hash` folds the tokens into one word.
-/

namespace QueryTree

/-- One item handed to a hash function. -/
inductive HashToken where
  /-- A variant, a flag or a length. -/
  | mark (n : Nat)
  | integer (n : Int)
  | text (s : String)
deriving DecidableEq, Repr, Inhabited

/-- The hash of one token. -/
def HashToken.hash : HashToken → UInt64
  | .mark n => mixHash 1 (Hashable.hash n)
  | .integer n => mixHash 2 (Hashable.hash n)
  | .text s => mixHash 3 (Hashable.hash s)

/-- A type whose values are handed to a hash function as tokens. -/
class Digestible (α : Type) where
  tokens : α → List HashToken

export Digestible (tokens)

namespace Digestible

/-- The hash of a value is the hash of its tokens. -/
def hash {α : Type} [Digestible α] (x : α) : UInt64 :=
  (tokens x).foldl (fun h t => mixHash h t.hash) 7

instance (priority := low) {α : Type} [Digestible α] : Hashable α := ⟨Digestible.hash⟩

instance : Digestible String := ⟨fun s => [.text s]⟩

instance {α : Type} [Digestible α] : Digestible (Option α) where
  tokens
    | none => [.mark 0]
    | some x => .mark 1 :: tokens x

instance {α : Type} [Digestible α] : Digestible (List α) where
  tokens xs := .mark xs.length :: xs.flatMap tokens

end Digestible

end QueryTree
