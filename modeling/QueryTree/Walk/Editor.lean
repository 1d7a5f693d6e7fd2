import QueryTree.Walk.Basic

/-!
# Editors

An editor may put a node into a slot and let the walk go on into what it put there, which can grow
the tree under the walk. `Editor.walk?` allows so many such steps inside one another and has no
result when they are used up.
-/

namespace QueryTree

/-- What an editor does with a slot: the node it puts there, if any, and whether the walk goes on
below the node then in the slot. -/
structure Edit (α : Type) where
  replacement? : Option α
  enter : Bool
deriving Inhabited

/-- An editor decides about the slot of each node it is offered. -/
abbrev Editor (m : Type → Type) := (k : NodeKind) → k.Node → m (Edit k.Node)

namespace Editor

variable {m : Type → Type} [Monad m]

/-- The visitor that follows an editor into what it puts, at most `budget` times inside one
another. -/
def visitor (editor : Editor m) : Nat → Visitor (OptionT m)
  | budget, k, x => do
    let edit ← OptionT.lift (editor k x)
    match edit.replacement?, edit.enter with
    | none, true => return .enter
    | none, false => return .skip
    | some y, false => return .put y
    | some y, true =>
      match budget with
      | 0 => OptionT.fail
      | budget + 1 =>
        let z ← Walk.inside (visitor editor budget) k y
        return .put z

/-- The tree that an editor makes of a tree, if the budget suffices. -/
def walk? (editor : Editor m) (budget : Nat) (k : NodeKind) (x : k.Node) :
    m (Option k.Node) :=
  (walk (editor.visitor budget) k x).run

end Editor

end QueryTree
