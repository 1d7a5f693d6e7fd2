import QueryTree.Comparison
import QueryTree.Groups

/-!
# Conditions

A condition is a comparison, a conjunction or disjunction of grouped conditions, or a negation.
`Condition.fold` computes a result from the leaves up, and the displayed form and the digest are
folds. Equality compares conditions part by part.
-/

namespace QueryTree

/-- What joins the members of a composite condition. -/
inductive Connective where
  | and
  | or
deriving DecidableEq, Repr, Inhabited

namespace Connective

/-- The word between the members of a displayed composite. -/
def keyword : Connective → String
  | and => "AND"
  | or => "OR"

/-- The kind of a composite condition. -/
def kind : Connective → String
  | and => "AndCondition"
  | or => "OrCondition"

end Connective

/-- A condition of a join or a statement. -/
inductive Condition where
  | compare (c : Comparison)
  | composite (op : Connective) (groups : Groups Condition)
  | negation (c : Condition)

namespace Condition

instance : Inhabited Condition := ⟨.composite .and ⟨[]⟩⟩

section Fold

variable {β : Type} (onCompare : Comparison → β) (onComposite : Connective → Groups β → β)
  (onNegation : β → β)

mutual

/-- The result computed from the leaves up, with one function for each shape of condition. -/
def fold : Condition → β
  | .compare c => onCompare c
  | .composite op ⟨entries⟩ => onComposite op ⟨foldEntries entries⟩
  | .negation c => onNegation (fold c)
termination_by structural c => c

/-- The results of all members, in their groups. -/
def foldEntries : List (GroupKey × List Condition) → List (GroupKey × List β)
  | [] => []
  | (key, cs) :: rest => (key, foldList cs) :: foldEntries rest
termination_by structural entries => entries

/-- The results of the conditions in a list. -/
def foldList : List Condition → List β
  | [] => []
  | c :: cs => fold c :: foldList cs
termination_by structural cs => cs

end

end Fold

mutual

/-- Conditions are equal when they have the same shape and equal parts in the same groups. -/
protected def beq : Condition → Condition → Bool
  | .compare a, .compare b => a == b
  | .composite op ⟨g⟩, .composite op' ⟨h⟩ => op == op' && beqEntries g h
  | .negation a, .negation b => Condition.beq a b
  | _, _ => false
termination_by structural c => c

/-- Equality of the entries of two composites. -/
def beqEntries : List (GroupKey × List Condition) → List (GroupKey × List Condition) → Bool
  | [], [] => true
  | (k, cs) :: g, (k', cs') :: h => k == k' && beqList cs cs' && beqEntries g h
  | _, _ => false
termination_by structural g => g

/-- Equality of two lists of conditions. -/
def beqList : List Condition → List Condition → Bool
  | [], [] => true
  | c :: cs, c' :: cs' => Condition.beq c c' && beqList cs cs'
  | _, _ => false
termination_by structural cs => cs

end

instance : BEq Condition := ⟨Condition.beq⟩

/-- The kind of the condition, as payloads and errors name it. -/
def kind : Condition → String
  | .compare _ => "CompareCondition"
  | .composite op _ => op.kind
  | .negation _ => "NotCondition"

/-- The condition is a comparison. -/
def isCompare : Condition → Bool
  | .compare _ => true
  | _ => false

/-- A composite without groups stands for no condition at all. -/
def isAbsent : Condition → Bool
  | .composite _ g => g.isEmpty
  | _ => false

/-- Displayed members in brackets, with the connective's keyword between them. -/
def renderMembers (op : Connective) (members : Groups String) : String :=
  "(" ++ String.intercalate (" " ++ op.keyword ++ " ") members.toList ++ ")"

/-- The displayed form. -/
def render : Condition → String :=
  fold Comparison.render renderMembers ("NOT " ++ ·)

/-- The tokens of composite members, which are given by their own tokens. -/
def memberTokens (op : Connective) (members : Groups (List HashToken)) : List HashToken :=
  .mark (match op with | .and => 1 | .or => 2) :: .mark members.entries.length
    :: members.entries.flatMap fun e => tokens e.1 ++ .mark e.2.length :: e.2.flatten

instance : Digestible Condition where
  tokens := fold (fun c => .mark 0 :: tokens c) memberTokens (.mark 3 :: ·)

end Condition

namespace Groups

/-- The displayed form of grouped conditions under a connective. -/
def render (g : Groups Condition) (op : Connective) : String :=
  Condition.render (.composite op g)

end Groups

end QueryTree
