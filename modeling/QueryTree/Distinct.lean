import QueryTree.Digest
import Std.Data.HashMap

/-!
# Telling equal nodes apart

`firstIndices` finds for each item of a list the first one equal to it, by way of a hash map, so it
relies on equal items having equal hashes.
-/

namespace QueryTree

variable {α : Type} [BEq α] [Hashable α]

/-- The indices of the first equals of items that stand behind those already seen. -/
def firstIndicesFrom (seen : Std.HashMap α Nat) (index : Nat) : List α → List Nat
  | [] => []
  | x :: xs =>
    match seen[x]? with
    | some first => first :: firstIndicesFrom seen (index + 1) xs
    | none => index :: firstIndicesFrom (seen.insert x index) (index + 1) xs

/-- For each item the index of the first item equal to it. -/
def firstIndices (xs : List α) : List Nat :=
  firstIndicesFrom ∅ 0 xs

/-- For each item whether no item before it is equal to it. -/
def firstFlags (xs : List α) : List Bool :=
  (firstIndices xs).zipIdx.map fun (first, index) => first == index

/-- The first member of each class of equal items. -/
def distinct (xs : List α) : List α :=
  (xs.zip (firstFlags xs)).filterMap fun (x, isFirst) => if isFirst then some x else none

end QueryTree
