import QueryTree.Digest

/-!
# Groups of items

Items are kept in groups: one default group without a name, and any number of named groups. Each
caller can add to a group of its own and take that group back without touching the others. Groups
stand in the order of their names by code point, the default group first.
-/

namespace QueryTree

/-- The name of a group. The default group has none. -/
abbrev GroupKey := Option String

/-- Items by group, in the order of the groups' keys. -/
structure Groups (α : Type) where
  entries : List (GroupKey × List α)
deriving DecidableEq, Repr, Inhabited

namespace Groups

variable {α β : Type}

instance [BEq α] : BEq (Groups α) := ⟨fun g h => g.entries == h.entries⟩

/-- No groups. -/
def empty : Groups α := ⟨[]⟩

/-- Updates the items at a key in a list of entries, keeping the order of the keys. -/
def updateEntries (key : GroupKey) (f : List α → List α) :
    List (GroupKey × List α) → List (GroupKey × List α)
  | [] => [(key, f [])]
  | (k, items) :: rest =>
    match compare key k with
    | .lt => (key, f []) :: (k, items) :: rest
    | .eq => (k, f items) :: rest
    | .gt => (k, items) :: updateEntries key f rest

/-- Updates the items of one group, which is made without items first if it is missing. The group is
there afterwards, whatever its items are then. -/
def update (g : Groups α) (key : GroupKey) (f : List α → List α) : Groups α :=
  ⟨updateEntries key f g.entries⟩

/-- The items of a group, if there is such a group. -/
def get? (g : Groups α) (key : GroupKey) : Option (List α) :=
  (g.entries.find? (·.1 == key)).map (·.2)

/-- There is a group with the key. -/
def contains (g : Groups α) (key : GroupKey) : Bool :=
  (g.get? key).isSome

/-- The keys in order. -/
def keys (g : Groups α) : List GroupKey :=
  g.entries.map (·.1)

/-- All items, group by group in the order of the keys. -/
def toList (g : Groups α) : List α :=
  g.entries.flatMap (·.2)

/-- The number of items in all groups. -/
def size (g : Groups α) : Nat :=
  g.toList.length

/-- There are no groups. -/
def isEmpty (g : Groups α) : Bool :=
  g.entries.isEmpty

/-- Makes items the only ones of a group. -/
def insert (g : Groups α) (key : GroupKey) (items : List α) : Groups α :=
  g.update key fun _ => items

/-- Appends items to a group, which is made if it is missing. -/
def appendTo (g : Groups α) (key : GroupKey) (items : List α) : Groups α :=
  g.update key (· ++ items)

/-- Appends one item to a group, which is made if it is missing. A missing item leaves the groups as
they are. -/
def addTo (g : Groups α) (key : GroupKey) : Option α → Groups α
  | none => g
  | some item => g.appendTo key [item]

/-- Appends one item to the default group, or nothing if the item is missing. -/
def add (g : Groups α) (item : Option α) : Groups α :=
  g.addTo none item

/-- Removes the entry of a group. -/
def erase (g : Groups α) (key : GroupKey) : Groups α :=
  ⟨g.entries.filter (·.1 != key)⟩

/-- Makes an item the only one of a group, or removes the group if the item is missing. -/
def set (g : Groups α) (key : GroupKey) : Option α → Groups α
  | none => g.erase key
  | some item => g.insert key [item]

/-- Removes a group and tells whether it was there. -/
def remove (g : Groups α) (key : GroupKey) : Bool × Groups α :=
  (g.contains key, g.erase key)

/-- Appends every group of `h` to the group of the same key, which is made if it is missing. -/
def merge (g h : Groups α) : Groups α :=
  h.entries.foldl (fun acc e => acc.appendTo e.1 e.2) g

/-- Appends items to a group one by one. -/
def addAllTo (g : Groups α) (key : GroupKey) (items : List α) : Groups α :=
  items.foldl (fun acc item => acc.addTo key (some item)) g

/-- Appends items to the default group one by one. -/
def extend (g : Groups α) (items : List α) : Groups α :=
  items.foldl (fun acc item => acc.add (some item)) g

/-- All items in the default group, which is left out if there are none. -/
def ofList (items : List α) : Groups α :=
  if items.isEmpty then empty else empty.insert none items

/-- The groups with every item replaced by its image. -/
def map (f : α → β) (g : Groups α) : Groups β :=
  ⟨g.entries.map fun e => (e.1, e.2.map f)⟩

instance [Digestible α] : Digestible (Groups α) where
  tokens g := .mark g.entries.length :: g.entries.flatMap fun e => tokens e.1 ++ tokens e.2

end Groups

end QueryTree
