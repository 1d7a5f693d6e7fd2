import QueryTree.Json.Parser

/-!
# Table mappings

A table mapping sends logical table names to physical ones and leaves every other name alone. Its
text form is a JSON object whose values are all strings.
-/

namespace QueryTree

/-- Pairs of names, in the order of the first names and with each of them once. -/
structure TableMapping where
  pairs : List (String × String)
deriving DecidableEq, Repr, Inhabited

/-- Why a file holds no table mapping. -/
inductive MappingError where
  /-- There is no file, or it is no text. -/
  | unreadable
  /-- The text is no table mapping. -/
  | unparsable
deriving DecidableEq, Repr, Inhabited

/-- The wording of each cause. -/
def MappingError.message : MappingError → String
  | .unreadable => "cannot read table mapping file"
  | .unparsable => "cannot parse table mapping file"

namespace TableMapping

/-- The mapping that changes no name. -/
def empty : TableMapping := ⟨[]⟩

/-- Adds a pair, in place of one with the same first name. -/
def insertPair (source target : String) : List (String × String) → List (String × String)
  | [] => [(source, target)]
  | (k, v) :: rest =>
    match compare source k with
    | .lt => (source, target) :: (k, v) :: rest
    | .eq => (source, target) :: rest
    | .gt => (k, v) :: insertPair source target rest

/-- Maps one more name. -/
def insert (mapping : TableMapping) (source target : String) : TableMapping :=
  ⟨insertPair source target mapping.pairs⟩

/-- The mapping with these pairs. Of pairs with equal first names the last one counts. -/
def ofPairs (pairs : List (String × String)) : TableMapping :=
  pairs.foldl (fun mapping p => mapping.insert p.1 p.2) empty

/-- The physical name of a table. -/
def physicalName (mapping : TableMapping) (name : String) : String :=
  ((mapping.pairs.find? (·.1 == name)).map (·.2)).getD name

/-- A mapped name is sent to its partner. -/
theorem physicalName_of_mem {mapping : TableMapping}
    (hpairs : mapping.pairs.Pairwise fun p q => p.1 ≠ q.1) {name target : String}
    (h : (name, target) ∈ mapping.pairs) : mapping.physicalName name = target := by
  have hfind : mapping.pairs.find? (·.1 == name) = some (name, target) := by
    obtain ⟨front, back, hsplit⟩ := List.append_of_mem h
    rw [hsplit] at hpairs ⊢
    -- no pair before this one has the name
    have hfront : ∀ p ∈ front, p.1 ≠ name := fun p hp =>
      (List.pairwise_append.1 hpairs).2.2 p hp _ List.mem_cons_self
    rw [List.find?_append, List.find?_eq_none.2 fun p hp => by simpa using hfront p hp]
    simp
  rw [physicalName, hfind]
  rfl

/-- A name that is not mapped stays as it is. -/
theorem physicalName_of_unmapped {mapping : TableMapping} {name : String}
    (h : ∀ p ∈ mapping.pairs, p.1 ≠ name) : mapping.physicalName name = name := by
  have hfind : mapping.pairs.find? (·.1 == name) = none :=
    List.find?_eq_none.2 fun p hp => by simpa using h p hp
  rw [physicalName, hfind]
  rfl

/-- The pair of a name is found after an insertion as it was before, but for the inserted one. -/
theorem find?_insertPair (source target name : String) (pairs : List (String × String)) :
    (insertPair source target pairs).find? (·.1 == name)
      = if name = source then some (source, target) else pairs.find? (·.1 == name) := by
  induction pairs with
  | nil =>
    by_cases hname : name = source
    · simp [insertPair, hname]
    · simp [insertPair, hname, Ne.symm hname]
  | cons p rest ih =>
    obtain ⟨k, v⟩ := p
    unfold insertPair
    split
    · by_cases hname : name = source
      · simp [hname]
      · rw [if_neg hname, List.find?_cons_of_neg (by simpa using Ne.symm hname)]
    · rename_i heq
      obtain rfl : source = k := Std.LawfulEqCmp.compare_eq_iff_eq.1 heq
      by_cases hname : name = source
      · simp [hname]
      · simp [hname, Ne.symm hname]
    · rename_i hgt
      have hne : k ≠ source := by
        rintro rfl
        rw [Std.ReflOrd.compare_self] at hgt
        cases hgt
      rw [List.find?_cons, ih, List.find?_cons]
      by_cases hname : name = source
      · rw [hname, beq_eq_false_iff_ne.2 hne, if_pos rfl]
      · rw [if_neg hname, if_neg hname]

/-- Mapping one more name changes where this name is sent, and no other. -/
theorem physicalName_insert (mapping : TableMapping) (source target name : String) :
    (mapping.insert source target).physicalName name
      = if name = source then target else mapping.physicalName name := by
  rw [physicalName, insert, find?_insertPair]
  split <;> rfl

/-- Pairs are added to a mapping one by one, so the last pair with a name says where it is sent. -/
theorem physicalName_foldl_insert (mapping : TableMapping) (pairs : List (String × String))
    (name : String) :
    (pairs.foldl (fun m p => m.insert p.1 p.2) mapping).physicalName name
      = ((pairs.reverse.find? (·.1 == name)).map (·.2)).getD (mapping.physicalName name) := by
  induction pairs generalizing mapping with
  | nil => rfl
  | cons p rest ih =>
    rw [List.foldl_cons, ih, physicalName_insert, List.reverse_cons, List.find?_append]
    cases rest.reverse.find? (·.1 == name) with
    | some q => rfl
    | none =>
      by_cases hname : name = p.1
      · simp [hname]
      · simp [hname, Ne.symm hname]

/-- In a mapping made of pairs, a name is sent where the last pair with it says. -/
theorem physicalName_ofPairs (pairs : List (String × String)) (name : String) :
    (ofPairs pairs).physicalName name
      = ((pairs.reverse.find? (·.1 == name)).map (·.2)).getD name :=
  physicalName_foldl_insert empty pairs name

/-- The pairs of an object whose keys and values are all texts. -/
def pairsOfFields? : List (Option String × Json) → Option (List (String × String))
  | [] => some []
  | (some k, .string (some v)) :: rest => (pairsOfFields? rest).map ((k, v) :: ·)
  | _ :: _ => none

/-- Reads a mapping from a JSON value. -/
def ofJson? : Json → Option TableMapping
  | .object fields => (pairsOfFields? fields).map ofPairs
  | _ => none

/-- Reads a mapping from text. -/
def ofText? (text : String) : Option TableMapping :=
  (Json.ofText? text).bind ofJson?

/-- Reads a mapping from the bytes of a file, which are missing if there is no file. -/
def ofFile (contents : Option ByteArray) : Except MappingError TableMapping :=
  match contents.bind String.fromUTF8? with
  | none => .error .unreadable
  | some text =>
    match ofText? text with
    | none => .error .unparsable
    | some mapping => .ok mapping

/-- The text of a mapping. -/
def toText (mapping : TableMapping) : String :=
  (Json.object (mapping.pairs.map fun p => (some p.1, .text p.2))).render

end TableMapping

end QueryTree
