import QueryTree.Proofs.ZeroSigns

/-! # Reading nodes from text

A well-formed node is read back from its text as long as the text does not nest too deep, and 127
brackets and braces open at once are the deepest that it may. Text loses no more than payloads do,
but for the signs of zero decimals, and these take no part in equality.
-/

namespace QueryTree

/-- The join `j` is equal to `i`, also in what equality does not compare, but has no origin. -/
structure Join.Matches (i j : Join) : Prop where
  equal : j == i
  permanent : j.permanent = i.permanent
  comment : j.comment? = i.comment?
  origin : j.origin? = none

/-- The update `v` is equal to `u`, and so are all fields of its joins but for the origins. -/
structure Update.Matches (u v : Update) : Prop where
  equal : v == u
  joins : List.Forall₂ Join.Matches u.joins v.joins

/-- A join matches what is stored of it without signs of zeros. -/
theorem Join.matches_dropZeroSigns (j : Join) : j.Matches j.dropZeroSigns.stored := by
  refine ⟨?_, rfl, rfl, rfl⟩
  change (j.name == j.name && j.condition.dropZeroSigns == j.condition && j.foreign == j.foreign
    && j.type == j.type && j.primary == j.primary) = true
  simp [j.condition.dropZeroSigns_beq]

/-- An update matches what is stored of it without signs of zeros. -/
theorem Update.matches_dropZeroSigns (u : Update) : u.Matches u.dropZeroSigns.stored := by
  have hvalues : u.values.map Operand.dropZeroSigns == u.values :=
    map_beq_self fun o _ => o.dropZeroSigns_beq
  have hcondition : u.condition?.map Groups.dropZeroSigns == u.condition? := by
    cases u.condition? with
    | none => rfl
    | some g => exact g.dropZeroSigns_beq
  have hjoins : (u.joins.map Join.dropZeroSigns).map Join.stored == u.joins := by
    rw [List.map_map]
    exact map_beq_self fun j _ => j.matches_dropZeroSigns.equal
  constructor
  · change (u.table == u.table && u.columns == u.columns
      && u.values.map Operand.dropZeroSigns == u.values
      && u.condition?.map Groups.dropZeroSigns == u.condition?
      && (u.joins.map Join.dropZeroSigns).map Join.stored == u.joins) = true
    simp only [hvalues, hcondition, hjoins, beq_self_eq_true, Bool.and_self]
  · simp only [stored, dropZeroSigns, List.map_map, List.forall₂_map_right_iff, List.forall₂_same]
    exact fun j _ => j.matches_dropZeroSigns

namespace StoredKind

/-- The node `y` is equal to `x` in every field at every depth, but for the origins of joins. -/
def Matches : (k : StoredKind) → k.Node → k.Node → Prop
  | .anyOf, a, b => b == a
  | .comparison, c, d => d == c
  | .composite _, g, h => h == g
  | .condition, c, d => d == c
  | .join, i, j => i.Matches j
  | .update, u, v => u.Matches v
  | .table, s, t => t = s
  | .tableRef, s, t => t = s
  | .column, s, t => t = s

/-- A node matches what is stored of it without signs of zeros. -/
theorem matches_dropZeroSigns (k : StoredKind) (x : k.Node) :
    k.Matches x (k.stored (k.dropZeroSigns x)) := by
  cases k with
  | anyOf => exact AnyOf.dropZeroSigns_beq x
  | comparison => exact Comparison.dropZeroSigns_beq x
  | composite op => exact Groups.dropZeroSigns_beq x
  | condition => exact Condition.dropZeroSigns_beq x
  | join => exact Join.matches_dropZeroSigns x
  | update => exact Update.matches_dropZeroSigns x
  | table => rfl
  | tableRef => rfl
  | column => rfl

/-! ## Text -/

/-- The text of a node. -/
def toText (k : StoredKind) (x : k.Node) : String :=
  (k.toPayload x).toText

/-- Reads a node of the kind from text. -/
def ofText (k : StoredKind) (text : String) : Except DecodeError k.Node :=
  (Payload.ofText text).bind k.ofPayload

/-- A written text is read back up to 127 brackets open at once, and refused beyond that. -/
theorem reads_toText (k : StoredKind) {x : k.Node} (h : k.WellFormed x) :
    k.ofText (k.toText x) = if Json.openAtOnce (k.toText x) ≤ 127
      then .ok (k.stored (k.dropZeroSigns x)) else .error .malformedText := by
  rw [ofText, toText, Payload.ofText_toText]
  split_ifs
  · rw [← toPayload_dropZeroSigns]
    exact k.reads_toPayload (k.wellFormed_dropZeroSigns h)
  · rfl

/-- A well-formed node is read back from its text, with every field but the origins of joins, if no
more than 127 brackets and braces are open at once in the text. Only the signs of zero decimals are
lost, which equality does not see. A text that goes deeper is refused. -/
theorem ofText_toText_restores (k : StoredKind) {x : k.Node} (h : k.WellFormed x) :
    (Json.openAtOnce (k.toText x) ≤ 127 → ∃ y, k.ofText (k.toText x) = .ok y ∧
        k.Matches x y ∧ k.Restores (k.dropZeroSigns x) y) ∧
      (127 < Json.openAtOnce (k.toText x) → k.ofText (k.toText x) = .error .malformedText) := by
  refine ⟨fun hshallow => ⟨_, ?_, k.matches_dropZeroSigns x, k.restores_stored _⟩, fun hdeep => ?_⟩
  · rw [k.reads_toText h, if_pos hshallow]
  · rw [k.reads_toText h, if_neg (Nat.not_le_of_lt hdeep)]

/-- What is open at once in the text of a node are the containers that its payload nests. -/
theorem openAtOnce_toText (k : StoredKind) (x : k.Node) :
    Json.openAtOnce (k.toText x) = (k.toPayload x).toJson.depth :=
  (k.toPayload x).plain_toJson.openAtOnce_render

end StoredKind

namespace Condition

/-- A comparison under a number of negations. -/
def negated (c : Comparison) : Nat → Condition
  | 0 => .compare c
  | n + 1 => .negation (negated c n)

/-- A comparison is well-formed under any number of negations. -/
theorem wellFormed_negated (c : Comparison) (n : Nat) : (negated c n).WellFormed := by
  induction n with
  | zero => exact .compare c
  | succ n ih => exact .negation ih

/-- Each negation opens three more: its payload, the members of it, and the one that holds what is
negated. -/
theorem openAtOnce_negation (c : Condition) :
    Json.openAtOnce (StoredKind.condition.toText (.negation c))
      = Json.openAtOnce (StoredKind.condition.toText c) + 3 := by
  have hpayload :
      StoredKind.condition.toPayload (negation c) = negationPayload c.toPayload := rfl
  rw [StoredKind.openAtOnce_toText, StoredKind.openAtOnce_toText, hpayload]
  simp [StoredKind.toPayload, negationPayload, Payload.ofKind, Payload.toJson, Member.listToJson,
    Member.toJson, Json.depth, Json.depthFields, Json.depthItems]

/-- Each negation opens three more brackets at once. -/
theorem openAtOnce_negated (c : Comparison) (n : Nat) :
    Json.openAtOnce (StoredKind.condition.toText (negated c n))
      = Json.openAtOnce (StoredKind.condition.toText (.compare c)) + 3 * n := by
  induction n with
  | zero => rw [negated, Nat.mul_zero, Nat.add_zero]
  | succ n ih =>
    rw [negated, openAtOnce_negation, ih]
    omega

end Condition

/-- A text of brackets and quotes compared to a negative zero. -/
def Comparison.bracketsToZero : Comparison where
  operator := ⟨.equals, ⟨false, false⟩⟩
  left := .value (.text "[\x7b\"\\")
  right := .value (.decimal ((Decimal.ofSize? true 0 2).getD default))

/-- The brackets in its text do not count: this comparison opens four at once. -/
theorem Comparison.openAtOnce_bracketsToZero :
    Json.openAtOnce (StoredKind.condition.toText (.compare bracketsToZero)) = 4 := by
  rw [StoredKind.openAtOnce_toText]
  rfl

/-- Under 41 negations the comparison is read back, and under one more it is refused. -/
theorem StoredKind.negated_brackets_limit :
    (∃ y, StoredKind.condition.ofText (StoredKind.condition.toText
        (Condition.negated .bracketsToZero 41)) = .ok y ∧
      StoredKind.condition.Matches (Condition.negated .bracketsToZero 41) y ∧
      StoredKind.condition.Restores
        (StoredKind.condition.dropZeroSigns (Condition.negated .bracketsToZero 41)) y) ∧
    StoredKind.condition.ofText (StoredKind.condition.toText
      (Condition.negated .bracketsToZero 42)) = .error .malformedText := by
  have hopen (n : Nat) := Condition.openAtOnce_negated .bracketsToZero n
  rw [Comparison.openAtOnce_bracketsToZero] at hopen
  have hshallow := hopen 41
  have hdeep := hopen 42
  constructor
  · exact (ofText_toText_restores .condition (Condition.wellFormed_negated _ 41)).1 (by omega)
  · exact (ofText_toText_restores .condition (Condition.wellFormed_negated _ 42)).2 (by omega)

end QueryTree
