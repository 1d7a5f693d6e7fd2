import QueryTree.Proofs.EqualReadings
import QueryTree.Proofs.EqualWalks

/-! # Equality is a congruence

`Operation` lists what is done with nodes: grouping and combining conditions, making, inverting and
changing joins and updates, walking trees, and writing nodes to read them again. No operation tells
equal nodes apart, so of equal nodes one may be kept for the other.
-/

namespace QueryTree

/-- A batch made of a list holds the conditions of the list. -/
theorem Batch.conditions_ofList (cs : List Condition) : (ofList cs).conditions = cs := by
  have hpush : ∀ (cs : List Condition) (b : Batch),
      (cs.foldl push b).conditions = b.conditions ++ cs := by
    intro cs
    induction cs with
    | nil => simp
    | cons c cs ih =>
      intro b
      rw [List.foldl_cons, ih, push, List.append_assoc, List.singleton_append]
  exact hpush cs empty

/-- Gathering equal batches one after the other gives equal groups. -/
theorem Batch.toGroups_beq {cs cs' ds ds' : List Condition} (h : cs == cs') (h' : ds == ds') :
    ((ofList cs).append (ofList ds)).toGroups == ((ofList cs').append (ofList ds')).toGroups := by
  rw [append, append, toGroups, toGroups]
  simp only [conditions_ofList]
  exact Groups.ofList_beq (append_beq h h')

/-- A function between types that are compared. -/
structure Procedure where
  Input : Type
  Output : Type
  [inputEq : BEq Input]
  [outputEq : BEq Output]
  run : Input → Output

attribute [instance] Procedure.inputEq Procedure.outputEq

/-- The procedure of a function between types that are compared. -/
def Procedure.of {α β : Type} [BEq α] [BEq β] (f : α → β) : Procedure := ⟨α, β, f⟩

/-- What is done with nodes. Arguments that are equal only to themselves, such as names, tables and
kinds, belong to the operation. -/
inductive Operation where
  /-- Groups of a list of conditions. -/
  | ofList
  /-- Groups of the conditions that one batch gathered and then another one. -/
  | gather
  | add
  | addTo (key : GroupKey)
  | set (key : GroupKey)
  | remove (key : GroupKey)
  | get? (key : GroupKey)
  | contains (key : GroupKey)
  | keys
  | toList
  | size
  | isEmpty
  | merge
  | extend
  | combine (op : Connective)
  | negate
  | swapOperands
  | makeJoin (name : String) (primary : Table) (foreign : TableRef) (type : JoinType)
    (permanent : Bool)
  | invert (name : String)
  | setType (type : JoinType)
  | assign (column : Column)
  | setCondition
  | addCondition
  /-- A walk that renames tables, by a visitor that has counted so many already. -/
  | rename (mapping : TableMapping) (start : WalkStart) (count : Nat)
  /-- A walk that replaces nodes, by a visitor that has counted so many already. -/
  | replace (target : NodeKind) (start : WalkStart) (count : Nat)
  | tablesIn (k : NodeKind)
  /-- Writing a node and reading its payload. -/
  | rewrite (k : StoredKind)

namespace Operation

/-- What an operation takes and makes. Results that are a boolean, a count, keys or tables are equal
when they are the same. -/
def procedure : Operation → Procedure
  | ofList => .of fun cs : List Condition => Groups.ofList cs
  | gather => .of fun p : List Condition × List Condition =>
    ((Batch.ofList p.1).append (Batch.ofList p.2)).toGroups
  | add => .of fun p : Groups Condition × Option Condition => p.1.add p.2
  | addTo key => .of fun p : Groups Condition × Option Condition => p.1.addTo key p.2
  | set key => .of fun p : Groups Condition × Option Condition => p.1.set key p.2
  | remove key => .of fun g : Groups Condition => g.remove key
  | get? key => .of fun g : Groups Condition => g.get? key
  | contains key => .of fun g : Groups Condition => g.contains key
  | keys => .of fun g : Groups Condition => g.keys
  | toList => .of fun g : Groups Condition => g.toList
  | size => .of fun g : Groups Condition => g.size
  | isEmpty => .of fun g : Groups Condition => g.isEmpty
  | merge => .of fun p : Groups Condition × Groups Condition => p.1.merge p.2
  | extend => .of fun p : Groups Condition × List Condition => p.1.extend p.2
  | combine op => .of fun p : Option Condition × Option Condition => Condition.combine op p.1 p.2
  | negate => .of Condition.negation
  | swapOperands => .of Comparison.swapOperands
  | makeJoin name primary foreign type permanent =>
    .of fun c => Join.make name primary foreign c type permanent
  | invert name => .of fun j : Join => j.invert name
  | setType type => .of fun j : Join => { j with type := type }
  | assign column => .of fun p : Update × Operand => p.1.assign column p.2
  | setCondition => .of fun p : Update × Option Condition => p.1.setCondition p.2
  | addCondition => .of fun p : Update × Option Condition => p.1.addCondition p.2
  | rename mapping start count => .of (start.counted (renamer mapping) count)
  | replace target start count => .of fun p : (target.Node × target.Node) × start.kind.Node =>
    start.counted (replacing target p.1.1 p.1.2) count p.2
  | tablesIn k => .of (QueryTree.tablesIn k)
  | rewrite k => .of fun x => k.ofPayload (k.toPayload x)

/-- Of equal nodes, with equal arguments, every operation makes equal results: both walks count
alike, both joins are accepted or refused with one error, and so are both payloads. -/
theorem congruent (o : Operation) {x y : o.procedure.Input} (h : x == y) :
    o.procedure.run x == o.procedure.run y := by
  cases o with
  | ofList => exact Groups.ofList_beq h
  | gather =>
    obtain ⟨hfirst, hnext⟩ := pair_beq_iff.1 h
    exact Batch.toGroups_beq hfirst hnext
  | add =>
    obtain ⟨hg, hitem⟩ := pair_beq_iff.1 h
    exact Groups.add_beq hg hitem
  | addTo key =>
    obtain ⟨hg, hitem⟩ := pair_beq_iff.1 h
    exact Groups.addTo_beq hg hitem
  | set key =>
    obtain ⟨hg, hitem⟩ := pair_beq_iff.1 h
    exact Groups.set_beq hg hitem
  | remove key =>
    have hthere : Groups.contains x key = Groups.contains y key := Groups.contains_eq_of_beq h
    exact pair_beq_iff.2 ⟨beq_iff_eq.2 hthere, Groups.erase_beq h⟩
  | get? key => exact Groups.get?_beq h
  | contains key => exact (beq_iff_eq.2 (Groups.contains_eq_of_beq h) :)
  | keys => exact (beq_iff_eq.2 (Groups.keys_eq_of_beq h) :)
  | toList => exact Groups.toList_beq h
  | size => exact (beq_iff_eq.2 (Groups.size_eq_of_beq h) :)
  | isEmpty => exact (beq_iff_eq.2 (Groups.isEmpty_eq_of_beq h) :)
  | merge =>
    obtain ⟨hg, hh⟩ := pair_beq_iff.1 h
    exact Groups.merge_beq hg hh
  | extend =>
    obtain ⟨hg, hitems⟩ := pair_beq_iff.1 h
    exact Groups.extend_beq hg hitems
  | combine op =>
    obtain ⟨hleft, hright⟩ := pair_beq_iff.1 h
    exact Condition.combine_beq op hleft hright
  | negate => exact Condition.negation_beq_iff.2 ⟨y, rfl, h⟩
  | swapOperands => exact Comparison.swapOperands_beq h
  | makeJoin name primary foreign type permanent =>
    exact Join.make_beq name primary foreign h type permanent permanent
  | invert name => exact Join.invert_beq h name
  | setType type =>
    obtain ⟨hname, hcondition, hforeign, -, hprimary⟩ := Join.beq_iff.1 h
    exact Join.beq_iff.2 ⟨hname, hcondition, hforeign, rfl, hprimary⟩
  | assign column =>
    obtain ⟨hu, hvalue⟩ := pair_beq_iff.1 h
    exact Update.assign_beq hu column hvalue
  | setCondition =>
    obtain ⟨hu, hcondition⟩ := pair_beq_iff.1 h
    exact Update.setCondition_beq hu hcondition
  | addCondition =>
    obtain ⟨hu, hcondition⟩ := pair_beq_iff.1 h
    exact Update.addCondition_beq hu hcondition
  | rename mapping start count => exact start.counted_beq (alike_renamer mapping) count h
  | replace target start count =>
    obtain ⟨hnodes, hx⟩ := pair_beq_iff.1 h
    obtain ⟨hold, hnew⟩ := pair_beq_iff.1 hnodes
    exact start.counted_beq (alike_replacing hold hnew) count hx
  | tablesIn k => exact (beq_iff_eq.2 (tablesIn_eq_of_beq k h) :)
  | rewrite k => exact k.rewrite_beq h

end Operation

/-- The price of an item is this number. -/
def Condition.priced (price : Decimal) : Condition :=
  .compare ⟨⟨.equals, .plain⟩, .column ⟨.named "items", "price", none⟩, .value (.decimal price)⟩

/-- Puts NULL in place of a number in the condition on a price. -/
def Operation.clearPrice : Operation := .replace .value (.offering .condition) 0

/-- The number to look for, and the price to look at. -/
def Operation.priceInput (searched price : Decimal) : clearPrice.procedure.Input :=
  ((Value.decimal searched, Value.null), Condition.priced price)

/-- Clearing a price of half a unit treats `0.5` and `0.50` alike, both as the number looked for and
in the condition. -/
theorem Operation.prices_cleared_alike :
    let tenths : Decimal := ⟨false, 10, 1, by decide, by decide⟩
    let hundredths : Decimal := ⟨false, 100, 2, by decide, by decide⟩
    tenths ≠ hundredths
      ∧ priceInput tenths hundredths == priceInput hundredths tenths
      ∧ clearPrice.procedure.run (priceInput tenths hundredths)
        == clearPrice.procedure.run (priceInput hundredths tenths) :=
  ⟨by decide, rfl, congruent clearPrice (x := priceInput _ _) (y := priceInput _ _) rfl⟩

end QueryTree
