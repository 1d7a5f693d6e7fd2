import QueryTree.Proofs.SoundOperations

/-! # Reached nodes

`Reached` holds of every node that building, combining, reading and walking can make, in any order
and from parts that were made in the same way. Each of these steps keeps nodes sound, so no group of
a reached node is empty, at any depth, and its updates pair columns with values. The ways to ask
whether there is anything in a group then agree.
-/

namespace QueryTree

/-- The nodes that are reached by building, reading and rewriting. Grouped conditions are of one
kind here, whatever connective they stand under. -/
inductive Reached : (k : NodeKind) → k.Node → Prop where
  | table (t : Table) : Reached .table t
  | tableRef (r : TableRef) : Reached .tableRef r
  | column (c : Column) : Reached .column c
  | value (v : Value) : Reached .value v
  | anyOf (a : AnyOf) : Reached .anyOf a
  -- grouped conditions
  | empty : Reached .conjunction Groups.empty
  | ofList {cs : List Condition} : (∀ c ∈ cs, Reached .condition c) →
    Reached .conjunction (Groups.ofList cs)
  | gathered {b : Batch} : (∀ c ∈ b.conditions, Reached .condition c) →
    Reached .conjunction b.toGroups
  | add {g : Groups Condition} {c? : Option Condition} : Reached .conjunction g →
    (∀ c ∈ c?, Reached .condition c) → Reached .conjunction (g.add c?)
  | addTo {g : Groups Condition} (key : GroupKey) {c? : Option Condition} :
    Reached .conjunction g → (∀ c ∈ c?, Reached .condition c) →
    Reached .conjunction (g.addTo key c?)
  | set {g : Groups Condition} (key : GroupKey) {c? : Option Condition} :
    Reached .conjunction g → (∀ c ∈ c?, Reached .condition c) → Reached .conjunction (g.set key c?)
  | remove {g : Groups Condition} (key : GroupKey) : Reached .conjunction g →
    Reached .conjunction (g.remove key).2
  | merge {g h : Groups Condition} : Reached .conjunction g → Reached .conjunction h →
    Reached .conjunction (g.merge h)
  | extend {g : Groups Condition} {cs : List Condition} : Reached .conjunction g →
    (∀ c ∈ cs, Reached .condition c) → Reached .conjunction (g.extend cs)
  -- conditions
  | compare (c : Comparison) : Reached .condition (.compare c)
  | swapOperands {c : Comparison} : Reached .condition (.compare c) →
    Reached .condition (.compare c.swapOperands)
  | composite (op : Connective) {g : Groups Condition} : Reached .conjunction g →
    Reached .condition (.composite op g)
  | negation {c : Condition} : Reached .condition c → Reached .condition (.negation c)
  | combine (op : Connective) {left right : Option Condition} {c : Condition} :
    (∀ c ∈ left, Reached .condition c) → (∀ c ∈ right, Reached .condition c) →
    Condition.combine op left right = some c → Reached .condition c
  -- joins
  | join (name : String) (primary : Table) (foreign : TableRef) {c : Condition} (type : JoinType)
    (permanent : Bool) {j : Join} : Reached .condition c →
    Join.make name primary foreign c type permanent = .ok j → Reached .join j
  | invert {j : Join} (name : String) : Reached .join j → Reached .join (j.invert name)
  | setType {j : Join} (type : JoinType) : Reached .join j → Reached .join { j with type := type }
  | setComment {j : Join} (comment? : Option String) : Reached .join j →
    Reached .join { j with comment? := comment? }
  | setOrigin {j : Join} (origin : Origin) : Reached .join j →
    Reached .join { j with origin? := some origin }
  -- updates
  | update (t : Table) : Reached .update (Update.ofTable t)
  | assign {u : Update} (column : Column) (value : Operand) : Reached .update u →
    Reached .update (u.assign column value)
  | setCondition {u : Update} {c? : Option Condition} : Reached .update u →
    (∀ c ∈ c?, Reached .condition c) → Reached .update (u.setCondition c?)
  | addCondition {u : Update} {c? : Option Condition} : Reached .update u →
    (∀ c ∈ c?, Reached .condition c) → Reached .update (u.addCondition c?)
  -- parts of nodes
  | member {g : Groups Condition} {c : Condition} : Reached .conjunction g → c ∈ g.toList →
    Reached .condition c
  | groups {op : Connective} {g : Groups Condition} : Reached .condition (.composite op g) →
    Reached .conjunction g
  | inner {c : Condition} : Reached .condition (.negation c) → Reached .condition c
  | joinCondition {j : Join} : Reached .join j → Reached .conjunction j.condition
  | updateCondition {u : Update} {g : Groups Condition} : Reached .update u →
    u.condition? = some g → Reached .conjunction g
  | updateJoin {u : Update} {j : Join} : Reached .update u → j ∈ u.joins → Reached .join j
  -- payloads, whether they were written from a node or not
  | readCondition {p : Payload} {c : Condition} : Condition.ofPayload p = .ok c →
    Reached .condition c
  | readGroups {op : Connective} {p : Payload} {g : Groups Condition} :
    Groups.ofPayload op p = .ok g → Reached .conjunction g
  | readJoin {p : Payload} {j : Join} : Join.ofPayload p = .ok j → Reached .join j
  | readUpdate {p : Payload} {u : Update} : Update.ofPayload p = .ok u → Reached .update u
  -- walks, by a visitor that has counted so many already
  | rename (mapping : TableMapping) (count : Nat) {k : NodeKind} {x : k.Node} : Reached k x →
    Reached k ((walk (renamer mapping) k x).run count).1
  | renameBelow (mapping : TableMapping) (count : Nat) {k : NodeKind} {x : k.Node} : Reached k x →
    Reached k ((Walk.inside (renamer mapping) k x).run count).1
  | replace {target : NodeKind} (old : target.Node) {new : target.Node} (count : Nat)
    {k : NodeKind} {x : k.Node} : Reached target new → Reached k x →
    Reached k ((walk (replacing target old new) k x).run count).1
  | replaceBelow {target : NodeKind} (old : target.Node) {new : target.Node} (count : Nat)
    {k : NodeKind} {x : k.Node} : Reached target new → Reached k x →
    Reached k ((Walk.inside (replacing target old new) k x).run count).1

/-- Every reached node is sound: each step keeps what the steps before it kept. -/
theorem Reached.sound {k : NodeKind} {x : k.Node} (h : Reached k x) : k.Sound x := by
  induction h with
  | table | tableRef | column | value | anyOf => trivial
  | empty => exact Groups.WellFormed.empty
  | ofList _ ih => exact .ofList ih
  | gathered _ ih => exact Groups.WellFormed.ofList ih
  | add _ _ ih ihc => exact Groups.WellFormed.addTo ih ihc
  | addTo key _ _ ih ihc => exact Groups.WellFormed.addTo ih ihc
  | set key _ _ ih ihc => exact Groups.WellFormed.set ih ihc
  | remove key _ ih => exact Groups.WellFormed.erase ih
  | merge _ _ ih ihh => exact Groups.WellFormed.merge ih ihh
  | extend _ _ ih ihc => exact Groups.WellFormed.addAllTo ih ihc
  | compare c => exact Condition.WellFormed.compare c
  | swapOperands => exact Condition.WellFormed.compare _
  | composite op _ ih => exact Condition.WellFormed.ofGroups op ih
  | negation _ ih => exact Condition.WellFormed.negation ih
  | combine op _ _ heq ihleft ihright => exact Condition.wellFormed_of_combine ihleft ihright heq
  | join _ _ _ _ _ _ hmade ih => exact Join.wellFormed_of_make ih hmade
  | invert name _ ih => exact Join.wellFormed_invert ih name
  | setType _ _ ih => exact ih
  | setComment _ _ ih => exact ih
  | setOrigin _ _ ih => exact ih
  | update t => exact Update.sound_ofTable t
  | assign column value _ ih => exact Update.Sound.assign ih column value
  | setCondition _ _ ih ihc => exact Update.Sound.setCondition ih ihc
  | addCondition _ _ ih ihc => exact Update.Sound.addCondition ih ihc
  | member _ hc ih => exact Groups.WellFormed.members ih _ hc
  | groups _ ih => exact Condition.WellFormed.groups ih
  | inner _ ih => exact Condition.WellFormed.inner ih
  | joinCondition _ ih => exact ih
  | updateCondition _ hg ih => exact Update.Sound.condition ih _ hg
  | updateJoin _ hj ih => exact Update.Sound.joins ih _ hj
  | readCondition hp => exact Condition.wellFormed_of_ofPayload hp
  | readGroups hp => exact Groups.wellFormed_of_ofPayload hp
  | readJoin hp => exact (Join.wellFormed_of_ofPayload hp).condition
  | readUpdate hp => exact (Update.wellFormed_of_ofPayload hp).sound
  | rename mapping count _ ih =>
    rw [Walk.rel_walk (renamer_value mapping) _ _ count]
    exact Walk.sound_walk (putsSound_remapping mapping) _ ih
  | renameBelow mapping count _ ih =>
    rw [Walk.rel_inside (renamer_value mapping) _ _ count]
    exact Walk.sound_inside (putsSound_remapping mapping) _ ih
  | replace old count _ _ ihnew ih =>
    rw [Walk.rel_walk (replacing_value _ old _) _ _ count]
    exact Walk.sound_walk (putsSound_substituting old ihnew) _ ih
  | replaceBelow old count _ _ ihnew ih =>
    rw [Walk.rel_inside (replacing_value _ old _) _ _ count]
    exact Walk.sound_inside (putsSound_substituting old ihnew) _ ih

/-! ## The composites of a node -/

/-- The grouped conditions stand somewhere in the node. -/
inductive HasGroups : (k : NodeKind) → k.Node → Groups Condition → Prop where
  | here (g : Groups Condition) : HasGroups .conjunction g g
  | member {g h : Groups Condition} {c : Condition} : c ∈ g.toList → HasGroups .condition c h →
    HasGroups .conjunction g h
  | composite {op : Connective} {g h : Groups Condition} : HasGroups .conjunction g h →
    HasGroups .condition (.composite op g) h
  | negation {c : Condition} {h : Groups Condition} : HasGroups .condition c h →
    HasGroups .condition (.negation c) h
  | join {j : Join} {h : Groups Condition} : HasGroups .conjunction j.condition h →
    HasGroups .join j h
  | updateCondition {u : Update} {g h : Groups Condition} : u.condition? = some g →
    HasGroups .conjunction g h → HasGroups .update u h
  | updateJoin {u : Update} {j : Join} {h : Groups Condition} : j ∈ u.joins →
    HasGroups .join j h → HasGroups .update u h

/-- All grouped conditions in a sound node are well-formed. -/
theorem HasGroups.wellFormed {k : NodeKind} {x : k.Node} {g : Groups Condition}
    (h : HasGroups k x g) (hx : k.Sound x) : g.WellFormed := by
  induction h with
  | here g => exact hx
  | member hc _ ih => exact ih (Groups.WellFormed.members hx _ hc)
  | composite _ ih => exact ih (Condition.WellFormed.groups hx)
  | negation _ ih => exact ih (Condition.WellFormed.inner hx)
  | join _ ih => exact ih hx
  | updateCondition hg _ ih => exact ih (Update.Sound.condition hx _ hg)
  | updateJoin hj _ ih => exact ih (Update.Sound.joins hx _ hj)

/-- The node, if it is an update. No update stands below another node. -/
def NodeKind.update? : (k : NodeKind) → k.Node → Option Update
  | .update, u => some u
  | _, _ => none

/-- A sound update has as many columns as values. -/
theorem NodeKind.Sound.paired {k : NodeKind} {x : k.Node} (hx : k.Sound x) {u : Update}
    (hu : k.update? x = some u) : u.columns.length = u.values.length := by
  cases k with
  | update =>
    cases hu
    exact Update.Sound.paired hx
  | _ => cases hu

namespace Groups.Tidy

variable {α : Type} {g : Groups α}

/-- Tidy groups are empty exactly when their size is zero. -/
theorem isEmpty_iff_size (hg : g.Tidy) : g.isEmpty = true ↔ g.size = 0 := by
  rw [hg.isEmpty_iff, size, List.length_eq_zero_iff]

/-- Tidy groups have no items exactly when they have no keys. -/
theorem toList_eq_nil_iff_keys (hg : g.Tidy) : g.toList = [] ↔ g.keys = [] := by
  rw [← hg.isEmpty_iff, keys, List.map_eq_nil_iff, isEmpty, List.isEmpty_iff]

/-- Tidy groups contain a key exactly when it has a list of items that is not empty. -/
theorem contains_iff_get? (hg : g.Tidy) (key : GroupKey) :
    g.contains key = true ↔ ∃ items, g.get? key = some items ∧ items ≠ [] := by
  rw [contains, Option.isSome_iff_exists]
  constructor
  · rintro ⟨items, hitems⟩
    exact ⟨items, hitems, hg.nonempty _ (hg.get?_eq_some_iff.1 hitems)⟩
  · rintro ⟨items, hitems, -⟩
    exact ⟨items, hitems⟩

end Groups.Tidy

/-- Nothing that is done with nodes leaves an empty group, at any depth, or a column without its
value. So composites are empty, of size zero, without conditions and without keys at once, and a key
is there exactly when there are conditions under it. -/
theorem Reached.no_empty_group {k : NodeKind} {x : k.Node} (h : Reached k x) :
    (∀ g, HasGroups k x g →
      (∀ e ∈ g.entries, e.2 ≠ [])
        ∧ (g.isEmpty = true ↔ g.size = 0) ∧ (g.size = 0 ↔ g.toList = [])
        ∧ (g.toList = [] ↔ g.keys = [])
        ∧ ∀ key, g.contains key = true ↔ ∃ items, g.get? key = some items ∧ items ≠ [])
      ∧ ∀ u, k.update? x = some u → u.columns.length = u.values.length := by
  refine ⟨fun g hg => ?_, fun u hu => h.sound.paired hu⟩
  have htidy : g.Tidy := (hg.wellFormed h.sound).tidy
  exact ⟨htidy.nonempty, htidy.isEmpty_iff_size, List.length_eq_zero_iff,
    htidy.toList_eq_nil_iff_keys, htidy.contains_iff_get?⟩

/-- Two groups of which one is taken back, under the condition of an update. -/
def Groups.takenBack : Groups Condition :=
  let unpaid := Condition.compare
    ⟨⟨.equals, .plain⟩, .column ⟨.named "orders", "paid", none⟩, .value .null⟩
  (((Groups.empty.addTo (some "paid") (some unpaid)).add (some unpaid)).remove none).2

/-- An update that assigns one value, under a disjunction of the groups that were left. -/
def Update.openOrders : Update :=
  ((ofTable (.named "orders")).assign ⟨.named "orders", "open", none⟩
    (.value (.boolean true))).setCondition (some (.composite .or .takenBack))

theorem Update.reached_openOrders : Reached .update openOrders := by
  have hunpaid : ∀ c : Comparison, ∀ d ∈ some (Condition.compare c), Reached .condition d := by
    rintro c d ⟨⟩
    exact .compare c
  have hgroups : Reached .conjunction Groups.takenBack :=
    .remove none (.add (.addTo (some "paid") .empty (hunpaid _)) (hunpaid _))
  refine .setCondition (.assign _ _ (.update _)) ?_
  rintro c ⟨⟩
  exact .composite .or hgroups

theorem Update.hasGroups_openOrders : HasGroups .update openOrders Groups.takenBack :=
  .updateCondition rfl (.member List.mem_cons_self (.composite (.here _)))

/-- In this update, which was built step by step, the disjunction has no empty group although one of
its groups was taken back. -/
theorem Update.openOrders_filled_and_paired :
    Reached .update openOrders ∧ HasGroups .update openOrders Groups.takenBack
      ∧ (∀ e ∈ Groups.takenBack.entries, e.2 ≠ [])
      ∧ openOrders.columns.length = openOrders.values.length := by
  have h := Reached.no_empty_group reached_openOrders
  exact ⟨reached_openOrders, hasGroups_openOrders, (h.1 _ hasGroups_openOrders).1,
    h.2 openOrders rfl⟩

end QueryTree
