import QueryTree.Proofs.Inversion
import QueryTree.Proofs.Renaming
import QueryTree.Proofs.Replacement

/-! # Rewriting a join and its inversion

Renaming tables and replacing tables, columns or values take a node to the same image wherever it
stands, and a column to a column. So it does not matter whether a join is rewritten and then read
from the other side, or the other way round: the joins are the same, and so are the counts, to which
the tables and the operands add in another order.
-/

namespace QueryTree

/-! ## Walks that rewrite -/

/-- The nodes of the kind are tables, columns or values. -/
def NodeKind.isRewritable : NodeKind → Bool
  | .table | .column | .value => true
  | _ => false

/-- A walk that renames tables, or replaces tables, columns or values. -/
inductive Rewriting where
  | rename (mapping : TableMapping)
  | replace (target : NodeKind) (rewritable : target.isRewritable = true) (old new : target.Node)

/-- The visitor of a rewriting walk. -/
def Rewriting.visitor : Rewriting → Visitor (StateM Nat)
  | rename mapping => renamer mapping
  | replace target _ old new => replacing target old new

/-- The visitor decides only about tables, columns and values, and its walks make the image of each
node and add its changes to the count. -/
structure Rewrites (visit : Visitor (StateM Nat)) (f : (k : NodeKind) → k.Node → k.Node)
    (changes : Slot → Nat) : Prop where
  enters : ∀ k x, k.isRewritable = false → visit k x = pure .enter
  run : ∀ (s : Slot) (count : Nat),
    (walk visit s.1 s.2).run count = (f s.1 s.2, count + changes s)

/-- Renaming rewrites by mapping tables, and counts the tables whose name changes. -/
theorem rewrites_renamer (mapping : TableMapping) :
    Rewrites (renamer mapping) (NodeKind.mapTables mapping.rename)
      fun s => (s.1.tables s.2).countP fun t => mapping.physicalName t.name ≠ t.name where
  enters k x hk := by
    refine (touchesTables_renamer mapping).enters k x ?_
    rintro rfl
    cases hk
  run s count := by
    rw [(touchesTables_renamer mapping).run_walk_slot s count, foldl_changed]

/-- Replacing a rewritable node rewrites by substitution, and counts the places of the node. -/
theorem rewrites_replacing {target : NodeKind} (h : target.isRewritable = true)
    (old new : target.Node) :
    Rewrites (replacing target old new) (substituted target old new) (places target old new) where
  enters k x hk := by
    have hmiss : ¬ IsMatch target old ⟨k, x⟩ := by
      rintro ⟨y, hy, -⟩
      cases hy
      rw [h] at hk
      cases hk
    exact replacing_of_miss hmiss
  run := run_walk_replacing

/-- Each rewriting has an image and a number of changes that describe it. -/
theorem Rewriting.exists_rewrites (w : Rewriting) :
    ∃ f changes, Rewrites w.visitor f changes := by
  cases w with
  | rename mapping => exact ⟨_, _, rewrites_renamer mapping⟩
  | replace target rewritable old new => exact ⟨_, _, rewrites_replacing rewritable old new⟩

/-! ## Conditions read from the other side -/

section Inverted

variable {f : (k : NodeKind) → k.Node → k.Node}

/-- Mapping the slot of an operand leaves it a column, if it was one. -/
theorem Operand.isColumn_mapSlot (o : Operand) : (o.mapSlot f).isColumn = o.isColumn := by
  cases o <;> rfl

/-- Mapping the slots of a comparison does not decide whether inverting turns it around. -/
theorem Comparison.equatesColumns_mapSlots (c : Comparison) :
    (c.mapSlots f).equatesColumns = c.equatesColumns := by
  simp only [equatesColumns, mapSlots, Operand.isColumn_mapSlot]

/-- Inverting a member of a condition commutes with mapping its slots. -/
theorem Condition.mapSlots_invertMember (c : Condition) :
    (Join.invertMember c).mapSlots f = Join.invertMember (c.mapSlots f) := by
  cases c with
  | compare c =>
    simp only [Join.invertMember, mapSlots, Comparison.equatesColumns_mapSlots]
    split <;> rfl
  | composite op g => cases op <;> rfl
  | negation c => rfl

/-- Inverting a member of a condition only reorders its slots. -/
theorem Condition.slots_invertMember_perm (c : Condition) :
    (Join.invertMember c).slots.Perm c.slots := by
  cases c with
  | compare c =>
    rw [Join.invertMember]
    split
    · exact .swap ..
    · exact .refl _
  | _ => exact .refl _

end Inverted

/-! ## Joins read from the other side -/

namespace Rewrites

variable {visit : Visitor (StateM Nat)} {f : (k : NodeKind) → k.Node → k.Node}
  {changes : Slot → Nat}

/-- Of other nodes the walk makes what it makes of the slots below them. -/
theorem run_inside (h : Rewrites visit f changes) {k : NodeKind} (hk : k.isRewritable = false)
    (x : k.Node) :
    (f k x, changes ⟨k, x⟩) = (k.mapSlots f x, ((k.slots x).map changes).sum) := by
  have hwalk := h.run ⟨k, x⟩ 0
  have hinside : (Walk.inside visit k x).run 0 = _ :=
    WalkStart.run_walk (.below k) (fun t _ => h.run t) 0
  rw [walk_of_enter (h.enters k x hk), hinside, foldl_add_sum, Nat.zero_add, Nat.zero_add] at hwalk
  exact hwalk.symm

/-- The image of a node that is not itself rewritten is that of its slots. -/
theorem image_eq (h : Rewrites visit f changes) {k : NodeKind} (hk : k.isRewritable = false)
    (x : k.Node) : f k x = k.mapSlots f x :=
  congrArg Prod.fst (h.run_inside hk x)

/-- The changes in a node that is not itself rewritten are those in its slots. -/
theorem changes_eq (h : Rewrites visit f changes) {k : NodeKind} (hk : k.isRewritable = false)
    (x : k.Node) : changes ⟨k, x⟩ = ((k.slots x).map changes).sum :=
  congrArg Prod.snd (h.run_inside hk x)

/-! ### Conditions -/

/-- A rewriting commutes with inverting a member of a condition. -/
theorem image_invertMember (h : Rewrites visit f changes) (c : Condition) :
    f .condition (Join.invertMember c) = Join.invertMember (f .condition c) := by
  rw [h.image_eq rfl, h.image_eq rfl]
  exact c.mapSlots_invertMember

/-- A rewriting makes as many changes in an inverted member. -/
theorem changes_invertMember (h : Rewrites visit f changes) (c : Condition) :
    changes ⟨.condition, Join.invertMember c⟩ = changes ⟨.condition, c⟩ := by
  rw [h.changes_eq rfl, h.changes_eq rfl]
  exact (c.slots_invertMember_perm.map changes).sum_eq

/-- A rewriting commutes with inverting all members of a condition. -/
theorem image_map_invertMember (h : Rewrites visit f changes) (g : Groups Condition) :
    f .conjunction (g.map Join.invertMember) = (f .conjunction g).map Join.invertMember := by
  have hmembers : f .condition ∘ Join.invertMember = Join.invertMember ∘ f .condition :=
    funext h.image_invertMember
  rw [h.image_eq rfl, h.image_eq rfl]
  show (g.map Join.invertMember).map (f .condition) = (g.map (f .condition)).map Join.invertMember
  rw [Groups.map_map, Groups.map_map, hmembers]

/-- A rewriting makes as many changes when all members are inverted. -/
theorem changes_map_invertMember (h : Rewrites visit f changes) (g : Groups Condition) :
    changes ⟨.conjunction, g.map Join.invertMember⟩ = changes ⟨.conjunction, g⟩ := by
  rw [h.changes_eq rfl, h.changes_eq rfl]
  show ((g.map Join.invertMember).slots.map changes).sum = (g.slots.map changes).sum
  rw [Groups.slots, Groups.slots, Groups.toList_map, List.map_map, List.map_map, List.map_map]
  exact congrArg List.sum (List.map_congr_left fun c _ => h.changes_invertMember c)

/-! ### Joins -/

/-- A rewriting commutes with inverting a join. -/
theorem image_invert (h : Rewrites visit f changes) (j : Join) (name : String) :
    f .join (j.invert name) = (f .join j).invert name := by
  have hforeign := h.image_eq (k := .tableRef) rfl
  have hjoin := h.image_eq (k := .join) rfl
  rw [hjoin, hjoin]
  simp only [NodeKind.mapSlots, Join.mapSlots, Join.invert, hforeign, h.image_map_invertMember]

/-- What the tables and the condition add is the same, the tables in another order. -/
theorem changes_invert (h : Rewrites visit f changes) (j : Join) (name : String) :
    changes ⟨.join, j.invert name⟩ = changes ⟨.join, j⟩ := by
  have hforeign := h.changes_eq (k := .tableRef) rfl
  have hjoin := h.changes_eq (k := .join) rfl
  rw [hjoin, hjoin]
  simp only [NodeKind.slots, Join.slots, Join.invert, List.map_cons, List.map_nil, List.sum_cons,
    List.sum_nil, hforeign, h.changes_map_invertMember]
  omega

end Rewrites

/-- A join that is rewritten and then inverted is the join that is inverted and then rewritten, in
every field, and as many changes are counted, whether the walk begins at the join or below it. -/
theorem Rewriting.invert_commutes (w : Rewriting) (j : Join) (name : String) (count : Nat) :
    (walk w.visitor .join (j.invert name)).run count
        = Prod.map (·.invert name) id ((walk w.visitor .join j).run count)
      ∧ (Walk.insideJoin w.visitor (j.invert name)).run count
        = Prod.map (·.invert name) id ((Walk.insideJoin w.visitor j).run count) := by
  obtain ⟨f, changes, h⟩ := w.exists_rewrites
  have hwalk : (walk w.visitor .join (j.invert name)).run count
      = Prod.map (·.invert name) id ((walk w.visitor .join j).run count) := by
    rw [h.run ⟨.join, j⟩, h.run ⟨.join, j.invert name⟩, Prod.map, h.image_invert, h.changes_invert]
    rfl
  refine ⟨hwalk, ?_⟩
  rwa [walk_of_enter (h.enters .join _ rfl), walk_of_enter (h.enters .join _ rfl)] at hwalk

end QueryTree
