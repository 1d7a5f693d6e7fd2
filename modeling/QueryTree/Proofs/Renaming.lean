import Mathlib.Data.Finset.Image
import QueryTree.Proofs.SlotWalks

/-! # Renaming tables

`HashedKind.mapTables` replaces every table of a node at once, and `HashedKind.tables` lists them,
one for each occurrence. A walk whose visitor only touches tables does the same: it comes once to
each table, in this order, so renaming never renames what it has renamed. Collecting tables is such
a walk as well, which says what becomes of the tables of a node. -/

namespace QueryTree

/-! ## The tables of a node -/

/-- The table of an operand, if it is a column. -/
def Operand.tables : Operand → List Table
  | column c => [c.table]
  | _ => []

def Comparison.tables (c : Comparison) : List Table := c.left.tables ++ c.right.tables

/-- The tables of all columns in a condition, at any depth. -/
def Condition.tables : Condition → List Table :=
  fold Comparison.tables (fun _ members => members.toList.flatten) id

def Groups.tables (g : Groups Condition) : List Table := g.toList.flatMap Condition.tables

/-- The tables that a join joins, and those of its condition. -/
def Join.tables (j : Join) : List Table :=
  j.primary :: j.foreign.table :: j.condition.tables

/-- The table that is updated, and those of the assigned columns and values, of the condition and of
the joins. -/
def Update.tables (u : Update) : List Table :=
  u.table :: (u.columns.map (·.table) ++ u.values.flatMap (·.tables)
    ++ u.condition?.toList.flatMap (·.tables) ++ u.joins.flatMap (·.tables))

/-- The tables of a node, as often as they occur in it. -/
def NodeKind.tables : (k : NodeKind) → k.Node → List Table
  | .table, t => [t]
  | .tableRef, r => [r.table]
  | .column, c => [c.table]
  | .value, _ => []
  | .anyOf, _ => []
  | .condition, c => c.tables
  | .conjunction, g => g.tables
  | .join, j => j.tables
  | .update, u => u.tables

section MapTables

variable (f : Table → Table)

/-- The column of the image of its table. -/
def Column.mapTable (c : Column) : Column := { c with table := f c.table }

def Operand.mapTables : Operand → Operand
  | column c => column (c.mapTable f)
  | value v => value v
  | anyOf a => anyOf a

def Comparison.mapTables (c : Comparison) : Comparison :=
  { c with left := c.left.mapTables f, right := c.right.mapTables f }

/-- The condition with the tables of all columns replaced by their images. -/
def Condition.mapTables : Condition → Condition :=
  fold (fun c => compare (c.mapTables f)) composite negation

def Join.mapTables (j : Join) : Join :=
  { j with
    primary := f j.primary
    foreign := ⟨f j.foreign.table⟩
    condition := j.condition.map (Condition.mapTables f) }

/-- The update with all its tables replaced by their images. -/
def Update.mapTables (u : Update) : Update where
  table := f u.table
  columns := u.columns.map (·.mapTable f)
  values := u.values.map (·.mapTables f)
  condition? := u.condition?.map (·.map (Condition.mapTables f))
  joins := u.joins.map (·.mapTables f)

/-- The node with every table in it replaced by its image. -/
def NodeKind.mapTables : (k : NodeKind) → k.Node → k.Node
  | .table, t => f t
  | .tableRef, r => ⟨f r.table⟩
  | .column, c => c.mapTable f
  | .value, v => v
  | .anyOf, a => a
  | .condition, c => c.mapTables f
  | .conjunction, g => g.map (Condition.mapTables f)
  | .join, j => j.mapTables f
  | .update, u => u.mapTables f

end MapTables

namespace HashedKind

/-- The tables of a node, as often as they occur in it. -/
def tables : (k : HashedKind) → k.Node → List Table
  | offered k, x => k.tables x
  | disjunction, g => g.tables
  | comparison, c => c.tables
  | operand, o => o.tables

/-- The node with every table in it replaced by its image. -/
def mapTables (f : Table → Table) : (k : HashedKind) → k.Node → k.Node
  | offered k, x => k.mapTables f x
  | disjunction, g => g.map (Condition.mapTables f)
  | comparison, c => c.mapTables f
  | operand, o => o.mapTables f

/-- The walk of a node: from the node itself, or from below it if it is not offered. -/
def walk {m : Type → Type} [Monad m] (visit : Visitor m) : (k : HashedKind) → k.Node → m k.Node
  | offered k, x => QueryTree.walk visit k x
  | disjunction, g => Walk.insideConjunction visit g
  | comparison, c => Walk.insideComparison visit c
  | operand, o => Walk.operand visit o

end HashedKind

/-! ## The tables below a node -/

variable {f : Table → Table}

/-- The tables of a conjunction or disjunction are those of its groups. -/
theorem Condition.tables_composite (op : Connective) (g : Groups Condition) :
    (composite op g).tables = g.tables := by
  rw [tables, fold_composite, Groups.toList_map, Groups.tables, List.flatMap_def]
  rfl

/-- In a conjunction or disjunction tables are mapped in its groups. -/
theorem Condition.mapTables_composite (op : Connective) (g : Groups Condition) :
    (composite op g).mapTables f = composite op (g.map (Condition.mapTables f)) :=
  fold_composite _ _ _ op g

/-- The tables of an operand are those in its slot. -/
theorem Operand.tables_eq (o : Operand) :
    o.tables = [o.slot].flatMap fun s => s.1.tables s.2 := by
  cases o <;> rfl

/-- The tables of a comparison are those in its slots. -/
theorem Comparison.tables_eq (c : Comparison) :
    c.tables = c.slots.flatMap fun s => s.1.tables s.2 := by
  simp [tables, slots, Operand.tables_eq]

/-- The tables of groups are those in their slots. -/
theorem Groups.tables_eq (g : Groups Condition) :
    g.tables = g.slots.flatMap fun s => s.1.tables s.2 := by
  rw [tables, slots, List.flatMap_map]
  rfl

/-- Mapping the tables of an operand maps its slot. -/
theorem Operand.mapTables_eq (o : Operand) : o.mapTables f = o.mapSlot (NodeKind.mapTables f) := by
  cases o <;> rfl

/-- Mapping the tables of a comparison maps its slots. -/
theorem Comparison.mapTables_eq (c : Comparison) :
    c.mapTables f = c.mapSlots (NodeKind.mapTables f) := by
  simp only [mapTables, mapSlots, Operand.mapTables_eq]

/-- The tables of a condition are those in the slots directly below it. -/
theorem Condition.tables_eq (c : Condition) :
    c.tables = c.slots.flatMap fun s => s.1.tables s.2 := by
  cases c with
  | compare c => exact c.tables_eq
  | composite op g =>
    rw [tables_composite]
    cases op with
    | and => exact (List.flatMap_singleton _ _).symm
    | or => exact g.tables_eq
  | negation c => exact (List.flatMap_singleton _ _).symm

/-- The tables of an update are those in the slots directly below it. -/
theorem Update.tables_eq (u : Update) :
    u.tables = u.slots.flatMap fun s => s.1.tables s.2 := by
  have hvalues : u.values.flatMap (·.tables)
      = (u.values.map (·.slot)).flatMap fun s => s.1.tables s.2 := by
    simp only [List.flatMap_map, Operand.tables_eq, List.flatMap_singleton]
  simp only [tables, slots, hvalues, List.flatMap_cons, List.flatMap_append, List.flatMap_map]
  simp only [NodeKind.tables, List.singleton_append, List.map_eq_flatMap]

/-- The tables of a node are those of the slots below it, in their order. -/
theorem NodeKind.tables_eq {k : NodeKind} (hk : k ≠ .table) (x : k.Node) :
    k.tables x = (k.slots x).flatMap fun s => s.1.tables s.2 := by
  cases k with
  | table => exact absurd rfl hk
  | condition => exact Condition.tables_eq x
  | conjunction => exact Groups.tables_eq x
  | join => simp [tables, slots, Join.tables, Join.slots]
  | update => exact Update.tables_eq x
  | _ => rfl

/-- Mapping the tables of a condition maps the slots directly below it. -/
theorem Condition.mapTables_eq (c : Condition) :
    c.mapTables f = c.mapSlots (NodeKind.mapTables f) := by
  cases c with
  | compare c => exact congrArg compare c.mapTables_eq
  | composite op g =>
    rw [mapTables_composite]
    cases op <;> rfl
  | negation c => rfl

/-- Mapping the tables of an update maps the slots directly below it. -/
theorem Update.mapTables_eq (u : Update) :
    u.mapTables f = u.mapSlots (NodeKind.mapTables f) := by
  simp only [mapTables, mapSlots, Operand.mapTables_eq]
  rfl

/-- The tables of a node are replaced by replacing those of the slots below it. -/
theorem NodeKind.mapTables_eq {k : NodeKind} (hk : k ≠ .table) (x : k.Node) :
    k.mapTables f x = k.mapSlots (NodeKind.mapTables f) x := by
  cases k with
  | table => exact absurd rfl hk
  | condition => exact Condition.mapTables_eq x
  | update => exact Update.mapTables_eq x
  | _ => rfl

/-! ## Walks that touch only tables -/

/-- The visitor enters every node that is no table, and of each table that it is offered it makes
the image and changes its state. -/
structure TouchesTables {σ : Type} (visit : Visitor (StateM σ)) (f : Table → Table)
    (after : σ → Table → σ) : Prop where
  enters : ∀ k x, k ≠ .table → visit k x = pure .enter
  touches : ∀ t st, (Walk.table visit t).run st = (f t, after st t)

namespace TouchesTables

variable {σ : Type} {visit : Visitor (StateM σ)} {after : σ → Table → σ}

/-- The walk from a slot comes once to each table in it. -/
theorem run_walk_slot (h : TouchesTables visit f after) (s : Slot) : ∀ st,
    (walk visit s.1 s.2).run st
      = (s.1.mapTables f s.2, (s.1.tables s.2).foldl after st) := by
  induction s using Slot.induction with
  | step s ih =>
    obtain ⟨k, x⟩ := s
    intro st
    by_cases hk : k = .table
    · subst hk
      exact h.touches x st
    · have hinside := WalkStart.run_walk (.below k) ih st
      rw [walk_of_enter (h.enters k x hk), NodeKind.mapTables_eq hk, NodeKind.tables_eq hk,
        List.foldl_flatMap]
      exact hinside

/-- A walk from any start maps the tables in its slots, and passes them in their order. -/
theorem run_walk_start (h : TouchesTables visit f after) (s : WalkStart) (x : s.kind.Node)
    (st : σ) :
    (s.walk visit x).run st
      = (s.mapSlots (NodeKind.mapTables f) x,
        ((s.slots x).flatMap fun t => t.1.tables t.2).foldl after st) := by
  rw [List.foldl_flatMap]
  exact s.run_walk (fun t _ => h.run_walk_slot t) st

/-- The walk of a node comes once to each table in it. -/
theorem run_walk (h : TouchesTables visit f after) (k : HashedKind) (x : k.Node) (st : σ) :
    (k.walk visit x).run st = (k.mapTables f x, (k.tables x).foldl after st) := by
  cases k with
  | offered k => exact h.run_walk_slot ⟨k, x⟩ st
  | disjunction =>
    rw [HashedKind.tables, Groups.tables_eq]
    exact h.run_walk_start .belowDisjunction x st
  | comparison =>
    rw [HashedKind.tables, HashedKind.mapTables, Comparison.tables_eq, Comparison.mapTables_eq]
    exact h.run_walk_start .belowComparison x st
  | operand =>
    rw [HashedKind.tables, HashedKind.mapTables, Operand.tables_eq, Operand.mapTables_eq]
    exact h.run_walk_start .belowOperand x st

end TouchesTables

/-! ## Renaming and collecting -/

/-- Renaming gives each table its physical name, and counts it if that is another one. -/
theorem touchesTables_renamer (mapping : TableMapping) :
    TouchesTables (renamer mapping) mapping.rename
      (fun count t => if mapping.physicalName t.name = t.name then count else count + 1) where
  enters k x hk := by
    cases k with
    | table => exact absurd rfl hk
    | _ => rfl
  touches t count := by
    rw [Walk.table, Walk.offer, renamer]
    by_cases hname : mapping.physicalName t.name = t.name
    · have hsame : mapping.rename t = t := by rw [TableMapping.rename, hname]
      rw [if_pos hname, if_pos hname, hsame]
      rfl
    · rw [if_neg hname, if_neg hname]
      rfl

/-- Collecting leaves each table as it is, and inserts it into those seen. -/
theorem touchesTables_collecting :
    TouchesTables collecting id (fun seen t => insertTable t seen) where
  enters k x hk := by
    cases k with
    | table => exact absurd rfl hk
    | _ => rfl
  touches _ _ := rfl

/-- Counting table after table counts those with another physical name. -/
theorem foldl_changed (mapping : TableMapping) (ts : List Table) (count : Nat) :
    ts.foldl
        (fun count t => if mapping.physicalName t.name = t.name then count else count + 1) count
      = count + ts.countP fun t => mapping.physicalName t.name ≠ t.name := by
  induction ts generalizing count with
  | nil => rfl
  | cons t ts ih =>
    rw [List.foldl_cons, ih, List.countP_cons]
    by_cases hname : mapping.physicalName t.name = t.name
    · simp [hname]
    · simp [hname]
      omega

/-- Tables that the order does not tell apart are equal. -/
theorem Table.eq_of_cmp {t u : Table} (h : t.cmp u = .eq) : t = u := by
  cases t
  cases u
  simpa [cmp, Ordering.then_eq_eq] using h

/-- Inserting a table adds this table and no other one. -/
theorem mem_insertTable {t u : Table} {ts : List Table} :
    u ∈ insertTable t ts ↔ u = t ∨ u ∈ ts := by
  induction ts with
  | nil => simp [insertTable]
  | cons v ts ih =>
    rw [insertTable]
    split
    · exact List.mem_cons
    · next heq =>
      obtain rfl := Table.eq_of_cmp heq
      simp
    · rw [List.mem_cons, ih, List.mem_cons, or_left_comm]

/-- Inserting tables one after the other adds these tables and no other ones. -/
theorem mem_foldl_insertTable {u : Table} {ts seen : List Table} :
    u ∈ ts.foldl (fun seen t => insertTable t seen) seen ↔ u ∈ ts ∨ u ∈ seen := by
  induction ts generalizing seen with
  | nil => simp
  | cons t ts ih => rw [List.foldl_cons, ih, mem_insertTable, List.mem_cons, or_left_comm, or_assoc]

/-- As a set, the collected tables are those of the node. -/
theorem toFinset_tablesIn (k : NodeKind) (x : k.Node) :
    (tablesIn k x).toFinset = (k.tables x).toFinset := by
  ext u
  have hrun := touchesTables_collecting.run_walk_slot ⟨k, x⟩ []
  rw [List.mem_toFinset, List.mem_toFinset, tablesIn, hrun, mem_foldl_insertTable]
  simp

end QueryTree
