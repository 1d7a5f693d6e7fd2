import QueryTree.Proofs.EqualWalks

/-! # The slots of a tree

A slot is a place that a walk offers, given by the node in it. `NodeKind.slots` lists the slots
directly below a node in the order of the walk, and `NodeKind.mapSlots` fills them anew and keeps
all else: new nodes are in the slots then (`NodeKind.slots_mapSlots`), what is not in slots stays as
it is (`Slot.bare_mapChildren`), and nothing else makes up a node (`Slot.eq_of_children`). What
holds of a slot if it holds of the slots directly below it holds of every tree (`Slot.induction`).
-/

namespace QueryTree

/-- A node in its slot. -/
abbrev Slot := (k : NodeKind) × k.Node

/-- The slot of an operand's content. -/
def Operand.slot : Operand → Slot
  | column c => ⟨.column, c⟩
  | value v => ⟨.value, v⟩
  | anyOf a => ⟨.anyOf, a⟩

def Comparison.slots (c : Comparison) : List Slot := [c.left.slot, c.right.slot]

/-- The slots below grouped conditions, group by group. -/
def Groups.slots (g : Groups Condition) : List Slot :=
  g.toList.map fun c => ⟨.condition, c⟩

/-- The slots directly below a condition. A conjunction has one of its own there, a disjunction does
not. -/
def Condition.slots : Condition → List Slot
  | compare c => c.slots
  | composite .and g => [⟨.conjunction, g⟩]
  | composite .or g => g.slots
  | negation c => [⟨.condition, c⟩]

def Join.slots (j : Join) : List Slot :=
  [⟨.table, j.primary⟩, ⟨.tableRef, j.foreign⟩, ⟨.conjunction, j.condition⟩]

def Update.slots (u : Update) : List Slot :=
  ⟨.table, u.table⟩ :: (u.columns.map (⟨.column, ·⟩) ++ u.values.map (·.slot)
    ++ u.condition?.toList.map (⟨.conjunction, ·⟩) ++ u.joins.map (⟨.join, ·⟩))

/-- The slots directly below a node. There are none in a list of values. -/
def NodeKind.slots : (k : NodeKind) → k.Node → List Slot
  | .table, _ => []
  | .tableRef, r => [⟨.table, r.table⟩]
  | .column, c => [⟨.table, c.table⟩]
  | .value, _ => []
  | .anyOf, _ => []
  | .condition, c => c.slots
  | .conjunction, g => g.slots
  | .join, j => j.slots
  | .update, u => u.slots

/-- The slots directly below a slot. -/
def Slot.children (s : Slot) : List Slot := s.1.slots s.2

section MapSlots

variable (f : (k : NodeKind) → k.Node → k.Node)

/-- The operand with its content replaced by its image. -/
def Operand.mapSlot : Operand → Operand
  | column c => column (f .column c)
  | value v => value (f .value v)
  | anyOf a => anyOf (f .anyOf a)

def Comparison.mapSlots (c : Comparison) : Comparison :=
  { c with left := c.left.mapSlot f, right := c.right.mapSlot f }

/-- The condition with the nodes in its slots replaced by their images. -/
def Condition.mapSlots : Condition → Condition
  | compare c => compare (c.mapSlots f)
  | composite .and g => composite .and (f .conjunction g)
  | composite .or g => composite .or (g.map (f .condition))
  | negation c => negation (f .condition c)

def Join.mapSlots (j : Join) : Join :=
  { j with
    primary := f .table j.primary
    foreign := f .tableRef j.foreign
    condition := f .conjunction j.condition }

def Update.mapSlots (u : Update) : Update where
  table := f .table u.table
  columns := u.columns.map (f .column)
  values := u.values.map (·.mapSlot f)
  condition? := u.condition?.map (f .conjunction)
  joins := u.joins.map (f .join)

/-- The node with the nodes in the slots directly below it replaced by their images. -/
def NodeKind.mapSlots : (k : NodeKind) → k.Node → k.Node
  | .table, t => t
  | .tableRef, r => { r with table := f .table r.table }
  | .column, c => { c with table := f .table c.table }
  | .value, v => v
  | .anyOf, a => a
  | .condition, c => c.mapSlots f
  | .conjunction, g => g.map (f .condition)
  | .join, j => j.mapSlots f
  | .update, u => u.mapSlots f

/-- The slot with its node replaced by the image. -/
def Slot.map (s : Slot) : Slot := ⟨s.1, f s.1 s.2⟩

/-- The slot with what is below its node replaced by the images. -/
def Slot.mapChildren (s : Slot) : Slot := ⟨s.1, s.1.mapSlots f s.2⟩

end MapSlots

namespace WalkStart

/-- The slots from which a walk sets out. -/
def slots : (s : WalkStart) → s.kind.Node → List Slot
  | offering k, x => [⟨k, x⟩]
  | below k, x => k.slots x
  | belowDisjunction, g => g.slots
  | belowComparison, c => c.slots
  | belowOperand, o => [o.slot]

/-- The node with what is in these slots replaced by the images. -/
def mapSlots (f : (k : NodeKind) → k.Node → k.Node) : (s : WalkStart) → s.kind.Node → s.kind.Node
  | offering k, x => f k x
  | below k, x => k.mapSlots f x
  | belowDisjunction, g => g.map (f .condition)
  | belowComparison, c => c.mapSlots f
  | belowOperand, o => o.mapSlot f

end WalkStart

/-! ## Slots and their images -/

variable {f : (k : NodeKind) → k.Node → k.Node}

/-- The slot of a mapped operand is its slot, mapped. -/
theorem Operand.slot_mapSlot (o : Operand) : (o.mapSlot f).slot = o.slot.map f := by
  cases o <;> rfl

/-- The slots of mapped groups are their slots, mapped. -/
theorem Groups.slots_map (g : Groups Condition) :
    (g.map (f .condition)).slots = g.slots.map (Slot.map f) := by
  rw [slots, toList_map, slots, List.map_map, List.map_map]
  rfl

/-- The slots of a mapped comparison are its slots, mapped. -/
theorem Comparison.slots_mapSlots (c : Comparison) :
    (c.mapSlots f).slots = c.slots.map (Slot.map f) := by
  simp only [slots, mapSlots, Operand.slot_mapSlot, List.map_cons, List.map_nil]

/-- The slots of a mapped update are its slots, mapped. -/
theorem Update.slots_mapSlots (u : Update) : (u.mapSlots f).slots = u.slots.map (Slot.map f) := by
  have hvalues : (u.values.map (·.mapSlot f)).map (·.slot)
      = (u.values.map (·.slot)).map (Slot.map f) := by
    simp only [List.map_map, Function.comp_def, Operand.slot_mapSlot]
  have hcondition : (u.condition?.map (f .conjunction)).toList
      = u.condition?.toList.map (f .conjunction) := by
    cases u.condition? <;> rfl
  simp only [slots, mapSlots, hvalues, hcondition, List.map_cons, List.map_append, List.map_map,
    Function.comp_def, Slot.map]

/-- What is below a node afterwards are the images of what was below it. -/
theorem NodeKind.slots_mapSlots (k : NodeKind) (x : k.Node) :
    k.slots (k.mapSlots f x) = (k.slots x).map (Slot.map f) := by
  cases k with
  | condition =>
    cases x with
    | compare c => exact c.slots_mapSlots
    | composite op g =>
      cases op with
      | and => rfl
      | or => exact g.slots_map
    | negation c => rfl
  | conjunction => exact Groups.slots_map x
  | update => exact Update.slots_mapSlots x
  | _ => rfl

/-- The slots from which a walk sets out in a mapped node are its slots, mapped. -/
theorem WalkStart.slots_mapSlots (s : WalkStart) (x : s.kind.Node) :
    s.slots (s.mapSlots f x) = (s.slots x).map (Slot.map f) := by
  cases s with
  | offering k => rfl
  | below k => exact k.slots_mapSlots x
  | belowDisjunction => exact Groups.slots_map x
  | belowComparison => exact Comparison.slots_mapSlots x
  | belowOperand => exact congrArg (List.cons · []) (Operand.slot_mapSlot x)

instance (k : NodeKind) : Inhabited k.Node :=
  match k with
  | .table => inferInstanceAs (Inhabited Table)
  | .tableRef => inferInstanceAs (Inhabited TableRef)
  | .column => inferInstanceAs (Inhabited Column)
  | .value => inferInstanceAs (Inhabited Value)
  | .anyOf => inferInstanceAs (Inhabited AnyOf)
  | .condition => inferInstanceAs (Inhabited Condition)
  | .conjunction => inferInstanceAs (Inhabited (Groups Condition))
  | .join => inferInstanceAs (Inhabited Join)
  | .update => inferInstanceAs (Inhabited Update)

/-! ## What is not in slots -/

/-- Nothing but a default is left of a node. -/
def blank (k : NodeKind) (_ : k.Node) : k.Node := default

/-- The slot with a default in each slot directly below it. That still tells which slots there are
and how they are arranged, and all of the node that is not in one of them. -/
def Slot.bare (s : Slot) : Slot := s.mapChildren blank

/-- The node with a default in each slot from which a walk sets out. -/
def WalkStart.bare (s : WalkStart) (x : s.kind.Node) : s.kind.Node := s.mapSlots blank x

section MapSlots

variable {g : (k : NodeKind) → k.Node → k.Node}

/-- Mapping an operand twice is mapping it once with both maps. -/
theorem Operand.mapSlot_mapSlot (o : Operand) :
    (o.mapSlot f).mapSlot g = o.mapSlot fun k x => g k (f k x) := by
  cases o <;> rfl

/-- Mapping a comparison twice is mapping it once with both maps. -/
theorem Comparison.mapSlots_mapSlots (c : Comparison) :
    (c.mapSlots f).mapSlots g = c.mapSlots fun k x => g k (f k x) := by
  simp only [mapSlots, Operand.mapSlot_mapSlot]

/-- Mapping a condition twice is mapping it once with both maps. -/
theorem Condition.mapSlots_mapSlots (c : Condition) :
    (c.mapSlots f).mapSlots g = c.mapSlots fun k x => g k (f k x) := by
  cases c with
  | compare c => exact congrArg compare c.mapSlots_mapSlots
  | composite op gs =>
    cases op with
    | and => rfl
    | or => exact congrArg (composite .or) (gs.map_map _ _)
  | negation c => rfl

/-- Mapping an update twice is mapping it once with both maps. -/
theorem Update.mapSlots_mapSlots (u : Update) :
    (u.mapSlots f).mapSlots g = u.mapSlots fun k x => g k (f k x) := by
  simp [mapSlots, Operand.mapSlot_mapSlot, Function.comp_def]

/-- Mapping the slots below a node twice is mapping them once with both maps. -/
theorem NodeKind.mapSlots_mapSlots (k : NodeKind) (x : k.Node) :
    k.mapSlots g (k.mapSlots f x) = k.mapSlots (fun k x => g k (f k x)) x := by
  cases k with
  | condition => exact Condition.mapSlots_mapSlots x
  | conjunction => exact Groups.map_map _ _ x
  | update => exact Update.mapSlots_mapSlots x
  | _ => rfl

/-- So it is with the slots from which a walk sets out. -/
theorem WalkStart.mapSlots_mapSlots (s : WalkStart) (x : s.kind.Node) :
    s.mapSlots g (s.mapSlots f x) = s.mapSlots (fun k x => g k (f k x)) x := by
  cases s with
  | offering k => rfl
  | below k => exact k.mapSlots_mapSlots x
  | belowDisjunction => exact Groups.map_map _ _ x
  | belowComparison => exact Comparison.mapSlots_mapSlots x
  | belowOperand => exact Operand.mapSlot_mapSlot x

/-- New nodes in the slots change nothing else. -/
theorem Slot.bare_mapChildren (s : Slot) : (s.mapChildren f).bare = s.bare :=
  congrArg (Sigma.mk s.1) (s.1.mapSlots_mapSlots s.2)

/-- What is not in the slots of a walk does not change when these are mapped. -/
theorem WalkStart.bare_mapSlots (s : WalkStart) (x : s.kind.Node) :
    s.bare (s.mapSlots f x) = s.bare x :=
  s.mapSlots_mapSlots x

/-- The children of a slot with mapped children are its children, mapped. -/
theorem Slot.children_mapChildren (s : Slot) :
    (s.mapChildren f).children = s.children.map (Slot.map f) :=
  s.1.slots_mapSlots s.2

end MapSlots

/-- Defaults in the children are as many as the children. -/
theorem Slot.length_children_bare (s : Slot) : s.bare.children.length = s.children.length := by
  rw [bare, children_mapChildren, List.length_map]

/-- Defaults in the slots of a walk are as many as the slots. -/
theorem WalkStart.length_slots_bare (s : WalkStart) (x : s.kind.Node) :
    (s.slots (s.bare x)).length = (s.slots x).length := by
  rw [bare, slots_mapSlots, List.length_map]

/-! ## Nodes with equal slots -/

/-- A node is known from its slot. -/
theorem slot_inj {k : NodeKind} {x y : k.Node} (h : [(⟨k, x⟩ : Slot)] = [⟨k, y⟩]) : x = y :=
  sigma_mk_injective (List.singleton_inj.1 h)

/-- Nodes of a kind are known from their slots. -/
theorem map_slot_inj (k : NodeKind) {xs ys : List k.Node}
    (h : xs.map (fun x => (⟨k, x⟩ : Slot)) = ys.map fun x => ⟨k, x⟩) : xs = ys :=
  List.map_injective_iff.2 sigma_mk_injective h

/-- An operand is known from its slot, which also tells its kind. -/
theorem Operand.slot_injective : Function.Injective slot := by
  intro o o' h
  cases o <;> cases o' <;> cases h <;> rfl

/-- Lists with the same images are of the same length. -/
theorem length_eq_of_map_eq {α β : Type} {f : α → β} {xs ys : List α} (h : xs.map f = ys.map f) :
    xs.length = ys.length := by
  rw [← List.length_map f, h, List.length_map]

/-- Groups are known from their shape and their items. -/
theorem Groups.eq_of_map_eq {α β : Type} {b : β} {g h : Groups α}
    (hshape : g.map (fun _ => b) = h.map fun _ => b) (hitems : g.toList = h.toList) : g = h := by
  obtain ⟨es⟩ := g
  obtain ⟨ds⟩ := h
  replace hshape := congrArg entries hshape
  simp only [map, toList] at hshape hitems
  congr 1
  induction es generalizing ds with
  | nil =>
    cases ds with
    | nil => rfl
    | cons d ds => cases hshape
  | cons e es ih =>
    cases ds with
    | nil => cases hshape
    | cons d ds =>
      obtain ⟨k, xs⟩ := e
      obtain ⟨k', ys⟩ := d
      simp only [List.map_cons, List.cons.injEq, Prod.mk.injEq] at hshape
      obtain ⟨⟨rfl, hgroup⟩, hrest⟩ := hshape
      rw [List.flatMap_cons, List.flatMap_cons] at hitems
      obtain ⟨rfl, htail⟩ := List.append_inj hitems (length_eq_of_map_eq hgroup)
      rw [ih ds htail hrest]

/-- Groups are known from their shape and their slots. -/
theorem Groups.eq_of_slots {g h : Groups Condition}
    (hbare : g.map (blank .condition) = h.map (blank .condition)) (hslots : g.slots = h.slots) :
    g = h :=
  eq_of_map_eq hbare (map_slot_inj .condition hslots)

/-- A comparison is known from its slots and the rest of it. -/
theorem Comparison.eq_of_slots {c d : Comparison} (hbare : c.mapSlots blank = d.mapSlots blank)
    (hslots : c.slots = d.slots) : c = d := by
  obtain ⟨op, left, right⟩ := c
  obtain ⟨op', left', right'⟩ := d
  simp only [slots, List.cons.injEq, and_true] at hslots
  obtain rfl := Operand.slot_injective hslots.1
  obtain rfl := Operand.slot_injective hslots.2
  cases hbare
  rfl

/-- A condition is known from the slots directly below it and the rest of it. -/
theorem Condition.eq_of_slots {c d : Condition} (hbare : c.mapSlots blank = d.mapSlots blank)
    (hslots : c.slots = d.slots) : c = d := by
  cases c with
  | compare c =>
    cases d with
    | compare d => exact congrArg compare (Comparison.eq_of_slots (compare.inj hbare) hslots)
    | composite op h => cases op <;> cases hbare
    | negation d => cases hbare
  | composite op g =>
    cases d with
    | compare d => cases op <;> cases hbare
    | composite op' h =>
      cases op with
      | and =>
        cases op' with
        | and => exact congrArg (composite .and) (slot_inj hslots)
        | or => cases hbare
      | or =>
        cases op' with
        | and => cases hbare
        | or => exact congrArg (composite .or) (Groups.eq_of_slots (composite.inj hbare).2 hslots)
    | negation d => cases op <;> cases hbare
  | negation c =>
    cases d with
    | compare d => cases hbare
    | composite op' h => cases op' <;> cases hbare
    | negation d => exact congrArg negation (slot_inj hslots)

/-- A join is known from the slots directly below it and the rest of it. -/
theorem Join.eq_of_slots {i j : Join} (hbare : i.mapSlots blank = j.mapSlots blank)
    (hslots : i.slots = j.slots) : i = j := by
  cases i
  cases j
  simp only [slots, List.cons.injEq, Sigma.mk.injEq, heq_eq_eq, true_and, and_true] at hslots
  simp only [mapSlots, Join.mk.injEq] at hbare
  simp only [hbare, hslots]

/-- An update is known from the slots directly below it and the rest of it. -/
theorem Update.eq_of_slots {u v : Update} (hbare : u.mapSlots blank = v.mapSlots blank)
    (hslots : u.slots = v.slots) : u = v := by
  obtain ⟨table, columns, values, condition?, joins⟩ := u
  obtain ⟨table', columns', values', condition?', joins'⟩ := v
  simp only [mapSlots, Update.mk.injEq] at hbare
  obtain ⟨-, hcolumns, hvalues, -, hjoins⟩ := hbare
  simp only [slots, List.cons.injEq, Sigma.mk.injEq, heq_eq_eq, true_and] at hslots
  obtain ⟨rfl, hslots⟩ := hslots
  -- the parts of the row of slots have the same lengths, so they are equal one by one
  obtain ⟨hslots, hjoinSlots⟩ := List.append_inj' hslots (by simpa using length_eq_of_map_eq hjoins)
  obtain ⟨hpairs, hcondition⟩ := List.append_inj hslots
    (by simp [length_eq_of_map_eq hcolumns, length_eq_of_map_eq hvalues])
  obtain ⟨hcolumnSlots, hvalueSlots⟩ := List.append_inj hpairs
    (by simp [length_eq_of_map_eq hcolumns])
  obtain rfl := map_slot_inj .column hcolumnSlots
  obtain rfl := List.map_injective_iff.2 Operand.slot_injective hvalueSlots
  obtain rfl : condition? = condition?' := by
    rw [← Option.head?_toList (o := condition?), map_slot_inj .conjunction hcondition,
      Option.head?_toList]
  obtain rfl := map_slot_inj .join hjoinSlots
  rfl

/-- A node of any kind is known from the slots directly below it and the rest of it. -/
theorem NodeKind.eq_of_slots {k : NodeKind} {x y : k.Node}
    (hbare : k.mapSlots blank x = k.mapSlots blank y) (hslots : k.slots x = k.slots y) : x = y := by
  cases k with
  | table => exact hbare
  | tableRef => exact congrArg TableRef.mk (slot_inj hslots)
  | column =>
    obtain ⟨table, name, alias?⟩ := x
    obtain ⟨table', name', alias?'⟩ := y
    obtain rfl : table = table' := slot_inj hslots
    cases hbare
    rfl
  | value => exact hbare
  | anyOf => exact hbare
  | condition => exact Condition.eq_of_slots hbare hslots
  | conjunction => exact Groups.eq_of_slots hbare hslots
  | join => exact Join.eq_of_slots hbare hslots
  | update => exact Update.eq_of_slots hbare hslots

/-- A slot is known by the slots directly below it and what is not in them. -/
theorem Slot.eq_of_children {s t : Slot} (hbare : s.bare = t.bare)
    (hchildren : s.children = t.children) : s = t := by
  obtain ⟨k, x⟩ := s
  obtain ⟨k', y⟩ := t
  obtain rfl : k = k' := congrArg Sigma.fst hbare
  exact congrArg (Sigma.mk k) (NodeKind.eq_of_slots (sigma_mk_injective hbare) hchildren)

/-- A node is known from the slots from which a walk sets out and the rest of it. -/
theorem WalkStart.eq_of_slots {s : WalkStart} {x y : s.kind.Node} (hbare : s.bare x = s.bare y)
    (hslots : s.slots x = s.slots y) : x = y := by
  cases s with
  | offering k => exact slot_inj hslots
  | below k => exact NodeKind.eq_of_slots hbare hslots
  | belowDisjunction => exact Groups.eq_of_slots hbare hslots
  | belowComparison => exact Comparison.eq_of_slots hbare hslots
  | belowOperand => exact Operand.slot_injective (List.singleton_inj.1 hslots)

/-- Mapping every slot to itself changes nothing. -/
theorem WalkStart.mapSlots_self (s : WalkStart) (x : s.kind.Node) :
    s.mapSlots (fun _ y => y) x = x := by
  refine eq_of_slots (s.bare_mapSlots x) ?_
  rw [s.slots_mapSlots]
  exact List.map_id _

/-! ## From slots to trees -/

/-- A property holds of every slot if a slot takes it over from the slots directly below it. -/
@[elab_as_elim]
theorem Slot.induction {motive : Slot → Prop}
    (step : ∀ s : Slot, (∀ t ∈ s.children, motive t) → motive s) (s : Slot) : motive s := by
  have htable : ∀ t, motive ⟨.table, t⟩ := fun t => step _ (by simp [children, NodeKind.slots])
  have htableRef : ∀ r, motive ⟨.tableRef, r⟩ := fun r =>
    step _ (List.forall_mem_singleton.2 (htable _))
  have hcolumn : ∀ c, motive ⟨.column, c⟩ := fun c =>
    step _ (List.forall_mem_singleton.2 (htable _))
  have hvalue : ∀ v, motive ⟨.value, v⟩ := fun v => step _ (by simp [children, NodeKind.slots])
  have hanyOf : ∀ a, motive ⟨.anyOf, a⟩ := fun a => step _ (by simp [children, NodeKind.slots])
  have hoperand : ∀ o : Operand, motive o.slot := by
    intro o
    cases o with
    | column c => exact hcolumn c
    | value v => exact hvalue v
    | anyOf a => exact hanyOf a
  have hmembers : ∀ g : Groups Condition, (∀ c ∈ g.toList, motive ⟨.condition, c⟩) →
      ∀ t ∈ g.slots, motive t := by
    intro g hg
    exact List.forall_mem_map.2 hg
  have hcondition : ∀ c, motive ⟨.condition, c⟩ := by
    intro c
    induction c using Condition.induction with
    | compare c =>
      exact step _ (List.forall_mem_cons.2
        ⟨hoperand c.left, List.forall_mem_singleton.2 (hoperand c.right)⟩)
    | composite op g ih =>
      cases op with
      | and => exact step _ (List.forall_mem_singleton.2 (step _ (hmembers g ih)))
      | or => exact step _ (hmembers g ih)
    | negation c ih => exact step _ (List.forall_mem_singleton.2 ih)
  have hconjunction : ∀ g, motive ⟨.conjunction, g⟩ := fun g =>
    step _ (hmembers g fun c _ => hcondition c)
  have hjoin : ∀ j, motive ⟨.join, j⟩ := fun j =>
    step _ (List.forall_mem_cons.2 ⟨htable _, List.forall_mem_cons.2
      ⟨htableRef _, List.forall_mem_singleton.2 (hconjunction _)⟩⟩)
  obtain ⟨k, x⟩ := s
  cases k with
  | table => exact htable x
  | tableRef => exact htableRef x
  | column => exact hcolumn x
  | value => exact hvalue x
  | anyOf => exact hanyOf x
  | condition => exact hcondition x
  | conjunction => exact hconjunction x
  | join => exact hjoin x
  | update =>
    refine step _ ?_
    simp only [children, NodeKind.slots, Update.slots, List.forall_mem_cons,
      List.forall_mem_append, List.forall_mem_map]
    exact ⟨htable _, ⟨⟨fun c _ => hcolumn c, fun o _ => hoperand o⟩, fun g _ => hconjunction g⟩,
      fun j _ => hjoin j⟩

end QueryTree
