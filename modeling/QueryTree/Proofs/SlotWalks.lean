import QueryTree.Proofs.Slots

/-! # Walks, slot by slot

A walk goes below a node by walking from each of the slots directly below it in turn. What the walks
from these slots make and how they change the state, one after the other, makes up the walk of the
node (`WalkStart.run_walk`).
-/

namespace QueryTree

variable {f : (k : NodeKind) → k.Node → k.Node}

/-- From each state the computation makes the value, and changes the state as the slots do one after
the other. -/
def Passes {σ α : Type} (after : Slot → σ → σ) (x : StateM σ α) (a : α) (slots : List Slot) :
    Prop :=
  ∀ st, x.run st = (a, slots.foldl (fun st s => after s st) st)

section Passes

variable {σ α β : Type} {after : Slot → σ → σ}

/-- Returning a value passes no slot. -/
theorem passes_pure (a : α) : Passes after (pure a : StateM σ α) a [] := fun _ => rfl

/-- Computations in a row pass the slots of the one and then those of the other. -/
theorem Passes.bind {x : StateM σ α} {a : α} {slots : List Slot} (h : Passes after x a slots)
    {g : α → StateM σ β} {b : β} {next : List Slot} (hg : Passes after (g a) b next) :
    Passes after (x >>= g) b (slots ++ next) := by
  intro st
  have hx := h st
  have hnext := hg (slots.foldl (fun st s => after s st) st)
  rw [StateT.run_bind, hx, List.foldl_append]
  exact hnext

/-- Passing the value on passes no further slot. -/
theorem Passes.bind_pure {x : StateM σ α} {a : α} {slots : List Slot} (h : Passes after x a slots)
    (g : α → β) : Passes after (x >>= fun a => pure (g a)) (g a) slots := by
  rw [← List.append_nil slots]
  exact h.bind (passes_pure (g a))

/-- Mapping the value passes no further slot. -/
theorem Passes.map {x : StateM σ α} {a : α} {slots : List Slot} (h : Passes after x a slots)
    (g : α → β) : Passes after (g <$> x) (g a) slots := by
  rw [map_eq_pure_bind]
  exact h.bind_pure g

/-- Along a list the slots of its items are passed in their order. -/
theorem passes_mapM {g : α → StateM σ β} {g' : α → β} {slot : α → Slot} {as : List α}
    (h : ∀ a ∈ as, Passes after (g a) (g' a) [slot a]) :
    Passes after (as.mapM g) (as.map g') (as.map slot) := by
  induction as with
  | nil => exact passes_pure []
  | cons a as ih =>
    obtain ⟨ha, has⟩ := List.forall_mem_cons.1 h
    rw [List.mapM_cons, List.map_cons, List.map_cons]
    exact ha.bind ((ih has).bind_pure _)

end Passes

/-- The walk goes on below a node that the visitor enters in any state. -/
theorem walk_of_enter {σ : Type} {visit : Visitor (StateM σ)} {k : NodeKind} {x : k.Node}
    (h : visit k x = pure .enter) : walk visit k x = Walk.inside visit k x := by
  rw [walk, Walk.offer, h, pure_bind]

/-- A count to which every slot adds a number. -/
theorem foldl_add_sum (changes : Slot → Nat) (ss : List Slot) (count : Nat) :
    ss.foldl (fun count s => count + changes s) count = count + (ss.map changes).sum := by
  induction ss generalizing count with
  | nil => rfl
  | cons s ss ih => rw [List.foldl_cons, ih, List.map_cons, List.sum_cons, Nat.add_assoc]

namespace Walk

variable {σ : Type} {visit : Visitor (StateM σ)} {after : Slot → σ → σ}

/-- The walk from a slot makes the image of the slot's node. -/
def PassesSlot (visit : Visitor (StateM σ)) (f : (k : NodeKind) → k.Node → k.Node)
    (after : Slot → σ → σ) (s : Slot) : Prop :=
  Passes after (walk visit s.1 s.2) (f s.1 s.2) [s]

/-- The walk of an operand passes its slot. -/
theorem passes_operand {o : Operand} (h : PassesSlot visit f after o.slot) :
    Passes after (operand visit o) (o.mapSlot f) [o.slot] := by
  cases o with
  | column c => exact Passes.map h Operand.column
  | value v => exact Passes.map h Operand.value
  | anyOf a => exact Passes.map h Operand.anyOf

/-- The walk below a comparison passes the slots of both operands. -/
theorem passes_insideComparison {c : Comparison} (h : ∀ s ∈ c.slots, PassesSlot visit f after s) :
    Passes after (insideComparison visit c) (c.mapSlots f) c.slots := by
  obtain ⟨hleft, hright⟩ := List.forall_mem_cons.1 h
  have hright := passes_operand (List.forall_mem_singleton.1 hright)
  exact (passes_operand hleft).bind (hright.bind_pure _)

/-- The walk of a list of conditions passes their slots. -/
theorem passes_insideList {cs : List Condition}
    (h : ∀ c ∈ cs, PassesSlot visit f after ⟨.condition, c⟩) :
    Passes after (insideList visit cs) (cs.map (f .condition)) (cs.map (⟨.condition, ·⟩)) := by
  induction cs with
  | nil => exact passes_pure []
  | cons c cs ih =>
    obtain ⟨hc, hcs⟩ := List.forall_mem_cons.1 h
    rw [insideList, List.map_cons, List.map_cons]
    exact Passes.bind hc ((ih hcs).bind_pure _)

/-- The walk of the entries of groups passes the slots of their conditions. -/
theorem passes_insideEntries {entries : List (GroupKey × List Condition)}
    (h : ∀ e ∈ entries, ∀ c ∈ e.2, PassesSlot visit f after ⟨.condition, c⟩) :
    Passes after (insideEntries visit entries) (entries.map fun e => (e.1, e.2.map (f .condition)))
      ((entries.flatMap (·.2)).map (⟨.condition, ·⟩)) := by
  induction entries with
  | nil => exact passes_pure []
  | cons e rest ih =>
    obtain ⟨key, cs⟩ := e
    obtain ⟨hcs, hrest⟩ := List.forall_mem_cons.1 h
    rw [insideEntries, List.map_cons, List.flatMap_cons, List.map_append]
    exact (passes_insideList hcs).bind ((ih hrest).bind_pure _)

/-- The walk of the entries passes the slots of the groups and maps the groups. -/
theorem passes_groups {g : Groups Condition} (h : ∀ s ∈ g.slots, PassesSlot visit f after s) :
    Passes after (insideEntries visit g.entries) (g.map (f .condition)).entries g.slots :=
  passes_insideEntries fun e he _ hc =>
    h _ (List.mem_map_of_mem (Groups.mem_toList.2 ⟨e, he, hc⟩))

/-- The walk below grouped conditions passes their slots. -/
theorem passes_insideConjunction {g : Groups Condition}
    (h : ∀ s ∈ g.slots, PassesSlot visit f after s) :
    Passes after (insideConjunction visit g) (g.map (f .condition)) g.slots :=
  (passes_groups h).map Groups.mk

/-- The walk below a condition passes the slots directly below it. -/
theorem passes_insideCondition {c : Condition} (h : ∀ s ∈ c.slots, PassesSlot visit f after s) :
    Passes after (insideCondition visit c) (c.mapSlots f) c.slots := by
  cases c with
  | compare c =>
    rw [insideCondition]
    exact (passes_insideComparison h).map Condition.compare
  | composite op g =>
    obtain ⟨entries⟩ := g
    cases op with
    | and =>
      have hslot : PassesSlot visit f after ⟨.conjunction, ⟨entries⟩⟩ := h _ List.mem_cons_self
      rw [insideCondition]
      exact Passes.map hslot (Condition.composite .and)
    | or =>
      rw [insideCondition]
      exact (passes_groups h).map fun es => Condition.composite .or ⟨es⟩
  | negation c =>
    have hslot : PassesSlot visit f after ⟨.condition, c⟩ := h _ List.mem_cons_self
    rw [insideCondition]
    exact Passes.map hslot Condition.negation

/-- The walk below a join passes the slots of its tables and its condition. -/
theorem passes_insideJoin {j : Join} (h : ∀ s ∈ j.slots, PassesSlot visit f after s) :
    Passes after (insideJoin visit j) (j.mapSlots f) j.slots := by
  have hprimary : PassesSlot visit f after ⟨.table, j.primary⟩ := h _ (by simp [Join.slots])
  have hforeign : PassesSlot visit f after ⟨.tableRef, j.foreign⟩ := h _ (by simp [Join.slots])
  have hcondition : PassesSlot visit f after ⟨.conjunction, j.condition⟩ :=
    h _ (by simp [Join.slots])
  exact Passes.bind hprimary (Passes.bind hforeign (Passes.bind_pure hcondition _))

/-- The walk of an optional condition passes its slot, if there is one. -/
theorem passes_optionalConjunction {g? : Option (Groups Condition)}
    (h : ∀ g ∈ g?, PassesSlot visit f after ⟨.conjunction, g⟩) :
    Passes after (optionalConjunction visit g?) (g?.map (f .conjunction))
      (g?.toList.map (⟨.conjunction, ·⟩)) := by
  cases g? with
  | none => exact passes_pure none
  | some g => exact Passes.map (h g rfl) some

/-- The walk below an update passes the slots directly below it. -/
theorem passes_insideUpdate {u : Update} (h : ∀ s ∈ u.slots, PassesSlot visit f after s) :
    Passes after (insideUpdate visit u) (u.mapSlots f) u.slots := by
  have hslots : u.slots = [⟨.table, u.table⟩] ++ (u.columns.map (⟨.column, ·⟩)
      ++ (u.values.map (·.slot) ++ (u.condition?.toList.map (⟨.conjunction, ·⟩)
      ++ u.joins.map (⟨.join, ·⟩)))) := by
    simp [Update.slots]
  simp only [Update.slots, List.forall_mem_cons, List.forall_mem_append, List.forall_mem_map] at h
  obtain ⟨htable, ⟨⟨hcolumns, hvalues⟩, hcondition⟩, hjoins⟩ := h
  have hoperands := passes_mapM fun o ho => passes_operand (hvalues o ho)
  have hgroups := passes_optionalConjunction fun g hg => hcondition g (Option.mem_toList.2 hg)
  rw [hslots]
  exact Passes.bind htable (Passes.bind (passes_mapM hcolumns) (hoperands.bind
    (hgroups.bind (Passes.bind_pure (passes_mapM hjoins) _))))

/-- The walk below a node of any kind passes the slots directly below it. -/
theorem passes_inside (k : NodeKind) {x : k.Node}
    (h : ∀ s ∈ k.slots x, PassesSlot visit f after s) :
    Passes after (inside visit k x) (k.mapSlots f x) (k.slots x) := by
  cases k with
  | table => exact passes_pure x
  | tableRef => exact Passes.bind_pure (h ⟨.table, TableRef.table x⟩ List.mem_cons_self) _
  | column => exact Passes.bind_pure (h ⟨.table, Column.table x⟩ List.mem_cons_self) _
  | value => exact passes_pure x
  | anyOf => exact passes_pure x
  | condition => exact passes_insideCondition h
  | conjunction => exact passes_insideConjunction h
  | join => exact passes_insideJoin h
  | update => exact passes_insideUpdate h

end Walk

/-- A walk makes the images of the slots that it sets out from, and changes its state as the walks
from these slots do one after the other, if each of them makes the image and changes the state in
its own way from any state. -/
theorem WalkStart.run_walk {σ : Type} {visit : Visitor (StateM σ)} {after : Slot → σ → σ}
    (s : WalkStart) {x : s.kind.Node}
    (h : ∀ t ∈ s.slots x, ∀ st, (QueryTree.walk visit t.1 t.2).run st = (f t.1 t.2, after t st))
    (st : σ) :
    (s.walk visit x).run st
      = (s.mapSlots f x, (s.slots x).foldl (fun st t => after t st) st) := by
  have hslots : ∀ t ∈ s.slots x, Walk.PassesSlot visit f after t := h
  revert st
  show Passes after (s.walk visit x) (s.mapSlots f x) (s.slots x)
  cases s with
  | offering k => exact hslots _ List.mem_cons_self
  | below k => exact Walk.passes_inside k hslots
  | belowDisjunction => exact Walk.passes_insideConjunction hslots
  | belowComparison => exact Walk.passes_insideComparison hslots
  | belowOperand => exact Walk.passes_operand (hslots _ List.mem_cons_self)

end QueryTree
