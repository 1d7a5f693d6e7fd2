import QueryTree.Proofs.Slots

/-! # Rules along slots

A walk below a node is made of the walks from the slots directly below it, in their order. A rule
that sequences of computations keep therefore holds of the walk below a node if it holds of the
walks from these slots, whatever nodes they put there (`SlotRule.holds_inside`). It says nothing
about what is made, as opposed to walks that put one known node into each slot.
-/

namespace QueryTree

/-- A rule about computations that offer slots in order, which sequences of computations keep. -/
structure SlotRule (m : Type → Type) [Monad m] where
  Holds : {α : Type} → m α → List Slot → Prop
  holds_pure : ∀ {α : Type} (a : α), Holds (pure a) []
  holds_bind : ∀ {α β : Type} {x : m α} {f : α → m β} {slots next : List Slot},
    Holds x slots → (∀ a, Holds (f a) next) → Holds (x >>= f) (slots ++ next)

namespace SlotRule

variable {m : Type → Type} [Monad m] (R : SlotRule m)

/-- A rule that a computation keeps to is kept when its value is passed on. -/
theorem holds_bind_pure {α β : Type} {x : m α} {slots : List Slot} (h : R.Holds x slots)
    (g : α → β) : R.Holds (x >>= fun a => pure (g a)) slots := by
  rw [← List.append_nil slots]
  exact R.holds_bind h fun a => R.holds_pure (g a)

variable {R} {visit : Visitor m}

/-- The walk from the slot keeps to the rule. -/
def OnSlot (R : SlotRule m) (visit : Visitor m) (s : Slot) : Prop :=
  R.Holds (walk visit s.1 s.2) [s]

/-- A rule is kept in a list of conditions if it is in each of their slots. -/
theorem holds_insideList {cs : List Condition} (h : ∀ c ∈ cs, R.OnSlot visit ⟨.condition, c⟩) :
    R.Holds (Walk.insideList visit cs) (cs.map (⟨.condition, ·⟩)) := by
  induction cs with
  | nil => exact R.holds_pure []
  | cons c cs ih =>
    obtain ⟨hc, hcs⟩ := List.forall_mem_cons.1 h
    rw [Walk.insideList, List.map_cons]
    exact R.holds_bind hc fun _ => R.holds_bind_pure (ih hcs) _

/-- A rule is kept in the entries of groups if it is in each slot of a condition. -/
theorem holds_insideEntries {entries : List (GroupKey × List Condition)}
    (h : ∀ e ∈ entries, ∀ c ∈ e.2, R.OnSlot visit ⟨.condition, c⟩) :
    R.Holds (Walk.insideEntries visit entries)
      ((entries.flatMap (·.2)).map (⟨.condition, ·⟩)) := by
  induction entries with
  | nil => exact R.holds_pure []
  | cons e rest ih =>
    obtain ⟨key, cs⟩ := e
    obtain ⟨hcs, hrest⟩ := List.forall_mem_cons.1 h
    rw [Walk.insideEntries, List.flatMap_cons, List.map_append]
    exact R.holds_bind (holds_insideList hcs) fun _ => R.holds_bind_pure (ih hrest) _

/-- A rule is kept in groups if it is in each of their slots. -/
theorem holds_groups {g : Groups Condition} (h : ∀ s ∈ g.slots, R.OnSlot visit s) :
    R.Holds (Walk.insideEntries visit g.entries) g.slots :=
  holds_insideEntries fun e he _ hc =>
    h _ (List.mem_map_of_mem (Groups.mem_toList.2 ⟨e, he, hc⟩))

/-- A rule is kept below a join if it is in the slots of its tables and its condition. -/
theorem holds_insideJoin {j : Join} (h : ∀ s ∈ j.slots, R.OnSlot visit s) :
    R.Holds (Walk.insideJoin visit j) j.slots := by
  have hprimary : R.OnSlot visit ⟨.table, j.primary⟩ := h _ (by simp [Join.slots])
  have hforeign : R.OnSlot visit ⟨.tableRef, j.foreign⟩ := h _ (by simp [Join.slots])
  have hcondition : R.OnSlot visit ⟨.conjunction, j.condition⟩ := h _ (by simp [Join.slots])
  exact R.holds_bind hprimary fun _ => R.holds_bind hforeign fun _ =>
    R.holds_bind_pure hcondition _

variable [LawfulMonad m]

/-- A rule that a computation keeps to is kept when its value is mapped. -/
theorem holds_map {α β : Type} {x : m α} {slots : List Slot} (h : R.Holds x slots) (g : α → β) :
    R.Holds (g <$> x) slots := by
  rw [map_eq_pure_bind]
  exact R.holds_bind_pure h g

/-- A rule that is kept for each item of a list is kept along the list. -/
theorem holds_mapM {α β : Type} {g : α → m β} {slot : α → Slot} {as : List α}
    (h : ∀ a ∈ as, R.Holds (g a) [slot a]) : R.Holds (as.mapM g) (as.map slot) := by
  induction as with
  | nil => exact R.holds_pure []
  | cons a as ih =>
    obtain ⟨ha, has⟩ := List.forall_mem_cons.1 h
    rw [List.mapM_cons, List.map_cons]
    exact R.holds_bind ha fun _ => R.holds_bind_pure (ih has) _

/-- A rule is kept in an operand if it is in its slot. -/
theorem holds_operand {o : Operand} (h : R.OnSlot visit o.slot) :
    R.Holds (Walk.operand visit o) [o.slot] := by
  cases o with
  | column c => exact holds_map h Operand.column
  | value v => exact holds_map h Operand.value
  | anyOf a => exact holds_map h Operand.anyOf

/-- A rule is kept below a comparison if it is in the slots of both operands. -/
theorem holds_insideComparison {c : Comparison} (h : ∀ s ∈ c.slots, R.OnSlot visit s) :
    R.Holds (Walk.insideComparison visit c) c.slots := by
  obtain ⟨hleft, hright⟩ := List.forall_mem_cons.1 h
  have hright := holds_operand (List.forall_mem_singleton.1 hright)
  exact R.holds_bind (holds_operand hleft) fun _ => R.holds_bind_pure hright _

/-- A rule is kept below a condition if it is in the slots directly below it. -/
theorem holds_insideCondition {c : Condition} (h : ∀ s ∈ c.slots, R.OnSlot visit s) :
    R.Holds (Walk.insideCondition visit c) c.slots := by
  cases c with
  | compare c =>
    rw [Walk.insideCondition]
    exact holds_map (holds_insideComparison h) Condition.compare
  | composite op g =>
    obtain ⟨entries⟩ := g
    cases op with
    | and =>
      have hslot : R.OnSlot visit ⟨.conjunction, ⟨entries⟩⟩ := h _ List.mem_cons_self
      rw [Walk.insideCondition]
      exact holds_map hslot (Condition.composite .and)
    | or =>
      rw [Walk.insideCondition]
      exact holds_map (holds_groups h) fun es => Condition.composite .or ⟨es⟩
  | negation c =>
    have hslot : R.OnSlot visit ⟨.condition, c⟩ := h _ List.mem_cons_self
    rw [Walk.insideCondition]
    exact holds_map hslot Condition.negation

/-- A rule is kept in an optional condition if it is in its slot, where there is one. -/
theorem holds_optionalConjunction {g? : Option (Groups Condition)}
    (h : ∀ g ∈ g?, R.OnSlot visit ⟨.conjunction, g⟩) :
    R.Holds (Walk.optionalConjunction visit g?) (g?.toList.map (⟨.conjunction, ·⟩)) := by
  cases g? with
  | none => exact R.holds_pure none
  | some g => exact holds_map (h g rfl) some

/-- A rule is kept below an update if it is in the slots directly below it. -/
theorem holds_insideUpdate {u : Update} (h : ∀ s ∈ u.slots, R.OnSlot visit s) :
    R.Holds (Walk.insideUpdate visit u) u.slots := by
  have hslots : u.slots = [⟨.table, u.table⟩] ++ (u.columns.map (⟨.column, ·⟩)
      ++ (u.values.map (·.slot) ++ (u.condition?.toList.map (⟨.conjunction, ·⟩)
      ++ u.joins.map (⟨.join, ·⟩)))) := by
    simp [Update.slots]
  simp only [Update.slots, List.forall_mem_cons, List.forall_mem_append, List.forall_mem_map] at h
  obtain ⟨htable, ⟨⟨hcolumns, hvalues⟩, hcondition⟩, hjoins⟩ := h
  have hoperands := holds_mapM fun o ho => holds_operand (hvalues o ho)
  have hgroups := holds_optionalConjunction fun g hg => hcondition g (Option.mem_toList.2 hg)
  rw [hslots]
  exact R.holds_bind htable fun _ => R.holds_bind (holds_mapM hcolumns) fun _ =>
    R.holds_bind hoperands fun _ => R.holds_bind hgroups fun _ =>
    R.holds_bind_pure (holds_mapM hjoins) _

/-- A walk goes below a node along the slots directly below it. -/
theorem holds_inside (k : NodeKind) {x : k.Node} (h : ∀ s ∈ k.slots x, R.OnSlot visit s) :
    R.Holds (Walk.inside visit k x) (k.slots x) := by
  cases k with
  | table => exact R.holds_pure x
  | tableRef => exact R.holds_bind_pure (h ⟨.table, TableRef.table x⟩ List.mem_cons_self) _
  | column => exact R.holds_bind_pure (h ⟨.table, Column.table x⟩ List.mem_cons_self) _
  | value => exact R.holds_pure x
  | anyOf => exact R.holds_pure x
  | condition => exact holds_insideCondition h
  | conjunction => exact holds_map (holds_groups h) Groups.mk
  | join => exact holds_insideJoin h
  | update => exact holds_insideUpdate h

end SlotRule

end QueryTree
