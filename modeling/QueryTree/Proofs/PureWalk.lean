import QueryTree.Proofs.WalkRelation

/-! # Walks without state

The answers of `replacing` and `renamer` do not depend on what they counted. Their trees are those
of the walks with `substituting` and `remapping`, which have no state; such a walk is a function,
and below grouped conditions it maps over the groups. -/

namespace QueryTree

/-- A stateful computation and the value it has in every state. -/
def MonadRel.value (σ : Type) : MonadRel (StateM σ) Id where
  Rel x a := ∀ s, (x.run s).1 = a.run
  rel_pure _ _ := rfl
  rel_bind {_ _ x y f g} hx hf s := by
    show ((f (x.run s).1).run (x.run s).2).1 = (g y.run).run
    rw [hx s]
    exact hf y.run (x.run s).2

/-- Puts `new` in place of every node equal to `old`, as `replacing` does, without counting. -/
def substituting (target : NodeKind) (old new : target.Node) : Visitor Id :=
  fun k x =>
    if h : target = k then
      if x == h ▸ old then .put (h ▸ new) else .enter
    else
      .enter

/-- Nodes of other kinds are entered. -/
theorem substituting_of_ne {target k : NodeKind} (h : target ≠ k) (old new : target.Node)
    (x : k.Node) : (substituting target old new k x).run = .enter := by
  rw [substituting, dif_neg h]
  rfl

/-- A node of the kind is replaced if it is equal to the old one, and else entered. -/
theorem substituting_self (k : NodeKind) (old new x : k.Node) :
    (substituting k old new k x).run = if x == old then .put new else .enter := by
  rw [substituting, dif_pos rfl]
  split <;> rfl

/-- Gives tables their physical names, as `renamer` does, without counting. -/
def remapping (mapping : TableMapping) : Visitor Id
  | .table, t =>
    if mapping.physicalName t.name = t.name then .enter else .put (mapping.rename t)
  | _, _ => .enter

/-- In every state `replacing` answers as `substituting` does. -/
theorem replacing_value (target : NodeKind) (old new : target.Node) (k : NodeKind) (x : k.Node) :
    (MonadRel.value Nat).Rel (replacing target old new k x) (substituting target old new k x) := by
  intro s
  unfold replacing substituting
  split
  · split <;> rfl
  · rfl

/-- In every state `renamer` answers as `remapping` does. -/
theorem renamer_value (mapping : TableMapping) (k : NodeKind) (x : k.Node) :
    (MonadRel.value Nat).Rel (renamer mapping k x) (remapping mapping k x) := by
  intro s
  cases k with
  | table =>
    simp only [renamer, remapping]
    split <;> rfl
  | _ => rfl

/-- The tree that replacing nodes makes is that of the stateless walk. -/
theorem replaceNodes_fst (target : NodeKind) (old new : target.Node) (k : NodeKind) (x : k.Node) :
    (replaceNodes target old new k x).1 = (walk (substituting target old new) k x).run :=
  Walk.rel_walk (replacing_value target old new) k x 0

/-- The tree that remapping tables makes is that of the stateless walk. -/
theorem renameTables_fst (mapping : TableMapping) (k : NodeKind) (x : k.Node) :
    (renameTables mapping k x).1 = (walk (remapping mapping) k x).run :=
  Walk.rel_walk (renamer_value mapping) k x 0

/-- What stands in the slot of the node `x` after an answer, if the walk below makes `inside`. -/
def Answer.outcome {α : Type} (x inside : α) : Answer α → α
  | .enter => inside
  | .skip => x
  | .put y => y

namespace Walk

variable (visit : Visitor Id)

/-- Offering a node to a visitor without a state makes what the answer puts into its slot. -/
theorem offer_run (k : NodeKind) (x : k.Node) (inside : Id k.Node) :
    (offer visit k x inside).run = (visit k x).run.outcome x inside.run := by
  cases hanswer : (visit k x).run with
  | enter =>
    have hvisit : visit k x = pure .enter := hanswer
    rw [offer, hvisit]
    rfl
  | skip =>
    have hvisit : visit k x = pure .skip := hanswer
    rw [offer, hvisit]
    rfl
  | put y =>
    have hvisit : visit k x = pure (.put y) := hanswer
    rw [offer, hvisit]
    rfl

/-- The condition in a slot after the walk. -/
def slot (c : Condition) : Condition :=
  (offer visit .condition c (insideCondition visit c)).run

/-- Of a list of conditions the walk makes a list, slot by slot. -/
theorem insideList_eq_map (cs : List Condition) : insideList visit cs = cs.map (slot visit) := by
  induction cs with
  | nil => rfl
  | cons c cs ih =>
    rw [insideList, ih]
    rfl

/-- Of grouped conditions the walk makes groups with the same keys, slot by slot. -/
theorem insideEntries_eq_map (entries : List (GroupKey × List Condition)) :
    insideEntries visit entries = entries.map fun e => (e.1, e.2.map (slot visit)) := by
  induction entries with
  | nil => rfl
  | cons e rest ih =>
    obtain ⟨key, cs⟩ := e
    rw [insideEntries, ih, insideList_eq_map]
    rfl

/-- Below a conjunction the walk maps over the groups. -/
theorem insideConjunction_eq_map (g : Groups Condition) :
    insideConjunction visit g = g.map (slot visit) := by
  rw [insideConjunction, insideEntries_eq_map]
  rfl

/-- Of the columns of an update the walk makes as many columns, one by one. -/
theorem columns_insideUpdate (u : Update) :
    (insideUpdate visit u).run.columns = u.columns.map fun c => (column visit c).run :=
  List.idRun_mapM

/-- Of the values of an update the walk makes as many values, one by one. -/
theorem values_insideUpdate (u : Update) :
    (insideUpdate visit u).run.values = u.values.map fun o => (operand visit o).run :=
  List.idRun_mapM

/-- Of the condition of an update the walk makes a condition, if there is one. -/
theorem condition_insideUpdate (u : Update) :
    (insideUpdate visit u).run.condition?
      = u.condition?.map fun g => (conjunction visit g).run := by
  change (optionalConjunction visit u.condition?).run = _
  cases u.condition? <;> rfl

/-- Of the joins of an update the walk makes as many joins, one by one. -/
theorem joins_insideUpdate (u : Update) :
    (insideUpdate visit u).run.joins = u.joins.map fun j => (join visit j).run :=
  List.idRun_mapM

/-- What is below a condition may change, its shape stays. -/
theorem isCompare_insideCondition (c : Condition) :
    (insideCondition visit c).run.isCompare = c.isCompare := by
  cases c with
  | compare c => rfl
  | composite op g =>
    obtain ⟨entries⟩ := g
    cases op <;> rfl
  | negation c => rfl

end Walk

end QueryTree
