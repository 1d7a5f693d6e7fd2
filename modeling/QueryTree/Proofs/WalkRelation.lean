import QueryTree.Condition.Lemmas
import QueryTree.Walk.Visitors

/-! # Walks in two monads

A walk runs in the monad of its visitor. `Walk.rel_walk` compares the walks of two visitors: if
their answers are related node by node, so are the walks. A visitor whose answers do not depend on
its state is compared with a plain function in this way. -/

namespace QueryTree

/-- A relation between the computations of two monads that sequences of computations keep. -/
structure MonadRel (m n : Type → Type) [Monad m] [Monad n] where
  Rel : {α : Type} → m α → n α → Prop
  rel_pure : ∀ {α : Type} (a : α), Rel (pure a) (pure a)
  rel_bind : ∀ {α β : Type} {x : m α} {y : n α} {f : α → m β} {g : α → n β},
    Rel x y → (∀ a, Rel (f a) (g a)) → Rel (x >>= f) (y >>= g)

namespace MonadRel

variable {m n : Type → Type} [Monad m] [Monad n] [LawfulMonad m] [LawfulMonad n]
  (R : MonadRel m n)

/-- Mapping the values keeps computations related. -/
theorem rel_map {α β : Type} {x : m α} {y : n α} (f : α → β) (h : R.Rel x y) :
    R.Rel (f <$> x) (f <$> y) := by
  rw [map_eq_pure_bind, map_eq_pure_bind]
  exact R.rel_bind h fun a => R.rel_pure (f a)

/-- Along a list computations are related if they are at each item. -/
theorem rel_mapM {α β : Type} {f : α → m β} {g : α → n β} (h : ∀ a, R.Rel (f a) (g a))
    (as : List α) : R.Rel (as.mapM f) (as.mapM g) := by
  induction as with
  | nil =>
    rw [List.mapM_nil, List.mapM_nil]
    exact R.rel_pure []
  | cons a as ih =>
    rw [List.mapM_cons, List.mapM_cons]
    exact R.rel_bind (h a) fun b => R.rel_bind ih fun bs => R.rel_pure (b :: bs)

end MonadRel

namespace Walk

variable {m n : Type → Type} [Monad m] [Monad n] {R : MonadRel m n} {visit : Visitor m}
  {visit' : Visitor n} (h : ∀ k x, R.Rel (visit k x) (visit' k x))

include h

/-- Offering a node to related visitors is related if what is below is. -/
theorem rel_offer (k : NodeKind) (x : k.Node) {inside : m k.Node} {inside' : n k.Node}
    (hinside : R.Rel inside inside') :
    R.Rel (offer visit k x inside) (offer visit' k x inside') := by
  refine R.rel_bind (h k x) fun answer => ?_
  cases answer with
  | enter => exact hinside
  | skip => exact R.rel_pure x
  | put y => exact R.rel_pure y

/-- Related visitors walk a table in related ways. -/
theorem rel_table (t : Table) : R.Rel (table visit t) (table visit' t) :=
  rel_offer h .table t (R.rel_pure t)

theorem rel_insideTableRef (r : TableRef) :
    R.Rel (insideTableRef visit r) (insideTableRef visit' r) :=
  R.rel_bind (rel_table h r.table) fun _ => R.rel_pure _

theorem rel_insideColumn (c : Column) : R.Rel (insideColumn visit c) (insideColumn visit' c) :=
  R.rel_bind (rel_table h c.table) fun _ => R.rel_pure _

theorem rel_tableRef (r : TableRef) : R.Rel (tableRef visit r) (tableRef visit' r) :=
  rel_offer h .tableRef r (rel_insideTableRef h r)

theorem rel_column (c : Column) : R.Rel (column visit c) (column visit' c) :=
  rel_offer h .column c (rel_insideColumn h c)

/-- A list of conditions is walked in related ways if its members are. -/
theorem rel_insideList {cs : List Condition}
    (hcs : ∀ c ∈ cs, R.Rel (insideCondition visit c) (insideCondition visit' c)) :
    R.Rel (insideList visit cs) (insideList visit' cs) := by
  induction cs with
  | nil => exact R.rel_pure []
  | cons c cs ih =>
    obtain ⟨hc, hcs⟩ := List.forall_mem_cons.1 hcs
    rw [insideList, insideList]
    exact R.rel_bind (rel_offer h .condition c hc) fun _ =>
      R.rel_bind (ih hcs) fun _ => R.rel_pure _

/-- The entries of groups are walked in related ways if their members are. -/
theorem rel_insideEntries {entries : List (GroupKey × List Condition)}
    (hentries : ∀ e ∈ entries, ∀ c ∈ e.2,
      R.Rel (insideCondition visit c) (insideCondition visit' c)) :
    R.Rel (insideEntries visit entries) (insideEntries visit' entries) := by
  induction entries with
  | nil => exact R.rel_pure []
  | cons e rest ih =>
    obtain ⟨key, cs⟩ := e
    obtain ⟨hcs, hrest⟩ := List.forall_mem_cons.1 hentries
    rw [insideEntries, insideEntries]
    exact R.rel_bind (rel_insideList h hcs) fun _ => R.rel_bind (ih hrest) fun _ => R.rel_pure _

variable [LawfulMonad m] [LawfulMonad n]

/-- Related visitors walk an operand in related ways. -/
theorem rel_operand (o : Operand) : R.Rel (operand visit o) (operand visit' o) := by
  cases o with
  | column c => exact R.rel_map _ (rel_column h c)
  | value v => exact R.rel_map _ (rel_offer h .value v (R.rel_pure v))
  | anyOf a => exact R.rel_map _ (rel_offer h .anyOf a (R.rel_pure a))

theorem rel_insideComparison (c : Comparison) :
    R.Rel (insideComparison visit c) (insideComparison visit' c) :=
  R.rel_bind (rel_operand h c.left) fun _ =>
    R.rel_bind (rel_operand h c.right) fun _ => R.rel_pure _

theorem rel_insideCondition (c : Condition) :
    R.Rel (insideCondition visit c) (insideCondition visit' c) := by
  induction c using Condition.induction with
  | compare c =>
    rw [insideCondition, insideCondition]
    exact R.rel_map _ (rel_insideComparison h c)
  | composite op g ih =>
    obtain ⟨entries⟩ := g
    have hentries := rel_insideEntries h fun e he c hc => ih c (Groups.mem_toList.2 ⟨e, he, hc⟩)
    -- a conjunction is offered once more as such, a disjunction is not
    cases op with
    | and =>
      rw [insideCondition, insideCondition]
      exact R.rel_map _ (rel_offer h .conjunction ⟨entries⟩ (R.rel_map _ hentries))
    | or =>
      rw [insideCondition, insideCondition]
      exact R.rel_map _ hentries
  | negation c ih =>
    rw [insideCondition, insideCondition]
    exact R.rel_map _ (rel_offer h .condition c ih)

theorem rel_insideConjunction (g : Groups Condition) :
    R.Rel (insideConjunction visit g) (insideConjunction visit' g) :=
  R.rel_map _ (rel_insideEntries h fun _ _ c _ => rel_insideCondition h c)

theorem rel_conjunction (g : Groups Condition) :
    R.Rel (conjunction visit g) (conjunction visit' g) :=
  rel_offer h .conjunction g (rel_insideConjunction h g)

theorem rel_insideJoin (j : Join) : R.Rel (insideJoin visit j) (insideJoin visit' j) :=
  R.rel_bind (rel_table h j.primary) fun _ => R.rel_bind (rel_tableRef h j.foreign) fun _ =>
    R.rel_bind (rel_conjunction h j.condition) fun _ => R.rel_pure _

theorem rel_join (j : Join) : R.Rel (join visit j) (join visit' j) :=
  rel_offer h .join j (rel_insideJoin h j)

theorem rel_optionalConjunction (g? : Option (Groups Condition)) :
    R.Rel (optionalConjunction visit g?) (optionalConjunction visit' g?) := by
  cases g? with
  | none => exact R.rel_pure none
  | some g => exact R.rel_map _ (rel_conjunction h g)

theorem rel_insideUpdate (u : Update) : R.Rel (insideUpdate visit u) (insideUpdate visit' u) :=
  R.rel_bind (rel_table h u.table) fun _ =>
    R.rel_bind (R.rel_mapM (rel_column h) u.columns) fun _ =>
    R.rel_bind (R.rel_mapM (rel_operand h) u.values) fun _ =>
    R.rel_bind (rel_optionalConjunction h u.condition?) fun _ =>
    R.rel_bind (R.rel_mapM (rel_join h) u.joins) fun _ => R.rel_pure _

theorem rel_inside (k : NodeKind) (x : k.Node) : R.Rel (inside visit k x) (inside visit' k x) := by
  cases k with
  | table => exact R.rel_pure x
  | tableRef => exact rel_insideTableRef h x
  | column => exact rel_insideColumn h x
  | value => exact R.rel_pure x
  | anyOf => exact R.rel_pure x
  | condition => exact rel_insideCondition h x
  | conjunction => exact rel_insideConjunction h x
  | join => exact rel_insideJoin h x
  | update => exact rel_insideUpdate h x

/-- Visitors with related answers make related walks. -/
theorem rel_walk (k : NodeKind) (x : k.Node) : R.Rel (walk visit k x) (walk visit' k x) :=
  rel_offer h k x (rel_inside h k x)

end Walk

end QueryTree
