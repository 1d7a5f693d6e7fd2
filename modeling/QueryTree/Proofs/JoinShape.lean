import QueryTree.Proofs.Canonical
import QueryTree.Proofs.PureWalk
import QueryTree.Proofs.ReadErrors

/-! # The shape of join conditions over runs

Joins are made and read with comparisons only in their conditions. Inverting, setting fields,
rewriting payloads and renaming tables keep this shape, but a walk that replaces nodes also reaches
the condition of a join and does not check what it puts there. `Join.KeepsShape` says when a
replacement does no harm, and `JoinTree.compares_along_run_iff` that nothing else can.
-/

namespace QueryTree

instance (g : Groups Condition) : Decidable g.Compares :=
  inferInstanceAs (Decidable (∀ c ∈ g.toList, c.isCompare = true))

/-! ## Making and reading -/

/-- Groups made of one comparison hold comparisons only. -/
theorem Groups.compares_ofList_compare (c : Comparison) : (ofList [.compare c]).Compares := by
  simp [Compares, toList_ofList, Condition.isCompare]

/-- The groups that `conditionOf` accepts hold comparisons only. -/
theorem Join.compares_of_conditionOf {foreign : TableRef} {c : Condition} {g : Groups Condition}
    (h : conditionOf foreign c = .ok g) : g.Compares := by
  cases c with
  | compare c =>
    cases h
    exact Groups.compares_ofList_compare c
  | composite op members =>
    cases op with
    | and =>
      obtain ⟨rfl, hall⟩ := conditionOf_and_eq_ok_iff.1 h
      exact hall
    | or => cases h
  | negation c => cases h

/-- A join that was made has comparisons only in its condition. -/
theorem Join.compares_of_make {name : String} {primary : Table} {foreign : TableRef}
    {condition : Condition} {type : JoinType} {permanent : Bool} {j : Join}
    (h : make name primary foreign condition type permanent = .ok j) : j.condition.Compares := by
  obtain ⟨g, hg, heq⟩ := Except.bind_eq_ok_iff.1 h
  cases heq
  exact compares_of_conditionOf hg

/-- Reading a join from the other side keeps the members of its condition what they are. -/
theorem Join.compares_invert {j : Join} (h : j.condition.Compares) (name : String) :
    (j.invert name).condition.Compares := by
  rw [invert, Groups.Compares, Groups.toList_map, List.forall_mem_map]
  intro c hc
  have hcompare := h c hc
  cases c with
  | compare c => rfl
  | _ => exact hcompare

/-! ## Walking -/

/-- What the visitor puts into grouped conditions leaves comparisons only in them. -/
def Visitor.KeepsConjunction (visit : Visitor Id) (g : Groups Condition) : Prop :=
  match (visit .conjunction g).run with
  | .put h => h.Compares
  | .skip => True
  | .enter => ∀ c ∈ g.toList, ∀ d, (visit .condition c).run = .put d → d.isCompare = true

/-- What the visitor puts into a join leaves comparisons only in its condition. -/
def Visitor.KeepsJoin (visit : Visitor Id) (j : Join) : Prop :=
  match (visit .join j).run with
  | .put i => i.condition.Compares
  | .skip => True
  | .enter => visit.KeepsConjunction j.condition

namespace Visitor

variable {visit : Visitor Id}

/-- Putting other groups keeps the shape exactly if these hold comparisons only. -/
theorem keepsConjunction_of_put {g h : Groups Condition}
    (hput : (visit .conjunction g).run = .put h) : visit.KeepsConjunction g ↔ h.Compares := by
  rw [KeepsConjunction, hput]

/-- Entering groups keeps the shape exactly if comparisons alone are put into them. -/
theorem keepsConjunction_of_enter {g : Groups Condition}
    (henter : (visit .conjunction g).run = .enter) :
    visit.KeepsConjunction g
      ↔ ∀ c ∈ g.toList, ∀ d, (visit .condition c).run = .put d → d.isCompare = true := by
  rw [KeepsConjunction, henter]

/-- Putting another join keeps the shape exactly if that join has it. -/
theorem keepsJoin_of_put {i j : Join} (hput : (visit .join j).run = .put i) :
    visit.KeepsJoin j ↔ i.condition.Compares := by
  rw [KeepsJoin, hput]

/-- Entering a join keeps the shape exactly if it is kept in its condition. -/
theorem keepsJoin_of_enter {j : Join} (henter : (visit .join j).run = .enter) :
    visit.KeepsJoin j ↔ visit.KeepsConjunction j.condition := by
  rw [KeepsJoin, henter]

end Visitor

namespace Walk

variable {visit : Visitor Id}

/-- A comparison stays one in a walk exactly if only a comparison is put in its place. -/
theorem isCompare_slot_iff {c : Condition} (h : c.isCompare = true) :
    (slot visit c).isCompare = true
      ↔ ∀ d, (visit .condition c).run = .put d → d.isCompare = true := by
  rw [slot, offer_run]
  cases (visit .condition c).run with
  | enter => simp [Answer.outcome, isCompare_insideCondition, h]
  | skip => simp [Answer.outcome, h]
  | put d => simp [Answer.outcome]

/-- A walk through groups of comparisons leaves such groups exactly if the visitor keeps the shape
there. -/
theorem compares_conjunction_iff {g : Groups Condition} (h : g.Compares) :
    Groups.Compares (conjunction visit g).run ↔ visit.KeepsConjunction g := by
  rw [conjunction, offer_run, Visitor.KeepsConjunction]
  cases (visit .conjunction g).run with
  | put g => rfl
  | skip => simp [Answer.outcome, h]
  | enter =>
    simp only [Answer.outcome, insideConjunction_eq_map]
    show (g.map (slot visit)).Compares ↔ _
    rw [Groups.Compares, Groups.toList_map, List.forall_mem_map]
    exact forall₂_congr fun c hc => isCompare_slot_iff (h c hc)

/-- A walk leaves comparisons only in the condition of a join exactly when the visitor does. -/
theorem compares_join_iff {j : Join} (h : j.condition.Compares) :
    (join visit j).run.condition.Compares ↔ visit.KeepsJoin j := by
  rw [join, offer_run, Visitor.KeepsJoin]
  cases (visit .join j).run with
  | put i => rfl
  | skip => simp [Answer.outcome, h]
  | enter => exact compares_conjunction_iff h

end Walk

/-- Replacing nodes in a join leaves comparisons only in its condition: what is put in place of a
member of the condition is a comparison, and what is put in place of the condition or the join holds
nothing else. -/
def Join.KeepsShape (j : Join) : (target : NodeKind) → (old new : target.Node) → Prop
  | .condition, old, new => ∀ c ∈ j.condition.toList, c == old → new.isCompare = true
  | .conjunction, old, new => j.condition == old → new.Compares
  | .join, old, new => j == old → new.condition.Compares
  | _, _, _ => True

/-- The same for an update and its joins. -/
def Update.KeepsShape (u : Update) : (target : NodeKind) → (old new : target.Node) → Prop
  | .update, old, new => u == old → ∀ j ∈ new.joins, j.condition.Compares
  | target, old, new => ∀ j ∈ u.joins, j.KeepsShape target old new

/-- Members of a condition stay what they are when no condition is looked for. -/
theorem substituting_keepsMembers {target : NodeKind} (h : target ≠ .condition)
    (old new : target.Node) (g : Groups Condition) :
    ∀ c ∈ g.toList, ∀ d,
      (substituting target old new .condition c).run = .put d → d.isCompare = true := by
  intro c _ d hput
  rw [substituting_of_ne h] at hput
  cases hput

/-- Substituting a node keeps the shape of a join exactly as the kind of the node demands. -/
theorem Join.keepsJoin_substituting_iff (j : Join) (target : NodeKind) (old new : target.Node) :
    (substituting target old new).KeepsJoin j ↔ j.KeepsShape target old new := by
  by_cases hjoin : target = .join
  · subst hjoin
    have hanswer := substituting_self .join old new j
    by_cases heq : j == old
    · rw [if_pos heq] at hanswer
      rw [Visitor.keepsJoin_of_put hanswer]
      simp [KeepsShape, heq]
    · -- another join is entered, and no conjunction or condition in it is looked for
      rw [if_neg heq] at hanswer
      have henter := substituting_of_ne (k := .conjunction) (by decide) old new j.condition
      rw [Visitor.keepsJoin_of_enter hanswer, Visitor.keepsConjunction_of_enter henter]
      exact iff_of_true (substituting_keepsMembers (by decide) old new _) fun h => absurd h heq
  rw [Visitor.keepsJoin_of_enter (substituting_of_ne hjoin old new j)]
  by_cases hconjunction : target = .conjunction
  · subst hconjunction
    have hanswer := substituting_self .conjunction old new j.condition
    by_cases heq : j.condition == old
    · rw [if_pos heq] at hanswer
      rw [Visitor.keepsConjunction_of_put hanswer]
      simp [KeepsShape, heq]
    · rw [if_neg heq] at hanswer
      rw [Visitor.keepsConjunction_of_enter hanswer]
      exact iff_of_true (substituting_keepsMembers (by decide) old new _) fun h => absurd h heq
  rw [Visitor.keepsConjunction_of_enter (substituting_of_ne hconjunction old new j.condition)]
  cases target with
  | condition =>
    refine forall₂_congr fun c _ => ?_
    rw [substituting_self]
    by_cases heq : c == old <;> simp [heq]
  | conjunction => exact (hconjunction rfl).elim
  | join => exact (hjoin rfl).elim
  | _ => exact iff_of_true (substituting_keepsMembers (by decide) old new _) trivial

/-- Renaming tables keeps the shape of every join. -/
theorem Join.keepsJoin_remapping (j : Join) (mapping : TableMapping) :
    (remapping mapping).KeepsJoin j := by
  intro c _ d h
  cases h

/-- After replacing nodes a join has comparisons only exactly if the replacement keeps its shape. -/
theorem Join.compares_replaceNodes_iff {j : Join} (h : j.condition.Compares) (target : NodeKind)
    (old new : target.Node) :
    (replaceNodes target old new .join j).1.condition.Compares ↔ j.KeepsShape target old new := by
  rw [replaceNodes_fst, ← keepsJoin_substituting_iff]
  exact Walk.compares_join_iff h

/-- A walk that goes into an update leaves comparisons only in its joins exactly when the visitor
does so in each of them. -/
theorem Update.compares_insideUpdate_iff {u : Update} (h : ∀ j ∈ u.joins, j.condition.Compares)
    (visit : Visitor Id) :
    (∀ j ∈ (Walk.insideUpdate visit u).run.joins, j.condition.Compares)
      ↔ ∀ j ∈ u.joins, visit.KeepsJoin j := by
  rw [Walk.joins_insideUpdate, List.forall_mem_map]
  exact forall₂_congr fun j hj => Walk.compares_join_iff (h j hj)

/-- After replacing nodes the joins of an update have comparisons only exactly if the replacement
keeps their shape. -/
theorem Update.compares_replaceNodes_iff {u : Update} (h : ∀ j ∈ u.joins, j.condition.Compares)
    (target : NodeKind) (old new : target.Node) :
    (∀ j ∈ (replaceNodes target old new .update u).1.joins, j.condition.Compares)
      ↔ u.KeepsShape target old new := by
  rw [replaceNodes_fst, walk, Walk.offer_run]
  by_cases hupdate : target = .update
  · subst hupdate
    rw [substituting_self]
    by_cases heq : u == old
    · simp [heq, Answer.outcome, KeepsShape]
    · -- another update is entered, and no join in it is looked for
      rw [if_neg heq, Answer.outcome, Walk.inside, compares_insideUpdate_iff h]
      simp [heq, KeepsShape, Join.keepsJoin_substituting_iff, Join.KeepsShape]
  · rw [substituting_of_ne hupdate, Answer.outcome, Walk.inside, compares_insideUpdate_iff h]
    simp only [Join.keepsJoin_substituting_iff]
    cases target with
    | update => exact (hupdate rfl).elim
    | _ => rfl

/-! ## Writing and reading back -/

/-- Of written comparisons nothing but comparisons is read. -/
theorem Groups.Compares.of_toPayload {g h : Groups Condition} (hg : g.Compares) {op : Connective}
    (hh : Groups.ofPayload op (g.toPayload op) = .ok h) : h.Compares := by
  obtain ⟨m, rest, heq, hm⟩ := Groups.ofPayload_eq_ok_iff.1 hh
  obtain ⟨-, heq⟩ := Payload.ofKind_inj.1 heq
  cases heq
  rcases hm with ⟨entries, read, heq, hread, -, rfl⟩ | ⟨_, _, _, heq, -⟩
  · cases heq
    intro c hc
    obtain ⟨e, he, hce⟩ := mem_toList_ofEntries.1 hc
    obtain ⟨_, hentry, -, hitems⟩ := exists_mem_of_forall₂ hread he
    obtain ⟨m, hm, p, rfl, hp⟩ := exists_mem_of_forall₂ hitems hce
    -- the payload that was read as `c` is that of some comparison in `g`
    obtain ⟨d', hd', rfl⟩ := List.mem_map.1 hentry
    obtain ⟨d, hd, rfl⟩ := List.mem_map.1 hd'
    obtain ⟨_, hp', heq⟩ := List.mem_map.1 hm
    cases heq
    obtain ⟨b, hb, rfl⟩ := List.mem_map.1 hp'
    have hcompare := hg b (mem_toList.2 ⟨d, hd, hb⟩)
    cases b with
    | compare b =>
      have hread := (Condition.WellFormed.compare b).ofPayload_toPayload
      cases hp.symm.trans hread
      rfl
    | _ => cases hcompare
  · cases heq

/-- A join with comparisons only is not refused for its condition when read back. -/
theorem Join.noJoinError_toPayload {j : Join} (h : j.condition.Compares) :
    NoJoinError (Join.ofPayload j.toPayload) := by
  intro cause herr
  obtain ⟨_, _, _, _, _, g, heq, hg, hnot⟩ := condition_of_joinError herr
  obtain ⟨-, heq⟩ := Payload.ofKind_inj.1 heq
  cases heq
  obtain ⟨_, heq, hg⟩ := hg
  cases heq
  exact hnot (h.of_toPayload hg)

/-- An update whose joins have comparisons only is not refused for their conditions when read back.
-/
theorem Update.noJoinError_toPayload {u : Update} (h : ∀ j ∈ u.joins, j.condition.Compares) :
    NoJoinError (Update.ofPayload u.toPayload) := by
  intro cause herr
  obtain ⟨_, _, _, _, items, _, q, heq, hmem, hq⟩ := join_of_joinError herr
  obtain ⟨-, heq⟩ := Payload.ofKind_inj.1 heq
  simp only [List.cons.injEq] at heq
  obtain ⟨-, -, -, -, heq, -⟩ := heq
  -- without joins the member is null, which is no list
  split at heq
  · cases heq
  · cases heq
    obtain ⟨_, hp, heq⟩ := List.mem_map.1 hmem
    cases heq
    obtain ⟨j, hj, rfl⟩ := List.mem_map.1 hp
    exact Join.noJoinError_toPayload (h j hj) cause hq

/-! ## Runs -/

/-- What holds joins: a join alone, or an update. -/
inductive JoinTree where
  | join (j : Join)
  | update (u : Update)

namespace JoinTree

/-- The joins in the tree. -/
def joins : JoinTree → List Join
  | .join j => [j]
  | .update u => u.joins

/-- Every join in the tree has comparisons only in its condition. -/
def Compares (t : JoinTree) : Prop :=
  ∀ j ∈ t.joins, j.condition.Compares

instance (t : JoinTree) : Decidable t.Compares :=
  inferInstanceAs (Decidable (∀ j ∈ t.joins, j.condition.Compares))

/-- A tree that is one join compares if the join does. -/
@[simp] theorem compares_join {j : Join} : (JoinTree.join j).Compares ↔ j.condition.Compares := by
  simp [Compares, joins]

/-- What callers start from: a join that was made, or a join or an update that was read. -/
inductive Obtained : JoinTree → Prop where
  | make {name : String} {primary : Table} {foreign : TableRef} {condition : Condition}
    {type : JoinType} {permanent : Bool} {j : Join} :
    Join.make name primary foreign condition type permanent = .ok j → Obtained (.join j)
  | ofTable {name : String} {primary foreign : Table} {condition : Condition} {type : JoinType}
    {permanent : Bool} {j : Join} :
    Join.ofTable name primary foreign condition type permanent = .ok j → Obtained (.join j)
  | readJoin {p : Payload} {j : Join} : Join.ofPayload p = .ok j → Obtained (.join j)
  | readUpdate {p : Payload} {u : Update} : Update.ofPayload p = .ok u → Obtained (.update u)

/-- The tree that is read from the payload of the tree. -/
def rewrite : JoinTree → Except DecodeError JoinTree
  | .join j => (Join.ofPayload j.toPayload).map .join
  | .update u => (Update.ofPayload u.toPayload).map .update

/-- What callers do with a tree, one thing at a time. -/
inductive Step where
  | invert (name : String)
  | setType (type : JoinType)
  | setComment (comment? : Option String)
  | setOrigin (origin : Origin)
  /-- A copy of the tree. -/
  | clone
  /-- A copy of the join at an index of an update. -/
  | cloneJoin (index : Nat)
  /-- The tree is written and read back. If that fails it stays. -/
  | rewrite
  | rename (mapping : TableMapping)
  | replace (target : NodeKind) (old new : target.Node)

/-- The tree after a step. A tree without the joins that a step is about stays as it is. -/
def Step.apply : Step → JoinTree → JoinTree
  | .invert name, .join j => .join (j.invert name)
  | .setType type, .join j => .join { j with type := type }
  | .setComment comment?, .join j => .join { j with comment? := comment? }
  | .setOrigin origin, .join j => .join { j with origin? := some origin }
  | .cloneJoin index, .update u => (u.joins[index]?.map .join).getD (.update u)
  | .rewrite, t => t.rewrite.toOption.getD t
  | .rename mapping, .join j => .join (renameTables mapping .join j).1
  | .rename mapping, .update u => .update (renameTables mapping .update u).1
  | .replace target old new, .join j => .join (replaceNodes target old new .join j).1
  | .replace target old new, .update u => .update (replaceNodes target old new .update u).1
  | _, t => t

/-- A step keeps the shape of conditions in a tree: only replacing nodes can break it. -/
def Step.Keeps : Step → JoinTree → Prop
  | .replace target old new, .join j => j.KeepsShape target old new
  | .replace target old new, .update u => u.KeepsShape target old new
  | _, _ => True

/-- The tree after some steps in order. -/
def run (steps : List Step) (t : JoinTree) : JoinTree :=
  steps.foldl (fun t step => step.apply t) t

/-- Each of some steps in order keeps the shape of conditions. -/
def StepsKeep : List Step → JoinTree → Prop
  | [], _ => True
  | step :: rest, t => step.Keeps t ∧ StepsKeep rest (step.apply t)

/-- What callers start from has comparisons only. -/
theorem Obtained.compares {t : JoinTree} (h : t.Obtained) : t.Compares := by
  cases h with
  | make h => exact compares_join.2 (Join.compares_of_make h)
  | ofTable h => exact compares_join.2 (Join.compares_of_make h)
  | readJoin h => exact compares_join.2 (Join.wellFormed_of_ofPayload h).compares
  | readUpdate h => exact fun j hj => ((Update.wellFormed_of_ofPayload h).joins j hj).compares

/-- A tree that was written and read back has comparisons only. -/
theorem compares_of_rewrite {t t' : JoinTree} (h : t.rewrite = .ok t') : t'.Compares := by
  cases t with
  | join j =>
    obtain ⟨i, hi, rfl⟩ := Except.map_eq_ok_iff.1 h
    exact (Obtained.readJoin hi).compares
  | update u =>
    obtain ⟨v, hv, rfl⟩ := Except.map_eq_ok_iff.1 h
    exact (Obtained.readUpdate hv).compares

/-- Renaming tables leaves comparisons only. -/
theorem compares_rename {t : JoinTree} (h : t.Compares) (mapping : TableMapping) :
    ((Step.rename mapping).apply t).Compares := by
  cases t with
  | join j =>
    rw [Step.apply, compares_join, renameTables_fst]
    exact (Walk.compares_join_iff (compares_join.1 h)).2 (j.keepsJoin_remapping mapping)
  | update u =>
    rw [Step.apply, Compares, joins, renameTables_fst]
    exact (Update.compares_insideUpdate_iff h (remapping mapping)).2 fun j _ =>
      j.keepsJoin_remapping mapping

/-- After one step the conditions have their shape exactly when the step keeps it. -/
theorem compares_apply_iff {t : JoinTree} (h : t.Compares) (step : Step) :
    (step.apply t).Compares ↔ step.Keeps t := by
  cases step with
  | replace target old new =>
    cases t with
    | join j =>
      rw [Step.apply, compares_join]
      exact Join.compares_replaceNodes_iff (compares_join.1 h) target old new
    | update u => exact Update.compares_replaceNodes_iff h target old new
  | invert name =>
    refine iff_of_true ?_ trivial
    cases t with
    | join j => exact compares_join.2 (Join.compares_invert (compares_join.1 h) name)
    | update u => exact h
  | clone => exact iff_of_true h trivial
  | cloneJoin index =>
    refine iff_of_true ?_ trivial
    cases t with
    | join j => exact h
    | update u =>
      rw [Step.apply]
      cases hj : u.joins[index]? with
      | none => exact h
      | some j => exact compares_join.2 (h j (List.mem_of_getElem? hj))
  | rewrite =>
    refine iff_of_true ?_ trivial
    rw [Step.apply]
    cases hr : t.rewrite with
    | error e => exact h
    | ok t' => exact compares_of_rewrite hr
  | rename mapping => exact iff_of_true (compares_rename h mapping) trivial
  | _ =>
    refine iff_of_true ?_ trivial
    cases t with
    | join j =>
      have hj := compares_join.1 h
      exact compares_join.2 hj
    | update u => exact h

/-- Along a run the conditions have their shape exactly when each step keeps it. -/
theorem compares_run_iff {t : JoinTree} (h : t.Compares) (steps : List Step) :
    (∀ done, done <+: steps → (run done t).Compares) ↔ StepsKeep steps t := by
  induction steps generalizing t with
  | nil => simp [run, StepsKeep, h]
  | cons step rest ih =>
    have hstep := compares_apply_iff h step
    constructor
    · intro hall
      -- the run that stops behind the first step shows that this step keeps the shape
      have hkeeps : (step.apply t).Compares := hall [step] (by simp)
      refine ⟨hstep.1 hkeeps, (ih hkeeps).1 fun done hdone => ?_⟩
      exact hall (step :: done) (List.prefix_cons_inj step |>.2 hdone)
    · rintro ⟨hkeeps, hrest⟩ done hdone
      rcases List.prefix_cons_iff.1 hdone with rfl | ⟨done', rfl, hdone'⟩
      · exact h
      · exact (ih (hstep.2 hkeeps)).2 hrest done' hdone'

/-- Rewriting a tree with comparisons only fails with no join error. -/
theorem noJoinError_rewrite {t : JoinTree} (h : t.Compares) : NoJoinError t.rewrite := by
  cases t with
  | join j => exact (Join.noJoinError_toPayload (h j List.mem_cons_self)).map _
  | update u => exact (Update.noJoinError_toPayload h).map _

/-- Along a run from a tree that callers can start from, the joins have comparisons only in their
conditions exactly when each step keeps the shape, and then no join is refused for its condition
when it is written and read back. -/
theorem compares_along_run_iff {t : JoinTree} (h : t.Obtained) (steps : List Step) :
    ((∀ done, done <+: steps → (run done t).Compares) ↔ StepsKeep steps t)
      ∧ (StepsKeep steps t → ∀ done, done <+: steps → NoJoinError (run done t).rewrite) := by
  have hiff := compares_run_iff h.compares steps
  exact ⟨hiff, fun hkeep done hdone => noJoinError_rewrite (hiff.2 hkeep done hdone)⟩

end JoinTree

/-- The comparison of the column `x` of table `a` with the column `y` of table `b`. -/
def Comparison.ofColumns : Comparison :=
  ⟨⟨.equals, .plain⟩, .column ⟨.named "a", "x", none⟩, .column ⟨.named "b", "y", none⟩⟩

/-- A join of the two tables on this comparison. -/
def Join.onColumns : Join :=
  ⟨"j", .named "a", ⟨.named "b"⟩, .ofList [.compare .ofColumns], .inner, false, none, none⟩

/-- The join on the comparison of two columns is made as such. -/
theorem Join.make_onColumns :
    make "j" (.named "a") ⟨.named "b"⟩ (.compare .ofColumns) .inner false = .ok onColumns := rfl

namespace JoinTree

/-- The comparison gives way to another condition. -/
def replaceLeaf (new : Condition) : Step :=
  .replace .condition (.compare .ofColumns) new

/-- The comparison is replaced by its converse, then the join is inverted and rewritten. -/
def swapLeaf : List Step :=
  [replaceLeaf (.compare Comparison.ofColumns.swapOperands), .invert "k", .rewrite]

theorem swapLeaf_keeps_shape :
    (JoinTree.join .onColumns).Obtained ∧ StepsKeep swapLeaf (.join .onColumns)
      ∧ ∀ done, done <+: swapLeaf →
        (run done (.join .onColumns)).Compares
          ∧ NoJoinError (run done (.join .onColumns)).rewrite := by
  have hmade : (JoinTree.join .onColumns).Obtained := .make Join.make_onColumns
  have hkeep : StepsKeep swapLeaf (.join .onColumns) :=
    ⟨fun _ _ _ => rfl, trivial, trivial, trivial⟩
  have hrun := compares_along_run_iff hmade swapLeaf
  exact ⟨hmade, hkeep, fun done hdone => ⟨hrun.1.2 hkeep done hdone, hrun.2 hkeep done hdone⟩⟩

/-- A comparison that is replaced by its negation leaves a join that cannot be read back. -/
theorem negated_leaf_breaks_shape :
    (JoinTree.join .onColumns).Obtained
      ∧ ¬ (run [replaceLeaf (.negation (.compare .ofColumns))] (.join .onColumns)).Compares
      ∧ (run [replaceLeaf (.negation (.compare .ofColumns))] (.join .onColumns)).rewrite
        = .error (.join ⟨"b", "NotCondition"⟩) := by
  refine ⟨.make Join.make_onColumns, ?_, ?_⟩
  · decide
  · rfl

end JoinTree

end QueryTree
