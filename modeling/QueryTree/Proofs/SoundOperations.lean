import QueryTree.Condition.Combine
import QueryTree.Proofs.Canonical
import QueryTree.Proofs.PureWalk

/-! # Operations keep groups tidy

A sound node has tidy groups at every depth, and an update has a value for each column. Operations
on groups update one group, which leaves items in it, drop a group, or go on group by group. Walks
keep nodes sound if what they put is sound. That the condition of a join compares is not asked for:
replacing nodes can break it. -/

namespace QueryTree

/-! ## Groups -/

namespace Groups

/-- What holds of all items holds of them after an update of one group that keeps it. -/
theorem forall_mem_updateEntries {α : Type} {holds : α → Prop} {key : GroupKey}
    {f : List α → List α} {entries : List (GroupKey × List α)}
    (hentries : ∀ e ∈ entries, ∀ x ∈ e.2, holds x)
    (hf : ∀ xs, (∀ x ∈ xs, holds x) → ∀ x ∈ f xs, holds x) :
    ∀ e ∈ updateEntries key f entries, ∀ x ∈ e.2, holds x := by
  intro e he
  rcases mem_updateEntries he with he | ⟨xs, rfl, rfl | hxs⟩
  · exact hentries e he
  · exact hf [] (by simp)
  · exact hf xs (hentries _ hxs)

namespace WellFormed

variable {g h : Groups Condition} {key : GroupKey}

/-- An update keeps groups well-formed if it leaves conditions behind and these are well-formed. -/
theorem update (hg : g.WellFormed) {f : List Condition → List Condition} (hne : ∀ cs, f cs ≠ [])
    (hf : ∀ cs, (∀ c ∈ cs, c.WellFormed) → ∀ c ∈ f cs, c.WellFormed) :
    (g.update key f).WellFormed := by
  refine ⟨hg.tidy.update key hne, fun c hc => ?_⟩
  obtain ⟨e, he, hce⟩ := mem_toList.1 hc
  have hentries : ∀ e ∈ g.entries, ∀ c ∈ e.2, c.WellFormed :=
    fun e he c hc => hg.members c (mem_toList.2 ⟨e, he, hc⟩)
  exact forall_mem_updateEntries hentries hf e he c hce

/-- No groups are well-formed. -/
theorem empty : (Groups.empty : Groups Condition).WellFormed :=
  ⟨tidy_empty, by simp [Groups.empty, toList]⟩

/-- Groups of well-formed conditions in one list are well-formed. -/
theorem ofList {cs : List Condition} (h : ∀ c ∈ cs, c.WellFormed) :
    (Groups.ofList cs).WellFormed := by
  refine ⟨tidy_ofList cs, ?_⟩
  rw [toList_ofList]
  exact h

/-- Adding a well-formed condition to a group, or nothing, keeps groups well-formed. -/
theorem addTo (hg : g.WellFormed) {c? : Option Condition} (h : ∀ c ∈ c?, c.WellFormed) :
    (g.addTo key c?).WellFormed := by
  cases c? with
  | none => exact hg
  | some c =>
    refine hg.update (fun _ => List.append_ne_nil_of_right_ne_nil _ (List.cons_ne_nil c [])) ?_
    intro cs hcs
    rw [List.forall_mem_append, List.forall_mem_singleton]
    exact ⟨hcs, h c rfl⟩

/-- Adding well-formed conditions one by one keeps groups well-formed. -/
theorem addAllTo (hg : g.WellFormed) {cs : List Condition} (hcs : ∀ c ∈ cs, c.WellFormed) :
    (g.addAllTo key cs).WellFormed := by
  induction cs generalizing g with
  | nil => exact hg
  | cons c rest ih =>
    obtain ⟨hc, hrest⟩ := List.forall_mem_cons.1 hcs
    have hitem : ∀ d ∈ some c, d.WellFormed := by
      rintro d ⟨⟩
      exact hc
    exact ih (hg.addTo hitem) hrest

/-- Removing a group keeps the others well-formed. -/
theorem erase (hg : g.WellFormed) : (g.erase key).WellFormed := by
  refine ⟨hg.tidy.erase key, fun c hc => ?_⟩
  obtain ⟨e, he, hce⟩ := mem_toList.1 hc
  exact hg.members c (mem_toList.2 ⟨e, (List.mem_filter.1 he).1, hce⟩)

/-- Setting a group to a well-formed condition, or to nothing, keeps groups well-formed. -/
theorem set (hg : g.WellFormed) {c? : Option Condition} (h : ∀ c ∈ c?, c.WellFormed) :
    (g.set key c?).WellFormed := by
  cases c? with
  | none => exact hg.erase
  | some c =>
    refine hg.update (fun _ => List.cons_ne_nil c []) fun _ _ => ?_
    rw [List.forall_mem_singleton]
    exact h c rfl

/-- Well-formed groups merged into well-formed groups make well-formed groups. -/
theorem merge (hg : g.WellFormed) (hh : h.WellFormed) : (g.merge h).WellFormed := by
  refine ⟨hg.tidy.merge hh.tidy, fun c hc => ?_⟩
  rw [(toList_merge_perm g h).mem_iff, List.mem_append] at hc
  exact hc.elim (hg.members c) (hh.members c)

/-- Groups stay well-formed if each of their conditions is replaced by a well-formed one. -/
theorem map (hg : g.WellFormed) {f : Condition → Condition}
    (hf : ∀ c ∈ g.toList, (f c).WellFormed) : (g.map f).WellFormed := by
  refine ⟨hg.tidy.map f, ?_⟩
  rw [toList_map, List.forall_mem_map]
  exact hf

end WellFormed

end Groups

/-! ## Conditions and joins -/

namespace Condition

variable {c : Condition}

/-- The groups of a well-formed composite are well-formed. -/
theorem WellFormed.groups {op : Connective} {g : Groups Condition}
    (h : (Condition.composite op g).WellFormed) : g.WellFormed := by
  cases h with
  | composite _ hg hmembers => exact ⟨hg, hmembers⟩

/-- A composite of well-formed groups is well-formed. -/
theorem WellFormed.ofGroups (op : Connective) {g : Groups Condition} (h : g.WellFormed) :
    (Condition.composite op g).WellFormed :=
  .composite op h.tidy h.members

/-- What a well-formed negation negates is well-formed. -/
theorem WellFormed.inner (h : (Condition.negation c).WellFormed) : c.WellFormed := by
  cases h with
  | negation hc => exact hc

/-- A well-formed condition alone in the default group makes well-formed groups. -/
theorem WellFormed.singleton (h : c.WellFormed) : (Groups.ofList [c]).WellFormed :=
  .ofList (List.forall_mem_singleton.2 h)

/-- A well-formed condition adds well-formed groups. -/
theorem WellFormed.contribution (op : Connective) (h : c.WellFormed) :
    (contribution op c).WellFormed := by
  cases c with
  | composite op' g =>
    rw [Condition.contribution]
    split
    · exact h.groups
    · exact h.singleton
  | _ => exact h.singleton

/-- Well-formed conditions combine to a well-formed one. -/
theorem wellFormed_of_combine {op : Connective} {left right : Option Condition}
    (hleft : ∀ c ∈ left, c.WellFormed) (hright : ∀ c ∈ right, c.WellFormed)
    (h : combine op left right = some c) : c.WellFormed := by
  have hpresent : ∀ {c? : Option Condition} {c : Condition}, present? c? = some c → c ∈ c? :=
    fun h => (Option.filter_eq_some_iff.1 h).1
  rw [combine] at h
  split at h
  · exact hright c (hpresent h)
  · rename_i hl _
    cases h
    exact hleft c (hpresent hl)
  · rename_i l r hl hr
    cases h
    have hgroups := ((hleft l (hpresent hl)).contribution op).merge
      ((hright r (hpresent hr)).contribution op)
    exact .ofGroups op hgroups

end Condition

namespace Join

variable {c : Condition}

/-- A join takes only well-formed groups from a well-formed condition. -/
theorem wellFormed_of_conditionOf {foreign : TableRef} {g : Groups Condition} (hc : c.WellFormed)
    (h : conditionOf foreign c = .ok g) : g.WellFormed := by
  cases c with
  | compare c =>
    cases h
    exact hc.singleton
  | composite op g =>
    cases op with
    | or => cases h
    | and =>
      rw [conditionOf] at h
      split at h
      · cases h
      · cases h
        exact hc.groups
  | negation c => cases h

/-- A join that is made with a well-formed condition holds well-formed groups. -/
theorem wellFormed_of_make {name : String} {primary : Table} {foreign : TableRef} {type : JoinType}
    {permanent : Bool} {j : Join} (hc : c.WellFormed)
    (h : make name primary foreign c type permanent = .ok j) : j.condition.WellFormed := by
  obtain ⟨g, hg, hj⟩ := Except.bind_eq_ok_iff.1 h
  cases hj
  exact wellFormed_of_conditionOf hc hg

/-- Inverting a join keeps its condition well-formed. -/
theorem wellFormed_invert {j : Join} (h : j.condition.WellFormed) (name : String) :
    (j.invert name).condition.WellFormed := by
  refine h.map fun c hc => ?_
  cases c with
  | compare c => exact .compare _
  | _ => exact h.members _ hc

end Join

/-! ## Sound nodes -/

/-- The update has a value for each column, and conditions stand in tidy groups. -/
structure Update.Sound (u : Update) : Prop where
  paired : u.columns.length = u.values.length
  condition : ∀ g ∈ u.condition?, g.WellFormed
  joins : ∀ j ∈ u.joins, j.condition.WellFormed

/-- What all operations keep. Only nodes with groups below them can lack it. -/
def NodeKind.Sound : (k : NodeKind) → k.Node → Prop
  | .condition, c => c.WellFormed
  | .conjunction, g => g.WellFormed
  | .join, j => j.condition.WellFormed
  | .update, u => u.Sound
  | _, _ => True

namespace Update

variable {u : Update}

/-- An update of a table that assigns nothing is sound. -/
theorem sound_ofTable (table : Table) : (ofTable table).Sound :=
  ⟨rfl, by simp [ofTable], by simp [ofTable]⟩

/-- An assignment gives an update a column and its value together. -/
theorem Sound.assign (h : u.Sound) (column : Column) (value : Operand) :
    (u.assign column value).Sound := by
  refine ⟨?_, h.condition, h.joins⟩
  rw [Update.assign, List.length_append, List.length_append, h.paired]
  rfl

/-- The conjunction that an update makes of a well-formed condition is well-formed. -/
theorem wellFormed_conjunctionOf {c : Condition} (h : c.WellFormed) :
    (conjunctionOf c).WellFormed := by
  cases c with
  | composite op g =>
    cases op with
    | and => exact h.groups
    | or => exact h.singleton
  | _ => exact h.singleton

/-- Setting a well-formed condition keeps an update sound. -/
theorem Sound.setCondition (h : u.Sound) {c? : Option Condition} (hc : ∀ c ∈ c?, c.WellFormed) :
    (u.setCondition c?).Sound := by
  refine ⟨h.paired, fun g hg => ?_, h.joins⟩
  obtain ⟨c, hmem, rfl⟩ := Option.map_eq_some_iff.1 hg
  exact wellFormed_conjunctionOf (hc c hmem)

/-- Adding a well-formed condition keeps an update sound. -/
theorem Sound.addCondition (h : u.Sound) {c? : Option Condition} (hc : ∀ c ∈ c?, c.WellFormed) :
    (u.addCondition c?).Sound := by
  cases c? with
  | none => exact h
  | some c =>
    refine ⟨h.paired, fun g hg => ?_, h.joins⟩
    cases hg
    have hpresent : (u.condition?.getD .empty).WellFormed := by
      cases hu : u.condition? with
      | none => exact .empty
      | some g => exact h.condition g hu
    exact hpresent.addTo hc

end Update

/-- A well-formed update is sound; soundness does not ask that its joins compare. -/
theorem Update.WellFormed.sound {u : Update} (h : u.WellFormed) : u.Sound :=
  ⟨h.paired.symm, h.condition, fun j hj => (h.joins j hj).condition⟩

/-! ## Walks -/

/-- Whatever the visitor puts is sound. -/
def Visitor.PutsSound (visit : Visitor Id) : Prop :=
  ∀ k (x y : k.Node), (visit k x).run = .put y → k.Sound y

namespace Walk

variable {visit : Visitor Id} (h : visit.PutsSound)

include h

/-- What stands in a slot after its offer is sound if the node and what is made below it are. -/
theorem sound_offer (k : NodeKind) {x : k.Node} (hx : k.Sound x) {inside : Id k.Node}
    (hinside : k.Sound inside.run) : k.Sound (offer visit k x inside).run := by
  rw [offer_run]
  cases hanswer : (visit k x).run with
  | enter => exact hinside
  | skip => exact hx
  | put y => exact h k x y hanswer

/-- Walking below groups keeps them well-formed if it keeps their conditions well-formed. -/
theorem wellFormed_insideConjunction_of_members {g : Groups Condition} (hg : g.WellFormed)
    (hmembers : ∀ c ∈ g.toList, (insideCondition visit c).run.WellFormed) :
    Groups.WellFormed (insideConjunction visit g).run := by
  rw [insideConjunction_eq_map]
  exact hg.map fun c hc => sound_offer h .condition (hg.members c hc) (hmembers c hc)

/-- Walking below a well-formed condition makes a well-formed one. -/
theorem wellFormed_insideCondition {c : Condition} (hc : c.WellFormed) :
    (insideCondition visit c).run.WellFormed := by
  induction hc with
  | compare c => exact .compare _
  | @composite op g hg hmembers ih =>
    have hinside := wellFormed_insideConjunction_of_members h ⟨hg, hmembers⟩ ih
    obtain ⟨entries⟩ := g
    cases op with
    | and => exact .ofGroups .and (sound_offer h .conjunction ⟨hg, hmembers⟩ hinside)
    | or => exact .ofGroups .or hinside
  | negation hc ih => exact .negation (sound_offer h .condition hc ih)

/-- Walking below well-formed groups makes well-formed ones. -/
theorem wellFormed_insideConjunction {g : Groups Condition} (hg : g.WellFormed) :
    Groups.WellFormed (insideConjunction visit g).run :=
  wellFormed_insideConjunction_of_members h hg fun c hc =>
    wellFormed_insideCondition h (hg.members c hc)

/-- Offering well-formed groups makes well-formed ones. -/
theorem wellFormed_conjunction {g : Groups Condition} (hg : g.WellFormed) :
    Groups.WellFormed (conjunction visit g).run :=
  sound_offer h .conjunction hg (wellFormed_insideConjunction h hg)

/-- Offering a join keeps its condition well-formed. -/
theorem wellFormed_join {j : Join} (hj : j.condition.WellFormed) :
    (join visit j).run.condition.WellFormed :=
  sound_offer h .join (x := j) hj (wellFormed_conjunction h hj)

/-- Columns and values are walked one by one, so they stay paired. -/
theorem sound_insideUpdate {u : Update} (hu : u.Sound) : (insideUpdate visit u).run.Sound := by
  refine ⟨?_, ?_, ?_⟩
  · rw [columns_insideUpdate, values_insideUpdate, List.length_map, List.length_map, hu.paired]
  · intro g hg
    rw [condition_insideUpdate] at hg
    obtain ⟨g', hmem, rfl⟩ := Option.map_eq_some_iff.1 hg
    exact wellFormed_conjunction h (hu.condition g' hmem)
  · rw [joins_insideUpdate, List.forall_mem_map]
    exact fun j hj => wellFormed_join h (hu.joins j hj)

/-- Walking below a sound node makes a sound one. -/
theorem sound_inside (k : NodeKind) {x : k.Node} (hx : k.Sound x) :
    k.Sound (inside visit k x).run := by
  cases k with
  | condition => exact wellFormed_insideCondition h hx
  | conjunction => exact wellFormed_insideConjunction h hx
  | join => exact wellFormed_conjunction (g := Join.condition x) h hx
  | update => exact sound_insideUpdate h hx
  | _ => trivial

/-- Walking a sound tree makes a sound one. -/
theorem sound_walk (k : NodeKind) {x : k.Node} (hx : k.Sound x) : k.Sound (walk visit k x).run :=
  sound_offer h k hx (sound_inside h k hx)

end Walk

/-- Renaming puts tables, which are always sound. -/
theorem putsSound_remapping (mapping : TableMapping) : (remapping mapping).PutsSound := by
  intro k x y hput
  cases k with
  | table => trivial
  | _ => cases hput

/-- Replacing puts one node, which is sound by assumption. -/
theorem putsSound_substituting {target : NodeKind} (old : target.Node) {new : target.Node}
    (hnew : target.Sound new) : (substituting target old new).PutsSound := by
  intro k x y hput
  by_cases hk : target = k
  · subst hk
    rw [substituting_self] at hput
    split at hput
    · cases hput
      exact hnew
    · cases hput
  · rw [substituting_of_ne hk] at hput
    cases hput

end QueryTree
