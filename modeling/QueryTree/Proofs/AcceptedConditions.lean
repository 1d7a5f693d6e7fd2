import QueryTree.Proofs.JoinMembers

/-! # Conditions that joins are made with

Making a join looks at every member of a conjunction, group by group, and blames the first one that
is no comparison. `Join.Made` says what comes of it without running through the members, and reading
a join comes to what making it with the condition that is read comes to.
-/

namespace QueryTree

/-! ## Given and blamed -/

namespace Condition

/-- The groups that the condition gives to a join. -/
inductive Gives : Condition → Groups Condition → Prop where
  | compare (c : Comparison) : Gives (.compare c) ⟨[(none, [.compare c])]⟩
  | conjunction {g : Groups Condition} :
    (∀ e ∈ g.entries, ∀ c ∈ e.2, c.isCompare = true) → Gives (.composite .and g) g

/-- What of the condition is to blame if no join is made with it: the condition itself, or of a
conjunction the first member, in the order of the groups, that is no comparison. -/
inductive Blames : Condition → Condition → Prop where
  | disjunction (g : Groups Condition) : Blames (.composite .or g) (.composite .or g)
  | negation (c : Condition) : Blames (.negation c) (.negation c)
  | member {g : Groups Condition} {earlier later : List (GroupKey × List Condition)}
    {key : GroupKey} {before after : List Condition} {d : Condition} :
    g.entries = earlier ++ (key, before ++ d :: after) :: later →
      (∀ e ∈ earlier, ∀ c ∈ e.2, c.isCompare = true) → (∀ c ∈ before, c.isCompare = true) →
      d.isCompare = false → Blames (.composite .and g) d

/-- A conjunction gives its own groups, if all they hold are comparisons. -/
theorem gives_conjunction_iff {g h : Groups Condition} :
    Gives (.composite .and g) h ↔ h = g ∧ g.Compares := by
  have hall : g.Compares ↔ ∀ e ∈ g.entries, ∀ c ∈ e.2, c.isCompare = true := by
    simp only [Groups.Compares, Groups.mem_toList]
    constructor
    · intro h e he c hc
      exact h c ⟨e, he, hc⟩
    · rintro h c ⟨e, he, hc⟩
      exact h e he c hc
  constructor
  · rintro ⟨⟩
    exact ⟨rfl, hall.2 ‹_›⟩
  · rintro ⟨rfl, h⟩
    exact .conjunction (hall.1 h)

/-- A conjunction is blamed for the first of its members, in map order, that is not a comparison. -/
theorem blames_conjunction_iff {g : Groups Condition} {d : Condition} :
    Blames (.composite .and g) d ↔ g.toList.find? (!·.isCompare) = some d := by
  simp only [Groups.toList, List.find?_flatMap, List.findSome?_eq_some_iff,
    List.find?_eq_some_iff_append, List.find?_eq_none, Bool.not_eq_true', Bool.not_not,
    Bool.not_eq_false]
  constructor
  · intro h
    cases h with
    | member hentries hearlier hbefore hd =>
      exact ⟨_, _, _, hentries, ⟨hd, _, _, rfl, hbefore⟩, hearlier⟩
  · rintro ⟨earlier, ⟨key, items⟩, later, hentries, ⟨hd, before, after, rfl, hbefore⟩, hearlier⟩
    exact .member hentries hearlier hbefore hd

end Condition

/-! ## Making a join -/

namespace Join

/-- `conditionOf` accepts exactly the conditions that give groups, and with these groups. -/
theorem conditionOf_eq_ok_iff {foreign : TableRef} {c : Condition} {g : Groups Condition} :
    conditionOf foreign c = .ok g ↔ c.Gives g := by
  cases c with
  | compare c =>
    constructor
    · rintro ⟨⟩
      exact .compare c
    · rintro ⟨⟩
      rfl
  | composite op members =>
    cases op with
    | and => rw [conditionOf_and_eq_ok_iff, Condition.gives_conjunction_iff, Groups.Compares]
    | or => constructor <;> rintro ⟨⟩
  | negation c => constructor <;> rintro ⟨⟩

/-- An error of `conditionOf` names the foreign table and the kind of the condition that is blamed.
-/
theorem conditionOf_eq_error_iff {foreign : TableRef} {c : Condition} {e : JoinError} :
    conditionOf foreign c = .error e ↔ ∃ d, c.Blames d ∧ e = ⟨foreign.render, d.kind⟩ := by
  cases c with
  | compare c =>
    constructor
    · rintro ⟨⟩
    · rintro ⟨_, ⟨⟩, _⟩
  | composite op members =>
    cases op with
    | and =>
      simp only [Condition.blames_conjunction_iff, conditionOf]
      cases members.toList.find? (!·.isCompare) with
      | none =>
        constructor
        · rintro ⟨⟩
        · rintro ⟨_, ⟨⟩, _⟩
      | some child =>
        constructor
        · rintro ⟨⟩
          exact ⟨child, rfl, rfl⟩
        · rintro ⟨_, ⟨⟩, rfl⟩
          rfl
    | or =>
      constructor
      · rintro ⟨⟩
        exact ⟨_, .disjunction members, rfl⟩
      · rintro ⟨_, ⟨⟩, rfl⟩
        rfl
  | negation c =>
    constructor
    · rintro ⟨⟩
      exact ⟨_, .negation c, rfl⟩
    · rintro ⟨_, ⟨⟩, rfl⟩
      rfl

section Made

variable (name : String) (primary : Table) (foreign : TableRef) (condition : Condition)
  (type : JoinType) (permanent : Bool)

/-- What comes of making a join. -/
inductive Made : Except JoinError Join → Prop where
  | accepted {g : Groups Condition} : condition.Gives g →
    Made (.ok ⟨name, primary, foreign, g, type, permanent, none, none⟩)
  | refused {d : Condition} : condition.Blames d → Made (.error ⟨foreign.render, d.kind⟩)

variable {name primary foreign condition type permanent}

/-- `Made` describes the result of `make`, the join or the error. -/
theorem make_eq_iff {result : Except JoinError Join} :
    make name primary foreign condition type permanent = result
      ↔ Made name primary foreign condition type permanent result := by
  cases result with
  | ok j =>
    rw [make, Except.bind_eq_ok_iff]
    simp only [conditionOf_eq_ok_iff]
    constructor
    · rintro ⟨g, hg, ⟨⟩⟩
      exact .accepted hg
    · rintro ⟨hg⟩
      exact ⟨_, hg, rfl⟩
  | error e =>
    rw [make, Except.bind_eq_error_iff, conditionOf_eq_error_iff]
    constructor
    · rintro (⟨d, hd, rfl⟩ | ⟨_, _, ⟨⟩⟩)
      exact .refused hd
    · rintro ⟨⟩
      exact .inl ⟨_, ‹_›, rfl⟩

end Made

/-- The same for a join made with a table in place of a reference to one. -/
theorem ofTable_eq_iff {name : String} {primary table : Table} {condition : Condition}
    {type : JoinType} {permanent : Bool} {result : Except JoinError Join} :
    ofTable name primary table condition type permanent = result
      ↔ Made name primary ⟨table⟩ condition type permanent result := by
  rw [ofTable, make_eq_iff]

/-! ## Reading a join -/

/-- A written join whose condition is exchanged comes to what making it comes to, with its comment
put back. -/
theorem ofPayload_setCondition (i : Join) {a : Groups Condition} (h : a.WellFormed) :
    Join.ofPayload (i.toPayload.setMember 3 (.object (a.toPayload .and)))
      = (Except.mapError .join
          (make i.name i.primary i.foreign (.composite .and a) i.type i.permanent)).map
        fun j => { j with comment? := i.comment? } := by
  rw [ofPayload_toPayload_setCondition, h.ofPayload_toPayload .and]
  rfl

/-- A join is made with a comparison or with a conjunction whose members are comparisons in every
group, and keeps its groups. Otherwise the first member that is no comparison is blamed, or a
disjunction or negation itself. A join whose payload is given the condition is read or refused in
the same way. -/
theorem made_exactly_and_read_alike :
    (∀ name primary foreign condition type permanent result,
      make name primary foreign condition type permanent = result
        ↔ Made name primary foreign condition type permanent result)
    ∧ (∀ name primary table condition type permanent result,
      ofTable name primary table condition type permanent = result
        ↔ Made name primary ⟨table⟩ condition type permanent result)
    ∧ ∀ (i : Join) (a : Groups Condition), a.WellFormed →
      (∀ j, Join.ofPayload (i.toPayload.setMember 3 (.object (a.toPayload .and))) = .ok j
        ↔ ∃ made, make i.name i.primary i.foreign (.composite .and a) i.type i.permanent = .ok made
          ∧ j = { made with comment? := i.comment? })
      ∧ ∀ e, Join.ofPayload (i.toPayload.setMember 3 (.object (a.toPayload .and))) = .error e
        ↔ ∃ cause, make i.name i.primary i.foreign (.composite .and a) i.type i.permanent
            = .error cause ∧ e = .join cause := by
  refine ⟨fun _ _ _ _ _ _ _ => make_eq_iff, fun _ _ _ _ _ _ _ => ofTable_eq_iff, ?_⟩
  intro i a h
  rw [ofPayload_setCondition i h]
  constructor
  · intro j
    simp only [Except.map_eq_ok_iff, Except.mapError_eq_ok_iff, eq_comm (a := j)]
  · intro e
    simp only [Except.map_eq_error_iff, Except.mapError_eq_error_iff, eq_comm (a := e)]

end Join

/-- The comparison of NULL with NULL. -/
def Condition.ofNulls : Condition :=
  .compare ⟨⟨.equals, .plain⟩, .value .null, .value .null⟩

/-- A comparison, and its negation in a later group. -/
def Groups.withNegation : Groups Condition :=
  ⟨[(none, [.ofNulls]), (some "later", [.negation .ofNulls])]⟩

/-- The groups with a negation among their members are well-formed, so only the join refuses them.
-/
theorem Groups.withNegation_wellFormed : withNegation.WellFormed := by
  refine ⟨⟨?_, ?_⟩, ?_⟩
  · exact List.pairwise_pair.2 rfl
  · simp [withNegation]
  · have hnulls : Condition.ofNulls.WellFormed := .compare _
    simp [withNegation, toList, hnulls, hnulls.negation]

/-- Decoding refuses a stored join with a negation in a group, and names it as `make` would. -/
theorem Join.orderStates_refuses_negation :
    Groups.withNegation.WellFormed
      ∧ Join.ofPayload (orderStates.toPayload.setMember 3
          (.object (Groups.withNegation.toPayload .and)))
        = .error (.join ⟨"states", "NotCondition"⟩) := by
  refine ⟨Groups.withNegation_wellFormed, ?_⟩
  obtain ⟨hmake, -, hread⟩ := made_exactly_and_read_alike
  have hentries : Groups.withNegation.entries
      = [(none, [.ofNulls])] ++ (some "later", [] ++ .negation .ofNulls :: []) :: [] := rfl
  have hblames : Condition.Blames (.composite .and .withNegation) (.negation .ofNulls) :=
    .member hentries (by simp [Condition.ofNulls, Condition.isCompare]) (by simp) rfl
  have hmade := (hmake orderStates.name orderStates.primary orderStates.foreign
    (.composite .and .withNegation) orderStates.type orderStates.permanent _).2 (.refused hblames)
  exact ((hread orderStates .withNegation Groups.withNegation_wellFormed).2 _).2 ⟨_, hmade, rfl⟩

end QueryTree
