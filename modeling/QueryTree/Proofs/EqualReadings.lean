import QueryTree.Proofs.EqualArguments
import QueryTree.Proofs.JoinMembers

/-! # Written and read again

Some nodes are not read back: a walk can leave a join with a condition that joins refuse. What
reading the payload of a node makes, be it a node or an error, is the same for equal nodes.
-/

namespace QueryTree

/-! ## What is read of a written node -/

/-- Only the condition of a written join may be refused. -/
theorem Join.ofPayload_toPayload (j : Join) : Join.ofPayload j.toPayload = do
    let condition ← Groups.ofPayload .and (j.condition.toPayload .and)
    let made := make j.name j.primary j.foreign (.composite .and condition) j.type j.permanent
    let join ← made.mapError .join
    return { join with comment? := j.comment? } :=
  j.ofPayload_toPayload_setCondition (j.condition.toPayload .and)

/-- The joins are read one by one; no joins are written as null. -/
theorem Update.run_elements_joins (joins : List Join) (kind : String) (position : Nat)
    (rest : List Member) :
    Read.elements Join.ofPayload ⟨kind, position,
        (if joins.isEmpty then .null else .objects (joins.map (·.toPayload))) :: rest⟩
      = (joins.mapM fun j => Join.ofPayload j.toPayload, ⟨kind, position + 1, rest⟩) := by
  cases joins with
  | nil => rfl
  | cons j js =>
    rw [← Read.nodesOf_map_object (.unexpectedMember kind position "list of objects")]
    change (Read.nodesOf _ _ (((j :: js).map Join.toPayload).map .object), _) = _
    rw [List.map_map]
    rfl

/-- Of a written update the condition and the joins may be refused, and lists that do not pair. -/
theorem Update.ofPayload_toPayload (u : Update) : Update.ofPayload u.toPayload = do
    if u.values.length ≠ u.columns.length then
      throw (.unpairedValues u.columns.length u.values.length)
    let condition? ← u.condition?.mapM fun g => Groups.ofPayload .and (g.toPayload .and)
    let joins ← u.joins.mapM fun j => Join.ofPayload j.toPayload
    return ⟨u.table, u.columns, u.values, condition?, joins⟩ := by
  have htable := Member.holds_object.2 u.table.ofPayload_toPayload
  have hcolumns : (Member.objects (u.columns.map (·.toPayload))).HoldsAll Column.ofPayload
      u.columns := by
    have hall := Member.holdsAll_objects (f := id) fun c (_ : c ∈ u.columns) =>
      c.ofPayload_toPayload
    rwa [List.map_id] at hall
  have hvalues : Operand.readAll "QueryUpdate" 0 (u.values.map (·.toMember)) = .ok u.values := by
    rw [Operand.readAll_eq_ok_iff, List.forall₂_map_left_iff, List.forall₂_same]
    exact fun o _ => o.heldBy_toMember
  rw [Update.ofPayload, toPayload, Payload.readAs_ofKind, Read.takes_element.run_bind htable,
    Read.takes_elements.run_bind hcolumns, Read.takes_list.run_bind rfl, hvalues,
    Read.ofExcept_ok_bind]
  by_cases hpaired : u.values.length = u.columns.length
  · rw [if_neg (not_not.2 hpaired), if_neg (not_not.2 hpaired), Read.fst_optionalElement_bind]
    dsimp only
    congr 1
    funext condition?
    rw [Read.run_remaining_bind, if_neg (by simp [Cursor.remaining]),
      Read.fst_bind (run_elements_joins ..)]
    rfl
  · rw [if_pos hpaired, if_pos hpaired]
    rfl

/-! ## Conditions -/

namespace Condition

/-- The entries of groups as they are written. -/
def writtenEntries (entries : List (GroupKey × List Condition)) : List (GroupKey × List Member) :=
  entries.map fun e => (e.1, e.2.map fun c => .object c.toPayload)

/-- Equal lists of conditions are written and read alike if equal members are. -/
theorem conditionsOf_beq (kind : String) {cs ds : List Condition} (h : cs == ds)
    (hread : ∀ c ∈ cs, ∀ d, c == d → ofPayload c.toPayload == ofPayload d.toPayload) :
    conditionsOf kind (cs.map fun c => .object c.toPayload)
      == conditionsOf kind (ds.map fun d => .object d.toPayload) := by
  induction cs generalizing ds with
  | nil =>
    rw [nil_beq_iff.1 h]
    rfl
  | cons c cs ih =>
    obtain ⟨d, ds, rfl, hcd, hrest⟩ := cons_beq_iff.1 h
    obtain ⟨hc, htail⟩ := List.forall_mem_cons.1 hread
    rw [List.map_cons, List.map_cons, conditionsOf, conditionsOf]
    refine Except.bind_beq (hc d hcd) fun a b hab => ?_
    refine Except.bind_beq (ih hrest htail) fun as bs has => ?_
    exact cons_beq_iff.2 ⟨b, bs, rfl, hab, has⟩

/-- Behind equal groups, equal entries are read as equal groups or refused alike. -/
theorem entriesOf_beq (kind : String) {entries entries' : List (GroupKey × List Condition)}
    (h : entries == entries')
    (hread : ∀ e ∈ entries, ∀ c ∈ e.2, ∀ d, c == d →
      ofPayload c.toPayload == ofPayload d.toPayload)
    {g g' : Groups Condition} (hg : g == g') :
    entriesOf kind g (writtenEntries entries) == entriesOf kind g' (writtenEntries entries') := by
  induction entries generalizing entries' g g' with
  | nil =>
    rw [nil_beq_iff.1 h]
    exact hg
  | cons e rest ih =>
    obtain ⟨⟨key', ds⟩, rest', rfl, he, hrest⟩ := cons_beq_iff.1 h
    obtain ⟨key, cs⟩ := e
    obtain ⟨hkey, hcs⟩ := pair_beq_iff.1 he
    obtain rfl : key = key' := eq_of_beq hkey
    obtain ⟨hhead, htail⟩ := List.forall_mem_cons.1 hread
    rw [writtenEntries, writtenEntries, List.map_cons, List.map_cons, entriesOf, entriesOf]
    refine Except.bind_beq (conditionsOf_beq kind hcs hhead) fun as bs has => ?_
    rw [isEmpty_eq_of_beq has, Groups.contains_eq_of_beq hg]
    split
    · exact ih hrest htail hg
    · split
      · exact beq_self_eq_true (DecodeError.unexpectedMember kind 0 "condition groups")
      · exact ih hrest htail (Groups.insert_beq hg has)

/-- Written groups are read entry by entry, starting from no groups. -/
theorem groupsOf_written (op : Connective) (g : Groups Condition) :
    Groups.ofPayload op (g.toPayload op)
      = entriesOf op.kind .empty (writtenEntries g.entries) := by
  have hentries : ((g.map toPayload).map Member.object).entries = writtenEntries g.entries := by
    simp only [Groups.map, List.map_map, writtenEntries, Function.comp_def]
  rw [Groups.ofPayload, Groups.toPayload, compositePayload, hentries,
    Payload.openAs_eq_ok_iff.2 ⟨_, rfl, rfl⟩]
  rfl

/-- Equal groups are written and read alike if their members are. -/
theorem groups_rewrite_beq (op : Connective) {g g' : Groups Condition} (h : g == g')
    (hread : ∀ c ∈ g.toList, ∀ d, c == d → ofPayload c.toPayload == ofPayload d.toPayload) :
    Groups.ofPayload op (g.toPayload op) == Groups.ofPayload op (g'.toPayload op) := by
  rw [groupsOf_written, groupsOf_written]
  exact entriesOf_beq op.kind h (fun e he c hc => hread c (Groups.mem_toList.2 ⟨e, he, hc⟩)) rfl

/-- Writing and reading a conjunction or disjunction is doing so with its groups. -/
theorem ofPayload_toPayload_composite (op : Connective) (g : Groups Condition) :
    ofPayload (toPayload (.composite op g))
      = (Groups.ofPayload op (g.toPayload op)).map (.composite op) := by
  rw [toPayload_composite, Groups.ofPayload, Groups.toPayload, compositePayload,
    ofPayload_compositeKind, Payload.openAs_eq_ok_iff.2 ⟨_, rfl, rfl⟩]
  rfl

/-- Writing and reading a negation is doing so with the negated condition. -/
theorem ofPayload_toPayload_negation (c : Condition) :
    ofPayload (toPayload (.negation c)) = (ofPayload c.toPayload).map .negation := by
  change ofPayload (negationPayload c.toPayload) = _
  rw [negationPayload, ofPayload_negationKind, innerOf]

/-- Equal conditions are written and read alike. -/
theorem rewrite_beq {c d : Condition} (h : c == d) :
    ofPayload c.toPayload == ofPayload d.toPayload := by
  induction c using Condition.induction generalizing d with
  | compare a =>
    obtain ⟨b, rfl, -⟩ := compare_beq_iff.1 h
    rw [(WellFormed.compare a).ofPayload_toPayload, (WellFormed.compare b).ofPayload_toPayload]
    exact h
  | composite op g ih =>
    obtain ⟨g', rfl, hg⟩ := composite_beq_iff.1 h
    rw [ofPayload_toPayload_composite, ofPayload_toPayload_composite]
    exact Except.map_beq (groups_rewrite_beq op hg ih) fun a b hab =>
      composite_beq_iff.2 ⟨b, rfl, hab⟩
  | negation a ih =>
    obtain ⟨b, rfl, hab⟩ := negation_beq_iff.1 h
    rw [ofPayload_toPayload_negation, ofPayload_toPayload_negation]
    exact Except.map_beq (ih hab) fun a b hab => negation_beq_iff.2 ⟨b, rfl, hab⟩

end Condition

/-- Equal groups are written and read alike. -/
theorem Groups.rewrite_beq (op : Connective) {g g' : Groups Condition} (h : g == g') :
    Groups.ofPayload op (g.toPayload op) == Groups.ofPayload op (g'.toPayload op) :=
  Condition.groups_rewrite_beq op h fun _ _ _ => Condition.rewrite_beq

/-! ## Joins and updates -/

/-- Equal joins are written and read alike. -/
theorem Join.rewrite_beq {i j : Join} (h : i == j) :
    Join.ofPayload i.toPayload == Join.ofPayload j.toPayload := by
  obtain ⟨hname, hcondition, hforeign, htype, hprimary⟩ := Join.beq_iff.1 h
  rw [Join.ofPayload_toPayload, Join.ofPayload_toPayload, hname, hforeign, htype, hprimary]
  refine Except.bind_beq (Groups.rewrite_beq .and hcondition) fun g g' hg => ?_
  have hconjunction : Condition.composite .and g == .composite .and g' :=
    Condition.composite_beq_iff.2 ⟨g', rfl, hg⟩
  have hmade := make_beq j.name j.primary j.foreign hconjunction j.type i.permanent j.permanent
  have herror : ∀ e e' : JoinError, e == e' → DecodeError.join e == .join e' := by
    intro e e' he
    rw [eq_of_beq he, beq_self_eq_true]
  -- comments are put back behind the check, and equality does not look at them
  exact Except.bind_beq (Except.mapError_beq hmade herror) fun a b hab =>
    Join.beq_iff.2 (Join.beq_iff.1 hab)

/-- Equal updates are written and read alike. -/
theorem Update.rewrite_beq {u v : Update} (h : u == v) :
    Update.ofPayload u.toPayload == Update.ofPayload v.toPayload := by
  obtain ⟨htable, hcolumns, hvalues, hcondition, hjoins⟩ := Update.beq_iff.1 h
  rw [Update.ofPayload_toPayload, Update.ofPayload_toPayload, htable, hcolumns,
    length_eq_of_beq hvalues]
  by_cases hpaired : v.values.length = v.columns.length
  · rw [if_neg (not_not.2 hpaired), if_neg (not_not.2 hpaired)]
    have hgroups := option_mapM_beq hcondition fun _ _ => Groups.rewrite_beq .and
    have hread := mapM_beq hjoins fun _ _ => Join.rewrite_beq
    refine Except.bind_beq hgroups fun g? g?' hg => Except.bind_beq hread fun js js' hjs => ?_
    exact Update.beq_iff.2 ⟨rfl, rfl, hvalues, hg, hjs⟩
  · rw [if_pos hpaired, if_pos hpaired]
    exact beq_self_eq_true (DecodeError.unpairedValues v.columns.length v.values.length)

namespace StoredKind

/-- Equality of the nodes of a kind. -/
instance (k : StoredKind) : BEq k.Node :=
  match k with
  | .table => inferInstanceAs (BEq Table)
  | .tableRef => inferInstanceAs (BEq TableRef)
  | .column => inferInstanceAs (BEq Column)
  | .anyOf => inferInstanceAs (BEq AnyOf)
  | .comparison => inferInstanceAs (BEq Comparison)
  | .composite _ => inferInstanceAs (BEq (Groups Condition))
  | .condition => inferInstanceAs (BEq Condition)
  | .join => inferInstanceAs (BEq Join)
  | .update => inferInstanceAs (BEq Update)

/-- Well-formed nodes of which equal nodes are stored are written and read alike. -/
theorem rewrite_beq_of_wellFormed (k : StoredKind) {x y : k.Node} (hx : k.WellFormed x)
    (hy : k.WellFormed y) (h : k.stored x == k.stored y) :
    k.ofPayload (k.toPayload x) == k.ofPayload (k.toPayload y) := by
  rw [k.reads_toPayload hx, k.reads_toPayload hy]
  exact h

/-- Equal nodes are read from their payloads as equal nodes, or refused with the same error. -/
theorem rewrite_beq (k : StoredKind) {x y : k.Node} (h : x == y) :
    k.ofPayload (k.toPayload x) == k.ofPayload (k.toPayload y) := by
  cases k with
  | composite op => exact Groups.rewrite_beq op h
  | condition => exact Condition.rewrite_beq h
  | join => exact Join.rewrite_beq h
  | update => exact Update.rewrite_beq h
  -- of the other kinds every node is well-formed
  | _ => exact rewrite_beq_of_wellFormed _ trivial trivial h

end StoredKind

end QueryTree
