import QueryTree.Proofs.RoundTrip

/-! # Members behind those that are read

Later writers may append members to a payload. `Payload.Extended` allows any members behind those of
a payload and of all payloads in it. A current payload has a member for each field that its reader
looks for, also where an older payload may end early, so nothing that is appended is taken for a
field, and the node is read as if it were not there.
-/

namespace QueryTree

mutual

/-- The second payload is the first one with any members behind its own ones, and behind those of
any payloads in it. -/
inductive Payload.Extended : Payload → Payload → Prop where
  | mk (domain kind : String) {ms ns : List Member} (surplus : List Member) :
    List.Forall₂ Member.Extended ms ns →
      Payload.Extended ⟨domain, kind, ms⟩ ⟨domain, kind, ns ++ surplus⟩

/-- The second member is the first one with such members in the payloads that it holds. -/
inductive Member.Extended : Member → Member → Prop where
  | same (m : Member) : Member.Extended m m
  | object {p q : Payload} : Payload.Extended p q → Member.Extended (.object p) (.object q)
  | list {items items' : List Member} : List.Forall₂ Member.Extended items items' →
    Member.Extended (.list items) (.list items')
  | groups {entries entries' : List (GroupKey × List Member)} :
    List.Forall₂ Member.EntryExtended entries entries' →
      Member.Extended (.groups entries) (.groups entries')

/-- The second entry of groups is the first one with such members in its payloads. -/
inductive Member.EntryExtended : GroupKey × List Member → GroupKey × List Member → Prop where
  | mk (key : GroupKey) {items items' : List Member} : List.Forall₂ Member.Extended items items' →
    Member.EntryExtended (key, items) (key, items')

end

/-- A payload with members behind its own ones keeps its family and its kind. -/
theorem Payload.Extended.ofKind_inv {kind : String} {ms : List Member} {q : Payload}
    (h : (Payload.ofKind kind ms).Extended q) :
    ∃ ns surplus, q = .ofKind kind (ns ++ surplus) ∧ List.Forall₂ Member.Extended ms ns := by
  cases h with
  | mk _ _ surplus h => exact ⟨_, surplus, rfl, h⟩

/-- A payload extends itself by nothing. -/
theorem Payload.Extended.refl (p : Payload) : p.Extended p := by
  obtain ⟨domain, kind, ms⟩ := p
  have h := Payload.Extended.mk domain kind [] (List.forall₂_same.2 fun m (_ : m ∈ ms) => .same m)
  rwa [List.append_nil] at h

namespace Member

variable {α : Type} {read : Payload → Except DecodeError α} {n : Member}

/-! ## Members without payloads -/

/-- A text stays as it is. -/
theorem Extended.text {s : String} (h : (Member.text s).Extended n) : n = .text s := by
  cases h
  rfl

/-- An integer stays as it is. -/
theorem Extended.int {i : Int64} (h : (Member.int i).Extended n) : n = .int i := by
  cases h
  rfl

/-- Null stays as it is. -/
theorem Extended.null (h : Member.null.Extended n) : n = .null := by
  cases h
  rfl

/-- A value stays as it is. -/
theorem Extended.value {v : Value} (h : (Member.value v).Extended n) : n = .value v := by
  cases h
  rfl

/-- An optional text stays as it is. -/
theorem Extended.optionalText {s? : Option String} (h : (optionalText s?).Extended n) :
    n = Member.optionalText s? := by
  cases s? with
  | none => exact h.null
  | some s => exact h.text

/-! ## Members with payloads -/

/-- An object is extended in its payload. -/
theorem Extended.object_inv {p : Payload} (h : (Member.object p).Extended n) :
    ∃ q, n = .object q ∧ p.Extended q := by
  cases h with
  | same => exact ⟨p, rfl, .refl p⟩
  | object h => exact ⟨_, rfl, h⟩

/-- A list is extended item by item, not in length. -/
theorem Extended.list_inv {items : List Member} (h : (Member.list items).Extended n) :
    ∃ items', n = .list items' ∧ List.Forall₂ Extended items items' := by
  cases h with
  | same => exact ⟨items, rfl, List.forall₂_same.2 fun m _ => .same m⟩
  | list h => exact ⟨_, rfl, h⟩

/-- Groups are extended entry by entry, not in number. -/
theorem Extended.groups_inv {entries : List (GroupKey × List Member)}
    (h : (Member.groups entries).Extended n) :
    ∃ entries', n = .groups entries' ∧ List.Forall₂ EntryExtended entries entries' := by
  cases h with
  | same =>
    refine ⟨entries, rfl, List.forall₂_same.2 fun e _ => ?_⟩
    exact .mk e.1 (List.forall₂_same.2 fun m _ => .same m)
  | groups h => exact ⟨_, rfl, h⟩

/-- A member holds a node if the node is read from its payload whatever is behind the members. -/
theorem Extended.holds {p : Payload} {x : α} (h : (Member.object p).Extended n)
    (hread : ∀ q, p.Extended q → read q = .ok x) : n.Holds read x := by
  obtain ⟨q, rfl, hq⟩ := h.object_inv
  exact ⟨q, rfl, hread q hq⟩

/-- Items hold nodes one by one if each node is read whatever is behind the members. -/
theorem forall₂_holds_of_extended {β : Type} {write : β → Payload} {f : β → α} {xs : List β}
    (hread : ∀ x ∈ xs, ∀ q, (write x).Extended q → read q = .ok (f x)) {items : List Member}
    (h : List.Forall₂ Extended (xs.map fun x => .object (write x)) items) :
    List.Forall₂ (Holds read) items (xs.map f) := by
  induction xs generalizing items with
  | nil =>
    cases h
    exact .nil
  | cons x xs ih =>
    obtain ⟨hx, hxs⟩ := List.forall_mem_cons.1 hread
    cases h with
    | cons hitem htail => exact .cons (hitem.holds hx) (ih hxs htail)

/-- A list of objects holds what their extended payloads are read as. -/
theorem Extended.holdsAll {β : Type} {write : β → Payload} {f : β → α} {xs : List β}
    (h : (objects (xs.map write)).Extended n)
    (hread : ∀ x ∈ xs, ∀ q, (write x).Extended q → read q = .ok (f x)) :
    n.HoldsAll read (xs.map f) := by
  obtain ⟨items, rfl, hitems⟩ := h.list_inv
  rw [List.map_map] at hitems
  exact .inr ⟨items, rfl, forall₂_holds_of_extended hread hitems⟩

end Member

open Member

variable {q : Payload}

/-! ## Tables, columns and operands -/

/-- A table is read from any extension of its payload. -/
theorem Table.ofPayload_extended {t : Table} (h : t.toPayload.Extended q) :
    Table.ofPayload q = .ok t := by
  obtain ⟨ns, surplus, rfl, hns⟩ := h.ofKind_inv
  simp only [List.forall₂_cons_left_iff, List.forall₂_nil_left_iff] at hns
  obtain ⟨_, _, hname, ⟨_, _, halias, ⟨_, _, hsource, rfl, rfl⟩, rfl⟩, rfl⟩ := hns
  rw [hname.text, halias.optionalText, hsource.optionalText]
  exact Table.ofPayload_eq_ok_iff.2 ⟨surplus, rfl⟩

/-- A table reference is read from any extension of its payload. -/
theorem TableRef.ofPayload_extended {r : TableRef} (h : r.toPayload.Extended q) :
    TableRef.ofPayload q = .ok r := by
  obtain ⟨ns, surplus, rfl, hns⟩ := h.ofKind_inv
  simp only [List.forall₂_cons_left_iff, List.forall₂_nil_left_iff] at hns
  obtain ⟨n, _, htable, rfl, rfl⟩ := hns
  have hheld : n.Holds Table.ofPayload r.table := htable.holds fun _ => Table.ofPayload_extended
  exact TableRef.ofPayload_eq_ok_iff.2 ⟨n, surplus, rfl, hheld⟩

/-- A column is read from any extension of its payload. -/
theorem Column.ofPayload_extended {c : Column} (h : c.toPayload.Extended q) :
    Column.ofPayload q = .ok c := by
  obtain ⟨ns, surplus, rfl, hns⟩ := h.ofKind_inv
  simp only [List.forall₂_cons_left_iff, List.forall₂_nil_left_iff] at hns
  obtain ⟨n, _, htable, ⟨_, _, hname, ⟨_, _, halias, rfl, rfl⟩, rfl⟩, rfl⟩ := hns
  have hheld : n.Holds Table.ofPayload c.table := htable.holds fun _ => Table.ofPayload_extended
  rw [hname.text, halias.optionalText]
  exact Column.ofPayload_eq_ok_iff.2 ⟨n, surplus, rfl, hheld⟩

/-- A set of values is read from any extension of its payload. -/
theorem AnyOf.ofPayload_extended {a : AnyOf} (h : a.toPayload.Extended q) :
    AnyOf.ofPayload q = .ok a := by
  obtain ⟨ns, surplus, rfl, hns⟩ := h.ofKind_inv
  simp only [List.forall₂_cons_left_iff, List.forall₂_nil_left_iff] at hns
  obtain ⟨_, _, hlist, rfl, rfl⟩ := hns
  obtain ⟨items, rfl, hitems⟩ := hlist.list_inv
  refine AnyOf.ofPayload_eq_ok_iff.2 ⟨items, surplus, rfl, ?_⟩
  rw [List.forall₂_map_left_iff] at hitems
  refine hitems.flip.imp fun m v hv => ?_
  exact .inl (Extended.value hv)

/-- An operand is held by any extension of its member. -/
theorem Operand.heldBy_extended {o : Operand} {n : Member} (h : o.toMember.Extended n) :
    o.HeldBy n := by
  cases o with
  | column c => exact h.holds fun _ => Column.ofPayload_extended
  | value v =>
    cases v with
    | null => exact .inr ⟨h.null, rfl⟩
    | _ => exact .inl h.value
  | anyOf a => exact h.holds fun _ => AnyOf.ofPayload_extended

/-- A comparison is read from any extension of its payload. -/
theorem Comparison.ofPayload_extended {c : Comparison} (h : c.toPayload.Extended q) :
    Comparison.ofPayload q = .ok c := by
  obtain ⟨ns, surplus, rfl, hns⟩ := h.ofKind_inv
  simp only [List.forall₂_cons_left_iff, List.forall₂_nil_left_iff] at hns
  obtain ⟨_, _, hcode, ⟨left, _, hleft, ⟨right, _, hright, rfl, rfl⟩, rfl⟩, rfl⟩ := hns
  rw [hcode.int]
  exact Comparison.ofPayload_eq_ok_iff.2 ⟨_, left, right, surplus, rfl, c.operator.ofCode_code,
    Operand.heldBy_extended hleft, Operand.heldBy_extended hright⟩

/-! ## Conditions -/

/-- Entries of groups are read one by one if their conditions are read whatever is behind the
members. -/
theorem Condition.entryHolds_of_extended {groups : List (GroupKey × List Condition)}
    (hread : ∀ e ∈ groups, ∀ c ∈ e.2, ∀ q, c.toPayload.Extended q → ofPayload q = .ok c)
    {entries : List (GroupKey × List Member)}
    (h : List.Forall₂ EntryExtended
      (groups.map fun e => (e.1, e.2.map fun c => .object c.toPayload)) entries) :
    List.Forall₂ EntryHolds entries groups := by
  induction groups generalizing entries with
  | nil =>
    cases h
    exact .nil
  | cons e rest ih =>
    obtain ⟨he, hrest⟩ := List.forall_mem_cons.1 hread
    cases h with
    | cons hentry htail =>
      refine .cons ?_ (ih hrest htail)
      cases hentry with
      | mk _ hitems =>
        have hall := forall₂_holds_of_extended (f := id) he hitems
        rw [List.map_id] at hall
        exact ⟨rfl, hall⟩

/-- Tidy groups are read if their conditions are, and no member behind the groups is looked at. -/
theorem Groups.Tidy.ofPayload_extended {g : Groups Condition} (hg : g.Tidy) {op : Connective}
    (hread : ∀ c ∈ g.toList, ∀ q, c.toPayload.Extended q → Condition.ofPayload q = .ok c)
    (h : (g.toPayload op).Extended q) : Groups.ofPayload op q = .ok g := by
  obtain ⟨ns, surplus, rfl, hns⟩ := h.ofKind_inv
  simp only [List.forall₂_cons_left_iff, List.forall₂_nil_left_iff] at hns
  obtain ⟨_, _, hgroups, rfl, rfl⟩ := hns
  obtain ⟨entries, rfl, hentries⟩ := hgroups.groups_inv
  have hwritten : ((g.map Condition.toPayload).map Member.object).entries
      = g.entries.map fun e => (e.1, e.2.map fun c => .object c.toPayload) := by
    simp [Groups.map]
  rw [hwritten] at hentries
  have hheld : List.Forall₂ Condition.EntryHolds entries g.entries := by
    refine Condition.entryHolds_of_extended (fun e he c hc => ?_) hentries
    exact hread c (mem_toList.2 ⟨e, he, hc⟩)
  have hnodup : (filledKeys g.entries).Nodup := by
    rw [hg.filledKeys_entries]
    exact hg.keys_nodup
  exact Groups.ofPayload_eq_ok_iff.2
    ⟨_, surplus, rfl, .inl ⟨entries, g.entries, rfl, hheld, hnodup, hg.ofEntries_entries.symm⟩⟩

/-- A well-formed condition is read from any extension of its payload. -/
theorem Condition.WellFormed.ofPayload_extended {c : Condition} (hc : c.WellFormed)
    (h : c.toPayload.Extended q) : Condition.ofPayload q = .ok c := by
  induction hc generalizing q with
  | compare c => exact ofPayload_eq_compare_iff.2 (Comparison.ofPayload_extended h)
  | composite op hg _ ih =>
    rw [toPayload_composite] at h
    rw [ofPayload_eq_composite_iff]
    exact hg.ofPayload_extended (fun c hc _ hq => ih c hc hq) h
  | negation _ ih =>
    obtain ⟨ns, surplus, rfl, hns⟩ := h.ofKind_inv
    simp only [List.forall₂_cons_left_iff, List.forall₂_nil_left_iff] at hns
    obtain ⟨n, _, hinner, rfl, rfl⟩ := hns
    exact ofPayload_eq_negation_iff.2 ⟨n, surplus, rfl, hinner.holds fun _ hq => ih hq⟩

/-- Well-formed groups are read from any extension of their payload. -/
theorem Groups.WellFormed.ofPayload_extended {g : Groups Condition} (hg : g.WellFormed)
    {op : Connective} (h : (g.toPayload op).Extended q) : Groups.ofPayload op q = .ok g :=
  hg.tidy.ofPayload_extended (fun c hc _ hq => (hg.members c hc).ofPayload_extended hq) h

/-! ## Joins and updates -/

/-- The comment has a member of its own in each current payload, so no member behind it is taken for
the comment. -/
theorem Join.WellFormed.ofPayload_extended {j : Join} (hj : j.WellFormed)
    (h : j.toPayload.Extended q) : Join.ofPayload q = .ok j.stored := by
  obtain ⟨ns, surplus, rfl, hns⟩ := h.ofKind_inv
  simp only [List.forall₂_cons_left_iff, List.forall₂_nil_left_iff] at hns
  obtain ⟨_, _, hname, ⟨primary, _, hprimary, ⟨foreign, _, hforeign, ⟨condition, _, hcondition,
    ⟨_, _, hcode, ⟨_, _, hcomment, rfl, rfl⟩, rfl⟩, rfl⟩, rfl⟩, rfl⟩, rfl⟩ := hns
  rw [hname.text, hcode.int, hcomment.optionalText]
  refine Join.ofPayload_eq_ok_iff.2 ⟨primary, foreign, condition, _, _, rfl, ?_, .inr ?_, ?_,
    j.ofTypeCode_typeCode, .inr ⟨surplus, rfl⟩, hj.compares, rfl⟩
  · exact hprimary.holds fun _ => Table.ofPayload_extended
  · exact hforeign.holds fun _ => TableRef.ofPayload_extended
  · exact hcondition.holds fun _ => hj.condition.ofPayload_extended

/-- The joins have a member of their own even if there are none, so no member behind it is taken for
joins. -/
theorem Update.WellFormed.ofPayload_extended {u : Update} (hu : u.WellFormed)
    (h : u.toPayload.Extended q) : Update.ofPayload q = .ok u.stored := by
  obtain ⟨ns, surplus, rfl, hns⟩ := h.ofKind_inv
  simp only [List.forall₂_cons_left_iff, List.forall₂_nil_left_iff] at hns
  obtain ⟨table, _, htable, ⟨columns, _, hcolumns, ⟨_, _, hvalues, ⟨condition, _, hcondition,
    ⟨joins, _, hjoins, rfl, rfl⟩, rfl⟩, rfl⟩, rfl⟩, rfl⟩ := hns
  obtain ⟨items, rfl, hitems⟩ := hvalues.list_inv
  have hassigned : List.Forall₂ (fun m o => Operand.HeldBy m o) items u.values := by
    rw [List.forall₂_map_left_iff] at hitems
    exact hitems.flip.imp fun _ _ hm => Operand.heldBy_extended hm
  have hcols : columns.HoldsAll Column.ofPayload u.columns := by
    have hall := hcolumns.holdsAll (f := id) fun c _ _ => Column.ofPayload_extended
    rwa [List.map_id] at hall
  have hwhere : condition.HoldsOptional (Groups.ofPayload .and) u.condition? := by
    cases hc : u.condition? with
    | none =>
      rw [hc] at hcondition
      exact hcondition.null
    | some g =>
      rw [hc] at hcondition
      exact hcondition.holds fun _ => (hu.condition g hc).ofPayload_extended
  have hheld : joins.HoldsAll Join.ofPayload u.stored.joins := by
    split at hjoins
    · rename_i hnil
      rw [List.isEmpty_iff] at hnil
      exact .inl ⟨hjoins.null, by simp [Update.stored, hnil]⟩
    · exact hjoins.holdsAll fun j hj _ => (hu.joins j hj).ofPayload_extended
  exact Update.ofPayload_eq_ok_iff.2 ⟨table, columns, items, condition, _, rfl,
    htable.holds fun _ => Table.ofPayload_extended, hcols, hassigned, hu.paired, hwhere,
    .inr ⟨joins, surplus, rfl, hheld⟩⟩

namespace StoredKind

/-- Whatever members stand behind those of the payload of a node, and behind those of the payloads
in it, what is stored of the node is read. -/
theorem reads_extended (k : StoredKind) {x : k.Node} (hx : k.WellFormed x)
    (h : (k.toPayload x).Extended q) : k.ofPayload q = .ok (k.stored x) := by
  cases k with
  | table => exact Table.ofPayload_extended h
  | tableRef => exact TableRef.ofPayload_extended h
  | column => exact Column.ofPayload_extended h
  | anyOf => exact AnyOf.ofPayload_extended h
  | comparison => exact Comparison.ofPayload_extended h
  | composite op => exact Groups.WellFormed.ofPayload_extended hx h
  | condition => exact Condition.WellFormed.ofPayload_extended hx h
  | join => exact Join.WellFormed.ofPayload_extended hx h
  | update => exact Update.WellFormed.ofPayload_extended hx h

/-- Forward tolerance. A well-formed node is read back with every field but the origin of a join, at
every depth, from its payload with any members appended to it and to the payloads in it. -/
theorem ofPayload_extended_restores (k : StoredKind) {x : k.Node} (hx : k.WellFormed x)
    {q : Payload} (h : (k.toPayload x).Extended q) :
    ∃ y, k.ofPayload q = .ok y ∧ k.Restores x y :=
  ⟨k.stored x, k.reads_extended hx h, k.restores_stored x⟩

end StoredKind

/-- The payload of `Update.clearStates` with members appended to the update, to its join and to the
condition of the join. Each first one has the shape of a field that could be missing there. -/
def Update.clearStatesLater : Payload :=
  .ofKind "QueryUpdate"
    [.object (Table.named "orders").toPayload,
      .objects [(Column.mk (.named "orders") "state" none).toPayload], .list [.null], .null,
      .list [.object (.ofKind "QueryJoin"
        [.text "states", .object (Table.mk "orders" (some "") none).toPayload,
          .object (TableRef.mk (.named "states")).toPayload,
          .object (.ofKind "AndCondition"
            [.groups [(some "", [.object (Comparison.mk ⟨.equals, ⟨true, true⟩⟩
              (.column ⟨.named "orders", "state", none⟩) (.value .null)).toPayload])],
              .text "later"]),
          .int Join.orderStates.typeCode, .text "", .text "later", .value .null])],
      .list [.int 7], .object ⟨"later", "", []⟩]

/-- The later payload of this update extends the one that is written. -/
theorem Update.clearStates_extended : clearStates.toPayload.Extended clearStatesLater := by
  have hcondition : (Join.orderStates.condition.toPayload .and).Extended _ :=
    .mk "query" "AndCondition" [.text "later"] (.cons (.same _) .nil)
  have hjoin : Join.orderStates.toPayload.Extended _ :=
    .mk "query" "QueryJoin" [.text "later", .value .null]
      (.cons (.same _) (.cons (.same _) (.cons (.same _) (.cons (.object hcondition)
        (.cons (.same _) (.cons (.same _) .nil))))))
  exact .mk "query" "QueryUpdate" [.list [.int 7], .object ⟨"later", "", []⟩]
    (.cons (.same _) (.cons (.same _) (.cons (.same _) (.cons (.same _)
      (.cons (.list (.cons (.object hjoin) .nil)) .nil)))))

theorem StoredKind.clearStates_read_later :
    StoredKind.update.WellFormed .clearStates
      ∧ (StoredKind.update.toPayload .clearStates).Extended Update.clearStatesLater
      ∧ ∃ y, StoredKind.update.ofPayload Update.clearStatesLater = .ok y
        ∧ StoredKind.update.Restores .clearStates y :=
  ⟨Update.clearStates_wellFormed, Update.clearStates_extended,
    ofPayload_extended_restores .update Update.clearStates_wellFormed Update.clearStates_extended⟩

end QueryTree
