import Mathlib.Data.List.Perm.Basic
import QueryTree.Proofs.ReadOrder
import QueryTree.Proofs.RoundTrip

/-! # Payloads in older shapes

`Payload.OlderShape` lists how one payload looked before its kind took its current form, and
`Payload.Older` allows any of these shapes, any number of times, at any depth. Old shapes preserve
what is read, so a well-formed node is read back from each of them.
-/

namespace QueryTree

namespace Payload

/-- An older shape of a payload, which differs from it at the root only. -/
inductive OlderShape : Payload → Payload → Prop where
  /-- A join's foreign side was a bare table. -/
  | bareForeign (name primary : Member) (table : Payload) (rest : List Member) :
    OlderShape
      (.ofKind "QueryJoin"
        (name :: primary :: .object (.ofKind "TableExpression" [.object table]) :: rest))
      (.ofKind "QueryJoin" (name :: primary :: .object table :: rest))
  /-- A join had no comment. -/
  | noComment (name primary foreign condition type : Member) :
    OlderShape (.ofKind "QueryJoin" [name, primary, foreign, condition, type, .null])
      (.ofKind "QueryJoin" [name, primary, foreign, condition, type])
  /-- A composite without groups was an empty list. -/
  | emptyList (op : Connective) :
    OlderShape (.ofKind op.kind [.groups []]) (.ofKind op.kind [.list []])
  /-- A composite without groups was an empty list without a name. -/
  | emptyUnnamedList (op : Connective) :
    OlderShape (.ofKind op.kind [.groups []]) (.ofKind op.kind [.list [], .null])
  /-- A composite with the default group only was a list. -/
  | list (op : Connective) (items : List Member) :
    OlderShape (.ofKind op.kind [.groups [(none, items)]]) (.ofKind op.kind [.list items])
  /-- A composite with one group was a list with the name of the group, or with null. -/
  | namedList (op : Connective) (key : GroupKey) (items : List Member) :
    OlderShape (.ofKind op.kind [.groups [(key, items)]])
      (.ofKind op.kind [.list items, .optionalText key])
  /-- The groups of a composite stood in another order. -/
  | permuted (op : Connective) {entries entries' : List (GroupKey × List Member)} :
    entries.Perm entries' →
      OlderShape (.ofKind op.kind [.groups entries]) (.ofKind op.kind [.groups entries'])
  /-- Among the groups of a composite stood a key without conditions. -/
  | emptyEntry (op : Connective) (key : GroupKey) (front back : List (GroupKey × List Member)) :
    OlderShape (.ofKind op.kind [.groups (front ++ back)])
      (.ofKind op.kind [.groups (front ++ (key, []) :: back)])
  /-- An update had no joins. -/
  | noJoins (table columns values condition : Member) :
    OlderShape (.ofKind "QueryUpdate" [table, columns, values, condition, .null])
      (.ofKind "QueryUpdate" [table, columns, values, condition])
  /-- An update had an empty list of joins. -/
  | emptyJoins (table columns values condition : Member) :
    OlderShape (.ofKind "QueryUpdate" [table, columns, values, condition, .null])
      (.ofKind "QueryUpdate" [table, columns, values, condition, .list []])
  /-- An update without columns had null in their place. -/
  | nullColumns (table : Member) (rest : List Member) :
    OlderShape (.ofKind "QueryUpdate" (table :: .list [] :: rest))
      (.ofKind "QueryUpdate" (table :: .null :: rest))
  /-- NULL on the left of a comparison was a value. -/
  | leftNull (operator : Member) (rest : List Member) :
    OlderShape (.ofKind "CompareCondition" (operator :: .null :: rest))
      (.ofKind "CompareCondition" (operator :: .value .null :: rest))
  /-- NULL on the right of a comparison was a value. -/
  | rightNull (operator left : Member) (rest : List Member) :
    OlderShape (.ofKind "CompareCondition" (operator :: left :: .null :: rest))
      (.ofKind "CompareCondition" (operator :: left :: .value .null :: rest))
  /-- NULL assigned by an update was a value. -/
  | assignedNull (table columns : Member) (front back : List Member) (rest : List Member) :
    OlderShape
      (.ofKind "QueryUpdate" (table :: columns :: .list (front ++ .null :: back) :: rest))
      (.ofKind "QueryUpdate" (table :: columns :: .list (front ++ .value .null :: back) :: rest))
  /-- NULL in a list of values was null. -/
  | listedNull (front back : List Member) (rest : List Member) :
    OlderShape (.ofKind "AnyValues" (.list (front ++ .value .null :: back) :: rest))
      (.ofKind "AnyValues" (.list (front ++ .null :: back) :: rest))

/-- The second payload is the first one with older shapes in any of its nested payloads. -/
inductive Older : Payload → Payload → Prop where
  | refl (p : Payload) : Older p p
  | trans {p q r : Payload} : Older p q → Older q r → Older p r
  | shape {p q : Payload} : OlderShape p q → Older p q
  /-- The older shape is that of a member. -/
  | member (kind : String) (before after : List Member) {p q : Payload} : Older p q →
    Older (.ofKind kind (before ++ .object p :: after))
      (.ofKind kind (before ++ .object q :: after))
  /-- The older shape is that of an item in a list. -/
  | item (kind : String) (before after front back : List Member) {p q : Payload} : Older p q →
    Older (.ofKind kind (before ++ .list (front ++ .object p :: back) :: after))
      (.ofKind kind (before ++ .list (front ++ .object q :: back) :: after))
  /-- The older shape is that of an item in a group. -/
  | grouped (kind : String) (before after front back : List Member)
    (entries entries' : List (GroupKey × List Member)) (key : GroupKey) {p q : Payload} :
    Older p q →
    Older
      (.ofKind kind
        (before ++ .groups (entries ++ (key, front ++ .object p :: back) :: entries') :: after))
      (.ofKind kind
        (before ++ .groups (entries ++ (key, front ++ .object q :: back) :: entries') :: after))

end Payload

/-! ## Changes at one place of a list -/

section Places

variable {β : Type} {changed : β → β → Prop} {x y : β}

/-- If one item is changed and the others are not, each is related to what it was. -/
theorem forall₂_replace (hrefl : ∀ z, changed z z) (h : changed x y) (front back : List β) :
    List.Forall₂ changed (front ++ x :: back) (front ++ y :: back) := by
  induction front with
  | nil => exact .cons h (List.forall₂_same.2 fun z _ => hrefl z)
  | cons z front ih => exact .cons (hrefl z) ih

/-- What is related to two lists in a row is itself two such lists in a row. -/
theorem forall₂_append_inv {γ : Type} {holds : β → γ → Prop} {front back : List β} {xs : List γ}
    (h : List.Forall₂ holds (front ++ back) xs) :
    ∃ ys zs, xs = ys ++ zs ∧ List.Forall₂ holds front ys ∧ List.Forall₂ holds back zs := by
  induction front generalizing xs with
  | nil => exact ⟨[], xs, rfl, .nil, h⟩
  | cons b front ih =>
    cases h with
    | cons hb htail =>
      obtain ⟨ys, zs, rfl, hys, hzs⟩ := ih htail
      exact ⟨_ :: ys, zs, rfl, .cons hb hys, hzs⟩

end Places

/-! ## Kinds and their payloads -/

/-- A connective is known from the kind of its payload. -/
@[simp] theorem Connective.kind_inj {op op' : Connective} : op.kind = op'.kind ↔ op = op' := by
  cases op <;> cases op' <;> simp [kind]

/-- The kinds of payloads that can be read as nodes of a kind. -/
def StoredKind.payloadKinds : StoredKind → List String
  | .table => ["QueryTable"]
  | .tableRef => ["TableExpression"]
  | .column => ["QueryColumn"]
  | .anyOf => ["AnyValues"]
  | .comparison => ["CompareCondition"]
  | .composite op => [op.kind]
  | .condition =>
    ["CompareCondition", Connective.and.kind, Connective.or.kind, "NotCondition"]
  | .join => ["QueryJoin"]
  | .update => ["QueryUpdate"]

/-- What a decoder accepts is of one of the payload kinds it knows. -/
theorem StoredKind.mem_payloadKinds {k : StoredKind} {x : k.Node} {kind : String}
    {members : List Member} (h : k.ofPayload (.ofKind kind members) = .ok x) :
    kind ∈ k.payloadKinds := by
  cases k with
  | table =>
    obtain ⟨_, heq⟩ := Table.ofPayload_eq_ok_iff.1 h
    simp [(Payload.ofKind_inj.1 heq).1, payloadKinds]
  | tableRef =>
    obtain ⟨_, _, heq, -⟩ := TableRef.ofPayload_eq_ok_iff.1 h
    simp [(Payload.ofKind_inj.1 heq).1, payloadKinds]
  | column =>
    obtain ⟨_, _, heq, -⟩ := Column.ofPayload_eq_ok_iff.1 h
    simp [(Payload.ofKind_inj.1 heq).1, payloadKinds]
  | anyOf =>
    obtain ⟨_, _, heq, -⟩ := AnyOf.ofPayload_eq_ok_iff.1 h
    simp [(Payload.ofKind_inj.1 heq).1, payloadKinds]
  | comparison =>
    obtain ⟨_, _, _, _, heq, -⟩ := Comparison.ofPayload_eq_ok_iff.1 h
    simp [(Payload.ofKind_inj.1 heq).1, payloadKinds]
  | composite op =>
    obtain ⟨_, _, heq, -⟩ := Groups.ofPayload_eq_ok_iff.1 h
    simp [(Payload.ofKind_inj.1 heq).1, payloadKinds]
  | condition =>
    obtain ⟨_, heq⟩ := Condition.kind_of_ofPayload h
    rw [(Payload.ofKind_inj.1 heq).1]
    cases x with
    | compare c => simp [payloadKinds, Condition.kind]
    | composite op g => cases op <;> simp [payloadKinds, Condition.kind]
    | negation c => simp [payloadKinds, Condition.kind]
  | join =>
    obtain ⟨_, _, _, _, _, heq, -⟩ := Join.ofPayload_eq_ok_iff.1 h
    simp [(Payload.ofKind_inj.1 heq).1, payloadKinds]
  | update =>
    obtain ⟨_, _, _, _, _, heq, -⟩ := Update.ofPayload_eq_ok_iff.1 h
    simp [(Payload.ofKind_inj.1 heq).1, payloadKinds]

/-- Joins, updates and lists of values are the only nodes that their payloads are read as. -/
theorem StoredKind.eq_of_mem_payloadKinds {k k' : StoredKind} {kind : String}
    (hk : k = .join ∨ k = .update ∨ k = .anyOf) (h : kind ∈ k.payloadKinds)
    (h' : kind ∈ k'.payloadKinds) : k' = k := by
  rcases hk with rfl | rfl | rfl <;>
  · obtain rfl := List.mem_singleton.1 h
    cases k' with
    | composite op => cases op <;> simp [payloadKinds, Connective.kind] at h'
    | _ => simp [payloadKinds, Connective.kind] at h' ⊢

namespace Payload

variable {members members' : List Member}

/-- What has a payload kind of its own is preserved when it is read as that kind. -/
theorem preservedBy_of_only {k : StoredKind} {kind : String}
    (hk : k = .join ∨ k = .update ∨ k = .anyOf) (hkind : kind ∈ k.payloadKinds)
    (h : ∀ x, k.ofPayload (.ofKind kind members) = .ok x →
      k.ofPayload (.ofKind kind members') = .ok x) :
    (ofKind kind members).PreservedBy (.ofKind kind members') := by
  intro k' x hx
  obtain rfl := StoredKind.eq_of_mem_payloadKinds hk hkind (StoredKind.mem_payloadKinds hx)
  exact h x hx

/-- Payloads of comparisons are read as comparisons, which may stand as conditions. -/
theorem preservedBy_of_comparison
    (h : ∀ c, Comparison.ofPayload (.ofKind "CompareCondition" members) = .ok c →
      Comparison.ofPayload (.ofKind "CompareCondition" members') = .ok c) :
    (ofKind "CompareCondition" members).PreservedBy (.ofKind "CompareCondition" members') := by
  intro k x hx
  have hkind := StoredKind.mem_payloadKinds hx
  cases k with
  | comparison => exact h x hx
  | condition =>
    obtain ⟨c, hc, rfl⟩ : ∃ c, Comparison.ofPayload _ = .ok c ∧ Condition.compare c = x := by
      rw [← Except.map_eq_ok_iff, ← Condition.ofPayload_compareKind]
      exact hx
    exact Condition.ofPayload_eq_compare_iff.2 (h c hc)
  | composite op => cases op <;> simp [StoredKind.payloadKinds, Connective.kind] at hkind
  | _ => simp [StoredKind.payloadKinds] at hkind

/-- Payloads of composites are read as groups, which may stand as conditions. -/
theorem preservedBy_of_composite {op : Connective} {m n : Member} {rest rest' : List Member}
    (h : ∀ g, Condition.GroupsHeldBy m rest g → Condition.GroupsHeldBy n rest' g) :
    (ofKind op.kind (m :: rest)).PreservedBy (.ofKind op.kind (n :: rest')) := by
  have hread : ∀ g, Groups.ofPayload op (.ofKind op.kind (m :: rest)) = .ok g →
      Groups.ofPayload op (.ofKind op.kind (n :: rest')) = .ok g := by
    intro g hg
    obtain ⟨m', rest₁, heq, hm⟩ := Groups.ofPayload_eq_ok_iff.1 hg
    obtain ⟨-, heq⟩ := ofKind_inj.1 heq
    cases heq
    exact Groups.ofPayload_eq_ok_iff.2 ⟨n, rest', rfl, h g hm⟩
  intro k x hx
  have hkind := StoredKind.mem_payloadKinds hx
  cases k with
  | composite op' =>
    -- the kind of the payload tells the connective
    obtain rfl : op = op' := by simpa [StoredKind.payloadKinds, Connective.kind_inj] using hkind
    exact hread x hx
  | condition =>
    obtain ⟨members, heq⟩ := Condition.kind_of_ofPayload hx
    obtain ⟨hk, -⟩ := ofKind_inj.1 heq
    cases x with
    | composite op' g =>
      obtain rfl : op = op' := Connective.kind_inj.1 hk
      exact Condition.ofPayload_eq_composite_iff.2
        (hread g (Condition.ofPayload_eq_composite_iff.1 hx))
    | _ => cases op <;> simp [Connective.kind, Condition.kind] at hk
  | _ => cases op <;> simp [StoredKind.payloadKinds, Connective.kind] at hkind

end Payload

/-! ## Older shapes are read -/

namespace Condition

/-- One group may stand as a list with the key behind it. -/
theorem groupsHeldBy_list {key : GroupKey} {items rest : List Member} {g : Groups Condition}
    (hrest : Member.TrailingText rest key)
    (hg : GroupsHeldBy (.groups [(key, items)]) [] g) : GroupsHeldBy (.list items) rest g := by
  rcases hg with ⟨entries, read, heq, hread, -, rfl⟩ | ⟨_, _, _, heq, -⟩
  · cases heq
    cases hread with
    | cons he hnil =>
      cases hnil
      obtain ⟨rfl, hcs⟩ := he
      exact .inr ⟨items, _, _, rfl, hcs, hrest, (Groups.empty_addAllTo _ _).symm⟩
  · cases heq

/-- No groups may stand as an empty list without a name. -/
theorem groupsHeldBy_emptyList {rest : List Member} {g : Groups Condition}
    (hrest : Member.TrailingText rest none) (hg : GroupsHeldBy (.groups []) [] g) :
    GroupsHeldBy (.list []) rest g := by
  rcases hg with ⟨entries, read, heq, hread, -, rfl⟩ | ⟨_, _, _, heq, -⟩
  · cases heq
    cases hread
    exact .inr ⟨[], [], none, rfl, .nil, hrest, rfl⟩
  · cases heq

/-- The order of the entries does not matter to the groups that are read. -/
theorem groupsHeldBy_perm {entries entries' : List (GroupKey × List Member)} {rest : List Member}
    {g : Groups Condition} (hperm : entries.Perm entries')
    (hg : GroupsHeldBy (.groups entries) rest g) : GroupsHeldBy (.groups entries') rest g := by
  rcases hg with ⟨_, read, heq, hread, hnodup, rfl⟩ | ⟨_, _, _, heq, -⟩
  · cases heq
    obtain ⟨read', hread', hperm'⟩ := List.perm_comp_forall₂ hperm.symm hread
    -- the conditions were read in the old order; each key still has the same ones
    refine .inl ⟨entries', read', rfl, hread', ?_, ?_⟩
    · exact (Groups.filledKeys_perm hperm').nodup_iff.2 hnodup
    · exact Groups.ofEntries_congr (Groups.itemsAt_perm hperm'.symm hnodup)
  · cases heq

/-- An empty entry more does not matter to the groups that are read. -/
theorem groupsHeldBy_emptyEntry {key : GroupKey} {front back : List (GroupKey × List Member)}
    {rest : List Member} {g : Groups Condition}
    (hg : GroupsHeldBy (.groups (front ++ back)) rest g) :
    GroupsHeldBy (.groups (front ++ (key, []) :: back)) rest g := by
  rcases hg with ⟨_, read, heq, hread, hnodup, rfl⟩ | ⟨_, _, _, heq, -⟩
  · cases heq
    obtain ⟨ys, zs, rfl, hfront, hback⟩ := forall₂_append_inv hread
    refine .inl ⟨_, ys ++ (key, []) :: zs, rfl, ?_, ?_, ?_⟩
    · exact List.rel_append hfront (.cons ⟨rfl, .nil⟩ hback)
    · simpa [Groups.filledKeys] using hnodup
    · refine Groups.ofEntries_congr fun k => ?_
      simp only [Groups.itemsAt, List.filter_append, List.flatMap_append, List.filter_cons]
      split <;> simp
  · cases heq

end Condition

/-- A join with a bare foreign table is read like one with a reference to it. -/
theorem Join.ofPayload_bareForeign {name primary : Member} {table : Payload} {rest : List Member}
    {j : Join}
    (hj : Join.ofPayload (.ofKind "QueryJoin"
      (name :: primary :: .object (.ofKind "TableExpression" [.object table]) :: rest)) = .ok j) :
    Join.ofPayload (.ofKind "QueryJoin" (name :: primary :: .object table :: rest)) = .ok j := by
  obtain ⟨_, foreign, condition, code, rest, heq, hprimary, hforeign, hrest⟩ :=
    Join.ofPayload_eq_ok_iff.1 hj
  cases heq
  refine Join.ofPayload_eq_ok_iff.2 ⟨_, _, condition, code, rest, rfl, hprimary, ?_, hrest⟩
  rcases hforeign with ⟨p, heq, ht⟩ | ⟨p, heq, hr⟩
  · -- a table reference is no table
    cases heq
    obtain ⟨_, heq⟩ := Table.ofPayload_eq_ok_iff.1 ht
    simp [Payload.ofKind_inj] at heq
  · cases heq
    obtain ⟨m, _, heq, hm⟩ := TableRef.ofPayload_eq_ok_iff.1 hr
    cases heq
    exact .inl hm

/-- A join without a comment member is read like one whose comment is null. -/
theorem Join.ofPayload_noComment {name primary foreign condition type : Member} {j : Join}
    (hj : Join.ofPayload
      (.ofKind "QueryJoin" [name, primary, foreign, condition, type, .null]) = .ok j) :
    Join.ofPayload (.ofKind "QueryJoin" [name, primary, foreign, condition, type]) = .ok j := by
  obtain ⟨_, _, _, code, rest, heq, hprimary, hforeign, hcondition, hcode, hcomment, hrest⟩ :=
    Join.ofPayload_eq_ok_iff.1 hj
  cases heq
  refine Join.ofPayload_eq_ok_iff.2 ⟨_, _, _, code, [], rfl, hprimary, hforeign, hcondition, hcode,
    .inl ⟨rfl, ?_⟩, hrest⟩
  rcases hcomment with ⟨heq, -⟩ | ⟨after, heq⟩
  · cases heq
  · cases hc : j.comment? with
    | none => rfl
    | some s => simp [hc, Member.optionalText] at heq

/-- The joins of an update that is read with null in their place are none. -/
theorem Update.ofPayload_of_nullJoins {table columns values condition : Member}
    {rest : List Member} {u : Update} (hrest : ∀ joins, joins = [] → JoinsHeldBy rest joins)
    (hu : Update.ofPayload
      (.ofKind "QueryUpdate" [table, columns, values, condition, .null]) = .ok u) :
    Update.ofPayload
      (.ofKind "QueryUpdate" (table :: columns :: values :: condition :: rest)) = .ok u := by
  obtain ⟨_, _, items, _, _, heq, htable, hcolumns, hvalues, hlength, hcondition, hjoins⟩ :=
    Update.ofPayload_eq_ok_iff.1 hu
  cases heq
  refine Update.ofPayload_eq_ok_iff.2 ⟨_, _, items, _, rest, rfl, htable, hcolumns, hvalues,
    hlength, hcondition, hrest _ ?_⟩
  rcases hjoins with ⟨heq, -⟩ | ⟨m, after, heq, hm⟩
  · cases heq
  · cases heq
    rcases hm with ⟨-, hnil⟩ | ⟨_, heq, -⟩
    · exact hnil
    · cases heq

/-- An update with null for its columns is read like one with an empty list. -/
theorem Update.ofPayload_nullColumns {table : Member} {rest : List Member} {u : Update}
    (hu : Update.ofPayload (.ofKind "QueryUpdate" (table :: .list [] :: rest)) = .ok u) :
    Update.ofPayload (.ofKind "QueryUpdate" (table :: .null :: rest)) = .ok u := by
  obtain ⟨_, _, items, condition, rest, heq, htable, hcolumns, hrest⟩ :=
    Update.ofPayload_eq_ok_iff.1 hu
  cases heq
  refine Update.ofPayload_eq_ok_iff.2 ⟨_, _, items, condition, rest, rfl, htable, ?_, hrest⟩
  rcases hcolumns with ⟨heq, -⟩ | ⟨_, heq, hall⟩
  · cases heq
  · cases heq
    exact .inl ⟨rfl, List.forall₂_nil_left_iff.1 hall⟩

/-- NULL may stand as a value wherever an operand is null. -/
theorem Operand.heldBy_nullValue {o : Operand} (h : o.HeldBy .null) : o.HeldBy (.value .null) := by
  cases o with
  | value v =>
    rcases h with heq | ⟨-, rfl⟩
    · cases heq
    · exact .inl rfl
  | _ =>
    obtain ⟨p, heq, -⟩ := h
    cases heq

/-- An assigned null may be stored as such or as a value. -/
theorem Update.ofPayload_assignedNull {table columns : Member} {front back rest : List Member}
    {u : Update}
    (hu : Update.ofPayload (.ofKind "QueryUpdate"
      (table :: columns :: .list (front ++ .null :: back) :: rest)) = .ok u) :
    Update.ofPayload (.ofKind "QueryUpdate"
      (table :: columns :: .list (front ++ .value .null :: back) :: rest)) = .ok u := by
  obtain ⟨_, _, items, condition, rest, heq, htable, hcolumns, hvalues, hrest⟩ :=
    Update.ofPayload_eq_ok_iff.1 hu
  cases heq
  refine Update.ofPayload_eq_ok_iff.2 ⟨_, _, _, condition, rest, rfl, htable, hcolumns, ?_, hrest⟩
  obtain ⟨ys, zs, hsplit, hfront, hback⟩ := forall₂_append_inv hvalues
  cases hback with
  | cons ho hback =>
    rw [hsplit]
    exact List.rel_append hfront (.cons (Operand.heldBy_nullValue ho) hback)

/-- A listed null may be stored as such or as a value. -/
theorem AnyOf.ofPayload_listedNull {front back rest : List Member} {a : AnyOf}
    (ha : AnyOf.ofPayload
      (.ofKind "AnyValues" (.list (front ++ .value .null :: back) :: rest)) = .ok a) :
    AnyOf.ofPayload (.ofKind "AnyValues" (.list (front ++ .null :: back) :: rest)) = .ok a := by
  obtain ⟨items, rest, heq, hvalues⟩ := AnyOf.ofPayload_eq_ok_iff.1 ha
  cases heq
  refine AnyOf.ofPayload_eq_ok_iff.2 ⟨_, rest, rfl, ?_⟩
  obtain ⟨ys, zs, hsplit, hfront, hback⟩ := forall₂_append_inv hvalues
  cases hback with
  | cons hv hback =>
    rw [hsplit]
    refine List.rel_append hfront (.cons (.inr ⟨rfl, ?_⟩) hback)
    rcases hv with heq | ⟨heq, -⟩
    · cases heq
      rfl
    · cases heq

namespace Payload

/-- An older shape preserves what is read. -/
theorem OlderShape.preserved {p q : Payload} (h : p.OlderShape q) : p.PreservedBy q := by
  cases h with
  | bareForeign =>
    exact preservedBy_of_only (k := .join) (by simp) (by simp [StoredKind.payloadKinds])
      fun _ => Join.ofPayload_bareForeign
  | noComment =>
    exact preservedBy_of_only (k := .join) (by simp) (by simp [StoredKind.payloadKinds])
      fun _ => Join.ofPayload_noComment
  | emptyList =>
    exact preservedBy_of_composite fun _ =>
      Condition.groupsHeldBy_emptyList (.inl ⟨rfl, rfl⟩)
  | emptyUnnamedList =>
    exact preservedBy_of_composite fun _ => Condition.groupsHeldBy_emptyList (.inr ⟨[], rfl⟩)
  | list =>
    exact preservedBy_of_composite fun _ => Condition.groupsHeldBy_list (.inl ⟨rfl, rfl⟩)
  | namedList =>
    exact preservedBy_of_composite fun _ => Condition.groupsHeldBy_list (.inr ⟨[], rfl⟩)
  | permuted _ hperm =>
    exact preservedBy_of_composite fun _ => Condition.groupsHeldBy_perm hperm
  | emptyEntry =>
    exact preservedBy_of_composite fun _ => Condition.groupsHeldBy_emptyEntry
  | noJoins =>
    exact preservedBy_of_only (k := .update) (by simp) (by simp [StoredKind.payloadKinds])
      fun _ => Update.ofPayload_of_nullJoins fun _ hnil => .inl ⟨rfl, hnil⟩
  | emptyJoins =>
    refine preservedBy_of_only (k := .update) (by simp) (by simp [StoredKind.payloadKinds])
      fun _ => Update.ofPayload_of_nullJoins ?_
    rintro _ rfl
    exact .inr ⟨_, [], rfl, .inr ⟨[], rfl, .nil⟩⟩
  | nullColumns =>
    exact preservedBy_of_only (k := .update) (by simp) (by simp [StoredKind.payloadKinds])
      fun _ => Update.ofPayload_nullColumns
  | leftNull =>
    refine preservedBy_of_comparison fun c hc => ?_
    obtain ⟨_, _, _, _, heq, hop, hleft, hright⟩ := Comparison.ofPayload_eq_ok_iff.1 hc
    cases heq
    exact Comparison.ofPayload_eq_ok_iff.2
      ⟨_, _, _, _, rfl, hop, Operand.heldBy_nullValue hleft, hright⟩
  | rightNull =>
    refine preservedBy_of_comparison fun c hc => ?_
    obtain ⟨_, _, _, _, heq, hop, hleft, hright⟩ := Comparison.ofPayload_eq_ok_iff.1 hc
    cases heq
    exact Comparison.ofPayload_eq_ok_iff.2
      ⟨_, _, _, _, rfl, hop, hleft, Operand.heldBy_nullValue hright⟩
  | assignedNull =>
    exact preservedBy_of_only (k := .update) (by simp) (by simp [StoredKind.payloadKinds])
      fun _ => Update.ofPayload_assignedNull
  | listedNull =>
    exact preservedBy_of_only (k := .anyOf) (by simp) (by simp [StoredKind.payloadKinds])
      fun _ => AnyOf.ofPayload_listedNull

/-- Older shapes at any depth preserve what is read. -/
theorem Older.preserved {p q : Payload} (h : p.Older q) : p.PreservedBy q := by
  induction h with
  | refl p => exact .refl p
  | trans _ _ ihpq ihqr => exact ihpq.trans ihqr
  | shape h => exact h.preserved
  | member _ before after _ ih =>
    exact preservedBy_ofKind (forall₂_replace .refl (.item (.object ih)) before after)
  | item _ before after front back _ ih =>
    have hitems := forall₂_replace Member.ItemPreservedBy.refl (.object ih) front back
    exact preservedBy_ofKind (forall₂_replace .refl (.list hitems) before after)
  | @grouped _ before after front back entries entries' key p q _ ih =>
    have hentry : Member.EntryPreservedBy (key, front ++ .object p :: back)
        (key, front ++ .object q :: back) :=
      ⟨rfl, forall₂_replace Member.ItemPreservedBy.refl (.object ih) front back⟩
    have hentries := forall₂_replace Member.EntryPreservedBy.refl hentry entries entries'
    exact preservedBy_ofKind (forall₂_replace .refl (.groups hentries) before after)

end Payload

/-- However older shapes are mixed into the payload of a well-formed node, the node is read from it
with every field but the origin of a join, at every depth. -/
theorem StoredKind.ofPayload_older_restores (k : StoredKind) {x : k.Node} (h : k.WellFormed x)
    {q : Payload} (hq : (k.toPayload x).Older q) :
    ∃ y, k.ofPayload q = .ok y ∧ k.Restores x y :=
  ⟨k.stored x, hq.preserved k _ (k.reads_toPayload h), k.restores_stored x⟩

/-- The payload of `Update.clearStates` with an older NULL, and with its join in an older shape: a
bare foreign table, and a named list of conditions. -/
def Update.clearStatesOlder : Payload :=
  .ofKind "QueryUpdate"
    [.object (Table.named "orders").toPayload,
      .objects [(Column.mk (.named "orders") "state" none).toPayload],
      .list [.value .null], .null,
      .list [.object (.ofKind "QueryJoin"
        [.text "states", .object (Table.mk "orders" (some "") none).toPayload,
          .object (Table.named "states").toPayload,
          .object (.ofKind "AndCondition"
            [.list [.object (Comparison.mk ⟨.equals, ⟨true, true⟩⟩
              (.column ⟨.named "orders", "state", none⟩) (.value .null)).toPayload], .text ""]),
          .int Join.orderStates.typeCode, .text ""])]]

/-- The older payload of this update mixes older shapes at several depths. -/
theorem Update.clearStates_older : (clearStates.toPayload).Older clearStatesOlder := by
  refine .trans (.shape (.assignedNull _ _ [] [] _)) ?_
  refine .item "QueryUpdate" [_, _, _, _] [] [] [] ?_
  refine .trans (.shape (.bareForeign _ _ _ _)) ?_
  exact .member "QueryJoin" [_, _, _] [_, _] (.shape (.namedList .and (some "") _))

theorem StoredKind.clearStates_read_older :
    StoredKind.update.WellFormed .clearStates
      ∧ (StoredKind.update.toPayload .clearStates).Older Update.clearStatesOlder
      ∧ ∃ y, StoredKind.update.ofPayload Update.clearStatesOlder = .ok y
        ∧ StoredKind.update.Restores .clearStates y :=
  ⟨Update.clearStates_wellFormed, Update.clearStates_older,
    ofPayload_older_restores .update Update.clearStates_wellFormed Update.clearStates_older⟩

end QueryTree
