import QueryTree.Payload.Decode
import QueryTree.Proofs.GroupView
import QueryTree.Proofs.Reading

/-! # Payloads that are read

For each kind of node one lemma says which payloads are read, and as what. All other facts about
reading follow from these lemmas without opening a reader.
-/

namespace QueryTree

open Read

variable {α : Type}

/-! ## Tables, columns and operands -/

/-- A table is read from its name, alias and source. -/
theorem Table.ofPayload_eq_ok_iff {p : Payload} {t : Table} :
    Table.ofPayload p = .ok t
      ↔ ∃ rest, p = .ofKind "QueryTable"
        (.text t.name :: .optionalText t.alias? :: .optionalText t.source? :: rest) := by
  rw [Table.ofPayload, Payload.readAs_eq_ok_iff]
  simp only [takes_text.bind, takes_optionalText.bind, yields_pure]
  constructor
  · rintro ⟨_, _, rfl, _, _, _, rfl, rfl, _, _, _, rfl, rfl, _, rest, _, rfl, rfl, rfl, -⟩
    exact ⟨rest, rfl⟩
  · rintro ⟨rest, rfl⟩
    exact ⟨_, _, rfl, _, _, _, rfl, rfl, _, _, _, rfl, rfl, _, rest, _, rfl, rfl, rfl, rfl⟩

/-- A table reference is read from a payload of its table. -/
theorem TableRef.ofPayload_eq_ok_iff {p : Payload} {r : TableRef} :
    TableRef.ofPayload p = .ok r
      ↔ ∃ m rest, p = .ofKind "TableExpression" (m :: rest)
        ∧ m.Holds Table.ofPayload r.table := by
  rw [TableRef.ofPayload, Payload.readAs_eq_ok_iff]
  simp only [takes_element.bind, yields_pure]
  constructor
  · rintro ⟨_, _, rfl, m, rest, _, rfl, hm, rfl, -⟩
    exact ⟨m, rest, rfl, hm⟩
  · rintro ⟨m, rest, rfl, hm⟩
    exact ⟨_, _, rfl, m, rest, _, rfl, hm, rfl, rfl⟩

/-- A column is read from a payload of its table, its name and its alias. -/
theorem Column.ofPayload_eq_ok_iff {p : Payload} {c : Column} :
    Column.ofPayload p = .ok c
      ↔ ∃ m rest, p = .ofKind "QueryColumn" (m :: .text c.name :: .optionalText c.alias? :: rest)
        ∧ m.Holds Table.ofPayload c.table := by
  rw [Column.ofPayload, Payload.readAs_eq_ok_iff]
  simp only [takes_element.bind, takes_text.bind, takes_optionalText.bind, yields_pure]
  constructor
  · rintro ⟨_, _, rfl, m, _, _, rfl, hm, _, _, _, rfl, rfl, _, rest, _, rfl, rfl, rfl, -⟩
    exact ⟨m, rest, rfl, hm⟩
  · rintro ⟨m, rest, rfl, hm⟩
    exact ⟨_, _, rfl, m, _, _, rfl, hm, _, _, _, rfl, rfl, _, rest, _, rfl, rfl, rfl, rfl⟩

/-- The member holds the value: NULL may also be the null member. -/
def Value.HeldBy (m : Member) (v : Value) : Prop :=
  m = .value v ∨ m = .null ∧ v = .null

/-- Values are read from members that hold them one by one. -/
theorem AnyOf.valuesOf_eq_ok_iff {mismatch : DecodeError} {items : List Member}
    {values : List Value} :
    valuesOf mismatch items = .ok values ↔ List.Forall₂ Value.HeldBy items values := by
  induction items generalizing values with
  | nil => cases values <;> simp [valuesOf]
  | cons m rest ih =>
    cases m with
    | null =>
      show Except.map _ (valuesOf mismatch rest) = _ ↔ _
      rw [Except.map_eq_ok_iff]
      cases values <;> simp [ih, Value.HeldBy, eq_comm, and_comm]
    | value v =>
      show Except.map _ (valuesOf mismatch rest) = _ ↔ _
      rw [Except.map_eq_ok_iff]
      cases values <;> simp [ih, Value.HeldBy, and_comm]
    | _ => cases values <;> simp [valuesOf, Value.HeldBy]

/-- A list of values is read from a list of members that hold them. -/
theorem AnyOf.ofPayload_eq_ok_iff {p : Payload} {a : AnyOf} :
    AnyOf.ofPayload p = .ok a
      ↔ ∃ items rest, p = .ofKind "AnyValues" (.list items :: rest)
        ∧ List.Forall₂ Value.HeldBy items a.values := by
  rw [AnyOf.ofPayload, Payload.readAs_eq_ok_iff]
  simp only [takes_list.bind, yields_run, Except.map_eq_ok_iff, valuesOf_eq_ok_iff]
  constructor
  · rintro ⟨_, _, rfl, _, rest, items, rfl, rfl, ⟨_, hvalues, rfl⟩, -⟩
    exact ⟨items, rest, rfl, hvalues⟩
  · rintro ⟨items, rest, rfl, hvalues⟩
    exact ⟨_, _, rfl, _, rest, items, rfl, rfl, ⟨_, hvalues, rfl⟩, rfl⟩

/-- The member holds the operand. -/
def Operand.HeldBy (m : Member) : Operand → Prop
  | .column c => m.Holds Column.ofPayload c
  | .value v => v.HeldBy m
  | .anyOf a => m.Holds AnyOf.ofPayload a

/-- A member is read as an operand exactly if it holds the operand, whatever the error would be. -/
theorem Operand.ofMember_eq_ok_iff {mismatch : DecodeError} {m : Member} {o : Operand} :
    ofMember mismatch m = .ok o ↔ o.HeldBy m := by
  cases m with
  | null => cases o <;> simp [ofMember, HeldBy, Value.HeldBy, Member.Holds, eq_comm]
  | value v => cases o <;> simp [ofMember, HeldBy, Value.HeldBy, Member.Holds]
  | object p =>
    -- the kind of the payload decides, and a payload that is read has its kind
    have hcolumn : ∀ c, Column.ofPayload p = .ok c → p.isKind "QueryColumn" := by
      intro c hc
      obtain ⟨m, rest, rfl, -⟩ := Column.ofPayload_eq_ok_iff.1 hc
      rfl
    have hanyOf : ∀ a, AnyOf.ofPayload p = .ok a →
        p.isKind "QueryColumn" = false ∧ p.isKind "AnyValues" := by
      intro a ha
      obtain ⟨items, rest, rfl, -⟩ := AnyOf.ofPayload_eq_ok_iff.1 ha
      exact ⟨rfl, rfl⟩
    simp only [ofMember]
    split
    · rename_i hk
      rw [Except.map_eq_ok_iff]
      cases o with
      | anyOf a =>
        have : AnyOf.ofPayload p ≠ .ok a := fun ha => by simp [(hanyOf a ha).1] at hk
        simp [HeldBy, Member.Holds, this]
      | _ => simp [HeldBy, Value.HeldBy, Member.Holds]
    · rename_i hk
      split
      · rw [Except.map_eq_ok_iff]
        cases o with
        | column c =>
          have : Column.ofPayload p ≠ .ok c := fun hc => hk (hcolumn c hc)
          simp [HeldBy, Member.Holds, this]
        | _ => simp [HeldBy, Value.HeldBy, Member.Holds]
      · rename_i hk'
        cases o with
        | column c =>
          have : Column.ofPayload p ≠ .ok c := fun hc => hk (hcolumn c hc)
          simp [HeldBy, Member.Holds, this]
        | value v => simp [HeldBy, Value.HeldBy]
        | anyOf a =>
          have : AnyOf.ofPayload p ≠ .ok a := fun ha => hk' (hanyOf a ha).2
          simp [HeldBy, Member.Holds, this]
  | _ => cases o <;> simp [ofMember, HeldBy, Value.HeldBy, Member.Holds]

/-- An operand is read from a member that holds it. -/
theorem Operand.takes_read : Operand.read.Takes fun m o => o.HeldBy m :=
  (ReadOp.operand.takes rfl).congr fun m o => by
    have hread : (ReadOp.operand.ofMember m).mapError (Fault.error "" 0) = .ok o ↔ o.HeldBy m := by
      rw [ReadOp.mapError_operand, ofMember_eq_ok_iff]
    exact Except.mapError_eq_ok_iff.symm.trans hread

/-- The values of an update are read from members that hold them one by one. -/
theorem Operand.readAll_eq_ok_iff {kind : String} {position : Nat} {items : List Member}
    {values : List Operand} :
    readAll kind position items = .ok values
      ↔ List.Forall₂ (fun m o => HeldBy m o) items values := by
  induction items generalizing position values with
  | nil => cases values <;> simp [readAll]
  | cons m rest ih =>
    simp only [readAll, Except.bind_eq_ok_iff, ofMember_eq_ok_iff, ih]
    cases values <;> simp [pure, Except.pure]

/-- A comparison is read from the code of its operator and members that hold its operands. -/
theorem Comparison.ofPayload_eq_ok_iff {p : Payload} {c : Comparison} :
    Comparison.ofPayload p = .ok c
      ↔ ∃ code left right rest,
        p = .ofKind "CompareCondition" (.int code :: left :: right :: rest)
        ∧ Operator.ofCode code = .ok c.operator ∧ c.left.HeldBy left ∧ c.right.HeldBy right := by
  rw [Comparison.ofPayload, Payload.readAs_eq_ok_iff]
  simp only [takes_int.bind, yields_ofExcept_bind, Operand.takes_read.bind, yields_pure]
  constructor
  · rintro ⟨_, _, rfl, _, _, code, rfl, rfl, _, hop, left, _, _, rfl, hleft, right, rest, _, rfl,
      hright, rfl, -⟩
    exact ⟨code, left, right, rest, rfl, hop, hleft, hright⟩
  · rintro ⟨code, left, right, rest, rfl, hop, hleft, hright⟩
    exact ⟨_, _, rfl, _, _, code, rfl, rfl, _, hop, left, _, _, rfl, hleft, right, rest, _, rfl,
      hright, rfl, rfl⟩

/-! ## Conditions -/

namespace Condition

/-- The name of an older list is read from the members behind it. -/
theorem legacyKey_eq_ok_iff {kind : String} {rest : List Member} {key : GroupKey} :
    legacyKey kind rest = .ok key ↔ Member.TrailingText rest key := by
  unfold Member.TrailingText
  cases rest with
  | nil => cases key <;> simp [legacyKey]
  | cons m after => cases m <;> cases key <;> simp [legacyKey, Member.optionalText]

/-- Conditions are read from nested payloads that read as these conditions, one by one. -/
theorem conditionsOf_eq_ok_iff {kind : String} {items : List Member} {cs : List Condition} :
    conditionsOf kind items = .ok cs ↔ List.Forall₂ (Member.Holds ofPayload) items cs := by
  induction items generalizing cs with
  | nil => cases cs <;> simp [conditionsOf]
  | cons m rest ih =>
    cases m with
    | object p =>
      simp only [conditionsOf, Except.bind_eq_ok_iff, ih]
      cases cs <;> simp [Member.Holds, pure, Except.pure]
    | _ => cases cs <;> simp [conditionsOf, Member.Holds]

/-- The entry of a payload holds the entry of groups. -/
def EntryHolds (entry : GroupKey × List Member) (read : GroupKey × List Condition) : Prop :=
  entry.1 = read.1 ∧ List.Forall₂ (Member.Holds ofPayload) entry.2 read.2

/-- Entries are read behind tidy groups when no group is given twice, and then those with conditions
are appended. -/
theorem entriesOf_eq_ok_iff {kind : String} {g h : Groups Condition} (hg : g.Tidy)
    {entries : List (GroupKey × List Member)} :
    entriesOf kind g entries = .ok h
      ↔ ∃ read, List.Forall₂ EntryHolds entries read ∧ (Groups.filledKeys read).Nodup
        ∧ (∀ key ∈ Groups.filledKeys read, g.items key = [])
        ∧ h = g.merge ⟨Groups.filled read⟩ := by
  induction entries generalizing g with
  | nil =>
    rw [entriesOf, Except.ok.injEq]
    simp [Groups.filledKeys, Groups.filled, Groups.merge, eq_comm (a := g)]
  | cons e rest ih =>
    obtain ⟨key, items⟩ := e
    rw [entriesOf, Except.bind_eq_ok_iff]
    constructor
    · rintro ⟨cs, hcs, h⟩
      rw [conditionsOf_eq_ok_iff] at hcs
      by_cases hnil : cs = []
      · -- an entry without conditions leaves the groups and the filled keys as they are
        subst hnil
        obtain ⟨read, hread, hnodup, hfresh, rfl⟩ := (ih hg).1 h
        exact ⟨(key, []) :: read, .cons ⟨rfl, hcs⟩ hread, hnodup, hfresh, rfl⟩
      · by_cases hc : g.contains key = true
        · -- the key was given before, so the entry is refused
          simp [hnil, hc] at h
        · simp only [List.isEmpty_iff, hnil, hc, if_false, Bool.false_eq_true] at h
          have hitems : g.items key = [] := by
            rwa [hg.contains_iff, not_not] at hc
          rw [Groups.insert_eq_appendTo hg hitems hnil] at h
          obtain ⟨read, hread, hnodup, hfresh, rfl⟩ := (ih (hg.appendTo key hnil)).1 h
          obtain ⟨hkey, hfresh⟩ := (Groups.items_appendTo_eq_nil_iff hg hnil).1 hfresh
          refine ⟨(key, cs) :: read, .cons ⟨rfl, hcs⟩ hread, ?_, ?_, ?_⟩
          · rw [Groups.filledKeys_cons hnil]
            exact List.nodup_cons.2 ⟨hkey, hnodup⟩
          · rw [Groups.filledKeys_cons hnil]
            exact List.forall_mem_cons.2 ⟨hitems, hfresh⟩
          · rw [Groups.filled_cons hnil, Groups.merge_cons]
    · rintro ⟨read, hread, hnodup, hfresh, rfl⟩
      cases hread with
      | @cons _ d _ read hd hread =>
        obtain ⟨k, cs⟩ := d
        obtain ⟨rfl, hcs⟩ := hd
        refine ⟨cs, conditionsOf_eq_ok_iff.2 hcs, ?_⟩
        by_cases hnil : cs = []
        · subst hnil
          exact (ih hg).2 ⟨read, hread, hnodup, hfresh, rfl⟩
        · rw [Groups.filledKeys_cons hnil] at hnodup hfresh
          obtain ⟨hkey, hnodup⟩ := List.nodup_cons.1 hnodup
          obtain ⟨hitems, hfresh⟩ := List.forall_mem_cons.1 hfresh
          have hc : g.contains key = false := by
            rw [← Bool.not_eq_true, hg.contains_iff, not_not]
            exact hitems
          simp only [List.isEmpty_iff, hnil, hc, if_false, Bool.false_eq_true]
          rw [Groups.insert_eq_appendTo hg hitems hnil]
          refine (ih (hg.appendTo key hnil)).2 ⟨read, hread, hnodup, ?_, ?_⟩
          · exact (Groups.items_appendTo_eq_nil_iff hg hnil).2 ⟨hkey, hfresh⟩
          · rw [Groups.filled_cons hnil, Groups.merge_cons]

/-- The first members of a payload hold the groups: as entries, or as a list with its name. -/
def GroupsHeldBy (m : Member) (rest : List Member) (g : Groups Condition) : Prop :=
  (∃ entries read, m = .groups entries ∧ List.Forall₂ EntryHolds entries read
    ∧ (Groups.filledKeys read).Nodup ∧ g = Groups.ofEntries read)
  ∨ ∃ items cs key, m = .list items ∧ List.Forall₂ (Member.Holds ofPayload) items cs
    ∧ Member.TrailingText rest key ∧ g = Groups.empty.addAllTo key cs

/-- Groups are read from members that hold them. -/
theorem groupsOf_eq_ok_iff {kind : String} {members : List Member} {g : Groups Condition} :
    groupsOf kind members = .ok g
      ↔ ∃ m rest, members = m :: rest ∧ GroupsHeldBy m rest g := by
  cases members with
  | nil => simp [groupsOf]
  | cons m rest =>
    have hcons : (∃ n after, m :: rest = n :: after ∧ GroupsHeldBy n after g)
        ↔ GroupsHeldBy m rest g := by
      simp
    rw [hcons, GroupsHeldBy]
    cases m with
    | groups entries =>
      rw [groupsOf, entriesOf_eq_ok_iff Groups.tidy_empty]
      simp [Groups.items_empty, Groups.ofEntries]
    | list items =>
      simp only [groupsOf, Except.bind_eq_ok_iff, conditionsOf_eq_ok_iff, legacyKey_eq_ok_iff]
      simp [pure, Except.pure, eq_comm (a := g)]
    | _ => simp [groupsOf]

end Condition

/-- Grouped conditions are read from a payload of their kind whose members hold them. -/
theorem Groups.ofPayload_eq_ok_iff {op : Connective} {p : Payload} {g : Groups Condition} :
    Groups.ofPayload op p = .ok g
      ↔ ∃ m rest, p = .ofKind op.kind (m :: rest) ∧ Condition.GroupsHeldBy m rest g := by
  rw [Groups.ofPayload, Except.bind_eq_ok_iff]
  constructor
  · rintro ⟨c, hc, hread⟩
    obtain ⟨members, rfl, rfl⟩ := Payload.openAs_eq_ok_iff.1 hc
    obtain ⟨m, rest, hmembers, hg⟩ := Condition.groupsOf_eq_ok_iff.1 hread
    cases hmembers
    exact ⟨m, rest, rfl, hg⟩
  · rintro ⟨m, rest, rfl, hg⟩
    exact ⟨_, Payload.openAs_eq_ok_iff.2 ⟨_, rfl, rfl⟩,
      Condition.groupsOf_eq_ok_iff.2 ⟨m, rest, rfl, hg⟩⟩

namespace Condition

/-- The kind of a comparison makes the payload be read as a comparison. -/
theorem ofPayload_compareKind (members : List Member) :
    ofPayload (.ofKind "CompareCondition" members)
      = (Comparison.ofPayload (.ofKind "CompareCondition" members)).map .compare := by
  rw [Payload.ofKind, ofPayload]
  simp

/-- The kind of a connective makes the payload be read as groups under it. -/
theorem ofPayload_compositeKind (op : Connective) (members : List Member) :
    ofPayload (.ofKind op.kind members) = (groupsOf op.kind members).map (.composite op) := by
  rw [Payload.ofKind, ofPayload]
  cases op <;> simp [Connective.kind]

/-- The kind of a negation makes the payload be read as one. -/
theorem ofPayload_negationKind (members : List Member) :
    ofPayload (.ofKind "NotCondition" members)
      = (innerOf "NotCondition" members).map .negation := by
  rw [Payload.ofKind, ofPayload]
  simp [Connective.kind]

/-- A payload that is read as a condition is of the condition's kind. -/
theorem kind_of_ofPayload {p : Payload} {c : Condition} (h : ofPayload p = .ok c) :
    ∃ members, p = .ofKind c.kind members := by
  obtain ⟨domain, found, members⟩ := p
  have hmap : ∀ {α : Type} {x : Except DecodeError α} {f : α → Condition},
      x.map f = .ok c → (∀ a, (f a).kind = found) → c.kind = found := by
    intro α x f hx hf
    obtain ⟨a, -, rfl⟩ := Except.map_eq_ok_iff.1 hx
    exact hf a
  have hread : domain = queryDomain ∧ c.kind = found := by
    rw [ofPayload] at h
    split at h
    · cases h
    · rename_i hd
      refine ⟨not_not.1 hd, ?_⟩
      split at h
      · rename_i hk
        exact hmap h fun _ => hk.symm
      split at h
      · rename_i hk
        exact hmap h fun _ => hk.symm
      split at h
      · rename_i hk
        exact hmap h fun _ => hk.symm
      split at h
      · rename_i hk
        exact hmap h fun _ => hk.symm
      · cases h
  obtain ⟨rfl, rfl⟩ := hread
  exact ⟨members, rfl⟩

/-- A payload is read as a compare condition exactly if it is read as the comparison. -/
theorem ofPayload_eq_compare_iff {p : Payload} {c : Comparison} :
    ofPayload p = .ok (.compare c) ↔ Comparison.ofPayload p = .ok c := by
  constructor
  · intro h
    obtain ⟨members, rfl⟩ := kind_of_ofPayload h
    rw [kind, ofPayload_compareKind, Except.map_eq_ok_iff] at h
    obtain ⟨d, hd, heq⟩ := h
    cases heq
    exact hd
  · intro h
    obtain ⟨code, left, right, rest, rfl, -⟩ := Comparison.ofPayload_eq_ok_iff.1 h
    rw [ofPayload_compareKind, h]
    rfl

/-- A payload is read as a composite exactly if it is read as its groups under the connective. -/
theorem ofPayload_eq_composite_iff {p : Payload} {op : Connective} {g : Groups Condition} :
    ofPayload p = .ok (.composite op g) ↔ Groups.ofPayload op p = .ok g := by
  constructor
  · intro h
    obtain ⟨members, rfl⟩ := kind_of_ofPayload h
    rw [kind, ofPayload_compositeKind, Except.map_eq_ok_iff] at h
    obtain ⟨d, hd, heq⟩ := h
    cases heq
    obtain ⟨m, rest, rfl, hm⟩ := groupsOf_eq_ok_iff.1 hd
    exact Groups.ofPayload_eq_ok_iff.2 ⟨m, rest, rfl, hm⟩
  · intro h
    obtain ⟨m, rest, rfl, hm⟩ := Groups.ofPayload_eq_ok_iff.1 h
    rw [ofPayload_compositeKind, groupsOf_eq_ok_iff.2 ⟨m, rest, rfl, hm⟩]
    rfl

/-- The condition below a negation is read from the first member. -/
theorem innerOf_eq_ok_iff {kind : String} {members : List Member} {c : Condition} :
    innerOf kind members = .ok c ↔ ∃ m rest, members = m :: rest ∧ m.Holds ofPayload c := by
  cases members with
  | nil => simp [innerOf]
  | cons m rest => cases m <;> simp [innerOf, Member.Holds]

/-- A negation is read from a payload that holds the negated condition. -/
theorem ofPayload_eq_negation_iff {p : Payload} {c : Condition} :
    ofPayload p = .ok (.negation c)
      ↔ ∃ m rest, p = .ofKind "NotCondition" (m :: rest) ∧ m.Holds ofPayload c := by
  constructor
  · intro h
    obtain ⟨members, rfl⟩ := kind_of_ofPayload h
    rw [kind, ofPayload_negationKind, Except.map_eq_ok_iff] at h
    obtain ⟨d, hd, heq⟩ := h
    cases heq
    obtain ⟨m, rest, rfl, hm⟩ := innerOf_eq_ok_iff.1 hd
    exact ⟨m, rest, rfl, hm⟩
  · rintro ⟨m, rest, rfl, hm⟩
    rw [ofPayload_negationKind, innerOf_eq_ok_iff.2 ⟨m, rest, rfl, hm⟩]
    rfl

end Condition

/-! ## Joins and updates -/

namespace Join

/-- The member holds the foreign side: a table reference, or the bare table. -/
def ForeignHeldBy (m : Member) (r : TableRef) : Prop :=
  m.Holds Table.ofPayload r.table ∨ m.Holds TableRef.ofPayload r

/-- The foreign side of a join is held as a table reference or, in older payloads, as a bare table.
-/
theorem holds_foreignOf_iff {m : Member} {r : TableRef} :
    m.Holds foreignOf r ↔ ForeignHeldBy m r := by
  have hread : ∀ p, foreignOf p = .ok r
      ↔ Table.ofPayload p = .ok r.table ∨ TableRef.ofPayload p = .ok r := by
    intro p
    unfold foreignOf
    split
    · rename_i hk
      have hne : TableRef.ofPayload p ≠ .ok r := by
        intro h
        obtain ⟨m, rest, rfl, -⟩ := TableRef.ofPayload_eq_ok_iff.1 h
        cases hk
      simp only [hne, or_false, Except.map_eq_ok_iff]
      constructor
      · rintro ⟨t, ht, rfl⟩
        exact ht
      · intro h
        exact ⟨r.table, h, rfl⟩
    · rename_i hk
      have hne : Table.ofPayload p ≠ .ok r.table := by
        intro h
        obtain ⟨rest, rfl⟩ := Table.ofPayload_eq_ok_iff.1 h
        exact hk rfl
      simp only [hne, false_or]
  simp only [Member.Holds, ForeignHeldBy, hread, and_or_left, exists_or]

/-- A conjunction is a join's condition when it holds comparisons only. -/
theorem conditionOf_and_eq_ok_iff {foreign : TableRef} {g h : Groups Condition} :
    conditionOf foreign (.composite .and g) = .ok h
      ↔ h = g ∧ ∀ c ∈ g.toList, c.isCompare = true := by
  cases hfind : g.toList.find? (!·.isCompare) with
  | none =>
    have hall : ∀ c ∈ g.toList, c.isCompare = true := by
      simpa using List.find?_eq_none.1 hfind
    simp only [conditionOf, hfind, Except.ok.injEq]
    exact ⟨fun heq => ⟨heq.symm, hall⟩, fun heq => heq.1.symm⟩
  | some child =>
    have hmem := List.mem_of_find?_eq_some hfind
    have hchild : child.isCompare = false := by
      simpa using List.find?_some hfind
    have hnot : ¬ ∀ c ∈ g.toList, c.isCompare = true := by
      intro hall
      simp [hall child hmem] at hchild
    simp [conditionOf, hfind, hnot]

/-- A join is made of a conjunction of comparisons, and of nothing else that is a conjunction. -/
theorem make_and_eq_ok_iff {name : String} {primary : Table} {foreign : TableRef}
    {g : Groups Condition} {type : JoinType} {permanent : Bool} {j : Join} :
    make name primary foreign (.composite .and g) type permanent = .ok j
      ↔ (∀ c ∈ g.toList, c.isCompare = true)
        ∧ j = ⟨name, primary, foreign, g, type, permanent, none, none⟩ := by
  rw [make, Except.bind_eq_ok_iff]
  constructor
  · rintro ⟨h, hh, hj⟩
    obtain ⟨rfl, hall⟩ := conditionOf_and_eq_ok_iff.1 hh
    cases hj
    exact ⟨hall, rfl⟩
  · rintro ⟨hall, rfl⟩
    exact ⟨g, conditionOf_and_eq_ok_iff.2 ⟨rfl, hall⟩, rfl⟩

/-- A join is read from its five members and a comment, and its condition has to compare. -/
theorem ofPayload_eq_ok_iff {p : Payload} {j : Join} :
    Join.ofPayload p = .ok j
      ↔ ∃ primary foreign condition code rest, p = .ofKind "QueryJoin"
          (.text j.name :: primary :: foreign :: condition :: .int code :: rest)
        ∧ primary.Holds Table.ofPayload j.primary ∧ ForeignHeldBy foreign j.foreign
        ∧ condition.Holds (Groups.ofPayload .and) j.condition
        ∧ ofTypeCode code = .ok (j.type, j.permanent) ∧ Member.TrailingText rest j.comment?
        ∧ (∀ c ∈ j.condition.toList, c.isCompare = true) ∧ j.origin? = none := by
  rw [Join.ofPayload, Payload.readAs_eq_ok_iff]
  simp only [takes_text.bind, takes_element.bind, takes_int.bind, yields_ofExcept_bind,
    yields_trailingText_bind, Except.mapError_eq_ok_iff, make_and_eq_ok_iff,
    holds_foreignOf_iff, yields_pure]
  constructor
  · rintro ⟨_, _, rfl, _, _, _, rfl, rfl, primary, _, _, rfl, hprimary, foreign, _, _, rfl,
      hforeign, condition, _, _, rfl, hcondition, _, rest, code, rfl, rfl, _, hcode, _, hcomment, _,
      ⟨hall, rfl⟩, rfl, -⟩
    exact ⟨primary, foreign, condition, code, rest, rfl, hprimary, hforeign, hcondition, hcode,
      hcomment, hall, rfl⟩
  · rintro ⟨primary, foreign, condition, code, rest, rfl, hprimary, hforeign, hcondition, hcode,
      hcomment, hall, horigin⟩
    obtain ⟨name, primaryTable, foreignRef, g, type, permanent, comment?, origin?⟩ := j
    cases horigin
    exact ⟨_, _, rfl, _, _, _, rfl, rfl, primary, _, _, rfl, hprimary, foreign, _, _, rfl, hforeign,
      condition, _, _, rfl, hcondition, _, rest, code, rfl, rfl, _, hcode, _, hcomment, _,
      ⟨hall, rfl⟩, rfl, rfl⟩

end Join

namespace Update

/-- The joins of an update stand in a member that was added later. -/
def JoinsHeldBy (rest : List Member) (joins : List Join) : Prop :=
  rest = [] ∧ joins = [] ∨ ∃ m after, rest = m :: after ∧ m.HoldsAll Join.ofPayload joins

/-- The joins of an update are read if a member remains, and are none otherwise. -/
theorem yields_joins_bind {f : List Join → Read α} {kind : String} {position : Nat}
    {rest : List Member} {x : α} {d : Cursor} :
    (remaining >>= fun n =>
        if n = 0 then pure [] >>= f else elements Join.ofPayload >>= f).Yields
        ⟨kind, position, rest⟩ x d
      ↔ ∃ joins, JoinsHeldBy rest joins
        ∧ (f joins).Yields ⟨kind, position + min rest.length 1, rest.tail⟩ x d := by
  rw [yields_remaining_bind]
  cases rest with
  | nil => simp [JoinsHeldBy]
  | cons m after =>
    rw [if_neg (by simp), takes_elements.bind]
    simp only [List.length_cons, Nat.le_add_left, Nat.min_eq_right, List.tail_cons]
    constructor
    · rintro ⟨_, _, joins, heq, hm, hf⟩
      cases heq
      exact ⟨joins, .inr ⟨m, after, rfl, hm⟩, hf⟩
    · rintro ⟨joins, ⟨heq, -⟩ | ⟨_, _, heq, hm⟩, hf⟩
      · cases heq
      · cases heq
        exact ⟨m, after, joins, rfl, hm, hf⟩

/-- An update is read from its members, with as many values as columns. -/
theorem ofPayload_eq_ok_iff {p : Payload} {u : Update} :
    Update.ofPayload p = .ok u
      ↔ ∃ table columns items condition rest, p = .ofKind "QueryUpdate"
          (table :: columns :: .list items :: condition :: rest)
        ∧ table.Holds Table.ofPayload u.table ∧ columns.HoldsAll Column.ofPayload u.columns
        ∧ List.Forall₂ (fun m o => Operand.HeldBy m o) items u.values
        ∧ u.values.length = u.columns.length
        ∧ condition.HoldsOptional (Groups.ofPayload .and) u.condition?
        ∧ JoinsHeldBy rest u.joins := by
  rw [Update.ofPayload, Payload.readAs_eq_ok_iff]
  simp only [takes_element.bind, takes_elements.bind, takes_list.bind, yields_ofExcept_bind,
    Operand.readAll_eq_ok_iff, yields_guard, not_not, takes_optionalElement.bind,
    yields_joins_bind, yields_pure]
  constructor
  · rintro ⟨_, _, rfl, table, _, _, rfl, htable, columns, _, _, rfl, hcolumns, _, _, items, rfl,
      rfl, values, hvalues, hlength, condition, rest, _, rfl, hcondition, _, hjoins, rfl, -⟩
    exact ⟨table, columns, items, condition, rest, rfl, htable, hcolumns, hvalues, hlength,
      hcondition, hjoins⟩
  · rintro ⟨table, columns, items, condition, rest, rfl, htable, hcolumns, hvalues, hlength,
      hcondition, hjoins⟩
    exact ⟨_, _, rfl, table, _, _, rfl, htable, columns, _, _, rfl, hcolumns, _, _, items, rfl,
      rfl, _, hvalues, hlength, condition, rest, _, rfl, hcondition, _, hjoins, rfl, rfl⟩

end Update

end QueryTree
