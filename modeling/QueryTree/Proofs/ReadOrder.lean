import QueryTree.Proofs.Decoding
import QueryTree.Proofs.Stored

/-! # Payloads that preserve what is read

`Payload.PreservedBy` compares payloads by what they are read as, for all kinds of nodes at once. A
payload may change below nested payloads: `Payload.preservedBy_ofKind` says that a payload is
preserved when the members of another one preserve its members.
-/

namespace QueryTree

/-- Whatever the payload `p` is read as, `q` is read as too. -/
def Payload.PreservedBy (p q : Payload) : Prop :=
  ∀ (k : StoredKind) (x : k.Node), k.ofPayload p = .ok x → k.ofPayload q = .ok x

/-- A payload preserves itself. -/
theorem Payload.PreservedBy.refl (p : Payload) : p.PreservedBy p := fun _ _ h => h

/-- What preserves a payload that preserves another one preserves that as well. -/
theorem Payload.PreservedBy.trans {p q r : Payload} (hpq : p.PreservedBy q)
    (hqr : q.PreservedBy r) : p.PreservedBy r :=
  fun k x h => hqr k x (hpq k x h)

/-! ## Members -/

namespace Member

/-- An item is preserved by itself, and a nested payload by one that preserves it. -/
inductive ItemPreservedBy : Member → Member → Prop where
  | refl (m : Member) : ItemPreservedBy m m
  | object {p q : Payload} : p.PreservedBy q → ItemPreservedBy (.object p) (.object q)

/-- The entry of a group is preserved item by item, under the same key. -/
def EntryPreservedBy (e f : GroupKey × List Member) : Prop :=
  e.1 = f.1 ∧ List.Forall₂ ItemPreservedBy e.2 f.2

/-- A member is preserved as an item, or item by item if it holds items. -/
inductive PreservedBy : Member → Member → Prop where
  | item {m n : Member} : m.ItemPreservedBy n → PreservedBy m n
  | list {items items' : List Member} :
    List.Forall₂ ItemPreservedBy items items' → PreservedBy (.list items) (.list items')
  | groups {entries entries' : List (GroupKey × List Member)} :
    List.Forall₂ EntryPreservedBy entries entries' →
      PreservedBy (.groups entries) (.groups entries')

/-- A member preserves itself. -/
theorem PreservedBy.refl (m : Member) : m.PreservedBy m := .item (.refl m)

variable {m n : Member}

/-- A text is preserved by itself only. -/
theorem PreservedBy.text {s : String} (h : (Member.text s).PreservedBy n) : n = .text s := by
  cases h with
  | item h =>
    cases h
    rfl

/-- An integer is preserved by itself only. -/
theorem PreservedBy.int {i : Int64} (h : (Member.int i).PreservedBy n) : n = .int i := by
  cases h with
  | item h =>
    cases h
    rfl

/-- Null is preserved by itself only. -/
theorem PreservedBy.null (h : Member.null.PreservedBy n) : n = .null := by
  cases h with
  | item h =>
    cases h
    rfl

/-- An optional text is preserved by itself only. -/
theorem PreservedBy.optionalText {s? : Option String} (h : (optionalText s?).PreservedBy n) :
    n = Member.optionalText s? := by
  cases s? with
  | none => exact h.null
  | some s => exact h.text

/-- A list is preserved by a list, item by item. -/
theorem PreservedBy.list_inv {items : List Member} (h : (Member.list items).PreservedBy n) :
    ∃ items', n = .list items' ∧ List.Forall₂ ItemPreservedBy items items' := by
  cases h with
  | item h =>
    cases h
    exact ⟨items, rfl, List.forall₂_same.2 fun m _ => .refl m⟩
  | list h => exact ⟨_, rfl, h⟩

/-- An entry preserves itself. -/
theorem EntryPreservedBy.refl (e : GroupKey × List Member) : EntryPreservedBy e e :=
  ⟨rfl, List.forall₂_same.2 fun m _ => .refl m⟩

/-- Groups are preserved by groups, entry by entry. -/
theorem PreservedBy.groups_inv {entries : List (GroupKey × List Member)}
    (h : (Member.groups entries).PreservedBy n) :
    ∃ entries', n = .groups entries' ∧ List.Forall₂ EntryPreservedBy entries entries' := by
  cases h with
  | item h =>
    cases h
    exact ⟨entries, rfl, List.forall₂_same.2 fun e _ => .refl e⟩
  | groups h => exact ⟨_, rfl, h⟩

variable {k : StoredKind}

/-- What is read from an item is read from one that preserves it. -/
theorem ItemPreservedBy.holds {x : k.Node} (h : m.ItemPreservedBy n)
    (hm : m.Holds k.ofPayload x) : n.Holds k.ofPayload x := by
  cases h with
  | refl => exact hm
  | object h =>
    obtain ⟨p, heq, hread⟩ := hm
    cases heq
    exact ⟨_, rfl, h k x hread⟩

/-- What is read from a member is read from one that preserves it. -/
theorem PreservedBy.holds {x : k.Node} (h : m.PreservedBy n) (hm : m.Holds k.ofPayload x) :
    n.Holds k.ofPayload x := by
  cases h with
  | item h => exact h.holds hm
  | _ =>
    obtain ⟨p, heq, -⟩ := hm
    cases heq

/-- So is what is read from an optional member. -/
theorem PreservedBy.holdsOptional {x? : Option k.Node} (h : m.PreservedBy n)
    (hm : m.HoldsOptional k.ofPayload x?) : n.HoldsOptional k.ofPayload x? := by
  cases x? with
  | none =>
    cases (show m = .null from hm)
    exact h.null
  | some x => exact h.holds hm

/-- If changing an item keeps what it holds, changing the items of a list does. -/
theorem forall₂_of_items {β γ : Type} {changed : β → β → Prop} {holds : β → γ → Prop}
    (h : ∀ b c x, changed b c → holds b x → holds c x) {bs cs : List β} {xs : List γ}
    (hchanged : List.Forall₂ changed bs cs) (hholds : List.Forall₂ holds bs xs) :
    List.Forall₂ holds cs xs := by
  induction hchanged generalizing xs with
  | nil => exact hholds
  | cons hitem _ ih =>
    cases hholds with
    | cons hx hxs => exact .cons (h _ _ _ hitem hx) (ih hxs)

/-- What is read from items is read from items that preserve them. -/
theorem forall₂_holds_of_preserved {items items' : List Member} {xs : List k.Node}
    (h : List.Forall₂ ItemPreservedBy items items')
    (hm : List.Forall₂ (Holds k.ofPayload) items xs) :
    List.Forall₂ (Holds k.ofPayload) items' xs :=
  forall₂_of_items (fun _ _ _ hitem hx => hitem.holds hx) h hm

/-- What is read from a list is read from one that preserves it. -/
theorem PreservedBy.holdsAll {xs : List k.Node} (h : m.PreservedBy n)
    (hm : m.HoldsAll k.ofPayload xs) : n.HoldsAll k.ofPayload xs := by
  rcases hm with ⟨rfl, rfl⟩ | ⟨items, rfl, hxs⟩
  · exact .inl ⟨h.null, rfl⟩
  · obtain ⟨items', rfl, hitems⟩ := h.list_inv
    exact .inr ⟨items', rfl, forall₂_holds_of_preserved hitems hxs⟩

/-- The operand an item holds is held by one that preserves it. -/
theorem ItemPreservedBy.operand {o : Operand} (h : m.ItemPreservedBy n) (hm : o.HeldBy m) :
    o.HeldBy n := by
  cases h with
  | refl => exact hm
  | object h =>
    -- a value is held by no nested payload
    cases o with
    | column c => exact ItemPreservedBy.holds (k := .column) (.object h) hm
    | value v => rcases hm with heq | ⟨heq, -⟩ <;> cases heq
    | anyOf a => exact ItemPreservedBy.holds (k := .anyOf) (.object h) hm

/-- The operand a member holds is held by one that preserves it. -/
theorem PreservedBy.operand {o : Operand} (h : m.PreservedBy n) (hm : o.HeldBy m) :
    o.HeldBy n := by
  cases h with
  | item h => exact h.operand hm
  | _ =>
    cases o with
    | value v => rcases hm with heq | ⟨heq, -⟩ <;> cases heq
    | _ =>
      obtain ⟨p, heq, -⟩ := hm
      cases heq

/-- A text that was added later is preserved with the members from it on. -/
theorem trailingText_of_preserved {rest rest' : List Member} {s? : Option String}
    (h : List.Forall₂ PreservedBy rest rest') (hm : TrailingText rest s?) :
    TrailingText rest' s? := by
  rcases hm with ⟨rfl, rfl⟩ | ⟨after, rfl⟩
  · cases h
    exact .inl ⟨rfl, rfl⟩
  · cases h with
    | cons hm _ =>
      rw [hm.optionalText]
      exact .inr ⟨_, rfl⟩

end Member

/-! ## Payloads -/

section Payloads

variable {kind : String} {ms ns : List Member}

open Member

/-- A table is read from members that preserve its own. -/
theorem Table.ofPayload_of_preserved {t : Table} (h : List.Forall₂ PreservedBy ms ns)
    (ht : Table.ofPayload (.ofKind kind ms) = .ok t) :
    Table.ofPayload (.ofKind kind ns) = .ok t := by
  obtain ⟨rest, heq⟩ := Table.ofPayload_eq_ok_iff.1 ht
  obtain ⟨rfl, rfl⟩ := Payload.ofKind_inj.1 heq
  simp only [List.forall₂_cons_left_iff] at h
  obtain ⟨_, _, hname, ⟨_, _, halias, ⟨_, rest', hsource, -, rfl⟩, rfl⟩, rfl⟩ := h
  rw [hname.text, halias.optionalText, hsource.optionalText]
  exact Table.ofPayload_eq_ok_iff.2 ⟨rest', rfl⟩

/-- A table reference is read from members that preserve its own. -/
theorem TableRef.ofPayload_of_preserved {r : TableRef} (h : List.Forall₂ PreservedBy ms ns)
    (hr : TableRef.ofPayload (.ofKind kind ms) = .ok r) :
    TableRef.ofPayload (.ofKind kind ns) = .ok r := by
  obtain ⟨m, rest, heq, hm⟩ := TableRef.ofPayload_eq_ok_iff.1 hr
  obtain ⟨rfl, rfl⟩ := Payload.ofKind_inj.1 heq
  simp only [List.forall₂_cons_left_iff] at h
  obtain ⟨n, rest', htable, -, rfl⟩ := h
  exact TableRef.ofPayload_eq_ok_iff.2 ⟨n, rest', rfl, htable.holds (k := .table) hm⟩

/-- A column is read from members that preserve its own. -/
theorem Column.ofPayload_of_preserved {c : Column} (h : List.Forall₂ PreservedBy ms ns)
    (hc : Column.ofPayload (.ofKind kind ms) = .ok c) :
    Column.ofPayload (.ofKind kind ns) = .ok c := by
  obtain ⟨m, rest, heq, hm⟩ := Column.ofPayload_eq_ok_iff.1 hc
  obtain ⟨rfl, rfl⟩ := Payload.ofKind_inj.1 heq
  simp only [List.forall₂_cons_left_iff] at h
  obtain ⟨n, _, htable, ⟨_, _, hname, ⟨_, rest', halias, -, rfl⟩, rfl⟩, rfl⟩ := h
  rw [hname.text, halias.optionalText]
  exact Column.ofPayload_eq_ok_iff.2 ⟨n, rest', rfl, htable.holds (k := .table) hm⟩

/-- A set of values is read from members that preserve its own. -/
theorem AnyOf.ofPayload_of_preserved {a : AnyOf} (h : List.Forall₂ PreservedBy ms ns)
    (ha : AnyOf.ofPayload (.ofKind kind ms) = .ok a) :
    AnyOf.ofPayload (.ofKind kind ns) = .ok a := by
  obtain ⟨items, rest, heq, hvalues⟩ := AnyOf.ofPayload_eq_ok_iff.1 ha
  obtain ⟨rfl, rfl⟩ := Payload.ofKind_inj.1 heq
  simp only [List.forall₂_cons_left_iff] at h
  obtain ⟨_, rest', hlist, -, rfl⟩ := h
  obtain ⟨items', rfl, hitems⟩ := hlist.list_inv
  refine AnyOf.ofPayload_eq_ok_iff.2 ⟨items', rest', rfl, ?_⟩
  refine forall₂_of_items (fun m n v hitem hv => ?_) hitems hvalues
  -- a value is no nested payload, so the item is the same
  cases hitem with
  | refl => exact hv
  | object => rcases hv with heq | ⟨heq, -⟩ <;> cases heq

/-- A comparison is read from members that preserve its own. -/
theorem Comparison.ofPayload_of_preserved {c : Comparison} (h : List.Forall₂ PreservedBy ms ns)
    (hc : Comparison.ofPayload (.ofKind kind ms) = .ok c) :
    Comparison.ofPayload (.ofKind kind ns) = .ok c := by
  obtain ⟨code, left, right, rest, heq, hop, hleft, hright⟩ := Comparison.ofPayload_eq_ok_iff.1 hc
  obtain ⟨rfl, rfl⟩ := Payload.ofKind_inj.1 heq
  simp only [List.forall₂_cons_left_iff] at h
  obtain ⟨_, _, hcode, ⟨left', _, hl, ⟨right', rest', hr, -, rfl⟩, rfl⟩, rfl⟩ := h
  rw [hcode.int]
  exact Comparison.ofPayload_eq_ok_iff.2
    ⟨code, left', right', rest', rfl, hop, hl.operand hleft, hr.operand hright⟩

/-- The groups a member holds are held by one that preserves it. -/
theorem Condition.groupsHeldBy_of_preserved {m n : Member} {rest rest' : List Member}
    {g : Groups Condition} (h : m.PreservedBy n) (hrest : List.Forall₂ PreservedBy rest rest')
    (hg : GroupsHeldBy m rest g) : GroupsHeldBy n rest' g := by
  rcases hg with ⟨entries, read, rfl, hread, hnodup, rfl⟩ | ⟨items, cs, key, rfl, hcs, hkey, rfl⟩
  · obtain ⟨entries', rfl, hentries⟩ := h.groups_inv
    refine .inl ⟨entries', read, rfl, ?_, hnodup, rfl⟩
    refine forall₂_of_items (fun e f d hef hd => ?_) hentries hread
    exact ⟨hef.1.symm.trans hd.1, forall₂_holds_of_preserved (k := .condition) hef.2 hd.2⟩
  · obtain ⟨items', rfl, hitems⟩ := h.list_inv
    exact .inr ⟨items', cs, key, rfl, forall₂_holds_of_preserved (k := .condition) hitems hcs,
      trailingText_of_preserved hrest hkey, rfl⟩

/-- Groups are read from members that preserve their own. -/
theorem Groups.ofPayload_of_preserved {op : Connective} {g : Groups Condition}
    (h : List.Forall₂ PreservedBy ms ns) (hg : Groups.ofPayload op (.ofKind kind ms) = .ok g) :
    Groups.ofPayload op (.ofKind kind ns) = .ok g := by
  obtain ⟨m, rest, heq, hm⟩ := Groups.ofPayload_eq_ok_iff.1 hg
  obtain ⟨rfl, rfl⟩ := Payload.ofKind_inj.1 heq
  simp only [List.forall₂_cons_left_iff] at h
  obtain ⟨n, rest', hgroups, hrest, rfl⟩ := h
  exact Groups.ofPayload_eq_ok_iff.2
    ⟨n, rest', rfl, Condition.groupsHeldBy_of_preserved hgroups hrest hm⟩

/-- A condition is read from members that preserve its own. -/
theorem Condition.ofPayload_of_preserved {c : Condition} (h : List.Forall₂ PreservedBy ms ns)
    (hc : Condition.ofPayload (.ofKind kind ms) = .ok c) :
    Condition.ofPayload (.ofKind kind ns) = .ok c := by
  cases c with
  | compare c =>
    rw [ofPayload_eq_compare_iff] at hc ⊢
    exact Comparison.ofPayload_of_preserved h hc
  | composite op g =>
    rw [ofPayload_eq_composite_iff] at hc ⊢
    exact Groups.ofPayload_of_preserved h hc
  | negation c =>
    obtain ⟨m, rest, heq, hm⟩ := ofPayload_eq_negation_iff.1 hc
    obtain ⟨rfl, rfl⟩ := Payload.ofKind_inj.1 heq
    simp only [List.forall₂_cons_left_iff] at h
    obtain ⟨n, rest', hinner, -, rfl⟩ := h
    exact ofPayload_eq_negation_iff.2 ⟨n, rest', rfl, hinner.holds (k := .condition) hm⟩

/-- The foreign table a member holds is held by one that preserves it. -/
theorem Join.foreignHeldBy_of_preserved {m n : Member} {r : TableRef} (h : m.PreservedBy n)
    (hr : ForeignHeldBy m r) : ForeignHeldBy n r :=
  hr.imp (h.holds (k := .table)) (h.holds (k := .tableRef))

/-- A join is read from members that preserve its own. -/
theorem Join.ofPayload_of_preserved {j : Join} (h : List.Forall₂ PreservedBy ms ns)
    (hj : Join.ofPayload (.ofKind kind ms) = .ok j) :
    Join.ofPayload (.ofKind kind ns) = .ok j := by
  obtain ⟨primary, foreign, condition, code, rest, heq, hprimary, hforeign, hcondition, hcode,
    hcomment, hall, horigin⟩ := Join.ofPayload_eq_ok_iff.1 hj
  obtain ⟨rfl, rfl⟩ := Payload.ofKind_inj.1 heq
  simp only [List.forall₂_cons_left_iff] at h
  obtain ⟨_, _, hn, ⟨primary', _, hp, ⟨foreign', _, hf, ⟨condition', _, hc, ⟨_, rest', hi, hrest,
    rfl⟩, rfl⟩, rfl⟩, rfl⟩, rfl⟩ := h
  rw [hn.text, hi.int]
  exact Join.ofPayload_eq_ok_iff.2 ⟨primary', foreign', condition', code, rest', rfl,
    hp.holds (k := .table) hprimary, foreignHeldBy_of_preserved hf hforeign,
    hc.holds (k := .composite .and) hcondition, hcode, trailingText_of_preserved hrest hcomment,
    hall, horigin⟩

/-- The joins that members hold are held by members that preserve them. -/
theorem Update.joinsHeldBy_of_preserved {rest rest' : List Member} {joins : List Join}
    (h : List.Forall₂ PreservedBy rest rest') (hm : JoinsHeldBy rest joins) :
    JoinsHeldBy rest' joins := by
  rcases hm with ⟨rfl, rfl⟩ | ⟨m, after, rfl, hm⟩
  · cases h
    exact .inl ⟨rfl, rfl⟩
  · cases h with
    | cons hn _ => exact .inr ⟨_, _, rfl, hn.holdsAll (k := .join) hm⟩

/-- An update is read from members that preserve its own. -/
theorem Update.ofPayload_of_preserved {u : Update} (h : List.Forall₂ PreservedBy ms ns)
    (hu : Update.ofPayload (.ofKind kind ms) = .ok u) :
    Update.ofPayload (.ofKind kind ns) = .ok u := by
  obtain ⟨table, columns, items, condition, rest, heq, htable, hcolumns, hvalues, hlength,
    hcondition, hjoins⟩ := Update.ofPayload_eq_ok_iff.1 hu
  obtain ⟨rfl, rfl⟩ := Payload.ofKind_inj.1 heq
  simp only [List.forall₂_cons_left_iff] at h
  obtain ⟨table', _, ht, ⟨columns', _, hc, ⟨_, _, hi, ⟨condition', rest', hw, hrest, rfl⟩, rfl⟩,
    rfl⟩, rfl⟩ := h
  obtain ⟨items', rfl, hitems⟩ := hi.list_inv
  exact Update.ofPayload_eq_ok_iff.2 ⟨table', columns', items', condition', rest', rfl,
    ht.holds (k := .table) htable, hc.holdsAll (k := .column) hcolumns,
    forall₂_of_items (fun _ _ _ hitem ho => hitem.operand ho) hitems hvalues, hlength,
    hw.holdsOptional (k := .composite .and) hcondition, joinsHeldBy_of_preserved hrest hjoins⟩

/-- A payload is preserved by another one of its kind that preserves it member by member. -/
theorem Payload.preservedBy_ofKind (h : List.Forall₂ Member.PreservedBy ms ns) :
    (Payload.ofKind kind ms).PreservedBy (.ofKind kind ns) := by
  intro k x hx
  cases k with
  | table => exact Table.ofPayload_of_preserved h hx
  | tableRef => exact TableRef.ofPayload_of_preserved h hx
  | column => exact Column.ofPayload_of_preserved h hx
  | anyOf => exact AnyOf.ofPayload_of_preserved h hx
  | comparison => exact Comparison.ofPayload_of_preserved h hx
  | composite op => exact Groups.ofPayload_of_preserved h hx
  | condition => exact Condition.ofPayload_of_preserved h hx
  | join => exact Join.ofPayload_of_preserved h hx
  | update => exact Update.ofPayload_of_preserved h hx

end Payloads

end QueryTree
