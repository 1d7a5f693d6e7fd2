import Mathlib.Data.List.Nodup
import QueryTree.Proofs.Decoding
import QueryTree.Proofs.PayloadLayout
import QueryTree.Proofs.Stored

/-! # Errors of reading and the members at fault

A payload explains every error of reading it as a node of any kind: kinds that are a sequence of
members by the readers of these members, conditions by induction along their readers. The member
that an error names is then the one at fault, with one exception: an operand among the values of an
update is named by its index in their list, under the kind of the update
(`StoredKind.fault_located`). -/

namespace QueryTree

open Read

variable {α : Type}

/-- Opening a payload as another kind is no fault of one of its members. -/
theorem Payload.namesMember_of_openAs {p : Payload} {kind : String} {e : DecodeError}
    (h : p.openAs kind = .error e) : e.namesMember = false := by
  rcases Except.bind_eq_error_iff.1 h with h | ⟨_, -, h⟩
  · unfold checkDomain at h
    split at h <;> cases h
    rfl
  · split at h <;> cases h
    rfl

/-- Reading the members of a kind is explained if the reader is at the first member. -/
theorem Payload.explaining_readAs {kind : String} {r : Read α}
    (h : ∀ domain members, r.Explained ⟨domain, kind, members⟩ 0) :
    Explaining (Payload.readAs kind r) := by
  intro p e he
  rcases Except.bind_eq_error_iff.1 he with he | ⟨c, hc, he⟩
  · exact .other (Payload.namesMember_of_openAs he)
  · obtain ⟨members, rfl, rfl⟩ := Payload.openAs_eq_ok_iff.1 hc
    exact h queryDomain members (Nat.zero_le _) e he

/-! ## Tables, columns and comparisons -/

/-- The decoder of tables explains its errors. -/
theorem Table.explaining_ofPayload : Explaining Table.ofPayload :=
  Payload.explaining_readAs fun _ _ =>
    takes_text.explained_bind (explained_text rfl) fun _ _ _ _ =>
    takes_optionalText.explained_bind (explained_optionalText rfl) fun _ _ _ _ =>
    takes_optionalText.explained_bind (explained_optionalText rfl) fun _ _ _ _ => explained_pure _

/-- The decoder of table references explains its errors. -/
theorem TableRef.explaining_ofPayload : Explaining TableRef.ofPayload :=
  Payload.explaining_readAs fun _ _ =>
    takes_element.explained_bind (explained_element Table.explaining_ofPayload rfl) fun _ _ _ _ =>
    explained_pure _

/-- The decoder of columns explains its errors. -/
theorem Column.explaining_ofPayload : Explaining Column.ofPayload :=
  Payload.explaining_readAs fun _ _ =>
    takes_element.explained_bind (explained_element Table.explaining_ofPayload rfl) fun _ _ _ _ =>
    takes_text.explained_bind (explained_text rfl) fun _ _ _ _ =>
    takes_optionalText.explained_bind (explained_optionalText rfl) fun _ _ _ _ => explained_pure _

/-- A list of values is refused for an item that is none. -/
theorem AnyOf.valuesOf_eq_error {mismatch e : DecodeError} {items : List Member}
    (h : valuesOf mismatch items = .error e) : e = mismatch ∧ ∃ m ∈ items, ¬ m.IsValue := by
  induction items with
  | nil => cases h
  | cons m rest ih =>
    have htail (h : valuesOf mismatch rest = .error e) :
        e = mismatch ∧ ∃ m' ∈ m :: rest, ¬ m'.IsValue := by
      obtain ⟨he, m', hm, hvalue⟩ := ih h
      exact ⟨he, m', List.mem_cons_of_mem _ hm, hvalue⟩
    cases m with
    | null => exact htail (Except.map_eq_error_iff.1 h)
    | value v => exact htail (Except.map_eq_error_iff.1 h)
    | _ =>
      cases h
      refine ⟨rfl, _, List.mem_cons_self, ?_⟩
      rintro (heq | ⟨v, heq⟩) <;> cases heq

/-- The decoder of value sets explains its errors. -/
theorem AnyOf.explaining_ofPayload : Explaining AnyOf.ofPayload := by
  refine Payload.explaining_readAs fun domain members =>
    takes_list.explained_bind (explained_list rfl List.mem_cons_self) fun m items hm hlist => ?_
  subst hlist
  refine explained_run fun e he => ?_
  obtain ⟨rfl, m, hitem, hvalue⟩ := valuesOf_eq_error (Except.map_eq_error_iff.1 he)
  have hshape : (layout "AnyValues")[0]? = some .values := rfl
  exact .own hshape hm (.valueItem hitem hvalue) (by decide)

/-- A payload that is refused as an operand explains why. -/
theorem Operand.explains_of_refuses {q : Payload} {e : DecodeError}
    (h : ReadOp.operand.Refuses q e) : q.Explains e := by
  rcases h with ⟨-, h⟩ | ⟨-, h⟩
  · exact Column.explaining_ofPayload q e h
  · exact AnyOf.explaining_ofPayload q e h

/-- Reading an operand is explained where the layout has an operand. -/
theorem Operand.explained_read {p : Payload} {n : ℕ}
    (hplace : (layout p.kind)[n]? = some .operand) : Operand.read.Explained p n :=
  ReadOp.operand.explained hplace List.mem_cons_self fun _ _ => explains_of_refuses

/-- A member of a list is refused as an operand under its index if it is none, and else for the
payload that it is. -/
theorem Operand.ofMember_eq_error {kind : String} {i : ℕ} {m : Member} {e : DecodeError}
    (h : ofMember (.unexpectedMember kind i "operand") m = .error e) :
    e = .unexpectedMember kind i "operand" ∧ ¬ m.IsOperand
      ∨ ∃ q, m = .object q ∧ q.Explains e := by
  rw [← ReadOp.mapError_operand] at h
  obtain ⟨f, hf, rfl⟩ := Except.mapError_eq_error_iff.1 h
  rcases ReadOp.operand_eq_error hf with ⟨rfl, hoperand⟩ | ⟨q, e, rfl, rfl, he⟩
  · exact .inl ⟨rfl, hoperand⟩
  · exact .inr ⟨q, rfl, explains_of_refuses he⟩

/-- An unknown operator code is not a fault that names a member. -/
theorem Operator.namesMember_of_ofCode {code : Int64} {e : DecodeError}
    (h : Operator.ofCode code = .error e) : e.namesMember = false := by
  unfold ofCode at h
  split at h
  · cases h
  · cases h
    rfl

/-- The decoder of comparisons explains its errors. -/
theorem Comparison.explaining_ofPayload : Explaining Comparison.ofPayload :=
  Payload.explaining_readAs fun _ _ =>
    takes_int.explained_bind (explained_int rfl) fun _ _ _ _ =>
    explained_ofExcept_bind (fun _ he => .other (Operator.namesMember_of_ofCode he)) fun _ _ =>
    Operand.takes_read.explained_bind (Operand.explained_read rfl) fun _ _ _ _ =>
    Operand.takes_read.explained_bind (Operand.explained_read rfl) fun _ _ _ _ => explained_pure _

/-! ## Conditions -/

namespace Condition

/-- A key is filled twice, or by the groups already and by the entries. -/
def Repeats (g : Groups Condition) (entries : List (GroupKey × List Member)) : Prop :=
  ∃ key ∈ Groups.filledKeys entries, g.contains key ∨ 1 < (Groups.filledKeys entries).count key

/-- Where a key is refused as repeated, two filled entries have it. -/
theorem not_nodup_of_repeats {entries : List (GroupKey × List Member)}
    (h : Repeats .empty entries) :
    ¬ (Groups.filledKeys entries).Nodup := by
  obtain ⟨key, -, hempty | hcount⟩ := h
  · cases hempty
  · exact fun hnodup => absurd (List.nodup_iff_count_le_one.1 hnodup key) (Nat.not_le.2 hcount)

/-- A repetition among later entries stays one behind a further entry. -/
theorem Repeats.cons {g : Groups Condition} {entries : List (GroupKey × List Member)}
    (h : Repeats g entries) (e : GroupKey × List Member) : Repeats g (e :: entries) := by
  obtain ⟨key, hkey, h⟩ := h
  have hsub : (Groups.filledKeys entries).Sublist (Groups.filledKeys (e :: entries)) :=
    ((List.sublist_cons_self e entries).filter _).map _
  exact ⟨key, hsub.subset hkey, h.imp_right fun hcount =>
    Nat.lt_of_lt_of_le hcount (hsub.count_le key)⟩

/-- What is repeated behind an entry that was read is repeated with it. -/
theorem Repeats.of_insert {g : Groups Condition} (hg : g.Tidy) {key : GroupKey}
    {cs : List Condition} {items : List Member} (hitems : items ≠ [])
    {entries : List (GroupKey × List Member)} (h : Repeats (g.insert key cs) entries) :
    Repeats g ((key, items) :: entries) := by
  obtain ⟨k, hk, hcontains | hcount⟩ := h
  · rw [Groups.contains, Groups.insert, Groups.get?_update hg] at hcontains
    by_cases heq : k = key
    · subst heq
      refine ⟨k, ?_, .inr ?_⟩
      · rw [Groups.filledKeys_cons hitems]
        exact List.mem_cons_self
      · rw [Groups.filledKeys_cons hitems, List.count_cons_self]
        exact Nat.succ_lt_succ (List.count_pos_iff.2 hk)
    · rw [if_neg heq] at hcontains
      refine ⟨k, ?_, .inl hcontains⟩
      rw [Groups.filledKeys_cons hitems]
      exact List.mem_cons_of_mem _ hk
  · exact Repeats.cons ⟨k, hk, .inr hcount⟩ _

/-- The name behind an older list is refused for a member that is neither a text nor null. -/
theorem legacyKey_eq_error {kind : String} {members : List Member} {e : DecodeError}
    (h : legacyKey kind members = .error e) :
    e = .unexpectedMember kind 1 "text"
      ∧ ∃ m rest, members = m :: rest ∧ m ≠ .null ∧ ∀ s, m ≠ .text s := by
  cases members with
  | nil => cases h
  | cons m rest =>
    cases m with
    | null => cases h
    | text s => cases h
    | _ =>
      cases h
      exact ⟨rfl, _, _, rfl, nofun, nofun⟩

/-- Why conditions are refused: an item is no payload, or cannot be read. -/
def ItemFault (kind : String) (items : List Member) (e : DecodeError) : Prop :=
  e = .unexpectedMember kind 0 "list of conditions" ∧ (∃ m ∈ items, ¬ m.IsObject)
    ∨ ∃ q, .object q ∈ items ∧ q.Explains e

/-- Why entries are refused behind the groups that were read: for an item of one of them, or because
a key is filled twice. -/
def EntryFault (kind : String) (g : Groups Condition) (entries : List (GroupKey × List Member))
    (e : DecodeError) : Prop :=
  (∃ d ∈ entries, ItemFault kind d.2 e)
    ∨ e = .unexpectedMember kind 0 "condition groups" ∧ Repeats g entries

/-- A fault among later items stays one behind a further item. -/
theorem ItemFault.cons {kind : String} {items : List Member} {e : DecodeError}
    (h : ItemFault kind items e) (m : Member) : ItemFault kind (m :: items) e := by
  rcases h with ⟨heq, m', hm, hobject⟩ | ⟨q, hq, hexplains⟩
  · exact .inl ⟨heq, m', List.mem_cons_of_mem _ hm, hobject⟩
  · exact .inr ⟨q, List.mem_cons_of_mem _ hq, hexplains⟩

/-- A fault among later entries stays one behind a further entry, if a repetition does. -/
theorem EntryFault.cons {kind : String} {g h : Groups Condition} {d : GroupKey × List Member}
    {entries : List (GroupKey × List Member)} {e : DecodeError}
    (hfault : EntryFault kind g entries e)
    (hrepeats : Repeats g entries → Repeats h (d :: entries)) :
    EntryFault kind h (d :: entries) e := by
  rcases hfault with ⟨d', hd, hitem⟩ | ⟨heq, hr⟩
  · exact .inl ⟨d', List.mem_cons_of_mem _ hd, hitem⟩
  · exact .inr ⟨heq, hrepeats hr⟩

/-- Conjunctions and disjunctions have the same layout. -/
theorem layout_connective (op : Connective) : layout op.kind = [.conditions, .optionalText] := by
  cases op <;> rfl

section Composites

variable {op : Connective} {domain : String} {rest : List Member} {e : DecodeError}

/-- The payload of a composite explains why the entries in it are refused. -/
theorem EntryFault.explained {entries : List (GroupKey × List Member)}
    (h : EntryFault op.kind .empty entries e) :
    Payload.Explains ⟨domain, op.kind, .groups entries :: rest⟩ e := by
  have hshape : (layout op.kind)[0]? = some .conditions := by rw [layout_connective]; rfl
  rcases h with ⟨d, hd, ⟨rfl, m, hm, hobject⟩ | ⟨q, hq, hexplains⟩⟩ | ⟨rfl, hrepeats⟩
  · exact .own hshape rfl (.entryItem hd hm hobject) (by decide)
  · exact hexplains.of_nested (n := 0) rfl (.entry hd hq)
  · exact .own hshape rfl (.repeatedKey (not_nodup_of_repeats hrepeats)) (by decide)

/-- The payload of a composite explains why the items of its older list are refused. -/
theorem ItemFault.explained {items : List Member} (h : ItemFault op.kind items e) :
    Payload.Explains ⟨domain, op.kind, .list items :: rest⟩ e := by
  have hshape : (layout op.kind)[0]? = some .conditions := by rw [layout_connective]; rfl
  rcases h with ⟨rfl, m, hm, hobject⟩ | ⟨q, hq, hexplains⟩
  · exact .own hshape rfl (.conditionItem hm hobject) (by decide)
  · exact hexplains.of_nested (n := 0) rfl (.item hq)

/-- The payload of a composite explains why the name behind its older list is refused. -/
theorem explains_of_legacyKey {m : Member} (h : legacyKey op.kind rest = .error e) :
    Payload.Explains ⟨domain, op.kind, m :: rest⟩ e := by
  have hshape : (layout op.kind)[1]? = some .optionalText := by rw [layout_connective]; rfl
  obtain ⟨rfl, name, after, rfl, hnull, htext⟩ := legacyKey_eq_error h
  exact .own hshape rfl (.optionalText hnull htext) (by decide)

end Composites

/-- The readers of conditions call each other, so they are treated together. -/
theorem explaining_readers :
    Explaining ofPayload
      ∧ (∀ kind members, kind = "NotCondition" → ∀ domain e, innerOf kind members = .error e →
        Payload.Explains ⟨domain, kind, members⟩ e)
      ∧ (∀ kind members, (∃ op : Connective, kind = op.kind) → ∀ domain e,
        groupsOf kind members = .error e → Payload.Explains ⟨domain, kind, members⟩ e)
      ∧ (∀ kind items e, conditionsOf kind items = .error e → ItemFault kind items e)
      ∧ ∀ kind g entries, g.Tidy → ∀ e, entriesOf kind g entries = .error e →
        EntryFault kind g entries e := by
  -- one case for each branch of the five readers, in their order
  refine ofPayload.mutual_induct _ _ _ _ _ ?unknown ?compare ?and ?or ?negation ?otherKind
    ?noInner ?inner ?innerShape ?noGroups ?groups ?list ?groupsShape ?nil ?cons ?itemShape
    ?noEntries ?entry
  case unknown =>
    intro domain kind members hd e he
    rw [ofPayload, if_pos hd] at he
    cases he
    exact .other rfl
  case compare =>
    intro domain members hd e he
    rw [ofPayload, if_neg hd, if_pos rfl] at he
    exact Comparison.explaining_ofPayload _ e (Except.map_eq_error_iff.1 he)
  case and =>
    intro domain members hd hcompare ih e he
    rw [ofPayload, if_neg hd, if_neg hcompare, if_pos rfl] at he
    exact ih ⟨.and, rfl⟩ domain e (Except.map_eq_error_iff.1 he)
  case or =>
    intro domain members hd hcompare hand ih e he
    rw [ofPayload, if_neg hd, if_neg hcompare, if_neg hand, if_pos rfl] at he
    exact ih ⟨.or, rfl⟩ domain e (Except.map_eq_error_iff.1 he)
  case negation =>
    intro domain members hd hcompare hand hor ih e he
    rw [ofPayload, if_neg hd, if_neg hcompare, if_neg hand, if_neg hor, if_pos rfl] at he
    exact ih rfl domain e (Except.map_eq_error_iff.1 he)
  case otherKind =>
    intro domain kind members hd hcompare hand hor hnot e he
    rw [ofPayload, if_neg hd, if_neg hcompare, if_neg hand, if_neg hor, if_neg hnot] at he
    cases he
    exact .other rfl
  case noInner =>
    rintro kind rfl domain e he
    cases he
    exact .missing (q := ⟨domain, "NotCondition", []⟩) .refl
  case inner =>
    rintro kind q rest ih rfl domain e he
    exact (ih e he).of_nested (n := 0) rfl (.object q)
  case innerShape =>
    rintro kind m rest hm rfl domain e he
    have hobject : ¬ m.IsObject := by
      rintro ⟨q, rfl⟩
      exact hm q rfl
    have herror : e = .unexpectedMember "NotCondition" 0 "object" := by
      cases m with
      | object q => exact (hm q rfl).elim
      | _ => cases he; rfl
    rw [herror]
    exact Payload.Explains.own (i := 0) (p := ⟨domain, "NotCondition", m :: rest⟩) rfl rfl
      (.object hobject) (by decide)
  case noGroups =>
    rintro kind - domain e he
    cases he
    exact .missing (q := ⟨domain, kind, []⟩) .refl
  case groups =>
    rintro kind entries rest ih ⟨op, rfl⟩ domain e he
    exact (ih Groups.tidy_empty e he).explained
  case list =>
    rintro kind items rest ih ⟨op, rfl⟩ domain e he
    rcases Except.bind_eq_error_iff.1 he with he | ⟨cs, -, he⟩
    · exact (ih e he).explained
    · rcases Except.bind_eq_error_iff.1 he with he | ⟨key, -, he⟩
      · exact explains_of_legacyKey he
      · cases he
  case groupsShape =>
    rintro kind m rest hgroups hlist ⟨op, rfl⟩ domain e he
    have hshape : (layout op.kind)[0]? = some .conditions := by rw [layout_connective]; rfl
    have herror : e = .unexpectedMember op.kind 0 "condition groups" := by
      cases m with
      | groups entries => exact (hgroups entries rfl).elim
      | list items => exact (hlist items rfl).elim
      | _ => cases he; rfl
    rw [herror]
    exact .own hshape rfl (.conditions hgroups hlist) (by decide)
  case nil =>
    intro kind e he
    cases he
  case cons =>
    intro kind q rest ihq ihrest e he
    rcases Except.bind_eq_error_iff.1 he with he | ⟨c, -, he⟩
    · exact .inr ⟨q, List.mem_cons_self, ihq e he⟩
    · rcases Except.bind_eq_error_iff.1 he with he | ⟨cs, -, he⟩
      · exact (ihrest e he).cons _
      · cases he
  case itemShape =>
    intro kind m rest hm e he
    have hobject : ¬ m.IsObject := by
      rintro ⟨q, rfl⟩
      exact hm q rfl
    refine .inl ⟨?_, m, List.mem_cons_self, hobject⟩
    cases m with
    | object q => exact (hm q rfl).elim
    | _ => cases he; rfl
  case noEntries =>
    intro kind g hg e he
    cases he
  case entry =>
    intro kind g key items rest ihitems ihskip ihinsert hg e he
    rcases Except.bind_eq_error_iff.1 he with he | ⟨cs, hcs, he⟩
    · exact .inl ⟨_, List.mem_cons_self, ihitems e he⟩
    · split at he
      · exact (ihskip hg e he).cons fun hrepeats => hrepeats.cons _
      · next hfilled =>
        have hitems : items ≠ [] := by
          rintro rfl
          obtain rfl := List.forall₂_nil_left_iff.1 (conditionsOf_eq_ok_iff.1 hcs)
          exact hfilled rfl
        split at he
        · next hcontains =>
          cases he
          refine .inr ⟨rfl, key, ?_, .inl hcontains⟩
          rw [Groups.filledKeys_cons hitems]
          exact List.mem_cons_self
        · have hcs : cs ≠ [] := fun hnil => hfilled (List.isEmpty_iff.2 hnil)
          exact (ihinsert cs (hg.insert key hcs) e he).cons fun hrepeats =>
            hrepeats.of_insert hg hitems

end Condition

/-- The decoder of groups explains its errors. -/
theorem Groups.explaining_ofPayload (op : Connective) : Explaining (Groups.ofPayload op) := by
  intro p e he
  rcases Except.bind_eq_error_iff.1 he with he | ⟨c, hc, he⟩
  · exact .other (Payload.namesMember_of_openAs he)
  · obtain ⟨members, rfl, rfl⟩ := Payload.openAs_eq_ok_iff.1 hc
    exact Condition.explaining_readers.2.2.1 op.kind members ⟨op, rfl⟩ queryDomain e he

/-! ## Joins and updates -/

/-- The decoder of a join's foreign table explains its errors. -/
theorem Join.explaining_foreignOf : Explaining Join.foreignOf := by
  intro p e he
  rw [foreignOf] at he
  split at he
  · exact Table.explaining_ofPayload p e (Except.map_eq_error_iff.1 he)
  · exact TableRef.explaining_ofPayload p e he

/-- An unknown join type is not a fault that names a member. -/
theorem Join.namesMember_of_ofTypeCode {code : Int64} {e : DecodeError}
    (h : ofTypeCode code = .error e) : e.namesMember = false := by
  have hcode := Except.map_eq_error_iff.1 h
  unfold JoinType.ofCode at hcode
  split at hcode
  · cases hcode
  · cases hcode
    rfl

/-- The decoder of joins explains its errors. -/
theorem Join.explaining_ofPayload : Explaining Join.ofPayload := by
  refine Payload.explaining_readAs fun _ _ =>
    takes_text.explained_bind (explained_text rfl) fun _ name _ _ =>
    takes_element.explained_bind (explained_element Table.explaining_ofPayload rfl)
      fun _ primary _ _ =>
    takes_element.explained_bind (explained_element explaining_foreignOf rfl)
      fun _ foreign _ _ =>
    takes_element.explained_bind (explained_element (Groups.explaining_ofPayload .and) rfl)
      fun _ condition _ _ =>
    takes_int.explained_bind (explained_int rfl) fun _ code _ _ =>
    explained_ofExcept_bind (fun _ he => .other (namesMember_of_ofTypeCode he)) fun type _ =>
    explained_trailingText_bind rfl fun comment? k =>
    explained_ofExcept_bind (fun e he => ?_) fun _ _ => explained_pure _
  obtain ⟨cause, -, rfl⟩ := Except.mapError_eq_error_iff.1 he
  exact .other rfl

/-- Values are refused at their index in the list. -/
theorem Operand.readAll_eq_error {kind : String} {position : ℕ} {items : List Member}
    {e : DecodeError} (h : readAll kind position items = .error e) :
    (∃ i m, items[i]? = some m ∧ ¬ m.IsOperand
        ∧ e = .unexpectedMember kind (position + i) "operand")
      ∨ ∃ q, .object q ∈ items ∧ q.Explains e := by
  induction items generalizing position with
  | nil => cases h
  | cons m rest ih =>
    rcases Except.bind_eq_error_iff.1 h with h | ⟨o, -, h⟩
    · rcases ofMember_eq_error h with ⟨rfl, hoperand⟩ | ⟨q, rfl, hq⟩
      · exact .inl ⟨0, m, rfl, hoperand, rfl⟩
      · exact .inr ⟨q, List.mem_cons_self, hq⟩
    · rcases Except.bind_eq_error_iff.1 h with h | ⟨os, -, h⟩
      · rcases ih h with ⟨i, m', hm, hoperand, heq⟩ | ⟨q, hq, hexplains⟩
        · refine .inl ⟨i + 1, m', hm, hoperand, ?_⟩
          rw [heq, Nat.add_right_comm, Nat.add_assoc]
        · exact .inr ⟨q, List.mem_cons_of_mem _ hq, hexplains⟩
      · cases h

/-- The decoder of updates explains its errors, those of the columns in its list included. -/
theorem Update.explaining_ofPayload : Explaining Update.ofPayload := by
  refine Payload.explaining_readAs fun domain members =>
    takes_element.explained_bind (explained_element Table.explaining_ofPayload rfl)
      fun _ table _ _ =>
    takes_elements.explained_bind (explained_elements Column.explaining_ofPayload rfl)
      fun _ columns _ _ =>
    takes_list.explained_bind (explained_list rfl (List.mem_cons_of_mem _ List.mem_cons_self))
      fun m items hm hlist => ?_
  subst hlist
  refine explained_ofExcept_bind (fun e he => ?_) fun values _ => ?_
  · rcases Operand.readAll_eq_error he with ⟨i, m, hitem, hoperand, rfl⟩ | ⟨q, hq, hexplains⟩
    · rw [Nat.zero_add]
      exact .assigned (q := ⟨domain, "QueryUpdate", members⟩) .refl rfl hm hitem hoperand
    · exact hexplains.of_nested hm (.item hq)
  · refine explained_guard (.other rfl) ?_
    refine takes_optionalElement.explained_bind
      (explained_optionalElement (Groups.explaining_ofPayload .and) rfl) fun _ condition? _ _ => ?_
    refine explained_remaining_bind fun count => ?_
    split
    · exact explained_pure _
    · exact takes_elements.explained_bind (explained_elements Join.explaining_ofPayload rfl)
        fun _ joins _ _ => explained_pure _

/-! ## The member at fault -/

/-- The decoder of every kind explains its errors. -/
theorem StoredKind.explaining_ofPayload (k : StoredKind) : Explaining k.ofPayload := by
  cases k with
  | table => exact Table.explaining_ofPayload
  | tableRef => exact TableRef.explaining_ofPayload
  | column => exact Column.explaining_ofPayload
  | anyOf => exact AnyOf.explaining_ofPayload
  | comparison => exact Comparison.explaining_ofPayload
  | composite op => exact Groups.explaining_ofPayload op
  | condition => exact Condition.explaining_readers.1
  | join => exact Join.explaining_ofPayload
  | update => exact Update.explaining_ofPayload

/-- The payload or one nested in it is of the kind, and its member at the index is not of the shape
that the kind has there, or holds an item that is not. -/
def Payload.Locates (p : Payload) (kind : String) (i : ℕ) (expected : String) : Prop :=
  ∃ q m shape, p.Reaches q ∧ q.kind = kind ∧ (layout kind)[i]? = some shape
    ∧ q.members[i]? = some m ∧ shape.Misfit expected m

/-- Of the members of an update only the list of values is refused as an operand. -/
theorem index_of_misfit_operand {i : ℕ} {shape : FieldShape} {m : Member}
    (hshape : (layout "QueryUpdate")[i]? = some shape) (h : shape.Misfit "operand" m) : i = 2 := by
  have hoperand : shape = .operand ∨ shape = .operands := by
    generalize hexpected : "operand" = expected at h
    cases h <;> simp at hexpected ⊢
  match i with
  | 0 | 1 | 3 | 4 => cases hshape; simp at hoperand
  | 2 => rfl
  | _ + 5 => cases hshape

/-- A read that fails names the member at fault. If a member is missing, the payload or one nested
in it is of the named kind and has as many members as the named index. If a member is not of the
expected shape, it is the one at the named index of such a payload, except among the values of an
update: an operand is named there by its index in their list, which is the index of the list itself
only if both are 2. -/
theorem StoredKind.fault_located (k : StoredKind) {p : Payload} {e : DecodeError}
    (h : k.ofPayload p = .error e) :
    (∀ kind i, e = .missingMember kind i →
      ∃ q, p.Reaches q ∧ q.kind = kind ∧ q.members.length = i)
    ∧ ∀ kind i expected, e = .unexpectedMember kind i expected →
      (p.Locates kind i expected ↔ (kind = "QueryUpdate" ∧ expected = "operand" → i = 2))
      ∧ (kind = "QueryUpdate" ∧ expected = "operand" →
        ∃ q items m, p.Reaches q ∧ q.kind = kind ∧ q.members[2]? = some (.list items)
          ∧ items[i]? = some m ∧ ¬ m.IsOperand) := by
  have hindex : ∀ {kind i expected}, p.Locates kind i expected →
      kind = "QueryUpdate" ∧ expected = "operand" → i = 2 := by
    rintro kind i expected ⟨q, m, shape, -, -, hshape, -, hmisfit⟩ ⟨rfl, rfl⟩
    exact index_of_misfit_operand hshape hmisfit
  cases k.explaining_ofPayload p e h with
  | other he =>
    constructor
    · rintro kind i rfl
      cases he
    · rintro kind i expected rfl
      cases he
  | @missing q hq =>
    constructor
    · rintro kind i heq
      cases heq
      exact ⟨q, hq, rfl, rfl⟩
    · rintro kind i expected heq
      cases heq
  | @unexpected q i m shape expected hq hshape hm hmisfit hlist =>
    constructor
    · rintro kind i heq
      cases heq
    · rintro kind i expected heq
      cases heq
      have hlocates : p.Locates q.kind i expected := ⟨q, m, shape, hq, rfl, hshape, hm, hmisfit⟩
      refine ⟨iff_of_true hlocates (hindex hlocates), ?_⟩
      rintro ⟨hkind, rfl⟩
      -- that the list itself is refused as an operand was excluded
      obtain rfl := hindex hlocates ⟨hkind, rfl⟩
      rw [hkind] at hshape
      cases hshape
      exact absurd (hlist rfl) (by decide)
  | @assigned q items i m hq hkind hitems hm hoperand =>
    constructor
    · rintro kind i heq
      cases heq
    · rintro kind i expected heq
      cases heq
      refine ⟨⟨hindex, fun htwo => ?_⟩, fun _ => ⟨q, items, m, hq, rfl, hitems, hm, hoperand⟩⟩
      obtain rfl := htwo ⟨hkind, rfl⟩
      exact ⟨q, .list items, .operands, hq, rfl, by rw [hkind]; rfl, hitems,
        .operandItem (List.mem_of_getElem? hm) hoperand⟩

/-- The payload of an update of orders with these members behind the table. -/
def Update.ordersPayload (members : List Member) : Payload :=
  .ofKind "QueryUpdate" (.object (Table.named "orders").toPayload :: members)

/-- Five values and a number that is none, where values are to be. -/
def Update.misplacedNumber : Payload :=
  ordersPayload [.null, .list [.value .null, .value .null, .value .null, .value .null, .value .null,
    .int 1], .null]

/-- A member is missing, a nested payload has one of the wrong shape, a number is among the values.
-/
theorem Update.faults_found :
    (∃ q, (ordersPayload [.null]).Reaches q ∧ q.kind = "QueryUpdate" ∧ q.members.length = 2)
    ∧ (ordersPayload [.list [.object (.ofKind "QueryColumn" [.null])]]).Locates
        "QueryColumn" 0 "object"
    ∧ ∃ q items m, misplacedNumber.Reaches q ∧ q.kind = "QueryUpdate"
      ∧ q.members[2]? = some (.list items) ∧ items[5]? = some m ∧ ¬ m.IsOperand := by
  have hmissing : StoredKind.update.ofPayload (ordersPayload [.null])
      = .error (.missingMember "QueryUpdate" 2) := rfl
  have hnested : StoredKind.update.ofPayload
      (ordersPayload [.list [.object (.ofKind "QueryColumn" [.null])]])
      = .error (.unexpectedMember "QueryColumn" 0 "object") := rfl
  have hvalue : StoredKind.update.ofPayload misplacedNumber
      = .error (.unexpectedMember "QueryUpdate" 5 "operand") := rfl
  refine ⟨(StoredKind.fault_located _ hmissing).1 _ _ rfl, ?_, ?_⟩
  · exact ((StoredKind.fault_located _ hnested).2 _ _ _ rfl).1.2 (by decide)
  · exact ((StoredKind.fault_located _ hvalue).2 _ _ _ rfl).2 ⟨rfl, rfl⟩

/-- No update in this payload has a member of the index that the error names. -/
theorem Update.number_misplaced :
    StoredKind.update.ofPayload misplacedNumber
        = .error (.unexpectedMember "QueryUpdate" 5 "operand")
      ∧ ¬ ∃ q, misplacedNumber.Reaches q ∧ q.kind = "QueryUpdate" ∧ 5 < q.members.length := by
  have hleaf : ∀ r, ¬ (Table.named "orders").toPayload.Nests r := by
    rintro r ⟨m, hm, hr⟩
    simp only [Table.toPayload, Table.named, Payload.ofKind, Member.optionalText, List.mem_cons,
      List.not_mem_nil, or_false] at hm
    rcases hm with rfl | rfl | rfl <;> cases hr
  have htable : ∀ r, misplacedNumber.Nests r → r = (Table.named "orders").toPayload := by
    rintro r ⟨m, hm, hr⟩
    simp only [misplacedNumber, ordersPayload, Payload.ofKind, List.mem_cons, List.not_mem_nil,
      or_false] at hm
    rcases hm with rfl | rfl | rfl | rfl
    · cases hr
      rfl
    · cases hr
    · cases hr with
      | item hitem => simp at hitem
    · cases hr
  refine ⟨rfl, ?_⟩
  rintro ⟨q, hq, hkind, hlength⟩
  rcases hq.cases_head with rfl | ⟨r, hr, hq⟩
  · exact absurd hlength (by decide)
  · obtain rfl := htable r hr
    rcases hq.cases_head with rfl | ⟨r, hr, -⟩
    · exact absurd hkind (by decide)
    · exact hleaf r hr

end QueryTree
