import QueryTree.Proofs.Decoding
import QueryTree.Proofs.Stored

/-! # Refusals of join conditions

`DecodeError.join` says that a join was found with a condition of the wrong shape. Conditions, and
what is below them, are never refused for this reason, so a join is refused for it only when it was
read up to its shape.
-/

namespace QueryTree

variable {α β : Type}

/-- The result is no refusal of a join's condition. -/
def NoJoinError (x : Except DecodeError α) : Prop :=
  ∀ cause, x ≠ .error (.join cause)

/-- A value is no refusal. -/
theorem noJoinError_ok (a : α) : NoJoinError (.ok a) := by
  simp [NoJoinError]

/-- An error of another kind is no refusal of a join's condition. -/
theorem noJoinError_error {e : DecodeError} (h : ∀ cause, e ≠ .join cause) :
    NoJoinError (.error e : Except DecodeError α) := by
  intro cause heq
  cases heq
  exact h cause rfl

/-- Two steps in a row refuse no join's condition if neither of them does. -/
theorem NoJoinError.bind {x : Except DecodeError α} {f : α → Except DecodeError β}
    (hx : NoJoinError x) (hf : ∀ a, x = .ok a → NoJoinError (f a)) : NoJoinError (x >>= f) := by
  intro cause h
  rcases Except.bind_eq_error_iff.1 h with h | ⟨a, ha, h⟩
  · exact hx cause h
  · exact hf a ha cause h

/-- Mapping the value brings no refusal. -/
theorem NoJoinError.map {x : Except DecodeError α} (hx : NoJoinError x) (f : α → β) :
    NoJoinError (x.map f) := by
  cases x with
  | error e => exact noJoinError_error fun cause h => hx cause (congrArg _ h)
  | ok a => exact noJoinError_ok (f a)

/-- A member of another type is not a refusal of a join's condition. -/
theorem Cursor.mismatch_ne_join (c : Cursor) (expected : String) (cause : JoinError) :
    c.mismatch expected ≠ .join cause := by
  simp [Cursor.mismatch]

/-! ## Readers -/

namespace Read

/-- From no cursor the reader refuses a join's condition. -/
def NeverJoin (r : Read α) : Prop :=
  ∀ c, NoJoinError (r c).1

/-- Returning a value refuses nothing. -/
theorem neverJoin_pure (a : α) : (pure a : Read α).NeverJoin := fun _ => noJoinError_ok a

/-- Reads in a row refuse no join's condition if each of them refuses none. -/
theorem NeverJoin.bind {r : Read α} {f : α → Read β} (hr : r.NeverJoin)
    (hf : ∀ a, (f a).NeverJoin) : (r >>= f).NeverJoin := by
  intro c cause h
  rcases error_bind_iff.1 h with h | ⟨a, d, -, h⟩
  · exact hr c cause h
  · exact hf a d cause h

/-- A result at hand refuses no join's condition if it is no such refusal. -/
theorem neverJoin_ofExcept {x : Except DecodeError α} (h : NoJoinError x) :
    (ofExcept x).NeverJoin := fun _ => h

/-- Refusing the next member is not refusing a join's condition. -/
theorem neverJoin_refuse (expected : String) : (refuse expected : Read α).NeverJoin :=
  fun c => noJoinError_error (c.mismatch_ne_join expected)

end Read

/-- A read refuses a join's condition only if reading a payload in the member does. -/
theorem ReadOp.handsOn_of_joinError {op : ReadOp α} {m? : Option Member} {kind : String}
    {position : Nat} {cause : JoinError}
    (h : (op.outcome m?).mapError (Fault.error kind position) = .error (.join cause)) :
    ∃ m, m? = some m ∧ op.HandsOn m (.join cause) := by
  obtain ⟨f, hf, heq⟩ := Except.mapError_eq_error_iff.1 h
  cases f with
  | missing => cases heq
  | misshapen expected => cases heq
  | nested e =>
    cases heq
    exact exists_foundIn hf nofun

/-- A read never refuses a join's condition if no payload that it reads is refused for one. -/
theorem ReadOp.neverJoin (op : ReadOp α)
    (h : ∀ p cause, ¬ op.Refuses p (.join cause)) : op.run.NeverJoin := by
  intro c cause hc
  rw [run_eq] at hc
  obtain ⟨m, -, p, -, hp⟩ := handsOn_of_joinError hc
  exact h p cause hp

namespace Read

/-- Reading a text refuses no join's condition. -/
theorem neverJoin_text : text.NeverJoin := ReadOp.text.neverJoin fun _ _ => id

/-- Reading an optional text refuses no join's condition. -/
theorem neverJoin_optionalText : optionalText.NeverJoin :=
  ReadOp.optionalText.neverJoin fun _ _ => id

/-- Reading an integer refuses no join's condition. -/
theorem neverJoin_int : int.NeverJoin := ReadOp.int.neverJoin fun _ _ => id

/-- Reading a list refuses no join's condition. -/
theorem neverJoin_list : list.NeverJoin := ReadOp.list.neverJoin fun _ _ => id

/-- Reading an object refuses no join's condition if its decoder refuses none. -/
theorem neverJoin_element {read : Payload → Except DecodeError α}
    (h : ∀ p, NoJoinError (read p)) : (element read).NeverJoin :=
  (ReadOp.element read).neverJoin h

/-- Reading an optional object refuses no join's condition if its decoder refuses none. -/
theorem neverJoin_optionalElement {read : Payload → Except DecodeError α}
    (h : ∀ p, NoJoinError (read p)) : (optionalElement read).NeverJoin :=
  (ReadOp.optionalElement read).neverJoin h

/-- Reading a list of objects refuses no join's condition if their decoder refuses none. -/
theorem neverJoin_elements {read : Payload → Except DecodeError α}
    (h : ∀ p, NoJoinError (read p)) : (elements read).NeverJoin :=
  (ReadOp.elements read).neverJoin h

end Read

/-- Opening a payload as another kind is not refusing a join's condition. -/
theorem Payload.noJoinError_openAs (p : Payload) (kind : String) :
    NoJoinError (p.openAs kind) := by
  refine NoJoinError.bind ?_ fun _ _ => ?_
  · unfold checkDomain
    split
    · exact noJoinError_ok ()
    · exact noJoinError_error (by simp)
  · split
    · exact noJoinError_ok _
    · exact noJoinError_error (by simp)

/-- Reading a payload with such a reader refuses no join's condition. -/
theorem Payload.noJoinError_readAs {r : Read α} (h : r.NeverJoin) (kind : String) (p : Payload) :
    NoJoinError (p.readAs kind r) :=
  (p.noJoinError_openAs kind).bind fun c _ => h c

/-! ## Conditions and what is below them -/

open Read

/-- The decoder of tables refuses no join's condition. -/
theorem Table.noJoinError_ofPayload (p : Payload) : NoJoinError (Table.ofPayload p) :=
  Payload.noJoinError_readAs
    (neverJoin_text.bind fun _ => neverJoin_optionalText.bind fun _ =>
      neverJoin_optionalText.bind fun _ => neverJoin_pure _) _ p

/-- The decoder of columns refuses no join's condition. -/
theorem Column.noJoinError_ofPayload (p : Payload) : NoJoinError (Column.ofPayload p) :=
  Payload.noJoinError_readAs
    ((neverJoin_element Table.noJoinError_ofPayload).bind fun _ => neverJoin_text.bind fun _ =>
      neverJoin_optionalText.bind fun _ => neverJoin_pure _) _ p

/-- Values in a list are refused for their own sake, not for a join's condition. -/
theorem AnyOf.noJoinError_valuesOf {mismatch : DecodeError} (h : ∀ cause, mismatch ≠ .join cause)
    (items : List Member) : NoJoinError (valuesOf mismatch items) := by
  induction items with
  | nil => exact noJoinError_ok []
  | cons m rest ih =>
    cases m with
    | null => exact ih.map _
    | value v => exact ih.map _
    | _ => exact noJoinError_error h

/-- The decoder of value sets refuses no join's condition. -/
theorem AnyOf.noJoinError_ofPayload (p : Payload) : NoJoinError (AnyOf.ofPayload p) :=
  Payload.noJoinError_readAs
    (neverJoin_list.bind fun items c =>
      (noJoinError_valuesOf (c.mismatch_ne_join "value") items).map _) _ p

/-- A payload is not refused as an operand for a join's condition. -/
theorem Operand.not_refuses_joinError (p : Payload) (cause : JoinError) :
    ¬ ReadOp.operand.Refuses p (.join cause) := by
  rintro (⟨-, h⟩ | ⟨-, h⟩)
  · exact Column.noJoinError_ofPayload p cause h
  · exact AnyOf.noJoinError_ofPayload p cause h

/-- Reading an operand refuses no join's condition. -/
theorem Operand.neverJoin_read : Operand.read.NeverJoin :=
  ReadOp.operand.neverJoin not_refuses_joinError

/-- A member that is no operand is not a refusal of a join's condition. -/
theorem Operand.noJoinError_ofMember (kind : String) (i : Nat) (m : Member) :
    NoJoinError (ofMember (.unexpectedMember kind i "operand") m) := by
  intro cause h
  have houtcome : (ReadOp.operand.outcome (some m)).mapError (Fault.error kind i)
      = .error (.join cause) := by
    rw [ReadOp.outcome, ReadOp.mapError_operand, h]
  obtain ⟨_, -, p, -, hp⟩ := ReadOp.handsOn_of_joinError houtcome
  exact not_refuses_joinError p cause hp

/-- An unknown operator is not a refusal of a join's condition. -/
theorem Operator.noJoinError_ofCode (code : Int64) : NoJoinError (Operator.ofCode code) := by
  unfold ofCode
  split
  · exact noJoinError_ok _
  · exact noJoinError_error (by simp)

/-- The decoder of comparisons refuses no join's condition. -/
theorem Comparison.noJoinError_ofPayload (p : Payload) : NoJoinError (Comparison.ofPayload p) :=
  Payload.noJoinError_readAs
    (neverJoin_int.bind fun code =>
      (neverJoin_ofExcept (Operator.noJoinError_ofCode code)).bind fun _ =>
      Operand.neverJoin_read.bind fun _ => Operand.neverJoin_read.bind fun _ =>
      neverJoin_pure _) _ p

namespace Condition

/-- Reading the name of an older group refuses no join's condition. -/
theorem noJoinError_legacyKey (kind : String) (rest : List Member) :
    NoJoinError (legacyKey kind rest) := by
  unfold legacyKey
  split
  · exact noJoinError_ok _
  · exact noJoinError_ok _
  · exact noJoinError_ok _
  · exact noJoinError_error (by simp)

/-- The readers of conditions call each other, so they are treated together. -/
theorem noJoinError_readers :
    (∀ p, NoJoinError (ofPayload p)) ∧ (∀ kind ms, NoJoinError (innerOf kind ms))
      ∧ (∀ kind ms, NoJoinError (groupsOf kind ms))
      ∧ (∀ kind ms, NoJoinError (conditionsOf kind ms))
      ∧ ∀ kind g entries, NoJoinError (entriesOf kind g entries) := by
  -- one case for each branch of the five readers, in their order
  refine ofPayload.mutual_induct _ _ _ _ _ ?unknown ?compare ?and ?or ?negation ?otherKind
    ?noInner ?inner ?innerShape ?noGroups ?groups ?list ?groupsShape ?nil ?cons ?itemShape
    ?noEntries ?entry
  case unknown =>
    intro domain kind members hd
    rw [ofPayload, if_pos hd]
    exact noJoinError_error (by simp)
  case compare =>
    intro domain members hd
    rw [ofPayload, if_neg hd, if_pos rfl]
    exact (Comparison.noJoinError_ofPayload _).map _
  case and =>
    intro domain members hd hcompare ih
    rw [ofPayload, if_neg hd, if_neg hcompare, if_pos rfl]
    exact ih.map _
  case or =>
    intro domain members hd hcompare hand ih
    rw [ofPayload, if_neg hd, if_neg hcompare, if_neg hand, if_pos rfl]
    exact ih.map _
  case negation =>
    intro domain members hd hcompare hand hor ih
    rw [ofPayload, if_neg hd, if_neg hcompare, if_neg hand, if_neg hor, if_pos rfl]
    exact ih.map _
  case otherKind =>
    intro domain kind members hd hcompare hand hor hnot
    rw [ofPayload, if_neg hd, if_neg hcompare, if_neg hand, if_neg hor, if_neg hnot]
    exact noJoinError_error (by simp)
  case noInner => exact fun kind => noJoinError_error (by simp)
  case inner => exact fun kind p rest ih => ih
  case innerShape =>
    intro kind m rest hm
    cases m with
    | object p => exact (hm p rfl).elim
    | _ => exact noJoinError_error (by simp)
  case noGroups => exact fun kind => noJoinError_error (by simp)
  case groups => exact fun kind entries rest ih => ih
  case list =>
    exact fun kind items rest ih => ih.bind fun _ _ =>
      (noJoinError_legacyKey kind rest).bind fun _ _ => noJoinError_ok _
  case groupsShape =>
    intro kind m rest hgroups hlist
    cases m with
    | groups entries => exact (hgroups entries rfl).elim
    | list items => exact (hlist items rfl).elim
    | _ => exact noJoinError_error (by simp)
  case nil => exact fun kind => noJoinError_ok _
  case cons =>
    exact fun kind p rest ihp ihrest => ihp.bind fun _ _ => ihrest.bind fun _ _ => noJoinError_ok _
  case itemShape =>
    intro kind m rest hm
    cases m with
    | object p => exact (hm p rfl).elim
    | _ => exact noJoinError_error (by simp)
  case noEntries => exact fun kind g => noJoinError_ok g
  case entry =>
    intro kind g key items rest ihitems ihskip ihappend
    refine ihitems.bind fun cs _ => ?_
    split
    · exact ihskip
    · split
      · exact noJoinError_error (by simp)
      · exact ihappend cs

/-- The decoder of conditions refuses no join's condition, as there is no join in one. -/
theorem noJoinError_ofPayload (p : Payload) : NoJoinError (ofPayload p) :=
  noJoinError_readers.1 p

/-- Reading the members of a conjunction or disjunction refuses no join's condition. -/
theorem noJoinError_groupsOf (kind : String) (ms : List Member) : NoJoinError (groupsOf kind ms) :=
  noJoinError_readers.2.2.1 kind ms

end Condition

/-- The decoder of groups refuses no join's condition. -/
theorem Groups.noJoinError_ofPayload (op : Connective) (p : Payload) :
    NoJoinError (Groups.ofPayload op p) :=
  (p.noJoinError_openAs op.kind).bind fun c _ => Condition.noJoinError_groupsOf op.kind c.rest

/-! ## Joins and updates -/

namespace Read

/-- From cursor `c` the reader refuses a join's condition. -/
def RefusesJoin (r : Read α) (c : Cursor) (cause : JoinError) : Prop :=
  (r c).1 = .error (.join cause)

variable {c : Cursor} {cause : JoinError}

/-- The refusal comes from behind a reader that never refuses in this way. -/
theorem NeverJoin.refusesJoin_bind {r : Read α} (hr : r.NeverJoin) {f : α → Read β} :
    (r >>= f).RefusesJoin c cause ↔ ∃ a d, r.Yields c a d ∧ (f a).RefusesJoin d cause := by
  have hrc := hr c cause
  rw [RefusesJoin, error_bind_iff, or_iff_right hrc]
  rfl

/-- The refusal comes from a reader behind which no reader refuses in this way. -/
theorem refusesJoin_of_bind {r : Read α} {f : α → Read β} (hf : ∀ a, (f a).NeverJoin)
    (h : (r >>= f).RefusesJoin c cause) : r.RefusesJoin c cause := by
  rcases error_bind_iff.1 h with h | ⟨a, d, -, h⟩
  · exact h
  · exact (hf a d cause h).elim

/-- Behind a check a join's condition is refused if the check passes and the rest refuses it. -/
theorem refusesJoin_guard {refused : Prop} [Decidable refused] {e : DecodeError}
    (he : ∀ cause, e ≠ .join cause) {f : α → Read β} {r : Read β} :
    (if refused then ofExcept (.error e) >>= f else r).RefusesJoin c cause
      ↔ ¬ refused ∧ r.RefusesJoin c cause := by
  by_cases h : refused
  · rw [if_pos h, (neverJoin_ofExcept (noJoinError_error he)).refusesJoin_bind]
    simp [h, yields_ofExcept]
  · simp [h]

/-- A reader that takes one member is no exception. -/
theorem Takes.refusesJoin_bind {r : Read α} {accepts : Member → α → Prop} (ht : r.Takes accepts)
    (hr : r.NeverJoin) {f : α → Read β} {kind : String} {position : Nat} {members : List Member} :
    (r >>= f).RefusesJoin ⟨kind, position, members⟩ cause
      ↔ ∃ m rest x, members = m :: rest ∧ accepts m x
        ∧ (f x).RefusesJoin ⟨kind, position + 1, rest⟩ cause := by
  rw [hr.refusesJoin_bind]
  constructor
  · rintro ⟨x, d, hx, hf⟩
    obtain ⟨m, rest, hmembers, hm, rfl⟩ := (ht ..).1 hx
    exact ⟨m, rest, x, hmembers, hm, hf⟩
  · rintro ⟨m, rest, x, hmembers, hm, hf⟩
    exact ⟨x, _, (ht ..).2 ⟨m, rest, hmembers, hm, rfl⟩, hf⟩

/-- A list is refused for a join's condition when one of its nodes is. -/
theorem refusesJoin_elements {read : Payload → Except DecodeError α} {kind : String}
    {position : Nat} {m : Member} {rest : List Member}
    (h : (elements read).RefusesJoin ⟨kind, position, m :: rest⟩ cause) :
    ∃ items q, m = .list items ∧ .object q ∈ items ∧ read q = .error (.join cause) := by
  have hresult : ((ReadOp.elements read).ofMember m).mapError (Fault.error kind position)
      = .error (.join cause) := by
    rw [← h]
    exact (congrArg Prod.fst ((ReadOp.elements read).run_cons m rest)).symm
  obtain ⟨f, hf, heq⟩ := Except.mapError_eq_error_iff.1 hresult
  cases m with
  | null => cases hf
  | list items =>
    rcases ReadOp.itemsOf_eq_error hf with ⟨rfl, -⟩ | ⟨q, e, hq, rfl, he⟩
    · cases heq
    · cases heq
      exact ⟨items, q, rfl, hq, he⟩
  | _ =>
    cases hf
    cases heq

/-- Reading a trailing text refuses no join's condition. -/
theorem neverJoin_trailingText : trailingText.NeverJoin := by
  refine (ReadOp.nextOptional.neverJoin fun _ _ => id).bind fun m? => ?_
  rcases m? with _ | m
  · exact neverJoin_pure none
  · cases m with
    | null => exact neverJoin_pure none
    | text s => exact neverJoin_pure (some s)
    | _ => exact neverJoin_refuse _

end Read

/-- A payload is refused for a join's condition if its reader refuses one from the first member. -/
theorem Payload.readAs_eq_joinError_iff {r : Read α} {kind : String} {p : Payload}
    {cause : JoinError} :
    p.readAs kind r = .error (.join cause)
      ↔ ∃ members, p = .ofKind kind members ∧ r.RefusesJoin ⟨kind, 0, members⟩ cause := by
  rw [readAs]
  cases hopen : p.openAs kind with
  | error e =>
    -- opening never refuses a join's condition, and a payload of the kind is opened
    constructor
    · intro h
      cases h
      exact (p.noJoinError_openAs kind cause hopen).elim
    · rintro ⟨members, rfl, -⟩
      have hok : (ofKind kind members).openAs kind = .ok (.start kind members) :=
        openAs_eq_ok_iff.2 ⟨members, rfl, rfl⟩
      cases hopen.symm.trans hok
  | ok c =>
    obtain ⟨members, rfl, rfl⟩ := openAs_eq_ok_iff.1 hopen
    constructor
    · exact fun h => ⟨members, rfl, h⟩
    · rintro ⟨members', heq, h⟩
      cases heq
      exact h

/-- The decoder of table references refuses no join's condition. -/
theorem TableRef.noJoinError_ofPayload (p : Payload) : NoJoinError (TableRef.ofPayload p) :=
  Payload.noJoinError_readAs
    ((neverJoin_element Table.noJoinError_ofPayload).bind fun _ => neverJoin_pure _) _ p

/-- The decoder of a join's foreign table refuses no join's condition. -/
theorem Join.noJoinError_foreignOf (p : Payload) : NoJoinError (Join.foreignOf p) := by
  unfold foreignOf
  split
  · exact (Table.noJoinError_ofPayload p).map _
  · exact TableRef.noJoinError_ofPayload p

/-- An unknown join type is not a refusal of a join's condition. -/
theorem Join.noJoinError_ofTypeCode (code : Int64) : NoJoinError (Join.ofTypeCode code) := by
  refine NoJoinError.map ?_ _
  unfold JoinType.ofCode
  split
  · exact noJoinError_ok _
  · exact noJoinError_error (by simp)

/-- A join whose condition is refused has a fourth member that holds more than comparisons. -/
theorem Join.condition_of_joinError {p : Payload} {cause : JoinError}
    (h : Join.ofPayload p = .error (.join cause)) :
    ∃ name primary foreign condition rest g,
      p = .ofKind "QueryJoin" (name :: primary :: foreign :: condition :: rest)
      ∧ condition.Holds (Groups.ofPayload .and) g ∧ ¬ g.Compares := by
  rw [Join.ofPayload, Payload.readAs_eq_joinError_iff] at h
  simp only [takes_text.refusesJoin_bind neverJoin_text,
    takes_element.refusesJoin_bind (neverJoin_element Table.noJoinError_ofPayload),
    takes_element.refusesJoin_bind (neverJoin_element noJoinError_foreignOf),
    takes_element.refusesJoin_bind (neverJoin_element (Groups.noJoinError_ofPayload .and)),
    takes_int.refusesJoin_bind neverJoin_int,
    (neverJoin_ofExcept (noJoinError_ofTypeCode _)).refusesJoin_bind,
    neverJoin_trailingText.refusesJoin_bind] at h
  obtain ⟨_, rfl, name, _, _, rfl, -, primary, _, _, rfl, -, foreign, _, _, rfl, -, condition, _, g,
    rfl, hg, h⟩ := h
  -- with comparisons only the join is made, and nothing behind that refuses it
  refine ⟨_, _, _, _, _, g, rfl, hg, fun hcompares => ?_⟩
  obtain ⟨_, _, _, rfl, -, _, _, -, _, _, -, h⟩ := h
  rw [make_and_eq_ok_iff.2 ⟨hcompares, rfl⟩] at h
  cases h

/-- Reading the values of an update refuses no join's condition. -/
theorem Operand.noJoinError_readAll (kind : String) (position : Nat) (items : List Member) :
    NoJoinError (Operand.readAll kind position items) := by
  induction items generalizing position with
  | nil => exact noJoinError_ok []
  | cons m rest ih =>
    exact (noJoinError_ofMember kind position m).bind fun _ _ =>
      (ih (position + 1)).bind fun _ _ => noJoinError_ok _

/-- Where the joins of an update are refused for a condition, one of them is. -/
theorem Update.refusesJoin_joins {f : List Join → Read α} (hf : ∀ joins, (f joins).NeverJoin)
    {kind : String} {position : Nat} {rest : List Member} {cause : JoinError}
    (h : (remaining >>= fun n =>
      if n = 0 then pure [] >>= f else elements Join.ofPayload >>= f).RefusesJoin
      ⟨kind, position, rest⟩ cause) :
    ∃ items after q, rest = .list items :: after ∧ .object q ∈ items
      ∧ Join.ofPayload q = .error (.join cause) := by
  cases rest with
  | nil => exact (hf [] _ _ h).elim
  | cons m after =>
    obtain ⟨items, q, rfl, hmem, hq⟩ :=
      refusesJoin_elements (refusesJoin_of_bind (r := elements Join.ofPayload) hf h)
    exact ⟨items, after, q, rfl, hmem, hq⟩

/-- An update is refused for a join's condition when one of its joins is. -/
theorem Update.join_of_joinError {p : Payload} {cause : JoinError}
    (h : Update.ofPayload p = .error (.join cause)) :
    ∃ table columns values condition items rest q,
      p = .ofKind "QueryUpdate" (table :: columns :: values :: condition :: .list items :: rest)
      ∧ .object q ∈ items ∧ Join.ofPayload q = .error (.join cause) := by
  rw [Update.ofPayload, Payload.readAs_eq_joinError_iff] at h
  simp only [takes_element.refusesJoin_bind (neverJoin_element Table.noJoinError_ofPayload),
    takes_elements.refusesJoin_bind (neverJoin_elements Column.noJoinError_ofPayload),
    takes_list.refusesJoin_bind neverJoin_list,
    (neverJoin_ofExcept (Operand.noJoinError_readAll _ _ _)).refusesJoin_bind,
    refusesJoin_guard (e := .unpairedValues _ _) (by simp),
    takes_optionalElement.refusesJoin_bind
      (neverJoin_optionalElement (Groups.noJoinError_ofPayload .and))] at h
  obtain ⟨_, rfl, table, _, _, rfl, -, columns, _, _, rfl, -, values, _, _, rfl, -, values, d, hd,
    -, condition, rest, _, hrest, -, h⟩ := h
  -- reading the values as operands did not move the cursor
  obtain ⟨-, rfl⟩ := yields_ofExcept.1 hd
  cases hrest
  obtain ⟨items, after, q, rfl, hmem, hq⟩ :=
    refusesJoin_joins (fun _ => neverJoin_pure _) h
  exact ⟨table, columns, _, condition, items, after, q, rfl, hmem, hq⟩

end QueryTree
