import Mathlib.Data.List.Forall2
import QueryTree.Proofs.ReadOps

/-! # What readers accept

`Read.Yields` says that a reader goes from one cursor to another and makes a result. Most readers
take one member: `Read.Takes` gives the members that such a reader accepts, so that a sequence of
readers becomes a list of members.
-/

namespace QueryTree

variable {α β : Type}

/-- In lists of what is held, each thing is held by an item of the other list. -/
theorem exists_mem_of_forall₂ {holds : α → β → Prop} {as : List α} {bs : List β}
    (h : List.Forall₂ holds as bs) {b : β} (hb : b ∈ bs) : ∃ a ∈ as, holds a b := by
  induction h with
  | nil => cases hb
  | @cons a _ as _ hhead _ ih =>
    rcases List.mem_cons.1 hb with rfl | hb
    · exact ⟨a, List.mem_cons_self, hhead⟩
    · obtain ⟨a', ha, hhold⟩ := ih hb
      exact ⟨a', List.mem_cons_of_mem _ ha, hhold⟩

namespace Member

/-- The member is a nested payload that reads as `x`. -/
def Holds (read : Payload → Except DecodeError α) (m : Member) (x : α) : Prop :=
  ∃ p, m = .object p ∧ read p = .ok x

/-- The member is null for a missing node, and else a nested payload that reads as the node. -/
def HoldsOptional (read : Payload → Except DecodeError α) (m : Member) : Option α → Prop
  | none => m = .null
  | some x => m.Holds read x

/-- The member is a list that holds nodes one by one, or null for no nodes. -/
def HoldsAll (read : Payload → Except DecodeError α) (m : Member) (xs : List α) : Prop :=
  m = .null ∧ xs = [] ∨ ∃ items, m = .list items ∧ List.Forall₂ (Holds read) items xs

/-- Members that were added later give a text: the first of them holds it, or there are none. -/
def TrailingText (rest : List Member) (text? : Option String) : Prop :=
  rest = [] ∧ text? = none ∨ ∃ after, rest = .optionalText text? :: after

end Member

namespace Read

/-- From cursor `c` the reader makes `x`, and it leaves cursor `d`. -/
def Yields (r : Read α) (c : Cursor) (x : α) (d : Cursor) : Prop :=
  (r c).1 = .ok x ∧ (r c).2 = d

/-- The reader makes `x` of the next member exactly when it accepts the member as `x`. -/
def Takes (r : Read α) (accepts : Member → α → Prop) : Prop :=
  ∀ kind position members x d, r.Yields ⟨kind, position, members⟩ x d
    ↔ ∃ m rest, members = m :: rest ∧ accepts m x ∧ ⟨kind, position + 1, rest⟩ = d

/-! ## Sequences of readers -/

/-- A reader that only makes a result stays where it is. -/
theorem yields_pure {x y : α} {c d : Cursor} :
    (pure x : Read α).Yields c y d ↔ x = y ∧ c = d := by
  show Except.ok x = .ok y ∧ c = d ↔ _
  rw [Except.ok.injEq]

/-- Behind a reader that made a result, a sequence goes on with the result. -/
theorem bind_of_ok {r : Read α} {f : α → Read β} {c d : Cursor} {x : α} (h : r c = (.ok x, d)) :
    (r >>= f) c = f x d := by
  simp only [bind, ExceptT.bind, ExceptT.mk, StateT.bind, h, ExceptT.bindCont]

/-- A sequence stops where its first reader fails. -/
theorem bind_of_error {r : Read α} {f : α → Read β} {c d : Cursor} {e : DecodeError}
    (h : r c = (.error e, d)) : (r >>= f) c = (.error e, d) := by
  simp only [bind, ExceptT.bind, ExceptT.mk, StateT.bind, h, ExceptT.bindCont]
  rfl

/-- A sequence makes a result exactly if its readers do, one behind the other. -/
theorem yields_bind {r : Read α} {f : α → Read β} {c e : Cursor} {y : β} :
    (r >>= f).Yields c y e ↔ ∃ x d, r.Yields c x d ∧ (f x).Yields d y e := by
  unfold Yields
  rcases hr : r c with ⟨err | x, d⟩
  · rw [bind_of_error hr]
    simp
  · rw [bind_of_ok hr]
    simp

/-- A sequence fails in the first reader, or behind it. -/
theorem error_bind_iff {r : Read α} {f : α → Read β} {c : Cursor} {e : DecodeError} :
    ((r >>= f) c).1 = .error e
      ↔ (r c).1 = .error e ∨ ∃ x d, r.Yields c x d ∧ (f x d).1 = .error e := by
  unfold Yields
  rcases hr : r c with ⟨err | x, d⟩
  · rw [bind_of_error hr]
    simp
  · rw [bind_of_ok hr]
    simp

/-- A reader that looks at the cursor only does not move it. -/
theorem yields_run {f : Cursor → Except DecodeError α} {c d : Cursor} {x : α} :
    Yields (fun c => (f c, c)) c x d ↔ f c = .ok x ∧ c = d := Iff.rfl

/-- A result that was there before is made without moving. -/
theorem yields_ofExcept {result : Except DecodeError α} {c d : Cursor} {x : α} :
    (ofExcept result).Yields c x d ↔ result = .ok x ∧ c = d := Iff.rfl

/-- A refusal makes no result. -/
theorem yields_refuse {expected : String} {c d : Cursor} {x : α} :
    (refuse expected : Read α).Yields c x d ↔ False := by
  simp [Yields, refuse]

/-- The number of unread members can be asked for without reading any. -/
theorem yields_remaining_bind {f : Nat → Read β} {c e : Cursor} {y : β} :
    (remaining >>= f).Yields c y e ↔ (f c.rest.length).Yields c y e := by
  rw [yields_bind]
  constructor
  · rintro ⟨n, d, ⟨hn, rfl⟩, hf⟩
    cases hn
    exact hf
  · intro hf
    exact ⟨_, c, ⟨rfl, rfl⟩, hf⟩

/-- A sequence behind a result that was there before starts at the same cursor. -/
theorem yields_ofExcept_bind {result : Except DecodeError α} {f : α → Read β} {c e : Cursor}
    {y : β} :
    (ofExcept result >>= f).Yields c y e ↔ ∃ x, result = .ok x ∧ (f x).Yields c y e := by
  rw [yields_bind]
  constructor
  · rintro ⟨x, _, ⟨hx, rfl⟩, hf⟩
    exact ⟨x, hx, hf⟩
  · rintro ⟨x, hx, hf⟩
    exact ⟨x, c, yields_ofExcept.2 ⟨hx, rfl⟩, hf⟩

/-- A refusal under a condition makes the reader go on exactly without the condition. -/
theorem yields_guard {refused : Prop} [Decidable refused] {error : DecodeError} {f : α → Read β}
    {r : Read β} {c d : Cursor} {y : β} :
    (if refused then ofExcept (.error error) >>= f else r).Yields c y d
      ↔ ¬ refused ∧ r.Yields c y d := by
  by_cases h : refused
  · rw [if_pos h, yields_ofExcept_bind]
    simp [h]
  · simp [h]

/-- After a reader that takes one member, the rest of a sequence reads the other members. -/
theorem Takes.bind {r : Read α} {accepts : Member → α → Prop} (hr : r.Takes accepts)
    {f : α → Read β} {kind : String} {position : Nat} {members : List Member} {y : β} {e : Cursor} :
    (r >>= f).Yields ⟨kind, position, members⟩ y e
      ↔ ∃ m rest x, members = m :: rest ∧ accepts m x
        ∧ (f x).Yields ⟨kind, position + 1, rest⟩ y e := by
  rw [yields_bind]
  constructor
  · rintro ⟨x, d, hx, hf⟩
    obtain ⟨m, rest, hmembers, hm, rfl⟩ := (hr ..).1 hx
    exact ⟨m, rest, x, hmembers, hm, hf⟩
  · rintro ⟨m, rest, x, hmembers, hm, hf⟩
    exact ⟨x, _, (hr ..).2 ⟨m, rest, hmembers, hm, rfl⟩, hf⟩

/-- A reader takes members as what they are accepted as, however that is put. -/
theorem Takes.congr {r : Read α} {accepts accepts' : Member → α → Prop} (hr : r.Takes accepts)
    (h : ∀ m x, accepts m x ↔ accepts' m x) : r.Takes accepts' := by
  intro kind position members x d
  simp only [← h]
  exact hr ..

end Read

/-! ## Readers of one member -/

/-- A read that needs a member takes it as what it makes of it. -/
theorem ReadOp.takes (op : ReadOp α) (hop : op.isOptional = false) :
    op.run.Takes fun m x => op.ofMember m = .ok x := by
  intro kind position members x d
  cases members with
  | nil =>
    have hmissing : op.atEnd = .error .missing := by
      cases op <;> first | rfl | cases hop
    rw [Read.Yields, op.run_nil, hmissing, Except.mapError_eq_ok_iff]
    simp
  | cons m rest =>
    rw [Read.Yields, op.run_cons, Except.mapError_eq_ok_iff]
    simp

namespace Read

/-- A text is read from a text, and from nothing else. -/
theorem takes_text : text.Takes fun m s => m = .text s :=
  (ReadOp.text.takes rfl).congr fun m s => by cases m <;> simp [ReadOp.ofMember]

/-- An optional text is read from the member that stands for it. -/
theorem takes_optionalText : optionalText.Takes fun m text? => m = .optionalText text? :=
  (ReadOp.optionalText.takes rfl).congr fun m text? => by
    cases m <;> cases text? <;> simp [ReadOp.ofMember, Member.optionalText]

/-- An integer is read from an integer. -/
theorem takes_int : int.Takes fun m n => m = .int n :=
  (ReadOp.int.takes rfl).congr fun m n => by cases m <;> simp [ReadOp.ofMember]

/-- The items of a list are read from a list. -/
theorem takes_list : list.Takes fun m items => m = .list items :=
  (ReadOp.list.takes rfl).congr fun m items => by cases m <;> simp [ReadOp.ofMember]

section Nodes

variable {read : Payload → Except DecodeError α}

/-- A node is read from a nested payload that reads as the node. -/
theorem takes_element : (element read).Takes (Member.Holds read) :=
  ((ReadOp.element read).takes rfl).congr fun m x => by
    cases m <;> simp [ReadOp.ofMember, ReadOp.nodeOf, Except.mapError_eq_ok_iff, Member.Holds]

/-- An optional node is read from null, or from a nested payload that reads as the node. -/
theorem takes_optionalElement : (optionalElement read).Takes (Member.HoldsOptional read) :=
  ((ReadOp.optionalElement read).takes rfl).congr fun m x? => by
    cases m <;> cases x? <;>
      simp [ReadOp.ofMember, ReadOp.nodeOf, Except.map_eq_ok_iff, Except.mapError_eq_ok_iff,
        Member.HoldsOptional, Member.Holds]

/-- A list of members reads as nodes when each of them holds its node. -/
theorem itemsOf_eq_ok_iff {items : List Member} {xs : List α} :
    items.mapM (ReadOp.itemOf read) = .ok xs ↔ List.Forall₂ (Member.Holds read) items xs := by
  have hitem : ∀ {m : Member} {x : α}, ReadOp.itemOf read m = .ok x ↔ m.Holds read x := by
    intro m x
    cases m <;> simp [ReadOp.itemOf, ReadOp.nodeOf, Except.mapError_eq_ok_iff, Member.Holds]
  induction items generalizing xs with
  | nil => cases xs <;> simp [pure, Except.pure]
  | cons m rest ih =>
    simp only [List.mapM_cons, Except.bind_eq_ok_iff, hitem, ih]
    cases xs <;> simp [pure, Except.pure]

/-- Nodes are read from null, or from a list of payloads that read as these nodes. -/
theorem takes_elements : (elements read).Takes (Member.HoldsAll read) :=
  ((ReadOp.elements read).takes rfl).congr fun m xs => by
    cases m with
    | null => simp [ReadOp.ofMember, Member.HoldsAll, eq_comm]
    | list items =>
      rw [ReadOp.ofMember, itemsOf_eq_ok_iff]
      simp [Member.HoldsAll]
    | _ => simp [ReadOp.ofMember, Member.HoldsAll]

end Nodes

/-! ## Members that may be missing -/

section Optional

variable {kind : String} {position : Nat} {members : List Member} {d : Cursor}

/-- The next member is read if there is one; otherwise the cursor stays. -/
theorem yields_nextOptional {m? : Option Member} :
    nextOptional.Yields ⟨kind, position, members⟩ m? d
      ↔ members = [] ∧ m? = none ∧ ⟨kind, position, []⟩ = d
        ∨ ∃ m rest, members = m :: rest ∧ m? = some m ∧ ⟨kind, position + 1, rest⟩ = d := by
  cases members <;> simp [Yields, nextOptional, eq_comm]

/-- A text that may be missing is read from the next member, or from the end. -/
theorem yields_trailingText {text? : Option String} :
    trailingText.Yields ⟨kind, position, members⟩ text? d
      ↔ Member.TrailingText members text?
        ∧ ⟨kind, position + min members.length 1, members.tail⟩ = d := by
  rw [trailingText, yields_bind]
  constructor
  · rintro ⟨m?, c, hm, hf⟩
    rcases yields_nextOptional.1 hm with ⟨rfl, rfl, rfl⟩ | ⟨m, rest, rfl, rfl, rfl⟩
    · obtain ⟨rfl, rfl⟩ := yields_pure.1 hf
      exact ⟨.inl ⟨rfl, rfl⟩, rfl⟩
    · cases m with
      | null =>
        obtain ⟨rfl, rfl⟩ := yields_pure.1 hf
        exact ⟨.inr ⟨rest, rfl⟩, by simp⟩
      | text s =>
        obtain ⟨rfl, rfl⟩ := yields_pure.1 hf
        exact ⟨.inr ⟨rest, rfl⟩, by simp⟩
      | _ => exact (yields_refuse.1 hf).elim
  · rintro ⟨⟨rfl, rfl⟩ | ⟨after, rfl⟩, rfl⟩
    · exact ⟨none, _, yields_nextOptional.2 (.inl ⟨rfl, rfl, rfl⟩), yields_pure.2 ⟨rfl, rfl⟩⟩
    · refine ⟨_, _, yields_nextOptional.2 (.inr ⟨_, after, rfl, rfl, rfl⟩), ?_⟩
      cases text? <;> exact yields_pure.2 ⟨rfl, by simp⟩

/-- Behind a text that may be missing, a sequence goes on with the other members. -/
theorem yields_trailingText_bind {f : Option String → Read β} {y : β} {e : Cursor} :
    (trailingText >>= f).Yields ⟨kind, position, members⟩ y e
      ↔ ∃ text?, Member.TrailingText members text?
        ∧ (f text?).Yields ⟨kind, position + min members.length 1, members.tail⟩ y e := by
  rw [yields_bind]
  constructor
  · rintro ⟨text?, d, hyields, hf⟩
    obtain ⟨htext, rfl⟩ := yields_trailingText.1 hyields
    exact ⟨text?, htext, hf⟩
  · rintro ⟨text?, htext, hf⟩
    exact ⟨text?, _, yields_trailingText.2 ⟨htext, rfl⟩, hf⟩

end Optional

end Read

namespace Payload

variable {kind : String} {p : Payload}

/-- Payloads of kinds are equal when the kinds and the members are. -/
@[simp] theorem ofKind_inj {kind' : String} {ms ns : List Member} :
    ofKind kind ms = .ofKind kind' ns ↔ kind = kind' ∧ ms = ns := by
  simp [ofKind]

/-- A payload opens as a kind when it is of this family and of the kind. -/
theorem openAs_eq_ok_iff {c : Cursor} :
    p.openAs kind = .ok c ↔ ∃ members, p = .ofKind kind members ∧ c = .start kind members := by
  obtain ⟨domain, found, members⟩ := p
  by_cases hd : domain = queryDomain
  · by_cases hk : found = kind
    · subst hd hk
      simp [openAs, checkDomain, isKind, ofKind, bind, Except.bind, pure, Except.pure, eq_comm]
    · simp [openAs, checkDomain, isKind, ofKind, bind, Except.bind, hd, hk, throw, throwThe,
        MonadExceptOf.throw]
  · simp [openAs, checkDomain, ofKind, bind, Except.bind, hd]

/-- A payload is read by a reader of the kind when it opens as the kind, and the reader accepts its
members. -/
theorem readAs_eq_ok_iff {r : Read α} {x : α} :
    readAs kind r p = .ok x
      ↔ ∃ members d, p = .ofKind kind members ∧ r.Yields ⟨kind, 0, members⟩ x d := by
  rw [readAs, Except.bind_eq_ok_iff]
  constructor
  · rintro ⟨c, hc, hr⟩
    obtain ⟨members, hp, rfl⟩ := openAs_eq_ok_iff.1 hc
    exact ⟨members, _, hp, hr, rfl⟩
  · rintro ⟨members, d, hp, hr, -⟩
    exact ⟨_, openAs_eq_ok_iff.2 ⟨members, hp, rfl⟩, hr⟩

end Payload

end QueryTree
