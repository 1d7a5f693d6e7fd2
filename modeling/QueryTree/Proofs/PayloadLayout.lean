import Mathlib.Logic.Relation
import QueryTree.Proofs.Reading

/-! # What is wrong with a payload

A payload `Explains` an error if the error names what is missing or misshapen in it or in a payload
nested in it. A reader is `Explained` at a place of a payload if the payload explains each of its
errors there. A read of one member is at a place of its shape (`ReadOp.explained`), and a sequence
of readers is if each of them is at its place. -/

namespace QueryTree

/-! ## Errors that payloads explain -/

/-- The error names a member of a payload. -/
def DecodeError.namesMember : DecodeError → Bool
  | missingMember .. => true
  | unexpectedMember .. => true
  | _ => false

namespace Payload

/-- The payload `q` stands in a member of `p`. -/
def Nests (p q : Payload) : Prop := ∃ m ∈ p.members, m.Nests q

/-- The payload `q` is `p`, or nested in it at some depth. -/
def Reaches : Payload → Payload → Prop := Relation.ReflTransGen Nests

/-- An error that names a member names the kind of the payload or of one nested in it, and there the
number of its members if one is missing, and else the index of a member of the wrong shape. For the
values of an update it names the index in their list. -/
inductive Explains (p : Payload) : DecodeError → Prop where
  | other {e : DecodeError} : e.namesMember = false → Explains p e
  | missing {q : Payload} : p.Reaches q → Explains p (.missingMember q.kind q.members.length)
  | unexpected {q : Payload} {i : ℕ} {m : Member} {shape : FieldShape} {expected : String} :
    p.Reaches q → (layout q.kind)[i]? = some shape → q.members[i]? = some m →
    shape.Misfit expected m → (shape = .operands → expected = "list") →
    Explains p (.unexpectedMember q.kind i expected)
  | assigned {q : Payload} {items : List Member} {i : ℕ} {m : Member} :
    p.Reaches q → q.kind = "QueryUpdate" → q.members[2]? = some (.list items) →
    items[i]? = some m → ¬ m.IsOperand → Explains p (.unexpectedMember q.kind i "operand")

variable {p q : Payload} {e : DecodeError}

/-- A payload explains what a payload below it explains. -/
theorem Explains.of_reaches (h : q.Explains e) (hq : p.Reaches q) : p.Explains e := by
  cases h with
  | other he => exact .other he
  | missing hr => exact .missing (hq.trans hr)
  | unexpected hr hshape hm hmisfit hlist => exact .unexpected (hq.trans hr) hshape hm hmisfit hlist
  | assigned hr hkind hitems hm hoperand => exact .assigned (hq.trans hr) hkind hitems hm hoperand

/-- A payload explains the refusal of a member of its own. -/
theorem Explains.own {i : ℕ} {m : Member} {shape : FieldShape} {expected : String}
    (hshape : (layout p.kind)[i]? = some shape) (hm : p.members[i]? = some m)
    (hmisfit : shape.Misfit expected m) (hne : shape ≠ .operands) :
    p.Explains (.unexpectedMember p.kind i expected) :=
  .unexpected .refl hshape hm hmisfit fun heq => absurd heq hne

/-- What a nested payload explains is explained. -/
theorem Explains.of_nested (h : q.Explains e) {n : ℕ} {m : Member} (hm : p.members[n]? = some m)
    (hq : m.Nests q) : p.Explains e :=
  h.of_reaches (.single ⟨m, List.mem_of_getElem? hm, hq⟩)

/-- The cursor behind so many members. -/
def cursorAt (p : Payload) (n : ℕ) : Cursor := ⟨p.kind, n, p.members.drop n⟩

/-- The next unread member is the one at the place. -/
theorem getElem?_of_drop_eq_cons {n : ℕ} {m : Member} {rest : List Member}
    (h : p.members.drop n = m :: rest) :
    p.members[n]? = some m ∧ rest = p.members.drop (n + 1) := by
  constructor
  · rw [← Nat.add_zero n, ← List.getElem?_drop, h]
    rfl
  · rw [← List.drop_drop, h]
    rfl

end Payload

/-! ## Readers at a place -/

section Readers

variable {α β : Type} {p : Payload} {n : ℕ}

/-- Each error of reading a payload is explained by the payload. -/
def Explaining (read : Payload → Except DecodeError α) : Prop :=
  ∀ q e, read q = .error e → q.Explains e

namespace Read

/-- Behind so many members of the payload, the payload explains each error of the reader. -/
def Explained (r : Read α) (p : Payload) (n : ℕ) : Prop :=
  n ≤ p.members.length → ∀ e, (r (p.cursorAt n)).1 = .error e → p.Explains e

/-- A read is explained if each of its errors is. -/
theorem explained_run {f : Cursor → Except DecodeError α}
    (h : ∀ e, f (p.cursorAt n) = .error e → p.Explains e) :
    Explained (fun c => (f c, c)) p n := fun _ => h

/-- A read that only returns a value has no error to explain. -/
theorem explained_pure (x : α) : (pure x : Read α).Explained p n := by
  intro _ e he
  cases he

/-- A sequence is explained if the reader behind the first one is, at the place where that one
stops. -/
theorem Explained.bind {r : Read α} {f : α → Read β} (hr : r.Explained p n)
    (hf : n ≤ p.members.length → ∀ x d, r.Yields (p.cursorAt n) x d →
      ∃ k ≤ p.members.length, d = p.cursorAt k ∧ (f x).Explained p k) :
    (r >>= f).Explained p n := by
  intro hn e he
  rcases error_bind_iff.1 he with he | ⟨x, d, hx, he⟩
  · exact hr hn e he
  · obtain ⟨k, hk, rfl, hfx⟩ := hf hn x d hx
    exact hfx hk e he

/-- A read that yields a value has taken the next member, which it accepts. -/
theorem Takes.yields_cursorAt {r : Read α} {accepts : Member → α → Prop} (ht : r.Takes accepts)
    {x : α} {d : Cursor} (h : r.Yields (p.cursorAt n) x d) :
    ∃ m, p.members[n]? = some m ∧ accepts m x ∧ d = p.cursorAt (n + 1) := by
  obtain ⟨m, rest, hdrop, hm, rfl⟩ := (ht ..).1 h
  obtain ⟨hget, rfl⟩ := Payload.getElem?_of_drop_eq_cons hdrop
  exact ⟨m, hget, hm, rfl⟩

/-- Behind a reader that takes one member, the next place is read. -/
theorem Takes.explained_bind {r : Read α} {accepts : Member → α → Prop} (ht : r.Takes accepts)
    (hr : r.Explained p n) {f : α → Read β}
    (hf : ∀ m x, p.members[n]? = some m → accepts m x → (f x).Explained p (n + 1)) :
    (r >>= f).Explained p n := by
  refine hr.bind fun _ x d hx => ?_
  obtain ⟨m, hm, haccepts, rfl⟩ := ht.yields_cursorAt hx
  exact ⟨n + 1, (List.getElem?_eq_some_iff.1 hm).1, rfl, hf m x hm haccepts⟩

/-- A result at hand is explained if its error is, and the rest for its value. -/
theorem explained_ofExcept_bind {result : Except DecodeError α} {f : α → Read β}
    (h : ∀ e, result = .error e → p.Explains e)
    (hf : ∀ x, result = .ok x → (f x).Explained p n) : (ofExcept result >>= f).Explained p n := by
  intro hn e he
  rcases error_bind_iff.1 he with he | ⟨x, d, ⟨hx, rfl⟩, he⟩
  · exact h e he
  · exact hf x hx hn e he

/-- A check is explained if its refusal and the rest behind it are. -/
theorem explained_guard {refused : Prop} [Decidable refused] {e : DecodeError}
    (he : p.Explains e) {f : α → Read β} {r : Read β} (hr : r.Explained p n) :
    (if refused then ofExcept (.error e) >>= f else r).Explained p n := by
  split
  · refine explained_ofExcept_bind (fun e' he' => ?_) fun x hx => ?_
    · cases he'
      exact he
    · cases hx
  · exact hr

/-- Asking for the number of remaining members brings no error of its own. -/
theorem explained_remaining_bind {f : ℕ → Read α} (hf : ∀ count, (f count).Explained p n) :
    (remaining >>= f).Explained p n := fun hn e he => hf (p.cursorAt n).remaining hn e he

end Read

/-! ## Readers of one member -/

/-- The payload explains the errors of a read at a place of a shape that its member may have to
have, if nested payloads explain the errors that they are refused with. -/
theorem ReadOp.explained (op : ReadOp α) {shape : FieldShape}
    (hplace : (layout p.kind)[n]? = some shape) (hshape : shape ∈ op.shapes)
    (hnested : ∀ q e, op.Refuses q e → q.Explains e) : op.run.Explained p n := by
  intro hn e he
  rw [run_eq] at he
  obtain ⟨f, hf, rfl⟩ := Except.mapError_eq_error_iff.1 he
  have hnext : (p.cursorAt n).rest.head? = p.members[n]? := List.head?_drop
  rw [hnext] at hf
  cases f with
  | missing =>
    -- the place is the end, so the index is the number of members
    obtain ⟨hnone, -⟩ := outcome_eq_missing_iff.1 hf
    have hlength : n = p.members.length := Nat.le_antisymm hn (List.getElem?_eq_none_iff.1 hnone)
    rw [hlength]
    exact .missing .refl
  | misshapen expected =>
    obtain ⟨m, hm, hfound⟩ := exists_foundIn hf nofun
    obtain ⟨hmisfit, hlist⟩ := hfound shape hshape
    exact .unexpected .refl hplace hm hmisfit hlist
  | nested e =>
    obtain ⟨m, hm, q, hq, hrefused⟩ := exists_foundIn hf nofun
    exact (hnested q e hrefused).of_nested hm hq

namespace Read

/-- Reading a text is explained where the layout has one. -/
theorem explained_text (hplace : (layout p.kind)[n]? = some .text) : text.Explained p n :=
  ReadOp.text.explained hplace List.mem_cons_self fun _ _ => False.elim

/-- Reading an optional text is explained where the layout has one. -/
theorem explained_optionalText (hplace : (layout p.kind)[n]? = some .optionalText) :
    optionalText.Explained p n :=
  ReadOp.optionalText.explained hplace List.mem_cons_self fun _ _ => False.elim

/-- Reading an integer is explained where the layout has one. -/
theorem explained_int (hplace : (layout p.kind)[n]? = some .int) : int.Explained p n :=
  ReadOp.int.explained hplace List.mem_cons_self fun _ _ => False.elim

/-- Reading a list is explained where the layout has values or operands. -/
theorem explained_list {shape : FieldShape} (hplace : (layout p.kind)[n]? = some shape)
    (hlists : shape ∈ [.values, .operands]) : list.Explained p n :=
  ReadOp.list.explained hplace hlists fun _ _ => False.elim

section Nodes

variable {read : Payload → Except DecodeError α} (hread : Explaining read)

include hread

/-- Reading an object is explained where the layout has one. -/
theorem explained_element (hplace : (layout p.kind)[n]? = some .object) :
    (element read).Explained p n :=
  (ReadOp.element read).explained hplace List.mem_cons_self hread

/-- Reading an optional object is explained where the layout has one. -/
theorem explained_optionalElement (hplace : (layout p.kind)[n]? = some .optionalObject) :
    (optionalElement read).Explained p n :=
  (ReadOp.optionalElement read).explained hplace List.mem_cons_self hread

/-- Reading a list of objects is explained where the layout has one. -/
theorem explained_elements (hplace : (layout p.kind)[n]? = some .objects) :
    (elements read).Explained p n :=
  (ReadOp.elements read).explained hplace List.mem_cons_self hread

end Nodes

/-- A text that may be missing is read at the next place or at the end. -/
theorem explained_trailingText_bind (hshape : (layout p.kind)[n]? = some .optionalText)
    {f : Option String → Read α} (hf : ∀ text? k, (f text?).Explained p k) :
    (trailingText >>= f).Explained p n := by
  have htext : trailingText.Explained p n := by
    intro hn e he
    cases hdrop : p.members.drop n with
    | nil =>
      rw [Payload.cursorAt, hdrop] at he
      cases he
    | cons m rest =>
      obtain ⟨hm, rfl⟩ := Payload.getElem?_of_drop_eq_cons hdrop
      rw [Payload.cursorAt, hdrop] at he
      cases m with
      | null => cases he
      | text s => cases he
      | _ =>
        cases he
        exact .own hshape hm (.optionalText nofun nofun) (by decide)
  refine htext.bind fun hn text? d hd => ?_
  obtain ⟨-, rfl⟩ := yields_trailingText.1 hd
  cases hdrop : p.members.drop n with
  | nil => exact ⟨n, hn, by simp [Payload.cursorAt, hdrop], hf text? n⟩
  | cons m rest =>
    obtain ⟨hm, rfl⟩ := Payload.getElem?_of_drop_eq_cons hdrop
    exact ⟨n + 1, (List.getElem?_eq_some_iff.1 hm).1, by simp [Payload.cursorAt], hf text? (n + 1)⟩

end Read

end Readers

end QueryTree
