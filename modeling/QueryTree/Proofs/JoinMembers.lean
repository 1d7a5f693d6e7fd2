import QueryTree.Proofs.RoundTrip

/-! # Readers run on members

Where it is known what the next members hold, a reader runs past them. A join is followed in this
way: of its six members name, tables and comment only have to be there in their shape, and
`Join.ofPayload_members` says what becomes of the other two. In a payload that is read either of
them can be exchanged, and what comes of it depends on the new member alone.
-/

namespace QueryTree

variable {α β : Type}

/-! ## Running readers -/

namespace Read

variable {f : α → Read β} {kind : String} {position : Nat} {rest : List Member} {c d : Cursor}

/-- A read that accepts the next member hands its value on and stands behind the member. -/
theorem Takes.run_bind {r : Read α} {accepts : Member → α → Prop} (hr : r.Takes accepts)
    {m : Member} {x : α} (hm : accepts m x) :
    (r >>= f) ⟨kind, position, m :: rest⟩ = f x ⟨kind, position + 1, rest⟩ := by
  obtain ⟨hvalue, hcursor⟩ := (hr kind position (m :: rest) x _).2 ⟨m, rest, rfl, hm, rfl⟩
  exact bind_of_ok (Prod.ext hvalue hcursor)

/-- A sequence of readers makes what the first one makes, and then what the others make of that. -/
theorem fst_bind {r : Read α} {result : Except DecodeError α} (h : r c = (result, d)) :
    ((r >>= f) c).1 = result >>= fun x => (f x d).1 := by
  cases result with
  | error e =>
    rw [bind_of_error h]
    rfl
  | ok x =>
    rw [bind_of_ok h]
    rfl

/-- A result that is at hand is passed on, value or error, without moving the cursor. -/
theorem fst_ofExcept_bind (result : Except DecodeError α) :
    ((ofExcept result >>= f) c).1 = result >>= fun x => (f x c).1 :=
  fst_bind rfl

/-- A value at hand is passed on from where the cursor stands. -/
theorem ofExcept_ok_bind (x : α) : (ofExcept (.ok x) >>= f) c = f x c :=
  bind_of_ok rfl

/-- An object member is read with the given decoder, and reading goes on behind it. -/
theorem fst_element_bind (read : Payload → Except DecodeError α) (p : Payload) :
    ((element read >>= f) ⟨kind, position, .object p :: rest⟩).1
      = read p >>= fun x => (f x ⟨kind, position + 1, rest⟩).1 :=
  fst_bind rfl

/-- An optional object that was written is read if it is there, and reading goes on behind it. -/
theorem fst_optionalElement_bind {γ : Type} {g : Option α → Read β}
    (read : Payload → Except DecodeError α) (write : γ → Payload) (x? : Option γ) :
    ((optionalElement read >>= g) ⟨kind, position, .optionalObject (x?.map write) :: rest⟩).1
      = x?.mapM (fun x => read (write x)) >>= fun y? => (g y? ⟨kind, position + 1, rest⟩).1 := by
  cases x? <;> exact fst_bind rfl

/-- Written nodes in a list are read one by one. -/
theorem nodesOf_map_object {γ : Type} (mismatch : DecodeError)
    (read : Payload → Except DecodeError α) (write : γ → Payload) (xs : List γ) :
    nodesOf mismatch read (xs.map fun x => .object (write x))
      = xs.mapM fun x => read (write x) := by
  induction xs with
  | nil => rfl
  | cons x xs ih => rw [List.map_cons, nodesOf, ih, List.mapM_cons]

/-- The number of remaining members is known without moving the cursor. -/
theorem run_remaining_bind {g : Nat → Read β} : (remaining >>= g) c = g c.remaining c :=
  bind_of_ok rfl

/-- A trailing text is what the end of the members says, and reading goes on behind it. -/
theorem run_trailingText_bind {g : Option String → Read β} {text? : Option String}
    (h : Member.TrailingText rest text?) :
    (trailingText >>= g) ⟨kind, position, rest⟩
      = g text? ⟨kind, position + min rest.length 1, rest.tail⟩ := by
  obtain ⟨hvalue, hcursor⟩ := yields_trailingText.2 ⟨h, rfl⟩
  exact bind_of_ok (Prod.ext hvalue hcursor)

end Read

/-- Reading a payload as its own kind starts the read at its first member. -/
theorem Payload.readAs_ofKind (kind : String) (r : Read α) (members : List Member) :
    readAs kind r (.ofKind kind members) = (r ⟨kind, 0, members⟩).1 := by
  rw [readAs, openAs_eq_ok_iff.2 ⟨members, rfl, rfl⟩]
  rfl

/-! ## One member of a join exchanged -/

/-- The payload with another member at the index. -/
def Payload.setMember (p : Payload) (index : Nat) (m : Member) : Payload :=
  { p with members := p.members.set index m }

namespace Join

/-- What is made of the condition and the type of a join when the other members are read. -/
theorem ofPayload_members {primary foreign : Member} {t : Table} {r : TableRef}
    {rest : List Member} {comment? : Option String} (hprimary : primary.Holds Table.ofPayload t)
    (hforeign : ForeignHeldBy foreign r) (hrest : Member.TrailingText rest comment?)
    (name : String) (q : Payload) (code : Int64) :
    Join.ofPayload (.ofKind "QueryJoin"
        (.text name :: primary :: foreign :: .object q :: .int code :: rest)) = do
      let condition ← Groups.ofPayload .and q
      let held ← ofTypeCode code
      let join ← (make name t r (.composite .and condition) held.1 held.2).mapError .join
      return { join with comment? := comment? } := by
  rw [Join.ofPayload, Payload.readAs_ofKind, Read.takes_text.run_bind rfl,
    Read.takes_element.run_bind hprimary,
    Read.takes_element.run_bind (holds_foreignOf_iff.2 hforeign), Read.fst_element_bind]
  congr 1
  funext condition
  rw [Read.takes_int.run_bind rfl, Read.fst_ofExcept_bind]
  congr 1
  funext held
  dsimp only
  rw [Read.run_trailingText_bind hrest, Read.fst_ofExcept_bind]
  rfl

/-- A written join with another condition: the condition is checked as if the join were made with
it, and the other fields stay. -/
theorem ofPayload_toPayload_setCondition (j : Join) (q : Payload) :
    Join.ofPayload (j.toPayload.setMember 3 (.object q)) = do
      let condition ← Groups.ofPayload .and q
      let join ← (make j.name j.primary j.foreign (.composite .and condition) j.type
        j.permanent).mapError .join
      return { join with comment? := j.comment? } := by
  have hcomment : Member.TrailingText [.optionalText j.comment?] j.comment? := .inr ⟨[], rfl⟩
  have hread := ofPayload_members (Member.holds_object.2 j.primary.ofPayload_toPayload)
    (.inr (Member.holds_object.2 j.foreign.ofPayload_toPayload)) hcomment j.name q j.typeCode
  rw [ofTypeCode_typeCode] at hread
  exact hread

/-- A payload of a join with another type: the other fields stay. -/
theorem ofPayload_setType {p : Payload} {i : Join} (h : Join.ofPayload p = .ok i) (code : Int64) :
    Join.ofPayload (p.setMember 4 (.int code))
      = (ofTypeCode code).map fun t => { i with type := t.1, permanent := t.2 } := by
  obtain ⟨primary, foreign, condition, _, rest, rfl, hprimary, hforeign, ⟨q, rfl, hcondition⟩, -,
    hrest, hall, horigin⟩ := ofPayload_eq_ok_iff.1 h
  have hread := ofPayload_members hprimary hforeign hrest i.name q code
  rw [hcondition] at hread
  refine hread.trans ?_
  cases ofTypeCode code with
  | error e => rfl
  | ok t =>
    have hmade : make i.name i.primary i.foreign (.composite .and i.condition) t.1 t.2
        = .ok ⟨i.name, i.primary, i.foreign, i.condition, t.1, t.2, none, none⟩ :=
      make_and_eq_ok_iff.2 ⟨hall, rfl⟩
    show (do
      let join ← Except.mapError DecodeError.join
        (make i.name i.primary i.foreign (.composite .and i.condition) t.1 t.2)
      return { join with comment? := i.comment? }) = _
    rw [hmade]
    cases i
    cases horigin
    rfl

end Join

end QueryTree
