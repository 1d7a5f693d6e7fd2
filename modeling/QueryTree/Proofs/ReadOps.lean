import QueryTree.Payload.Decode
import QueryTree.Proofs.FieldShapes

/-! # Reads of one member

A read looks at the next member and at nothing else, and moves the cursor behind it whether it
accepts the member or not (`ReadOp.run_cons`, `ReadOp.run_nil`). What it makes of the member is told
by `ReadOp.ofMember`, and what is wrong with a member that it does not accept by
`ReadOp.foundIn_of_ofMember`. All that is known of a single read follows from these. -/

namespace QueryTree

section Results

variable {α β : Type}

/-- A sequence makes a result exactly if both its parts do. -/
theorem Except.bind_eq_ok_iff {ε : Type} {x : Except ε α} {f : α → Except ε β} {b : β} :
    (x >>= f) = .ok b ↔ ∃ a, x = .ok a ∧ f a = .ok b := by
  cases x <;> simp [Bind.bind, Except.bind]

/-- A sequence fails in its first part, or behind it in the second. -/
theorem Except.bind_eq_error_iff {ε : Type} {x : Except ε α} {f : α → Except ε β} {e : ε} :
    (x >>= f) = .error e ↔ x = .error e ∨ ∃ a, x = .ok a ∧ f a = .error e := by
  cases x <;> simp [Bind.bind, Except.bind]

/-- A changed result comes from a result. -/
theorem Except.map_eq_ok_iff {ε : Type} {x : Except ε α} {f : α → β} {b : β} :
    x.map f = .ok b ↔ ∃ a, x = .ok a ∧ f a = b := by
  cases x <;> simp [Except.map]

/-- Changing the result leaves errors as they are. -/
theorem Except.map_eq_error_iff {ε : Type} {x : Except ε α} {f : α → β} {e : ε} :
    x.map f = .error e ↔ x = .error e := by
  cases x <;> simp [Except.map]

/-- Changing the error leaves results as they are. -/
theorem Except.mapError_eq_ok_iff {ε δ : Type} {x : Except ε α} {f : ε → δ} {a : α} :
    x.mapError f = .ok a ↔ x = .ok a := by
  cases x with
  | error e => exact iff_of_false nofun nofun
  | ok b =>
    show (Except.ok b : Except δ α) = .ok a ↔ _
    simp

/-- A changed error comes from an error. -/
theorem Except.mapError_eq_error_iff {ε δ : Type} {x : Except ε α} {f : ε → δ} {d : δ} :
    x.mapError f = .error d ↔ ∃ e, x = .error e ∧ f e = d := by
  cases x with
  | error e =>
    show (Except.error (f e) : Except δ α) = .error d ↔ _
    simp
  | ok b => exact iff_of_false nofun nofun

end Results

/-- What keeps a read from making a result: there is no member, it does not have the expected shape,
or a nested payload in it cannot be read. -/
inductive Fault where
  | missing
  | misshapen (expected : String)
  | nested (error : DecodeError)

/-- The error for a fault in the member at an index. A nested payload has made its error already. -/
def Fault.error (kind : String) (index : Nat) : Fault → DecodeError
  | missing => .missingMember kind index
  | misshapen expected => .unexpectedMember kind index expected
  | nested e => e

/-- The cursor behind the next member, if there is one. -/
def Cursor.forward (c : Cursor) : Cursor :=
  ⟨c.kind, c.position + c.rest.head?.toList.length, c.rest.tail⟩

/-- The reads of a cursor, by what they make. -/
inductive ReadOp : Type → Type 1 where
  | next : ReadOp Member
  | nextOptional : ReadOp (Option Member)
  | text : ReadOp String
  | optionalText : ReadOp (Option String)
  | int : ReadOp Int64
  | list : ReadOp (List Member)
  | object : ReadOp Payload
  | element {α : Type} (read : Payload → Except DecodeError α) : ReadOp α
  | optionalElement {α : Type} (read : Payload → Except DecodeError α) : ReadOp (Option α)
  | elements {α : Type} (read : Payload → Except DecodeError α) : ReadOp (List α)
  | operand : ReadOp Operand

namespace ReadOp

variable {α : Type}

/-- The read itself. -/
def run : ReadOp α → Read α
  | next => Read.next
  | nextOptional => Read.nextOptional
  | text => Read.text
  | optionalText => Read.optionalText
  | int => Read.int
  | list => Read.list
  | object => Read.object
  | element read => Read.element read
  | optionalElement read => Read.optionalElement read
  | elements read => Read.elements read
  | operand => Operand.read

/-- The read does without a member if none remains. -/
def isOptional : ReadOp α → Bool
  | nextOptional => true
  | _ => false

/-- A nested payload as a node. -/
def nodeOf (read : Payload → Except DecodeError α) (p : Payload) : Except Fault α :=
  (read p).mapError .nested

/-- An item of a list as a node. -/
def itemOf (read : Payload → Except DecodeError α) : Member → Except Fault α
  | .object p => nodeOf read p
  | _ => .error (.misshapen "list of objects")

/-- What the read makes of a member. -/
def ofMember : ReadOp α → Member → Except Fault α
  | next, m => .ok m
  | nextOptional, m => .ok (some m)
  | text, .text s => .ok s
  | text, _ => .error (.misshapen "text")
  | optionalText, .null => .ok none
  | optionalText, .text s => .ok (some s)
  | optionalText, _ => .error (.misshapen "text")
  | int, .int n => .ok n
  | int, _ => .error (.misshapen "int")
  | list, .list items => .ok items
  | list, _ => .error (.misshapen "list")
  | object, .object p => .ok p
  | object, _ => .error (.misshapen "object")
  | element read, .object p => nodeOf read p
  | element _, _ => .error (.misshapen "object")
  | optionalElement _, .null => .ok none
  | optionalElement read, .object p => (nodeOf read p).map some
  | optionalElement _, _ => .error (.misshapen "object")
  | elements _, .null => .ok []
  | elements read, .list items => items.mapM (itemOf read)
  | elements _, _ => .error (.misshapen "list")
  | operand, .null => .ok (.value .null)
  | operand, .value v => .ok (.value v)
  | operand, .object p =>
    if p.isKind "QueryColumn" then (nodeOf Column.ofPayload p).map .column
    else if p.isKind "AnyValues" then (nodeOf AnyOf.ofPayload p).map .anyOf
    else .error (.misshapen "operand")
  | operand, _ => .error (.misshapen "operand")

/-- What the read makes where no member remains. -/
def atEnd : ReadOp α → Except Fault α
  | nextOptional => .ok none
  | _ => .error .missing

/-- What the read makes of the next member, if there is one. -/
def outcome (op : ReadOp α) : Option Member → Except Fault α
  | none => op.atEnd
  | some m => op.ofMember m

/-! ## One read -/

section Step

variable {kind : String} {position : Nat}

/-- The error of a nested payload is handed on as it is. -/
theorem mapError_nodeOf (read : Payload → Except DecodeError α) (p : Payload) :
    (nodeOf read p).mapError (Fault.error kind position) = read p := by
  rw [nodeOf]
  cases read p <;> rfl

/-- So it is if the node is changed afterwards. -/
theorem mapError_map_nodeOf {β : Type} (read : Payload → Except DecodeError α) (f : α → β)
    (p : Payload) :
    ((nodeOf read p).map f).mapError (Fault.error kind position) = (read p).map f := by
  rw [nodeOf]
  cases read p <;> rfl

/-- The items of a list, read one by one, are what `Read.nodesOf` makes of the list. -/
theorem mapError_itemsOf (read : Payload → Except DecodeError α) (items : List Member) :
    (items.mapM (itemOf read)).mapError (Fault.error kind position)
      = Read.nodesOf (.unexpectedMember kind position "list of objects") read items := by
  induction items with
  | nil => rfl
  | cons m rest ih =>
    rw [List.mapM_cons]
    cases m with
    | object p =>
      rw [itemOf, nodeOf, Read.nodesOf, ← ih]
      cases read p with
      | error e => rfl
      | ok x => cases rest.mapM (itemOf read) <;> rfl
    | _ => rfl

/-- The operand in a member is what `Operand.ofMember` makes of the member. -/
theorem mapError_operand (m : Member) :
    (operand.ofMember m).mapError (Fault.error kind position)
      = Operand.ofMember (.unexpectedMember kind position "operand") m := by
  cases m with
  | object p =>
    rw [ofMember, Operand.ofMember]
    split
    · exact mapError_map_nodeOf _ _ p
    · split
      · exact mapError_map_nodeOf _ _ p
      · rfl
  | _ => rfl

/-- A read looks at the next member and moves the cursor behind it, accepted or not. -/
theorem run_cons (op : ReadOp α) (m : Member) (rest : List Member) :
    op.run ⟨kind, position, m :: rest⟩
      = ((op.ofMember m).mapError (Fault.error kind position), ⟨kind, position + 1, rest⟩) := by
  cases op with
  | element read =>
    cases m with
    | object p => exact Prod.ext (mapError_nodeOf read p).symm rfl
    | _ => rfl
  | optionalElement read =>
    cases m with
    | object p => exact Prod.ext (mapError_map_nodeOf read some p).symm rfl
    | _ => rfl
  | elements read =>
    cases m with
    | list items => exact Prod.ext (mapError_itemsOf read items).symm rfl
    | _ => rfl
  | operand => exact Prod.ext (mapError_operand m).symm rfl
  | _ => cases m <;> rfl

/-- A read at the end of the list stays there. -/
theorem run_nil (op : ReadOp α) :
    op.run ⟨kind, position, []⟩
      = (op.atEnd.mapError (Fault.error kind position), ⟨kind, position, []⟩) := by
  cases op <;> rfl

end Step

/-- From any cursor a read looks at the next member, if there is one. -/
theorem run_eq (op : ReadOp α) (c : Cursor) :
    op.run c = ((op.outcome c.rest.head?).mapError (Fault.error c.kind c.position), c.forward) := by
  obtain ⟨kind, position, rest⟩ := c
  cases rest with
  | nil => exact op.run_nil
  | cons m rest => exact op.run_cons m rest

/-! ## Faults -/

/-- The read cannot make a node of a nested payload, with this error. -/
def Refuses : ReadOp α → Payload → DecodeError → Prop
  | element read, p, e => read p = .error e
  | optionalElement read, p, e => read p = .error e
  | elements read, p, e => read p = .error e
  | operand, p, e =>
    p.isKind "QueryColumn" ∧ Column.ofPayload p = .error e
    ∨ p.isKind "AnyValues" ∧ AnyOf.ofPayload p = .error e
  | _, _, _ => False

/-- The error is one that the read has from a payload in the member. -/
def HandsOn (op : ReadOp α) (m : Member) (e : DecodeError) : Prop :=
  ∃ p, m.Nests p ∧ op.Refuses p e

/-- The shapes that a member may have to have where it is read in this way. -/
def shapes : ReadOp α → List FieldShape
  | next => []
  | nextOptional => []
  | text => [.text]
  | optionalText => [.optionalText]
  | int => [.int]
  | list => [.values, .operands]
  | object => [.object]
  | element _ => [.object]
  | optionalElement _ => [.optionalObject]
  | elements _ => [.objects]
  | operand => [.operand]

/-- The member does not fit any shape that it may have to have. Of a list of operands only the list
itself is refused, and its items are read by their own. -/
def Misfits (op : ReadOp α) (expected : String) (m : Member) : Prop :=
  ∀ shape ∈ op.shapes, shape.Misfit expected m ∧ (shape = .operands → expected = "list")

/-- The fault is one of the member: of its shape, or of a payload in it. -/
def FoundIn (op : ReadOp α) (m : Member) : Fault → Prop
  | .missing => False
  | .misshapen expected => op.Misfits expected m
  | .nested e => op.HandsOn m e

/-- A read of a single shape refuses what does not fit this shape. -/
theorem misfits_of_shape {op : ReadOp α} {shape : FieldShape} {expected : String} {m : Member}
    (h : shape.Misfit expected m) (hshapes : op.shapes = [shape]) (hne : shape ≠ .operands) :
    op.Misfits expected m := by
  intro shape' hmem
  rw [hshapes, List.mem_singleton] at hmem
  subst hmem
  exact ⟨h, fun heq => absurd heq hne⟩

/-- A payload is no node only because reading it failed. -/
theorem nodeOf_eq_error {read : Payload → Except DecodeError α} {p : Payload} {f : Fault}
    (h : nodeOf read p = .error f) : ∃ e, f = .nested e ∧ read p = .error e := by
  obtain ⟨e, hread, rfl⟩ := Except.mapError_eq_error_iff.1 h
  exact ⟨e, rfl, hread⟩

/-- What a payload is refused for is found in the member that is this payload. -/
theorem foundIn_of_nodeOf {β : Type} {read : Payload → Except DecodeError β} {p : Payload}
    {f : Fault} {op : ReadOp α} (h : nodeOf read p = .error f)
    (hread : ∀ e, read p = .error e → op.Refuses p e) : op.FoundIn (.object p) f := by
  obtain ⟨e, rfl, he⟩ := nodeOf_eq_error h
  exact ⟨p, .object p, hread e he⟩

/-- A list is refused for an item that is no payload, or that cannot be read. -/
theorem itemsOf_eq_error {read : Payload → Except DecodeError α} {items : List Member} {f : Fault}
    (h : items.mapM (itemOf read) = .error f) :
    f = .misshapen "list of objects" ∧ (∃ m ∈ items, ¬ m.IsObject)
      ∨ ∃ p e, .object p ∈ items ∧ f = .nested e ∧ read p = .error e := by
  induction items with
  | nil => cases h
  | cons m rest ih =>
    rw [List.mapM_cons] at h
    rcases Except.bind_eq_error_iff.1 h with h | ⟨x, -, h⟩
    · cases m with
      | object p =>
        obtain ⟨e, rfl, he⟩ := nodeOf_eq_error h
        exact .inr ⟨p, e, List.mem_cons_self, rfl, he⟩
      | _ =>
        cases h
        exact .inl ⟨rfl, _, List.mem_cons_self, nofun⟩
    · rcases Except.bind_eq_error_iff.1 h with h | ⟨xs, -, h⟩
      · rcases ih h with ⟨hf, m', hm, hobject⟩ | ⟨p, e, hp, hf, he⟩
        · exact .inl ⟨hf, m', List.mem_cons_of_mem _ hm, hobject⟩
        · exact .inr ⟨p, e, List.mem_cons_of_mem _ hp, hf, he⟩
      · cases h

/-- An operand is refused if the member is none, or cannot be read as the one that it is. -/
theorem operand_eq_error {m : Member} {f : Fault} (h : operand.ofMember m = .error f) :
    f = .misshapen "operand" ∧ ¬ m.IsOperand
      ∨ ∃ p e, m = .object p ∧ f = .nested e ∧ operand.Refuses p e := by
  cases m with
  | null => cases h
  | value v => cases h
  | object p =>
    rw [ofMember] at h
    split at h
    · rename_i hkind
      obtain ⟨e, rfl, he⟩ := nodeOf_eq_error (Except.map_eq_error_iff.1 h)
      exact .inr ⟨p, e, rfl, rfl, .inl ⟨hkind, he⟩⟩
    · rename_i hcolumn
      split at h
      · rename_i hkind
        obtain ⟨e, rfl, he⟩ := nodeOf_eq_error (Except.map_eq_error_iff.1 h)
        exact .inr ⟨p, e, rfl, rfl, .inr ⟨hkind, he⟩⟩
      · rename_i hanyOf
        cases h
        refine .inl ⟨rfl, ?_⟩
        rintro ((heq | ⟨v, heq⟩) | ⟨q, heq, hkind⟩)
        · cases heq
        · cases heq
        · cases heq
          simp only [Payload.isKind, beq_iff_eq] at hcolumn hanyOf
          exact hkind.elim hcolumn hanyOf
  | _ =>
    cases h
    refine .inl ⟨rfl, ?_⟩
    rintro ((heq | ⟨v, heq⟩) | ⟨q, heq, -⟩) <;> cases heq

/-- What a read finds fault with is in the member. -/
theorem foundIn_of_ofMember {op : ReadOp α} {m : Member} {f : Fault}
    (h : op.ofMember m = .error f) : op.FoundIn m f := by
  cases op with
  | next => cases h
  | nextOptional => cases h
  | text =>
    cases m with
    | text s => cases h
    | _ =>
      cases h
      exact misfits_of_shape (.text nofun) rfl (by decide)
  | optionalText =>
    cases m with
    | null => cases h
    | text s => cases h
    | _ =>
      cases h
      exact misfits_of_shape (.optionalText nofun nofun) rfl (by decide)
  | int =>
    cases m with
    | int n => cases h
    | _ =>
      cases h
      exact misfits_of_shape (.int nofun) rfl (by decide)
  | list =>
    cases m with
    | list items => cases h
    | _ =>
      cases h
      exact List.forall_mem_cons.2 ⟨⟨.values nofun, nofun⟩,
        List.forall_mem_singleton.2 ⟨.operands nofun, fun _ => rfl⟩⟩
  | object =>
    cases m with
    | object p => cases h
    | _ =>
      cases h
      exact misfits_of_shape (.object nofun) rfl (by decide)
  | element read =>
    cases m with
    | object p => exact foundIn_of_nodeOf h fun e he => he
    | _ =>
      cases h
      exact misfits_of_shape (.object nofun) rfl (by decide)
  | optionalElement read =>
    cases m with
    | null => cases h
    | object p => exact foundIn_of_nodeOf (Except.map_eq_error_iff.1 h) fun e he => he
    | _ =>
      cases h
      exact misfits_of_shape (.optionalObject nofun nofun) rfl (by decide)
  | elements read =>
    cases m with
    | null => cases h
    | list items =>
      rcases itemsOf_eq_error h with ⟨rfl, m, hm, hobject⟩ | ⟨p, e, hp, rfl, he⟩
      · exact misfits_of_shape (.objectItem hm hobject) rfl (by decide)
      · exact ⟨p, .item hp, he⟩
    | _ =>
      cases h
      exact misfits_of_shape (.objects nofun nofun) rfl (by decide)
  | operand =>
    rcases operand_eq_error h with ⟨rfl, hoperand⟩ | ⟨p, e, rfl, rfl, he⟩
    · exact misfits_of_shape (.operand hoperand) rfl (by decide)
    · exact ⟨p, .object p, he⟩

/-- A read misses a member exactly where none remains and it needs one. -/
theorem outcome_eq_missing_iff {op : ReadOp α} {m? : Option Member} :
    op.outcome m? = .error .missing ↔ m? = none ∧ op.isOptional = false := by
  cases m? with
  | none => cases op <;> simp [outcome, atEnd, isOptional]
  | some m =>
    have hfound : op.ofMember m ≠ .error .missing := fun h => foundIn_of_ofMember h
    simp [outcome, hfound]

/-- Unless a member is missing, there is one to find the fault in. -/
theorem exists_foundIn {op : ReadOp α} {m? : Option Member} {f : Fault}
    (h : op.outcome m? = .error f) (hf : f ≠ .missing) : ∃ m, m? = some m ∧ op.FoundIn m f := by
  cases m? with
  | none =>
    cases op <;> cases h
    all_goals exact absurd rfl hf
  | some m => exact ⟨m, rfl, foundIn_of_ofMember h⟩

end ReadOp

end QueryTree
