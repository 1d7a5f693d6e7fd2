import QueryTree.Proofs.PayloadLayout

/-! # Runs of a cursor

Reads of every sort may follow each other in any order, and go on behind those that failed. One
read looks at the next member and at nothing else (`ReadOp.run_cons`, `ReadOp.run_nil`), and moves
the cursor behind it whether it accepts the member or not. So the members that a run has moved
behind and those that remain are the members of the list, in order (`Cursor.stands_after`), and
every error that is not handed on from a nested payload names the member that it is about.
-/

namespace QueryTree

/-! ## Runs -/

namespace Cursor

variable {α : Type} {c : Cursor} {kind : String} {members seen : List Member}

/-- The members that a read moves the cursor behind. -/
def taken (c : Cursor) (op : ReadOp α) : List Member :=
  c.rest.take ((op.run c).2.position - c.position)

/-- A read takes the next member, if there is one. -/
theorem taken_eq (op : ReadOp α) (c : Cursor) : c.taken op = c.rest.head?.toList := by
  rw [taken, ReadOp.run_eq]
  obtain ⟨kind, position, rest⟩ := c
  cases rest <;> simp [forward]

/-- The cursor behind a run of reads, whether they succeed or not. -/
def after (c : Cursor) : List ((α : Type) × ReadOp α) → Cursor
  | [] => c
  | ⟨_, op⟩ :: ops => (op.run c).2.after ops

/-- The members that a run of reads moves the cursor behind, in order. -/
def consumed (c : Cursor) : List ((α : Type) × ReadOp α) → List Member
  | [] => []
  | ⟨_, op⟩ :: ops => c.taken op ++ (op.run c).2.consumed ops

/-- The cursor stands in a list of members behind those that were seen, and has counted them. -/
structure Stands (kind : String) (members seen : List Member) (c : Cursor) : Prop where
  kind_eq : c.kind = kind
  position_eq : c.position = seen.length
  split : seen ++ c.rest = members

/-- A cursor that was just opened stands before the first member. -/
theorem stands_start (kind : String) (members : List Member) :
    (start kind members).Stands kind members [] := ⟨rfl, rfl, rfl⟩

/-- The member a cursor reads next is the one at the index behind what was seen. -/
theorem Stands.head? (h : c.Stands kind members seen) : c.rest.head? = members[seen.length]? := by
  rw [← h.split, List.getElem?_append_right (Nat.le_refl _), Nat.sub_self, List.head?_eq_getElem?]

/-- The members still to be read and those seen are all the members. -/
theorem Stands.length (h : c.Stands kind members seen) :
    c.remaining + seen.length = members.length := by
  rw [← h.split, List.length_append, remaining, Nat.add_comm]

/-- Each read adds the member that it moved behind to those seen. -/
theorem Stands.run (h : c.Stands kind members seen) (op : ReadOp α) :
    (op.run c).2.Stands kind members (seen ++ c.taken op) := by
  rw [taken_eq, ReadOp.run_eq]
  refine ⟨h.kind_eq, ?_, ?_⟩
  · rw [List.length_append, ← h.position_eq]
    rfl
  · rw [List.append_assoc, ← h.split]
    refine congrArg (seen ++ ·) ?_
    cases hrest : c.rest <;> simp [forward, hrest]

/-- So does a run of reads. -/
theorem stands_after (h : c.Stands kind members seen) (ops : List ((α : Type) × ReadOp α)) :
    (c.after ops).Stands kind members (seen ++ c.consumed ops) := by
  induction ops generalizing c seen with
  | nil =>
    rw [consumed, List.append_nil]
    exact h
  | cons op ops ih =>
    rw [consumed, ← List.append_assoc]
    exact ih (h.run op.2)

/-- Behind some members, the error for the member read last names the last of them. -/
theorem Stands.mismatch_eq (h : c.Stands kind members seen) {m : Member}
    (hm : seen.getLast? = some m) (expected : String) :
    c.mismatch expected = .unexpectedMember kind (seen.length - 1) expected
    ∧ members[seen.length - 1]? = some m := by
  constructor
  · rw [mismatch, h.kind_eq, h.position_eq]
  · rw [← h.split, List.getElem?_append_left, ← List.getLast?_eq_getElem?, hm]
    exact Nat.sub_lt (List.length_pos_of_ne_nil fun hnil => by simp [hnil] at hm) Nat.one_pos

/-- There is no next member exactly if none remains. -/
theorem Stands.next_eq_none_iff (h : c.Stands kind members seen) :
    members[seen.length]? = none ↔ c.remaining = 0 := by
  have hlength := h.length
  rw [List.getElem?_eq_none_iff]
  omega

/-- A read takes the member at the index behind what was seen. -/
theorem Stands.taken_eq (h : c.Stands kind members seen) (op : ReadOp α) :
    c.taken op = members[seen.length]?.toList := by
  rw [Cursor.taken_eq, h.head?]

/-- What a read makes is told by the member behind those seen. -/
theorem Stands.result_eq (h : c.Stands kind members seen) (op : ReadOp α) :
    (op.run c).1
      = (op.outcome members[seen.length]?).mapError (Fault.error kind seen.length) := by
  rw [ReadOp.run_eq, h.head?, h.kind_eq, h.position_eq]

/-- A missing member that no nested payload misses is one behind the end of the list. -/
theorem Stands.missing_iff (h : c.Stands kind members seen) (op : ReadOp α) (k : String) (i : ℕ) :
    (op.run c).1 = .error (.missingMember k i)
        ∧ (¬ ∃ m ∈ members[seen.length]?, op.HandsOn m (.missingMember k i))
      ↔ c.remaining = 0 ∧ op.isOptional = false ∧ k = kind ∧ i = members.length := by
  have hlength := h.length
  rw [h.result_eq, Except.mapError_eq_error_iff]
  constructor
  · rintro ⟨⟨fault, hfault, herror⟩, hown⟩
    cases fault with
    | missing =>
      obtain ⟨hnext, hneeds⟩ := ReadOp.outcome_eq_missing_iff.1 hfault
      have hend := h.next_eq_none_iff.1 hnext
      cases herror
      exact ⟨hend, hneeds, rfl, by omega⟩
    | misshapen expected => cases herror
    | nested e =>
      cases herror
      exact absurd (ReadOp.exists_foundIn hfault nofun) hown
  · rintro ⟨hend, hneeds, rfl, rfl⟩
    have hnext := h.next_eq_none_iff.2 hend
    refine ⟨⟨.missing, ReadOp.outcome_eq_missing_iff.2 ⟨hnext, hneeds⟩, ?_⟩, ?_⟩
    · rw [Fault.error, ← hlength, hend, Nat.zero_add]
    · rw [hnext]
      rintro ⟨m, hm, -⟩
      cases hm

/-- Reads of every sort run over a list of members, in any order and behind failed ones. Then those
that were consumed and those that remain are the members of the list. The next read consumes the
member behind those consumed before, whatever it makes of it, or nothing if none remains, and what
it makes is told by that member alone. Unless it is handed on, an error for a missing member names
the end of the list, and comes if and only if no member remains and the read needs one. An error for
a member of the wrong shape names the member that the read consumed, and one that is made between
two reads names the member consumed last. -/
theorem read_behind_run (kind : String) (members : List Member)
    (ops : List ((α : Type) × ReadOp α)) (op : ReadOp α) :
    let c := (start kind members).after ops
    let seen := (start kind members).consumed ops
    let next? := members[seen.length]?
    seen ++ c.rest = members
    ∧ c.remaining + seen.length = members.length
    ∧ (next? = none ↔ c.remaining = 0)
    ∧ c.taken op = next?.toList
    ∧ (op.run c).1 = (op.outcome next?).mapError (Fault.error kind seen.length)
    ∧ (ReadOp.nextOptional.run c).1 = .ok next?
    ∧ (∀ k i, (op.run c).1 = .error (.missingMember k i)
        ∧ (¬ ∃ m ∈ next?, op.HandsOn m (.missingMember k i))
      ↔ c.remaining = 0 ∧ op.isOptional = false ∧ k = kind ∧ i = members.length)
    ∧ (∀ expected, op.outcome next? = .error (.misshapen expected) →
      (op.run c).1 = .error (.unexpectedMember kind seen.length expected)
      ∧ ∃ m, next? = some m ∧ c.taken op = [m])
    ∧ (∀ e, op.outcome next? = .error (.nested e) →
      (op.run c).1 = .error e ∧ ∃ m ∈ next?, op.HandsOn m e)
    ∧ ∀ m, seen.getLast? = some m → ∀ expected,
      c.mismatch expected = .unexpectedMember kind (seen.length - 1) expected
      ∧ members[seen.length - 1]? = some m := by
  intro c seen next?
  have hstands : c.Stands kind members seen := stands_after (stands_start kind members) ops
  have htaken : c.taken op = next?.toList := hstands.taken_eq op
  refine ⟨hstands.split, hstands.length, hstands.next_eq_none_iff, htaken, hstands.result_eq op,
    ?_, hstands.missing_iff op, fun expected h => ⟨?_, ?_⟩,
    fun e h => ⟨?_, ReadOp.exists_foundIn h nofun⟩, fun m hm => hstands.mismatch_eq hm⟩
  · have hresult : (ReadOp.nextOptional.run c).1
        = (ReadOp.nextOptional.outcome next?).mapError (Fault.error kind seen.length) :=
      hstands.result_eq .nextOptional
    rw [hresult]
    cases next? <;> rfl
  · rw [hstands.result_eq op, h]
    rfl
  · obtain ⟨m, hm, -⟩ := ReadOp.exists_foundIn h nofun
    exact ⟨m, hm, by rw [htaken, hm, Option.toList_some]⟩
  · rw [hstands.result_eq op, h]
    rfl

/-- A text, and null where an integer is expected. -/
def nameAndNull : List Member := [.text "orders", .null]

theorem int_refused_behind_name :
    let c := (start "QueryTable" nameAndNull).after [⟨_, .text⟩]
    ReadOp.int.outcome (some .null) = .error (.misshapen "int")
    ∧ (ReadOp.int.run c).1 = .error (.unexpectedMember "QueryTable" 1 "int")
    ∧ c.taken .int = [.null]
    ∧ c.mismatch "text" = .unexpectedMember "QueryTable" 0 "text" := by
  intro c
  have hrefused : ReadOp.int.outcome (some .null) = .error (.misshapen "int") := rfl
  obtain ⟨-, -, -, htaken, -, -, -, hmisshapen, -, hmismatch⟩ :=
    read_behind_run "QueryTable" nameAndNull [⟨_, .text⟩] .int
  exact ⟨hrefused, (hmisshapen "int" hrefused).1, htaken,
    (hmismatch (.text "orders") rfl "text").1⟩

/-- A table without its last member, and something behind it. -/
def cutTable : List Member := [.object (.ofKind "QueryTable" [.text "orders", .null]), .null]

/-- A nested payload may miss a member at the index that is the end of the list it stands in, though
members of that list remain. Not even the kind tells the errors apart. -/
theorem nested_member_missing :
    ¬ ((∃ kind, ((ReadOp.element Table.ofPayload).run (start "Sample" cutTable)).1
          = .error (.missingMember kind cutTable.length))
        ↔ (start "Sample" cutTable).remaining = 0)
    ∧ ¬ (((ReadOp.element Table.ofPayload).run (start "QueryTable" cutTable)).1
          = .error (.missingMember "QueryTable" cutTable.length)
        ↔ (start "QueryTable" cutTable).remaining = 0) := by
  have hfails : ∀ kind, ((ReadOp.element Table.ofPayload).run (start kind cutTable)).1
      = .error (.missingMember "QueryTable" cutTable.length) := fun _ => rfl
  have hremain : ∀ kind, (start kind cutTable).remaining ≠ 0 := fun _ => nofun
  exact ⟨fun h => hremain _ (h.1 ⟨_, hfails _⟩), fun h => hremain _ (h.1 (hfails _))⟩

/-- A read leaves one member less behind, and none if there was none. -/
theorem remaining_run (op : ReadOp α) (c : Cursor) :
    (op.run c).2.remaining = c.remaining - 1 := by
  rw [ReadOp.run_eq, remaining, forward, List.length_tail, remaining]

end Cursor

/-! ## A loop until nothing remains -/

/-- Reads operands as long as members remain. -/
def Operand.readRest (c : Cursor) : Except DecodeError (List Operand) :=
  if c.remaining = 0 then .ok []
  else do
    let o ← (Operand.read c).1
    let os ← readRest (Operand.read c).2
    return o :: os
termination_by c.remaining
decreasing_by
  have hread := Cursor.remaining_run .operand c
  change (Operand.read c).2.remaining = c.remaining - 1 at hread
  omega

/-- Every member of an update's list of values is read by this loop, in order. -/
theorem Operand.readRest_eq (c : Cursor) : readRest c = readAll c.kind c.position c.rest := by
  obtain ⟨kind, position, members⟩ := c
  induction members generalizing position with
  | nil =>
    have hend : (⟨kind, position, []⟩ : Cursor).remaining = 0 := rfl
    rw [readRest, if_pos hend]
    rfl
  | cons m rest ih =>
    have hread : Operand.read ⟨kind, position, m :: rest⟩
        = (ofMember (.unexpectedMember kind position "operand") m,
          ⟨kind, position + 1, rest⟩) := rfl
    have hremain : (⟨kind, position, m :: rest⟩ : Cursor).remaining ≠ 0 := nofun
    rw [readRest, if_neg hremain, hread, ih, readAll]

end QueryTree
