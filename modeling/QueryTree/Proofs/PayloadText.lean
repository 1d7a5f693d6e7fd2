import QueryTree.Payload.Text
import QueryTree.Proofs.DecimalText
import QueryTree.Proofs.JsonDepth

/-! # Reading written payloads

Written payloads are plain JSON, and reading one back can fail for one reason only: it nests more
arrays and objects than the reader has room for. Whatever is read is what was written, up to the
signs of zero decimals.
-/

namespace QueryTree

/-- The value, where a decimal that is zero has no sign. -/
def Value.dropZeroSign : Value → Value
  | .decimal d => .decimal d.dropZeroSign
  | v => v

mutual

/-- The payload with every value in it as `Value.dropZeroSign` leaves it. -/
def Payload.dropZeroSigns : Payload → Payload
  | ⟨domain, kind, members⟩ => ⟨domain, kind, Member.listDropZeroSigns members⟩
termination_by structural p => p

/-- The member with every value in it as `Value.dropZeroSign` leaves it. -/
def Member.dropZeroSigns : Member → Member
  | .value v => .value v.dropZeroSign
  | .list items => .list (Member.listDropZeroSigns items)
  | .groups entries => .groups (Member.entriesDropZeroSigns entries)
  | .object p => .object p.dropZeroSigns
  | m => m
termination_by structural m => m

/-- The members of a list without signs of zeros. -/
def Member.listDropZeroSigns : List Member → List Member
  | [] => []
  | m :: ms => m.dropZeroSigns :: Member.listDropZeroSigns ms
termination_by structural ms => ms

/-- The entries of groups without signs of zeros. -/
def Member.entriesDropZeroSigns : List (GroupKey × List Member) → List (GroupKey × List Member)
  | [] => []
  | (key, items) :: rest =>
    (key, Member.listDropZeroSigns items) :: Member.entriesDropZeroSigns rest
termination_by structural entries => entries

end

/-! ## Written payloads are plain -/

namespace Json

/-- A tagged value is plain if its body is. -/
theorem Plain.tagged {body : Json} (h : body.Plain) (tag : String) : (Json.tagged tag body).Plain :=
  .object (by simp) (by simpa using h)

/-- A text is not nested. -/
@[simp] theorem depth_text (s : String) : (Json.text s).depth = 0 := rfl

/-- An integer is not nested. -/
@[simp] theorem depth_int (n : Int) : (Json.int n).depth = 0 := rfl

/-- A tag nests its body once more. -/
@[simp] theorem depth_tagged (tag : String) (body : Json) :
    (Json.tagged tag body).depth = body.depth + 1 := by
  simp [Json.tagged, depth, depthFields]

end Json

/-- A value is written as plain JSON. -/
theorem Value.plain_toJson (v : Value) : v.toJson.Plain := by
  cases v with
  | null => exact .text _
  | boolean b => exact .tagged (.boolean b) _
  | integer n => exact .tagged (.int _) _
  | decimal d => exact .tagged (.text _) _
  | text s => exact .tagged (.text s) _

/-- A group key is written as plain JSON. -/
theorem GroupKey.plain_toJson (key : GroupKey) : key.toJson.Plain := by
  cases key with
  | none => exact .null
  | some name => exact .text name

mutual

/-- A payload is written as plain JSON. -/
theorem Payload.plain_toJson : (p : Payload) → p.toJson.Plain
  | ⟨domain, kind, members⟩ => by
    refine .object (by simp) ?_
    have hmembers : (Json.array (Member.listToJson members)).Plain :=
      .array (Member.plain_listToJson members)
    simpa using ⟨.text domain, .text kind, hmembers⟩
termination_by structural p => p

/-- A member is written as plain JSON. -/
theorem Member.plain_toJson : (m : Member) → m.toJson.Plain
  | .null => .text _
  | .int _ => .tagged (.int _) _
  | .text _ => .tagged (.text _) _
  | .value v => v.plain_toJson.tagged _
  | .list items => .tagged (.array (Member.plain_listToJson items)) _
  | .groups entries => .tagged (.array (Member.plain_entriesToJson entries)) _
  | .object p => p.plain_toJson.tagged _
termination_by structural m => m

/-- The items of a list are written as plain JSON. -/
theorem Member.plain_listToJson : (ms : List Member) → ∀ j ∈ Member.listToJson ms, j.Plain
  | [] => by simp [Member.listToJson]
  | m :: ms => by
    have hm := m.plain_toJson
    have hms := Member.plain_listToJson ms
    simpa [Member.listToJson] using ⟨hm, hms⟩
termination_by structural ms => ms

/-- The entries of groups are written as plain JSON. -/
theorem Member.plain_entriesToJson :
    (entries : List (GroupKey × List Member)) → ∀ j ∈ Member.entriesToJson entries, j.Plain
  | [] => by simp [Member.entriesToJson]
  | (key, items) :: rest => by
    have hitems : (Json.array (Member.listToJson items)).Plain :=
      .array (Member.plain_listToJson items)
    have hentry : (Json.array [key.toJson, .array (Member.listToJson items)]).Plain :=
      .array (by simpa using ⟨key.plain_toJson, hitems⟩)
    have hrest := Member.plain_entriesToJson rest
    simpa [Member.entriesToJson] using ⟨hentry, hrest⟩
termination_by structural entries => entries

end

/-! ## Values -/

namespace Json.Numeral

/-- The numeral of an integer is read as the integer. -/
theorem toInt?_ofInt (n : Int) : (ofInt n).toInt? = some n := by
  simp only [toInt?, ofInt, Nat.ofDigitChars_ten_toDigits, decide_eq_true_eq]
  split_ifs with hneg hzero
  · omega
  · exact congrArg some (by omega)
  · exact congrArg some (by omega)

/-- The numeral of a 64-bit integer is read as it, within its range. -/
theorem toInt64?_ofInt (n : Int64) : (ofInt n.toInt).toInt64? = some n := by
  have hlow := n.le_toInt
  have hhigh := n.toInt_lt
  rw [toInt64?, toInt?_ofInt]
  dsimp only
  rw [if_pos (by omega), Int64.ofInt_toInt]

end Json.Numeral

/-! ## Room for containers -/

section Fitting

variable {α β : Type} {depth room : Nat}

/-- What is read of a value that nests `depth` containers, where `room` of them may be opened. -/
def fitting (depth room : Nat) (x : α) : Option α :=
  if depth ≤ room then some x else none

/-- Where nothing is nested, every room is enough. -/
theorem fitting_zero (room : Nat) (x : α) : fitting 0 room x = some x :=
  if_pos (Nat.zero_le room)

/-- Mapping a value does not matter to whether it fits. -/
theorem map_fitting (f : α → β) (x : α) :
    (fitting depth room x).map f = fitting depth room (f x) := by
  unfold fitting
  split_ifs <;> rfl

/-- A container takes the room for one. -/
theorem fitting_succ (x : α) :
    (if room = 0 then none else fitting depth (room - 1) x) = fitting (depth + 1) room x := by
  unfold fitting
  split_ifs <;> first | rfl | omega

end Fitting

/-! ## Reading back -/

/-- A written value is read back, up to the sign of a zero, if it fits. -/
theorem Value.ofJson?_toJson (v : Value) (room : Nat) :
    ofJson? room v.toJson = fitting v.toJson.depth room v.dropZeroSign := by
  have hbody {tag : String} {body : Json} {w : Value} (hdepth : body.depth = 0)
      (hread : ofTagged? tag body = some w) :
      ofJson? room (Json.tagged tag body) = fitting (Json.tagged tag body).depth room w := by
    rw [Json.depth_tagged, hdepth, ← fitting_succ, fitting_zero, ← hread]
    rfl
  cases v with
  | null => exact (fitting_zero room _).symm
  | boolean b => exact hbody rfl rfl
  | integer n =>
    refine hbody rfl ?_
    simp [ofTagged?, Json.int, Json.Numeral.toInt64?_ofInt, dropZeroSign]
  | decimal d =>
    refine hbody rfl ?_
    simp [ofTagged?, Json.text, Decimal.ofText?_render, dropZeroSign]
  | text s => exact hbody rfl rfl

/-- A written group key is read back. -/
theorem GroupKey.ofJson?_toJson (key : GroupKey) : ofJson? key.toJson = some key := by
  cases key <;> rfl

/-- A group key is not nested. -/
theorem GroupKey.depth_toJson (key : GroupKey) : key.toJson.depth = 0 := by
  cases key <;> rfl

/-- A member is read from the one field of an object as its body is. -/
theorem Member.ofJson?_tagged {tag : String} {body : Json} {m : Member} {room : Nat}
    (h : ∀ room, ofJson? (room + 1) (Json.tagged tag body) = fitting body.depth room m) :
    ofJson? room (Json.tagged tag body) = fitting (Json.tagged tag body).depth room m := by
  rw [Json.depth_tagged, ← fitting_succ]
  split_ifs with hroom
  · rw [hroom]
    rfl
  · rw [← h, Nat.sub_add_cancel (Nat.pos_of_ne_zero hroom)]

/-- An array is read as a list if its items are, within the room an array leaves. -/
theorem Member.listOfJson?_array {items : List Json} {ms : List Member}
    (h : ∀ room, itemsOfJson? room items = fitting (Json.depthItems items) room ms) (room : Nat) :
    listOfJson? room (.array items) = fitting (Json.array items).depth room ms := by
  rw [listOfJson?, h, fitting_succ, Json.depth]

/-- An array is read as groups if its entries are, within the room an array leaves. -/
theorem Member.groupsOfJson?_array {items : List Json} {entries : List (GroupKey × List Member)}
    (h : ∀ room, entriesOfJson? room items = fitting (Json.depthItems items) room entries)
    (room : Nat) :
    groupsOfJson? room (.array items) = fitting (Json.array items).depth room entries := by
  rw [groupsOfJson?, h, fitting_succ, Json.depth]

/-- The fields of a payload are read as they are written. -/
theorem Payload.ofFields?_written (room : Nat) (domain kind : String) (items : List Json) :
    Payload.ofFields? room none none none [(some "domain", .text domain),
        (some "kind", .text kind), (some "members", .array items)]
      = (Member.listOfJson? room (.array items)).map (⟨domain, kind, ·⟩) := by
  -- each field fills one of the three places, and only the last of them can fail
  calc _ = Payload.ofFields? room (some domain) none none
        [(some "kind", .text kind), (some "members", .array items)] := rfl
    _ = Payload.ofFields? room (some domain) (some kind) none
        [(some "members", .array items)] := rfl
    _ = _ := by
      rw [Payload.ofFields?.eq_def]
      cases h : Member.listOfJson? room (.array items) with
      | none => simp [h]
      | some ms =>
        simp only [String.reduceEq, ↓reduceIte, h, Option.map_some]
        rfl

mutual

/-- A written payload is read back, up to signs of zeros, exactly if it fits. -/
theorem Payload.ofJson?_toJson : (p : Payload) → (room : Nat) →
    Payload.ofJson? room p.toJson = fitting p.toJson.depth room p.dropZeroSigns
  | ⟨domain, kind, members⟩, room => by
    have hmembers := Member.listOfJson?_array (Member.itemsOfJson?_listToJson members) (room - 1)
    have hdepth : (Payload.toJson ⟨domain, kind, members⟩).depth
        = (Json.array (Member.listToJson members)).depth + 1 := by
      simp [Payload.toJson, Json.depth, Json.depthFields]
    rw [hdepth, ← fitting_succ, Payload.toJson, Payload.ofJson?, Payload.ofFields?_written,
      hmembers, map_fitting, Payload.dropZeroSigns]
termination_by structural p => p

/-- A written member is read back, up to signs of zeros, exactly if it fits. -/
theorem Member.ofJson?_toJson : (m : Member) → (room : Nat) →
    Member.ofJson? room m.toJson = fitting m.toJson.depth room m.dropZeroSigns
  | .null, room => (fitting_zero room _).symm
  | .int n, room => by
    refine Member.ofJson?_tagged fun room => ?_
    rw [Json.depth_int, fitting_zero]
    simp [Json.tagged, Member.ofJson?, Json.int, Json.Numeral.toInt64?_ofInt, Member.dropZeroSigns]
  | .text s, room => Member.ofJson?_tagged fun room => (fitting_zero room _).symm
  | .value v, room => by
    refine Member.ofJson?_tagged fun room => ?_
    rw [Member.dropZeroSigns, ← map_fitting, ← v.ofJson?_toJson]
    rfl
  | .list items, room => by
    refine Member.ofJson?_tagged fun room => ?_
    rw [Member.dropZeroSigns, ← map_fitting,
      ← Member.listOfJson?_array (Member.itemsOfJson?_listToJson items)]
    rfl
  | .groups entries, room => by
    refine Member.ofJson?_tagged fun room => ?_
    rw [Member.dropZeroSigns, ← map_fitting,
      ← Member.groupsOfJson?_array (Member.entriesOfJson?_entriesToJson entries)]
    rfl
  | .object p, room => by
    refine Member.ofJson?_tagged fun room => ?_
    rw [Member.dropZeroSigns, ← map_fitting, ← p.ofJson?_toJson]
    rfl
termination_by structural m => m

/-- Written items are read back, up to signs of zeros, exactly if they fit. -/
theorem Member.itemsOfJson?_listToJson : (ms : List Member) → (room : Nat) →
    Member.itemsOfJson? room (Member.listToJson ms)
      = fitting (Json.depthItems (Member.listToJson ms)) room (Member.listDropZeroSigns ms)
  | [], room => (fitting_zero room _).symm
  | m :: ms, room => by
    rw [Member.listToJson, Member.itemsOfJson?, m.ofJson?_toJson,
      Member.itemsOfJson?_listToJson ms, Json.depthItems, Member.listDropZeroSigns]
    unfold fitting
    split_ifs <;> first | rfl | omega
termination_by structural ms => ms

/-- Written entries are read back, up to signs of zeros, exactly if they fit. -/
theorem Member.entriesOfJson?_entriesToJson : (entries : List (GroupKey × List Member)) →
    (room : Nat) → Member.entriesOfJson? room (Member.entriesToJson entries)
      = fitting (Json.depthItems (Member.entriesToJson entries)) room
        (Member.entriesDropZeroSigns entries)
  | [], room => (fitting_zero room _).symm
  | (key, items) :: rest, room => by
    have hitems := Member.listOfJson?_array (Member.itemsOfJson?_listToJson items) (room - 1)
    rw [Member.entriesToJson, Member.entriesOfJson?, GroupKey.ofJson?_toJson, hitems,
      Member.entriesOfJson?_entriesToJson rest]
    have hdepth : (Json.array [key.toJson, .array (Member.listToJson items)]).depth
        = (Json.array (Member.listToJson items)).depth + 1 := by
      simp [Json.depth, Json.depthItems, key.depth_toJson]
    rw [Json.depthItems, hdepth, Member.entriesDropZeroSigns]
    unfold fitting
    split_ifs <;> first | rfl | omega
termination_by structural entries => entries

end

/-- A written payload is read back if no more than 127 brackets and braces are open at once in its
text, and refused otherwise. -/
theorem Payload.ofText_toText (p : Payload) :
    ofText p.toText = if Json.openAtOnce p.toText ≤ 127 then .ok p.dropZeroSigns
      else .error .malformedText := by
  rw [ofText, readText, toText, p.plain_toJson.ofText?_render, Option.bind_some,
    p.ofJson?_toJson, p.plain_toJson.openAtOnce_render, fitting, depthLimit]
  split_ifs <;> rfl

end QueryTree
