import QueryTree.Proofs.JsonText

/-! # How deep a text goes

`openAtOnce` counts brackets and braces from the text alone: it knows strings from what stands
between them, and nothing else of JSON. Of a written value it is the depth of the value, whatever
brackets and quotes the strings in it hold.
-/

namespace QueryTree.Json

/-- Where a character stands: outside of strings, in a string, or behind a backslash in one. -/
inductive Place where
  | outside
  | inside
  | behindBackslash
deriving DecidableEq, Repr

/-- The greatest number of brackets and braces that are open at once, from a place on in front of
which `now` are open. -/
def mostOpen (now : Nat) : Place → List Char → Nat
  | _, [] => now
  | .outside, c :: cs =>
    if c = '"' then mostOpen now .inside cs
    else if c = '[' ∨ c = '\x7b' then mostOpen (now + 1) .outside cs
    else if c = ']' ∨ c = '\x7d' then max now (mostOpen (now - 1) .outside cs)
    else mostOpen now .outside cs
  | .inside, c :: cs =>
    if c = '"' then mostOpen now .outside cs
    else if c = '\\' then mostOpen now .behindBackslash cs
    else mostOpen now .inside cs
  | .behindBackslash, _ :: cs => mostOpen now .inside cs

/-- The greatest number of brackets and braces that are open at once in a text. -/
def openAtOnce (text : String) : Nat :=
  mostOpen 0 .outside text.toList

mutual

/-- How many arrays and objects the value nests. -/
def depth : Json → Nat
  | .array items => depthItems items + 1
  | .object fields => depthFields fields + 1
  | _ => 0
termination_by structural j => j

/-- The greatest depth of the items. -/
def depthItems : List Json → Nat
  | [] => 0
  | x :: xs => max (depth x) (depthItems xs)
termination_by structural xs => xs

/-- The greatest depth of the fields' values. -/
def depthFields : List (Option String × Json) → Nat
  | [] => 0
  | (_, x) :: fields => max (depth x) (depthFields fields)
termination_by structural fields => fields

end

variable {now : Nat} {rest : List Char}

/-- The most brackets open at once are no fewer than those open now. -/
theorem le_mostOpen (now : Nat) (place : Place) (cs : List Char) : now ≤ mostOpen now place cs := by
  induction cs generalizing now place with
  | nil => cases place <;> exact Nat.le_refl now
  | cons c cs ih =>
    cases place with
    | outside =>
      rw [mostOpen]
      split_ifs
      · exact ih ..
      · exact Nat.le_of_succ_le (ih ..)
      · exact Nat.le_max_left ..
      · exact ih ..
    | inside =>
      rw [mostOpen]
      split_ifs <;> exact ih ..
    | behindBackslash => exact ih ..

/-! ## Strings and numbers -/

/-- A hexadecimal digit ends no string and begins no escape. -/
theorem hexDigit_ne (n : Nat) : hexDigit n ≠ '"' ∧ hexDigit n ≠ '\\' := by
  have hdigit : ∀ m < 16, Nat.digitChar m ≠ '"' ∧ Nat.digitChar m ≠ '\\' := by decide
  exact hdigit _ (Nat.mod_lt _ (by decide))

/-- An escaped character within a string opens and ends nothing. -/
theorem mostOpen_escaped (c : Char) :
    mostOpen now .inside (escaped c ++ rest) = mostOpen now .inside rest := by
  unfold escaped
  split_ifs
  all_goals simp [mostOpen, hexDigit_ne, *]

/-- A whole string opens nothing. -/
theorem mostOpen_stringChars (s : String) :
    mostOpen now .outside (stringChars (some s) ++ rest) = mostOpen now .outside rest := by
  have hcontent (cs : List Char) : mostOpen now .inside (cs.flatMap escaped ++ '"' :: rest)
      = mostOpen now .outside rest := by
    induction cs with
    | nil => simp [mostOpen]
    | cons c cs ih => rw [List.flatMap_cons, List.append_assoc, mostOpen_escaped, ih]
  simpa [stringChars, mostOpen] using hcontent s.toList

/-- A character of a number opens nothing. -/
theorem mostOpen_numberChar {c : Char} (h : c.isDigit ∨ c = '-') (cs : List Char) :
    mostOpen now .outside (c :: cs) = mostOpen now .outside cs := by
  have hmarks : ∀ d ∈ ['"', '[', '\x7b', ']', '\x7d'], ¬(d.isDigit ∨ d = '-') := by
    simp [Char.isDigit]
  have hc : c ∉ ['"', '[', '\x7b', ']', '\x7d'] := fun hmem => hmarks c hmem h
  simp only [List.mem_cons, List.not_mem_nil, or_false, not_or] at hc
  simp [mostOpen, hc]

/-- A whole number opens nothing. -/
theorem mostOpen_numberChars {cs : List Char} (h : ∀ c ∈ cs, c.isDigit ∨ c = '-') :
    mostOpen now .outside (cs ++ rest) = mostOpen now .outside rest := by
  induction cs with
  | nil => rfl
  | cons c cs ih =>
    rw [List.cons_append, mostOpen_numberChar (h c List.mem_cons_self)]
    exact ih fun d hd => h d (List.mem_cons_of_mem c hd)

/-- An integer is written with digits and at most a sign. -/
theorem mem_chars_ofInt {n : Int} {c : Char} (hc : c ∈ (Numeral.ofInt n).chars) :
    c.isDigit ∨ c = '-' := by
  have hdigits (h : c ∈ Nat.toDigits 10 n.natAbs) : c.isDigit :=
    Nat.isDigit_of_mem_toDigits (by decide) (by decide) h
  simp only [Numeral.chars, Numeral.ofInt, decide_eq_true_eq, List.isEmpty_nil, ↓reduceIte,
    List.append_nil, List.mem_append] at hc
  rcases hc with hc | hc
  · right
    split at hc
    · exact List.mem_singleton.1 hc
    · cases hc
  · exact .inl (hdigits hc)

/-! ## Values -/

/-- Writing the value in front of a text adds its depth. -/
def Deepens (j : Json) : Prop :=
  ∀ (now : Nat) (rest : List Char),
    mostOpen now .outside (write j rest) = max (now + j.depth) (mostOpen now .outside rest)

/-- A value that opens nothing deepens the text by its depth, which is none. -/
theorem deepens_of_depth_eq_zero {j : Json} (hdepth : j.depth = 0)
    (h : ∀ now rest, mostOpen now .outside (write j rest) = mostOpen now .outside rest) :
    Deepens j := by
  intro now rest
  rw [h, hdepth, Nat.add_zero, Nat.max_eq_right (le_mostOpen ..)]

/-- A comma opens nothing. -/
theorem mostOpen_comma (cs : List Char) :
    mostOpen now .outside (',' :: cs) = mostOpen now .outside cs := by
  simp [mostOpen]

/-- An opening bracket deepens what follows by one. -/
theorem mostOpen_open {c : Char} (h : c = '[' ∨ c = '\x7b') (cs : List Char) :
    mostOpen now .outside (c :: cs) = mostOpen (now + 1) .outside cs := by
  rcases h with rfl | rfl <;> simp [mostOpen]

/-- Written items open as many brackets at once as the deepest of them. -/
theorem mostOpen_writeItems {xs : List Json} (h : ∀ x ∈ xs, Deepens x) :
    mostOpen (now + 1) .outside (writeItems xs rest)
      = max (now + 1 + depthItems xs) (mostOpen now .outside rest) := by
  induction xs with
  | nil => simp [writeItems, mostOpen, depthItems]
  | cons x xs ih =>
    obtain ⟨hx, hxs⟩ := List.forall_mem_cons.1 h
    rw [writeItems, mostOpen_comma, hx, ih hxs, depthItems]
    omega

/-- The key of a field opens nothing. -/
theorem mostOpen_key {key : Option String} (h : key.isSome) (cs : List Char) :
    mostOpen now .outside (stringChars key ++ ':' :: cs) = mostOpen now .outside cs := by
  obtain ⟨key, rfl⟩ := Option.isSome_iff_exists.1 h
  rw [mostOpen_stringChars]
  simp [mostOpen]

/-- Written fields open as many brackets at once as the deepest of them. -/
theorem mostOpen_writeFields {fields : List (Option String × Json)}
    (hkeys : ∀ f ∈ fields, f.1.isSome) (h : ∀ f ∈ fields, Deepens f.2) :
    mostOpen (now + 1) .outside (writeFields fields rest)
      = max (now + 1 + depthFields fields) (mostOpen now .outside rest) := by
  induction fields with
  | nil => simp [writeFields, mostOpen, depthFields]
  | cons f fields ih =>
    obtain ⟨key, x⟩ := f
    obtain ⟨hkey, hkeys⟩ := List.forall_mem_cons.1 hkeys
    obtain ⟨(hx : Deepens x), hfields⟩ := List.forall_mem_cons.1 h
    rw [writeFields, mostOpen_comma, mostOpen_key hkey, hx, ih hkeys hfields, depthFields]
    omega

/-- A plain value, written out, opens as many brackets at once as it is deep. -/
theorem Plain.deepens {j : Json} (h : j.Plain) : Deepens j := by
  induction h with
  | null => exact deepens_of_depth_eq_zero rfl fun _ _ => by simp [write, mostOpen]
  | boolean b =>
    refine deepens_of_depth_eq_zero rfl fun _ _ => ?_
    cases b <;> simp [write, mostOpen]
  | int n =>
    exact deepens_of_depth_eq_zero rfl fun _ _ => mostOpen_numberChars fun _ => mem_chars_ofInt
  | text s => exact deepens_of_depth_eq_zero rfl fun _ _ => mostOpen_stringChars s
  | @array items _ ih =>
    intro now rest
    cases items with
    | nil =>
      rw [write, mostOpen_open (.inl rfl), depth]
      exact mostOpen_writeItems (List.forall_mem_nil _)
    | cons x xs =>
      obtain ⟨hx, hxs⟩ := List.forall_mem_cons.1 ih
      rw [write, mostOpen_open (.inl rfl), hx, mostOpen_writeItems hxs, depth, depthItems]
      omega
  | @object fields hkeys _ ih =>
    intro now rest
    cases fields with
    | nil =>
      rw [write, mostOpen_open (.inr rfl), depth]
      exact mostOpen_writeFields (List.forall_mem_nil _) (List.forall_mem_nil _)
    | cons f fields =>
      obtain ⟨key, x⟩ := f
      obtain ⟨hkey, hkeys⟩ := List.forall_mem_cons.1 hkeys
      obtain ⟨(hx : Deepens x), hfields⟩ := List.forall_mem_cons.1 ih
      rw [write, mostOpen_open (.inr rfl), mostOpen_key hkey, hx,
        mostOpen_writeFields hkeys hfields, depth, depthFields]
      omega

/-- The brackets and braces open at once in a value's text are the arrays and objects it nests. -/
theorem Plain.openAtOnce_render {j : Json} (h : j.Plain) : openAtOnce j.render = j.depth := by
  rw [openAtOnce, render, String.toList_ofList, chars, h.deepens]
  simp [mostOpen]

end QueryTree.Json
